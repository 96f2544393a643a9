import Nachos.Lib.SortedNodes

/-!
# Elements that are not counted (`lib/list.cc`)

`List::SortedInsert` does what `SortedList::Insert` does and does not count the new element. From
then on there are more elements on the chain than `numInList` says, for as long as there are only
`SortedInsert` and `RemoveFront`: another insertion makes the difference larger, `RemoveFront`
leaves it as it is or fails because `IsEmpty` is true. An insertion while `IsEmpty` is true drops
everything that is on the list.

* `Uncounted.step` — one call
* `sortedInsert_uncounted` — whole runs
-/

namespace Nachos

open Base

namespace NodeList

variable {α : Type*} {l l' : NodeList α}

/-- The calls of a list that is kept sorted by the keys. -/
inductive KeyedCall (α : Type*) where
  | sortedInsert (item : α) (sortKey : Int)
  | removeFront

/-- `none`: the call does not return. -/
def keyedStep (garbage : α → Int) (l : NodeList α) : KeyedCall α → Option (NodeList α)
  | .sortedInsert item sortKey => l.sortedInsert garbage item sortKey
  | .removeFront => l.removeFront.map (·.2)

/-- The chain has more elements than `numInList` says. -/
def Uncounted (l : NodeList α) : Prop :=
  ∃ nodes, Linked l nodes ∧ 0 ≤ l.numInList ∧ l.numInList < nodes.length

theorem Uncounted.sanityCheck (h : Uncounted l) : l.sanityCheck = false := by
  obtain ⟨nodes, hlinked, -, hlt⟩ := h
  refine Bool.not_eq_true _ ▸ fun hsane => ?_
  exact absurd (hlinked.sanityCheck_iff.mp hsane) (Int.ne_of_lt hlt)

/-- Whether the counter is right or too small, it is too small afterwards. -/
theorem Linked.uncounted_sortedInsert {nodes : List (Nat × ListElement α)} (h : Linked l nodes)
    (hnonneg : 0 ≤ l.numInList) (hle : l.numInList ≤ nodes.length) (garbage : α → Int) (item : α)
    (sortKey : Int) :
    ∃ l', l.sortedInsert garbage item sortKey = some l' ∧ Uncounted l' := by
  have hne : l.isEmpty = false → nodes ≠ [] := by
    rintro hcount rfl
    have hzero : l.numInList = 0 := Int.le_antisymm hle hnonneg
    rw [isEmpty, hzero] at hcount
    cases hcount
  obtain ⟨l', a, hl', hlinked, hcount⟩ := h.sortedInsert garbage item sortKey hne
  refine ⟨l', hl', _, hlinked, hcount ▸ hnonneg, ?_⟩
  rw [hcount, inserted]
  split
  · next hempty =>
    rw [beq_iff_eq.mp hempty]
    exact Int.zero_lt_one
  · rw [(insertBefore_perm _ _ nodes).length_eq, List.length_cons]
    omega

theorem Uncounted.step (h : Uncounted l) {garbage : α → Int} {call : KeyedCall α}
    (hstep : l.keyedStep garbage call = some l') : Uncounted l' := by
  obtain ⟨nodes, hlinked, hnonneg, hlt⟩ := h
  cases call with
  | sortedInsert item sortKey =>
    obtain ⟨l₂, hl₂, huncounted⟩ :=
      hlinked.uncounted_sortedInsert hnonneg (Int.le_of_lt hlt) garbage item sortKey
    obtain rfl := Option.some.inj (hl₂.symm.trans hstep)
    exact huncounted
  | removeFront =>
    obtain ⟨⟨thing, l₂⟩, hl₂, rfl⟩ := Option.map_eq_some_iff.mp hstep
    have hcount : ¬ l.isEmpty = true := by
      intro hempty
      rw [NodeList.removeFront, if_pos hempty] at hl₂
      cases hl₂
    -- there is one element more than the counter says, so `first` is not `last`
    have hpos : l.numInList ≠ 0 := by simpa [isEmpty] using hcount
    rcases nodes with _ | ⟨⟨a, e⟩, post⟩
    · exact absurd (Int.lt_of_le_of_lt hnonneg hlt) (Int.lt_irrefl 0)
    · obtain ⟨l₃, hl₃, hlinked', hcount'⟩ := hlinked.removeFront (Bool.not_eq_true _ ▸ hcount)
      obtain ⟨-, rfl⟩ := Prod.mk.inj (Option.some.inj (hl₃.symm.trans hl₂))
      rw [List.length_cons] at hlt
      refine ⟨post, hlinked', ?_, ?_⟩
      · show 0 ≤ l₃.numInList
        omega
      · show l₃.numInList < post.length
        omega

/--
After one `SortedInsert` into a list that is well formed there is no well-formed list anymore,
whatever else is inserted and removed.
-/
theorem sortedInsert_uncounted (garbage : α → Int) (hsane : l.sanityCheck = true) (item : α)
    (sortKey : Int) (calls : List (KeyedCall α)) :
    (∀ l', run (keyedStep garbage) l (.sortedInsert item sortKey :: calls) = some l' →
      l'.sanityCheck = false ∧
        ∀ nodes, Chain l'.memory l'.first nodes none → l'.numInList < nodes.length) ∧
    ¬ ∃ l' nodes, run (keyedStep garbage) l (.sortedInsert item sortKey :: calls) = some l' ∧
      WellFormed l' nodes := by
  obtain ⟨nodes, hwell⟩ := sanityCheck_iff.mp hsane
  have huncounted : ∀ l', run (keyedStep garbage) l (.sortedInsert item sortKey :: calls) =
      some l' → Uncounted l' := by
    intro l' hrun
    obtain ⟨l₁, hl₁, hrest⟩ := run_cons_eq_some.mp hrun
    have hnonneg : 0 ≤ l.numInList := hwell.numInList ▸ Int.natCast_nonneg _
    obtain ⟨l₂, hl₂, hfirst⟩ := hwell.toLinked.uncounted_sortedInsert hnonneg
      (Int.le_of_eq hwell.numInList) garbage item sortKey
    obtain rfl := Option.some.inj (hl₂.symm.trans hl₁)
    exact run_invariant (fun _ _ _ hu hstep => hu.step hstep) hfirst hrest
  constructor
  · intro l' hrun
    refine ⟨(huncounted l' hrun).sanityCheck, fun nodes' hchain => ?_⟩
    obtain ⟨nodes₂, hlinked, -, hlt⟩ := huncounted l' hrun
    rwa [hlinked.chain.unique hchain] at hlt
  · rintro ⟨l', nodes', hrun, hwell'⟩
    have hfalse := (huncounted l' hrun).sanityCheck
    rw [sanityCheck_iff.mpr ⟨nodes', hwell'⟩] at hfalse
    cases hfalse

theorem sortedInsert_uncounted_one :
    ∃ l', run (keyedStep fun _ => 0) (empty : NodeList Nat) [.sortedInsert 1 1] = some l' ∧
      l'.sanityCheck = false :=
  ⟨_, rfl, ((sortedInsert_uncounted (l := empty) (fun _ => 0) rfl 1 1 []).1 _ rfl).1⟩

/-- The second insertion into the empty list finds it empty again, and the first item is lost. -/
theorem sortedInsert_sortedInsert_lost :
    (empty : NodeList Nat).sanityCheck = true ∧
      ∃ l nodes,
        run (keyedStep fun _ => 0) (empty : NodeList Nat)
            [.sortedInsert 1 1, .sortedInsert 2 2] = some l ∧
          Chain l.memory l.first nodes none ∧ itemsOf nodes = [2] ∧ l.numInList = 0 ∧
          l.isEmpty = true ∧ l.sanityCheck = false :=
  ⟨rfl, _, [(1, ⟨2, some 2⟩)], rfl, ⟨rfl, none, rfl, rfl⟩, rfl, rfl, rfl, rfl⟩

end NodeList

end Nachos
