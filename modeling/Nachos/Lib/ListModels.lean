import Nachos.Lib.SortedNodes

/-!
# Two models of lists

`Lib/LinkedList.lean` has the list without its pointers: the elements and the counter. Whatever is
called, and also when the counter is wrong, it does what the pointers of `Lib/ListNodes.lean` do.
The other modules use the list without pointers.

* `Represents` — the same elements and the same counter
* `runReplies_represents` — whole runs give the same answers, or fail together
-/

namespace Nachos

open Base

namespace NodeList

variable {α : Type*} {l : NodeList α} {L : LinkedList α} {nodes : List (Nat × ListElement α)}

/-- The elements and the counter are those of the list `L`. -/
def Represents (l : NodeList α) (L : LinkedList α) : Prop :=
  ∃ nodes, Linked l nodes ∧ nodes.map (·.2) = L.elements ∧ l.numInList = L.numInList

theorem represents_empty : Represents (empty : NodeList α) LinkedList.empty :=
  ⟨[], wellFormed_empty.toLinked, rfl, rfl⟩

theorem items_eq_itemsOf (h : nodes.map (·.2) = L.elements) : L.items = itemsOf nodes := by
  rw [LinkedList.items, ← h, List.map_map]
  rfl

theorem Represents.isEmpty (h : Represents l L) : l.isEmpty = L.isEmpty := by
  obtain ⟨nodes, -, -, hcount⟩ := h
  rw [Bool.eq_iff_iff, NodeList.isEmpty, LinkedList.isEmpty, beq_iff_eq, beq_iff_eq, hcount]
  exact Int.natCast_eq_zero

theorem Represents.isInList [DecidableEq α] (h : Represents l L) (item : α) :
    l.isInList item = some (L.isInList item) := by
  obtain ⟨nodes, hlinked, helements, -⟩ := h
  rw [hlinked.isInList, LinkedList.isInList, items_eq_itemsOf helements]

theorem Represents.front (h : Represents l L) : l.front = L.front := by
  obtain ⟨nodes, hlinked, helements, -⟩ := h
  rw [hlinked.front, LinkedList.front, items_eq_itemsOf helements]

/-- A well-formed list is one whose counter is right. -/
theorem Represents.sanityCheck_iff (h : Represents l L) : l.sanityCheck = true ↔ L.Counted := by
  obtain ⟨nodes, hlinked, helements, hcount⟩ := h
  rw [hlinked.sanityCheck_iff, hcount, LinkedList.Counted, ← helements, List.length_map]
  exact Int.ofNat_inj

theorem link_eq_some (n : Nat × ListElement α)
    (put : List (ListElement α) → List (ListElement α)) (nodes' : List (Nat × ListElement α))
    (helements : nodes.map (·.2) = L.elements) (hne : L.isEmpty = false → nodes ≠ [])
    (hput : put L.elements = nodes'.map (·.2)) :
    L.link n.2 put = some ((if L.isEmpty then [n] else nodes').map (·.2)) := by
  unfold LinkedList.link
  split
  · rfl
  · next hempty =>
    have hnil : L.elements.isEmpty = false := by
      rw [← helements, List.isEmpty_map, List.isEmpty_eq_false_iff]
      exact hne (Bool.not_eq_true _ ▸ hempty)
    rw [if_neg (by simp [hnil]), hput]

theorem link_eq_none {element : ListElement α} {put : List (ListElement α) → List (ListElement α)}
    (helements : L.elements = []) (hempty : L.isEmpty = false) : L.link element put = none := by
  rw [LinkedList.link, if_neg (by simp [hempty]), helements]
  rfl

theorem Represents.append [DecidableEq α] (h : Represents l L) (item : α) :
    Option.Rel Represents (l.append item) (L.append item) := by
  have hempty := h.isEmpty
  obtain ⟨nodes, hlinked, helements, hcount⟩ := h
  have hloose := hlinked.new { item := item, key := none }
  rw [LinkedList.append, LinkedList.isInList, items_eq_itemsOf helements]
  by_cases hmem : item ∈ itemsOf nodes
  · rw [if_pos (decide_eq_true hmem), NodeList.append, NodeList.add, hloose.isInList,
      if_pos (by simpa using hmem)]
    exact .none
  rw [if_neg (by simpa using hmem)]
  by_cases hne : L.isEmpty = false → nodes ≠ []
  · obtain ⟨l', a, hl', hlinked', hcount'⟩ := hlinked.add puts_linkLast
      (fun n nodes => List.mem_append_right _ (List.mem_singleton_self n)) hmem (hempty ▸ hne)
    have hlink := link_eq_some (a, ⟨item, none⟩) (· ++ [⟨item, none⟩])
      (nodes ++ [(a, ⟨item, none⟩)]) helements hne (by rw [List.map_append, helements]; rfl)
    rw [NodeList.append, hl', hlink]
    exact .some ⟨_, hempty ▸ hlinked', rfl, by rw [hcount', hcount]; rfl⟩
  · obtain ⟨hfalse, hnil⟩ := Classical.not_imp.mp hne
    obtain rfl := not_not.mp hnil
    rw [link_eq_none helements.symm hfalse]
    have hlast : (l.new ⟨item, none⟩).last = none := hloose.last
    have hcounts : (l.new ⟨item, none⟩).isEmpty = false := hempty.trans hfalse
    simp only [NodeList.append, NodeList.add]
    rw [hloose.isInList, if_neg (by simp), NodeList.link, if_neg (by simp [hcounts]), linkLast,
      hlast]
    exact .none

theorem Represents.removeFront (h : Represents l L) :
    Option.Rel (fun r R => r.1 = R.1 ∧ Represents r.2 R.2) l.removeFront L.removeFront := by
  have hempty := h.isEmpty
  obtain ⟨nodes, hlinked, helements, hcount⟩ := h
  by_cases hL : L.isEmpty = true
  · rw [NodeList.removeFront, if_pos (hempty.trans hL), LinkedList.removeFront, if_pos hL]
    exact .none
  · have hl : l.isEmpty = false := hempty.trans (Bool.not_eq_true _ ▸ hL)
    rw [LinkedList.removeFront, if_neg hL]
    rcases nodes with _ | ⟨⟨a, e⟩, post⟩
    · rw [← helements, NodeList.removeFront, if_neg (by simp [hl]), hlinked.eq_nil_iff.mp rfl]
      exact .none
    · obtain ⟨l', hl', hlinked', hcount'⟩ := hlinked.removeFront hl
      rw [← helements, hl']
      refine .some ⟨rfl, post, hlinked', rfl, ?_⟩
      have hpos : L.numInList ≠ 0 := by simpa [LinkedList.isEmpty] using hL
      rw [hcount', hcount]
      show (L.numInList : Int) - 1 = ((L.numInList - 1 : Nat) : Int)
      omega

theorem link_inserted (before : ListElement α → Bool) (n : Nat × ListElement α)
    (helements : nodes.map (·.2) = L.elements) (hempty : l.isEmpty = L.isEmpty)
    (hne : L.isEmpty = false → nodes ≠ []) :
    L.link n.2 (insertBefore before n.2) = some ((inserted l before n nodes).map (·.2)) := by
  rw [inserted, hempty]
  refine link_eq_some n _ _ helements hne ?_
  rw [← helements]
  exact (map_insertBefore (·.2) before n nodes).symm

theorem Represents.insert [DecidableEq α] (h : Represents l L) (compare : α → α → Int)
    (item : α) : Option.Rel Represents (l.insert compare item) (L.insert compare item) := by
  have hempty := h.isEmpty
  obtain ⟨nodes, hlinked, helements, hcount⟩ := h
  have hloose := hlinked.new { item := item, key := none }
  simp only [LinkedList.insert]
  rw [LinkedList.isInList, items_eq_itemsOf helements]
  by_cases hmem : item ∈ itemsOf nodes
  · simp only [NodeList.insert]
    rw [if_pos (decide_eq_true hmem), hloose.isInList, if_pos (by simpa using hmem)]
    exact .none
  rw [if_neg (by simpa using hmem)]
  by_cases hne : L.isEmpty = false → nodes ≠ []
  · obtain ⟨l', a, hl', hlinked', hcount'⟩ := hlinked.insert compare hmem (hempty ▸ hne)
    have hlink := link_inserted (fun e => compare item e.item < 0) (a, ⟨item, none⟩) helements
      hempty hne
    rw [hl', hlink]
    exact .some ⟨_, hlinked', rfl, by rw [hcount', hcount]; rfl⟩
  · obtain ⟨hfalse, hnil⟩ := Classical.not_imp.mp hne
    obtain rfl := not_not.mp hnil
    simp only [NodeList.insert]
    rw [link_eq_none helements.symm hfalse, hloose.isInList, if_neg (by simp),
      hloose.place_eq_none _ (hempty.trans hfalse)]
    exact .none

theorem Represents.sortedInsert (h : Represents l L) (garbage : α → Int) (item : α)
    (sortKey : Int) :
    Option.Rel Represents (l.sortedInsert garbage item sortKey)
      (L.sortedInsert garbage item sortKey) := by
  have hempty := h.isEmpty
  obtain ⟨nodes, hlinked, helements, hcount⟩ := h
  simp only [LinkedList.sortedInsert]
  by_cases hne : L.isEmpty = false → nodes ≠ []
  · obtain ⟨l', a, hl', hlinked', hcount'⟩ :=
      hlinked.sortedInsert garbage item sortKey (hempty ▸ hne)
    have hlink := link_inserted (fun e => sortKey < e.key.getD (garbage e.item))
      (a, ⟨item, some sortKey⟩) helements hempty hne
    rw [hl', hlink]
    exact .some ⟨_, hlinked', rfl, hcount'.trans hcount⟩
  · obtain ⟨hfalse, hnil⟩ := Classical.not_imp.mp hne
    obtain rfl := not_not.mp hnil
    have hloose := hlinked.new { item := item, key := some sortKey }
    rw [link_eq_none helements.symm hfalse, NodeList.sortedInsert,
      hloose.place_eq_none _ (hempty.trans hfalse)]
    exact .none

end NodeList

/-! ## Runs -/

/-- The calls of the lists that the kernel uses. -/
inductive ListCall (α : Type*) where
  | append (item : α)
  | removeFront
  | insert (item : α)
  | sortedInsert (item : α) (sortKey : Int)
  | front
  | isInList (item : α)
  | isEmpty

/-- The call of a list with pointers. `none`: it does not return. -/
def NodeList.call {α : Type*} [DecidableEq α] (compare : α → α → Int) (garbage : α → Int)
    (l : NodeList α) : ListCall α → Option (NodeList α × NodeList.Answer α)
  | .append item => (l.append item).map fun l => (l, .done)
  | .removeFront => l.removeFront.map fun (thing, l) => (l, .item thing)
  | .insert item => (l.insert compare item).map fun l => (l, .done)
  | .sortedInsert item sortKey => (l.sortedInsert garbage item sortKey).map fun l => (l, .done)
  | .front => l.front.map fun item => (l, .item item)
  | .isInList item => (l.isInList item).map fun found => (l, .truth found)
  | .isEmpty => some (l, .truth l.isEmpty)

/-- The same call of a list without pointers. -/
def LinkedList.call {α : Type*} [DecidableEq α] (compare : α → α → Int) (garbage : α → Int)
    (l : LinkedList α) : ListCall α → Option (LinkedList α × NodeList.Answer α)
  | .append item => (l.append item).map fun l => (l, .done)
  | .removeFront => l.removeFront.map fun (thing, l) => (l, .item thing)
  | .insert item => (l.insert compare item).map fun l => (l, .done)
  | .sortedInsert item sortKey => (l.sortedInsert garbage item sortKey).map fun l => (l, .done)
  | .front => l.front.map fun item => (l, .item item)
  | .isInList item => some (l, .truth (l.isInList item))
  | .isEmpty => some (l, .truth l.isEmpty)

namespace NodeList

variable {α : Type*}

theorem done_of_rel {x : Option (NodeList α)} {y : Option (LinkedList α)}
    (h : Option.Rel Represents x y) :
    Option.Rel (SameReply Represents) (x.map fun l => (l, (Answer.done : Answer α)))
      (y.map fun l => (l, Answer.done)) := by
  cases h with
  | none => exact .none
  | some h => exact .some ⟨h, rfl⟩

theorem call_represents [DecidableEq α] (compare : α → α → Int) (garbage : α → Int)
    (l : NodeList α) (L : LinkedList α) (call : ListCall α) (h : Represents l L) :
    Option.Rel (SameReply Represents) (l.call compare garbage call)
      (L.call compare garbage call) := by
  cases call with
  | append item => exact done_of_rel (h.append item)
  | removeFront =>
    rcases optionRel_cases h.removeFront with ⟨hl, hL⟩ | ⟨r, R, hl, hL, hthing, hrep⟩
    · rw [NodeList.call, LinkedList.call, hl, hL]
      exact .none
    · rw [NodeList.call, LinkedList.call, hl, hL]
      exact .some ⟨hrep, congrArg _ hthing⟩
  | insert item => exact done_of_rel (h.insert compare item)
  | sortedInsert item sortKey => exact done_of_rel (h.sortedInsert garbage item sortKey)
  | front =>
    rw [NodeList.call, LinkedList.call, h.front]
    cases L.front with
    | none => exact .none
    | some item => exact .some ⟨h, rfl⟩
  | isInList item =>
    rw [NodeList.call, h.isInList]
    exact .some ⟨h, rfl⟩
  | isEmpty =>
    rw [NodeList.call, h.isEmpty]
    exact .some ⟨h, rfl⟩

/-- From the empty list on there is no difference between the two models. -/
theorem runReplies_represents [DecidableEq α] (compare : α → α → Int) (garbage : α → Int)
    (calls : List (ListCall α)) :
    Option.Rel (SameReply Represents)
      (runReplies (NodeList.call compare garbage) NodeList.empty calls)
      (runReplies (LinkedList.call compare garbage) LinkedList.empty calls) :=
  runReplies_rel (call_represents compare garbage) represents_empty calls

end NodeList

end Nachos
