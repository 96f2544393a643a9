import Nachos.Base.Cursor
import Nachos.Base.Run
import Nachos.Lib.ListNodes

/-!
# Lists as sequences (`lib/list.cc`)

What the pointers of a list are for: a list is a sequence of items, and its operations are those of
sequences.

* `Holds` — the list is well formed, and these are its items
* `runReplies_eq_sequence` — whole runs, with their answers
* `ListIterator` — an iterator goes through them from the front
-/

namespace Nachos

open Base

namespace NodeList

variable {α : Type*} {l : NodeList α} {xs : List α} {item : α}

/-- The list is well formed and its items are `xs`. -/
def Holds (l : NodeList α) (xs : List α) : Prop :=
  ∃ nodes, WellFormed l nodes ∧ itemsOf nodes = xs

theorem holds_empty : Holds (empty : NodeList α) [] := ⟨[], wellFormed_empty, rfl⟩

theorem Holds.isInList [DecidableEq α] (h : Holds l xs) (item : α) :
    l.isInList item = some (decide (item ∈ xs)) := by
  obtain ⟨nodes, hwell, rfl⟩ := h
  exact hwell.isInList item

theorem Holds.isEmpty (h : Holds l xs) : l.isEmpty = xs.isEmpty := by
  obtain ⟨nodes, hwell, rfl⟩ := h
  rw [Bool.eq_iff_iff, hwell.isEmpty_iff, List.isEmpty_iff, itemsOf, List.map_eq_nil_iff]

theorem Holds.front (h : Holds l xs) : l.front = xs.head? := by
  obtain ⟨nodes, hwell, rfl⟩ := h
  exact hwell.front

theorem Holds.numInList (h : Holds l xs) : l.numInList = xs.length := by
  obtain ⟨nodes, hwell, rfl⟩ := h
  rw [hwell.numInList, length_itemsOf]

theorem Holds.sanityCheck (h : Holds l xs) : l.sanityCheck = true := by
  obtain ⟨nodes, hwell, -⟩ := h
  exact sanityCheck_iff.mpr ⟨nodes, hwell⟩

theorem Holds.append [DecidableEq α] (h : Holds l xs) (hnew : item ∉ xs) :
    ∃ l', l.append item = some l' ∧ Holds l' (xs ++ [item]) := by
  obtain ⟨nodes, hwell, rfl⟩ := h
  obtain ⟨l', a, hl', hwell'⟩ := hwell.add puts_linkLast List.perm_append_singleton hnew
  exact ⟨l', hl', _, hwell', itemsOf_append _ _⟩

theorem Holds.prepend [DecidableEq α] (h : Holds l xs) (hnew : item ∉ xs) :
    ∃ l', l.prepend item = some l' ∧ Holds l' (item :: xs) := by
  obtain ⟨nodes, hwell, rfl⟩ := h
  obtain ⟨l', a, hl', hwell'⟩ := hwell.add puts_linkFirst (fun _ _ => List.Perm.refl _) hnew
  exact ⟨l', hl', _, hwell', rfl⟩

theorem Holds.removeFront (h : Holds l (item :: xs)) :
    ∃ l', l.removeFront = some (item, l') ∧ Holds l' xs := by
  rcases h with ⟨_ | ⟨n, nodes⟩, hwell, hitems⟩
  · cases hitems
  · obtain ⟨rfl, rfl⟩ := List.cons.inj hitems
    obtain ⟨l', hl', hwell'⟩ := hwell.removeFront
    exact ⟨l', hl', nodes, hwell', rfl⟩

theorem Holds.remove [DecidableEq α] (h : Holds l xs) (hnodup : xs.Nodup) (hitem : item ∈ xs) :
    ∃ l', l.remove item = some l' ∧ Holds l' (xs.erase item) := by
  obtain ⟨nodes, hwell, rfl⟩ := h
  obtain ⟨l', hl', hwell'⟩ := hwell.remove hnodup hitem
  exact ⟨l', hl', _, hwell', itemsOf_eraseP item nodes⟩

/-! ## Runs -/

/-- The calls of a list. -/
inductive Call (α : Type*) where
  | append (item : α)
  | prepend (item : α)
  | removeFront
  | remove (item : α)
  | front
  | isInList (item : α)
  | isEmpty
  | sanityCheck

/-- What they return. -/
inductive Answer (α : Type*) where
  | done
  | item (x : α)
  | truth (b : Bool)

/-- The call of a list. `none`: it does not return. -/
def step [DecidableEq α] (l : NodeList α) : Call α → Option (NodeList α × Answer α)
  | .append item => (l.append item).map fun l => (l, .done)
  | .prepend item => (l.prepend item).map fun l => (l, .done)
  | .removeFront => l.removeFront.map fun (thing, l) => (l, .item thing)
  | .remove item => (l.remove item).map fun l => (l, .done)
  | .front => l.front.map fun item => (l, .item item)
  | .isInList item => (l.isInList item).map fun found => (l, .truth found)
  | .isEmpty => some (l, .truth l.isEmpty)
  | .sanityCheck => if l.sanityCheck then some (l, .done) else none

/-- The same call on a sequence. -/
def sequenceStep [DecidableEq α] (xs : List α) : Call α → List α × Answer α
  | .append item => (xs ++ [item], .done)
  | .prepend item => (item :: xs, .done)
  | .removeFront => (xs.tail, xs.head?.elim .done .item)
  | .remove item => (xs.erase item, .done)
  | .front => (xs, xs.head?.elim .done .item)
  | .isInList item => (xs, .truth (decide (item ∈ xs)))
  | .isEmpty => (xs, .truth xs.isEmpty)
  | .sanityCheck => (xs, .done)

/-- What the calls ask for: a new item to put on, an item that is there to take off. -/
def Admits (xs : List α) : Call α → Prop
  | .append item => item ∉ xs
  | .prepend item => item ∉ xs
  | .removeFront => xs ≠ []
  | .remove item => item ∈ xs
  | .front => xs ≠ []
  | .isInList _ => True
  | .isEmpty => True
  | .sanityCheck => True

theorem step_eq_sequenceStep [DecidableEq α] (l : NodeList α) (xs : List α) (call : Call α)
    (h : Holds l xs ∧ xs.Nodup) (hadmits : Admits xs call) :
    ∃ l', l.step call = some (l', (sequenceStep xs call).2) ∧
      Holds l' (sequenceStep xs call).1 ∧ (sequenceStep xs call).1.Nodup := by
  obtain ⟨h, hnodup⟩ := h
  cases call with
  | append item =>
    obtain ⟨l', hl', hholds⟩ := h.append hadmits
    refine ⟨l', by rw [step, hl']; rfl, hholds, ?_⟩
    exact (List.perm_append_singleton item xs).nodup_iff.mpr (List.nodup_cons.mpr ⟨hadmits, hnodup⟩)
  | prepend item =>
    obtain ⟨l', hl', hholds⟩ := h.prepend hadmits
    exact ⟨l', by rw [step, hl']; rfl, hholds, List.nodup_cons.mpr ⟨hadmits, hnodup⟩⟩
  | removeFront =>
    obtain ⟨x, xs, rfl⟩ := List.exists_cons_of_ne_nil hadmits
    obtain ⟨l', hl', hholds⟩ := h.removeFront
    exact ⟨l', by rw [step, hl']; rfl, hholds, (List.nodup_cons.mp hnodup).2⟩
  | remove item =>
    obtain ⟨l', hl', hholds⟩ := h.remove hnodup hadmits
    exact ⟨l', by rw [step, hl']; rfl, hholds, hnodup.erase item⟩
  | front =>
    obtain ⟨x, xs, rfl⟩ := List.exists_cons_of_ne_nil hadmits
    exact ⟨l, by rw [step, h.front]; rfl, h, hnodup⟩
  | isInList item => exact ⟨l, by rw [step, h.isInList]; rfl, h, hnodup⟩
  | isEmpty => exact ⟨l, by rw [step, h.isEmpty]; rfl, h, hnodup⟩
  | sanityCheck => exact ⟨l, by rw [step, if_pos h.sanityCheck]; rfl, h, hnodup⟩

/--
From the empty list, as long as the calls get what they ask for, the list goes on to be well formed
and to answer like the sequence of its items.
-/
theorem runReplies_eq_sequence [DecidableEq α] (calls : List (Call α))
    (hadmits : AllSteps (fun xs call => some (sequenceStep xs call).1) Admits [] calls) :
    ∃ l nodes,
      runReplies step (empty : NodeList α) calls = some (l, (runAnswers sequenceStep [] calls).2) ∧
      Chain l.memory l.first nodes none ∧
      itemsOf nodes = (runAnswers sequenceStep [] calls).1 ∧ (itemsOf nodes).Nodup ∧
      l.numInList = nodes.length ∧ l.last = nodes.getLast?.map (·.1) ∧
      (nodes = [] → l.first = none ∧ l.last = none) ∧ (nodes ≠ [] → l.lastNext = some none) ∧
      l.sanityCheck = true ∧
      (∀ item, l.isInList item = some (decide (item ∈ (runAnswers sequenceStep [] calls).1))) ∧
      l.isEmpty = (runAnswers sequenceStep [] calls).1.isEmpty := by
  obtain ⟨l, hrun, hholds, hnodup⟩ :=
    runReplies_relation step_eq_sequenceStep ⟨holds_empty, List.nodup_nil⟩ hadmits
  obtain ⟨nodes, hwell, hitems⟩ := id hholds
  refine ⟨l, nodes, hrun, hwell.chain, hitems, hitems ▸ hnodup, hwell.numInList, hwell.last, ?_,
    hwell.lastNext, hholds.sanityCheck, hholds.isInList, hholds.isEmpty⟩
  rintro rfl
  exact ⟨hwell.eq_nil_iff.mp rfl, hwell.last⟩

theorem runReplies_eq_sequence_three :
    ∃ l nodes,
      runReplies step (empty : NodeList Nat)
          [.append 1, .prepend 2, .append 3, .remove 3, .removeFront, .isInList 1] =
        some (l, [.done, .done, .done, .done, .item 2, .truth true]) ∧
      itemsOf nodes = [1] ∧ Chain l.memory l.first nodes none ∧ l.numInList = 1 := by
  obtain ⟨l, nodes, hrun, hchain, hitems, -, hcount, -⟩ :=
    runReplies_eq_sequence (α := Nat)
      [.append 1, .prepend 2, .append 3, .remove 3, .removeFront, .isInList 1]
      (by simp [AllSteps, sequenceStep, Admits])
  refine ⟨l, nodes, hrun, hitems, hchain, ?_⟩
  rw [hcount, ← length_itemsOf, hitems]
  rfl

end NodeList

/-! ## Iterators -/

/-- The class `ListIterator`; `list` stands for the memory of the elements. -/
structure ListIterator (α : Type*) where
  list : NodeList α
  current : Option Nat

namespace ListIterator

variable {α : Type*} {l : NodeList α} {xs : List α}

/-- `ListIterator::ListIterator`. -/
def new (list : NodeList α) : ListIterator α := { list := list, current := list.first }

/-- `ListIterator::IsDone`. -/
def isDone (iterator : ListIterator α) : Bool := iterator.current.isNone

/-- `ListIterator::Item`. -/
def item (iterator : ListIterator α) : Option α :=
  if iterator.isDone then none else (iterator.list.node iterator.current).map (·.value.item)

/-- `ListIterator::Next`. -/
def next (iterator : ListIterator α) : Option (ListIterator α) :=
  (iterator.list.node iterator.current).map fun node => { iterator with current := node.next }

def cursor : Cursor (ListIterator α) α := { done := isDone, item := item, next := next }

theorem yields_of_chain {nodes : List (Nat × ListElement α)} {ptr : Option Nat}
    (h : Chain l.memory ptr nodes none) :
    cursor.Yields { list := l, current := ptr } (NodeList.itemsOf nodes) := by
  induction nodes generalizing ptr with
  | nil =>
    obtain rfl : ptr = none := h
    rfl
  | cons n nodes ih =>
    obtain ⟨rfl, next, hread, hrest⟩ := h
    have hnode : l.node (some n.1) = some ⟨n.2, next⟩ := hread
    refine ⟨rfl, ?_, _, ?_, ih hrest⟩
    · show (l.node (some n.1)).map _ = _
      rw [hnode]
      rfl
    · show (l.node (some n.1)).map _ = _
      rw [hnode]
      rfl

theorem yields (h : l.Holds xs) : cursor.Yields (new l) xs := by
  obtain ⟨nodes, hwell, rfl⟩ := h
  exact yields_of_chain hwell.chain

end ListIterator

namespace NodeList

variable {α : Type*} {l : NodeList α} {xs : List α}

theorem Holds.length_le_size (h : Holds l xs) : xs.length ≤ l.memory.size := by
  obtain ⟨nodes, hwell, rfl⟩ := h
  rw [length_itemsOf]
  exact hwell.chain.length_le_size

end NodeList

end Nachos
