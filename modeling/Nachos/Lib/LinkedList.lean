import Mathlib.Data.List.Nodup

/-!
# Lists (`lib/list.h`, `lib/list.cc`)

The classes `List` and `SortedList`. A list is the chain of its elements, from `first` along `next`,
and the counter `numInList`. `IsEmpty` looks at the counter and not at the chain, so the two are
kept apart here: `Counted` says that they agree. `last` is the end of the chain and is not kept; the
list with all its pointers is in `Lib/ListNodes.lean`, and `Lib/ListModels.lean` compares the two.

`SortedList::Insert` looks at the items, `List::SortedInsert` at the keys of the elements. Only the
latter sets a key; for all other elements it is whatever was in the memory (`garbage`).

`none` is a failed assertion or a `NULL` pointer.

* `pairwise_insertBefore` — an ordered list stays ordered
* `Counted.*` — the operations on a list whose counter is right
-/

namespace Nachos

/-- The class `ListElement`. `none`: the constructor has not set the key. -/
structure ListElement (α : Type*) where
  item : α
  key : Option Int

/-- The class `List`. -/
structure LinkedList (α : Type*) where
  elements : List (ListElement α)
  numInList : Nat

/-- The new element goes before the first one for which `before` holds, or to the end. -/
def insertBefore {α : Type*} (before : α → Bool) (x : α) : List α → List α
  | [] => [x]
  | y :: ys => if before y then x :: y :: ys else y :: insertBefore before x ys

/-! ## Insertion -/

section Insertion

variable {α β : Type*} {before : α → Bool} {x : α}

theorem insertBefore_perm (before : α → Bool) (x : α) (l : List α) :
    (insertBefore before x l).Perm (x :: l) := by
  induction l with
  | nil => exact List.Perm.refl _
  | cons y ys ih =>
    unfold insertBefore
    split
    · exact List.Perm.refl _
    · exact (ih.cons y).trans (List.Perm.swap x y ys)

theorem map_insertBefore (f : α → β) (before : β → Bool) (x : α) (l : List α) :
    (insertBefore (fun e => before (f e)) x l).map f = insertBefore before (f x) (l.map f) := by
  induction l with
  | nil => rfl
  | cons y ys ih =>
    simp only [insertBefore, List.map_cons]
    split
    · rfl
    · rw [List.map_cons, ih]

/-- The new element stands behind `pre`, where `before` never holds, and in front of `post`. -/
theorem insertBefore_eq (before : α → Bool) (x : α) (l : List α) :
    ∃ pre post, l = pre ++ post ∧ insertBefore before x l = pre ++ x :: post ∧
      (∀ y ∈ pre, before y = false) ∧ ∀ y ∈ post.head?, before y = true := by
  induction l with
  | nil => exact ⟨[], [], rfl, rfl, by simp, by simp⟩
  | cons y ys ih =>
    unfold insertBefore
    split
    · next hy => exact ⟨[], y :: ys, rfl, rfl, by simp, by simpa using hy⟩
    · next hy =>
      obtain ⟨pre, post, rfl, heq, hpre, hpost⟩ := ih
      refine ⟨y :: pre, post, rfl, by rw [heq]; rfl, ?_, hpost⟩
      intro z hz
      rcases List.mem_cons.mp hz with rfl | hz
      · exact Bool.not_eq_true _ ▸ hy
      · exact hpre z hz

/-- An ordered list stays ordered if the new element is put where it belongs. -/
theorem pairwise_insertBefore {R : α → α → Prop} {l : List α} (h : l.Pairwise R)
    (hmono : l.Pairwise fun y z => before y = true → before z = true)
    (hbefore : ∀ y ∈ l, before y = true → R x y) (hafter : ∀ y ∈ l, before y = false → R y x) :
    (insertBefore before x l).Pairwise R := by
  induction l with
  | nil => exact List.pairwise_singleton R x
  | cons y ys ih =>
    obtain ⟨hy, hys⟩ := List.pairwise_cons.mp h
    obtain ⟨hmy, hmys⟩ := List.pairwise_cons.mp hmono
    unfold insertBefore
    split
    · next hb =>
      refine List.pairwise_cons.mpr ⟨fun z hz => ?_, h⟩
      rcases List.mem_cons.mp hz with rfl | hz
      · exact hbefore z List.mem_cons_self hb
      · exact hbefore z (List.mem_cons_of_mem y hz) (hmy z hz hb)
    · next hb =>
      refine List.pairwise_cons.mpr ⟨fun z hz => ?_, ?_⟩
      · rcases List.mem_cons.mp ((insertBefore_perm before x ys).mem_iff.mp hz) with rfl | hz
        · exact hafter y List.mem_cons_self (Bool.not_eq_true _ ▸ hb)
        · exact hy z hz
      · exact ih hys hmys (fun z hz => hbefore z (List.mem_cons_of_mem y hz))
          fun z hz => hafter z (List.mem_cons_of_mem y hz)

end Insertion

namespace LinkedList

variable {α : Type*}

/-- `List::List`. -/
def empty : LinkedList α := { elements := [], numInList := 0 }

/-- The items, from the front. -/
def items (l : LinkedList α) : List α := l.elements.map (·.item)

/-- `List::IsEmpty`. -/
def isEmpty (l : LinkedList α) : Bool := l.numInList == 0

/-- `List::IsInList`. -/
def isInList [DecidableEq α] (l : LinkedList α) (item : α) : Bool := decide (item ∈ l.items)

/-- `List::Front`. -/
def front (l : LinkedList α) : Option α := l.items.head?

/-- What the inserting operations do to the chain: alone if the list is empty, else `put`. -/
def link (l : LinkedList α) (element : ListElement α)
    (put : List (ListElement α) → List (ListElement α)) : Option (List (ListElement α)) :=
  if l.isEmpty then some [element]
  else if l.elements.isEmpty then none
  else some (put l.elements)

/-- `List::Append`. -/
def append [DecidableEq α] (l : LinkedList α) (item : α) : Option (LinkedList α) :=
  if l.isInList item then none
  else (l.link { item := item, key := none } (· ++ [{ item := item, key := none }])).map fun es =>
    { elements := es, numInList := l.numInList + 1 }

/-- `List::RemoveFront`. -/
def removeFront (l : LinkedList α) : Option (α × LinkedList α) :=
  if l.isEmpty then none
  else
    match l.elements with
    | [] => none
    | element :: rest => some (element.item, { elements := rest, numInList := l.numInList - 1 })

/-- `SortedList::Insert`, with the comparison `compare` of the list. -/
def insert [DecidableEq α] (compare : α → α → Int) (l : LinkedList α) (item : α) :
    Option (LinkedList α) :=
  if l.isInList item then none
  else
    let element : ListElement α := { item := item, key := none }
    (l.link element (insertBefore (fun e => compare item e.item < 0) element)).map fun es =>
      { elements := es, numInList := l.numInList + 1 }

/-- `List::SortedInsert`. It does not count the new element. -/
def sortedInsert (garbage : α → Int) (l : LinkedList α) (item : α) (sortKey : Int) :
    Option (LinkedList α) :=
  let element : ListElement α := { item := item, key := some sortKey }
  (l.link element
    (insertBefore (fun e => sortKey < e.key.getD (garbage e.item)) element)).map fun es =>
      { l with elements := es }

/-! ## Lists whose counter is right -/

/-- The counter is the length of the chain. -/
def Counted (l : LinkedList α) : Prop := l.numInList = l.elements.length

theorem counted_empty : (empty : LinkedList α).Counted := rfl

@[simp] theorem length_items (l : LinkedList α) : l.items.length = l.elements.length :=
  List.length_map ..

theorem Counted.isEmpty_iff {l : LinkedList α} (h : l.Counted) :
    l.isEmpty = true ↔ l.items = [] := by
  rw [isEmpty, beq_iff_eq, h, ← length_items, List.length_eq_zero_iff]

theorem Counted.link {l : LinkedList α} (h : l.Counted) {element : ListElement α}
    (put : List (ListElement α) → List (ListElement α)) (hput : put [] = [element]) :
    l.link element put = some (put l.elements) := by
  unfold LinkedList.link
  cases he : l.elements with
  | nil =>
    have hempty : l.isEmpty = true := by
      rw [h.isEmpty_iff, items, he]
      rfl
    rw [if_pos hempty, hput]
  | cons e es =>
    have hempty : ¬ l.isEmpty = true := by
      rw [h.isEmpty_iff, items, he]
      simp
    rw [if_neg hempty]
    simp

theorem Counted.append [DecidableEq α] {l : LinkedList α} (h : l.Counted) {item : α}
    (hnew : item ∉ l.items) :
    ∃ l', l.append item = some l' ∧ l'.Counted ∧ l'.items = l.items ++ [item] := by
  unfold LinkedList.append
  let element : ListElement α := { item := item, key := none }
  rw [isInList, if_neg (by simpa using hnew),
    show l.link element (· ++ [element]) = some (l.elements ++ [element]) from h.link _ rfl]
  refine ⟨_, rfl, ?_, ?_⟩
  · show l.numInList + 1 = (l.elements ++ [_]).length
    rw [show l.numInList = _ from h, List.length_append]
    rfl
  · simp [items, element]

theorem Counted.insert [DecidableEq α] {l : LinkedList α} (h : l.Counted)
    (compare : α → α → Int) {item : α} (hnew : item ∉ l.items) :
    ∃ l', l.insert compare item = some l' ∧ l'.Counted ∧
      l'.items = insertBefore (fun y => compare item y < 0) item l.items := by
  unfold LinkedList.insert
  let element : ListElement α := { item := item, key := none }
  let put := insertBefore (fun e : ListElement α => compare item e.item < 0) element
  have hlink : l.link element put = some (put l.elements) := h.link put rfl
  rw [isInList, if_neg (by simpa using hnew)]
  refine ⟨_, congrArg (Option.map _) hlink, ?_, ?_⟩
  · show l.numInList + 1 = (put l.elements).length
    rw [show l.numInList = _ from h, (insertBefore_perm _ element l.elements).length_eq]
    rfl
  · exact map_insertBefore (·.item) (fun y => compare item y < 0) element l.elements

theorem Counted.removeFront {l : LinkedList α} (h : l.Counted) {x : α} {xs : List α}
    (hitems : l.items = x :: xs) :
    ∃ l', l.removeFront = some (x, l') ∧ l'.Counted ∧ l'.items = xs := by
  have hempty : ¬ l.isEmpty = true := by
    rw [h.isEmpty_iff, hitems]
    simp
  unfold LinkedList.removeFront
  rw [if_neg hempty]
  cases he : l.elements with
  | nil =>
    rw [items, he] at hitems
    cases hitems
  | cons e es =>
    rw [items, he, List.map_cons, List.cons.injEq] at hitems
    obtain ⟨rfl, rfl⟩ := hitems
    refine ⟨_, rfl, ?_, rfl⟩
    show l.numInList - 1 = es.length
    rw [show l.numInList = _ from h, he]
    rfl

end LinkedList

end Nachos
