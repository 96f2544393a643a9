import Nachos.Base.Chain
import Nachos.Lib.LinkedList

/-!
# The nodes of a list (`lib/list.h`, `lib/list.cc`)

The class `List` with its three fields, `first`, `last` and `numInList`, over a memory of elements
linked by `next`. Every list has a memory of its own here; an element is on one list only.

A loop along `next` has as many rounds as elements were ever made; one that has more goes round in a
circle. `none` is such a loop, a failed assertion or a pointer that leads nowhere. `numInList` does
not overflow: an element takes 12 of the 2^32 bytes of memory.

* `Linked` — the chain from `first` ends in `last`, behind which there is nothing
* `WellFormed` — and `numInList` is its length
* `sanityCheck_iff` — `SanityCheck` passes on exactly the lists that are well formed
* `Linked.*` — what the operations do to the chain
-/

namespace Nachos

open Base

/-- The class `List`. -/
structure NodeList (α : Type*) where
  memory : Memory (ListElement α)
  first : Option Nat
  last : Option Nat
  numInList : Int

namespace NodeList

variable {α : Type*}

/-- `List::List`. -/
def empty : NodeList α := { memory := Memory.empty, first := none, last := none, numInList := 0 }

/-- `*ptr`. -/
def node (l : NodeList α) (ptr : Option Nat) : Option (Cell (ListElement α)) :=
  ptr.bind l.memory.read

/-- `ptr->next = next`. -/
def setNext (l : NodeList α) (ptr next : Option Nat) : Option (NodeList α) :=
  ptr.bind fun a => (l.memory.setNext a next).map fun memory => { l with memory := memory }

/-- `new ListElement`; its address is the size the memory had. -/
def new (l : NodeList α) (element : ListElement α) : NodeList α :=
  { l with memory := l.memory.new element }

/-- `delete ptr`. -/
def delete (l : NodeList α) (ptr : Nat) : NodeList α :=
  { l with memory := l.memory.free ptr }

/-- `List::IsEmpty`. -/
def isEmpty (l : NodeList α) : Bool := l.numInList == 0

/-- `List::Front`. -/
def front (l : NodeList α) : Option α := (l.node l.first).map (·.value.item)

/-- The loop of `List::IsInList`. -/
def searchLoop [DecidableEq α] (l : NodeList α) (item : α) : Nat → Option Nat → Option Bool
  | _, none => some false
  | 0, some _ => none
  | fuel + 1, some ptr =>
    (l.memory.read ptr).bind fun node =>
      if item = node.value.item then some true else l.searchLoop item fuel node.next

/-- `List::IsInList`. -/
def isInList [DecidableEq α] (l : NodeList α) (item : α) : Option Bool :=
  l.searchLoop item l.memory.size l.first

/-- `first = last = element`. -/
def alone (l : NodeList α) (element : Nat) : NodeList α :=
  { l with first := some element, last := some element }

/-- `element->next = first; first = element`. -/
def linkFirst (l : NodeList α) (element : Nat) : Option (NodeList α) := do
  let l ← l.setNext (some element) l.first
  return { l with first := some element }

/-- `last->next = element; last = element`. -/
def linkLast (l : NodeList α) (element : Nat) : Option (NodeList α) := do
  let l ← l.setNext l.last (some element)
  return { l with last := some element }

/-- What the inserting operations do with a new element: alone if the list is empty, else `put`. -/
def link (l : NodeList α) (element : Nat) (put : NodeList α → Nat → Option (NodeList α)) :
    Option (NodeList α) :=
  if l.isEmpty then some (l.alone element) else put l element

/-- `List::Append` and `List::Prepend`, which differ in where they `put` the new element. -/
def add [DecidableEq α] (put : NodeList α → Nat → Option (NodeList α)) (l : NodeList α)
    (item : α) : Option (NodeList α) :=
  let element := l.memory.size
  let l := l.new { item := item, key := none }
  if l.isInList item ≠ some false then none
  else do
    let l ← l.link element put
    let l := { l with numInList := l.numInList + 1 }
    if l.isInList item = some true then some l else none

/-- `List::Append`. -/
def append [DecidableEq α] (l : NodeList α) (item : α) : Option (NodeList α) := l.add linkLast item

/-- `List::Prepend`. -/
def prepend [DecidableEq α] (l : NodeList α) (item : α) : Option (NodeList α) :=
  l.add linkFirst item

/-- `List::RemoveFront`. -/
def removeFront (l : NodeList α) : Option (α × NodeList α) :=
  if l.isEmpty then none
  else
    l.first.bind fun element => do
      let node ← l.memory.read element
      let l :=
        if l.first = l.last then { l with first := none, last := none }
        else { l with first := node.next }
      return (node.value.item, { l with numInList := l.numInList - 1 }.delete element)

/-- The loop of `List::Remove`. At the end of the chain `ASSERT(ptr != NULL)` fails. -/
def removeLoop [DecidableEq α] (l : NodeList α) (item : α) :
    Nat → Option Nat → Option Nat → Option (NodeList α)
  | _, _, none => none
  | 0, _, some _ => none
  | fuel + 1, prev, some ptr => do
    let node ← l.memory.read ptr
    if item = node.value.item then
      let l ← l.setNext prev node.next
      let l := if node.next = none then { l with last := prev } else l
      return { l.delete ptr with numInList := l.numInList - 1 }
    else l.removeLoop item fuel (some ptr) node.next

/-- `List::Remove`. -/
def remove [DecidableEq α] (l : NodeList α) (item : α) : Option (NodeList α) :=
  if l.isInList item ≠ some true then none
  else do
    let node ← l.node l.first
    let l ←
      if item = node.value.item then do
        let (removed, l) ← l.removeFront
        if item = removed then some l else none
      else l.removeLoop item l.memory.size l.first node.next
    if l.isInList item = some false then some l else none

/--
The loop of `SortedList::Insert` and `List::SortedInsert`: in front of the first element behind the
first one for which `before` holds. `some none`: there is no such element.
-/
def insertLoop (l : NodeList α) (element : Nat) (before : ListElement α → Bool) :
    Nat → Option Nat → Option (Option (NodeList α))
  | 0, _ => none
  | fuel + 1, ptr => do
    let node ← l.node ptr
    match node.next with
    | none => return none
    | some next =>
      let nextNode ← l.memory.read next
      if before nextNode.value then
        let l ← l.setNext (some element) (some next)
        let l ← l.setNext ptr (some element)
        return some l
      else l.insertLoop element before fuel (some next)

/--
The four cases of `SortedList::Insert` and `List::SortedInsert`. The flag says that they return from
inside the loop.
-/
def place (l : NodeList α) (element : Nat) (before : ListElement α → Bool) :
    Option (NodeList α × Bool) :=
  if l.isEmpty then some (l.alone element, false)
  else do
    let node ← l.node l.first
    if before node.value then
      let l ← l.linkFirst element
      return (l, false)
    else
      match ← l.insertLoop element before l.memory.size l.first with
      | some l => return (l, true)
      | none =>
        let l ← l.linkLast element
        return (l, false)

/-- `SortedList::Insert`, with the comparison `compare` of the list. It counts on both ways out. -/
def insert [DecidableEq α] (compare : α → α → Int) (l : NodeList α) (item : α) :
    Option (NodeList α) :=
  let element := l.memory.size
  let l := l.new { item := item, key := none }
  if l.isInList item ≠ some false then none
  else do
    let (l, early) ← l.place element fun e => compare item e.item < 0
    let l := { l with numInList := l.numInList + 1 }
    if early ∨ l.isInList item = some true then some l else none

/-- `List::SortedInsert`. It counts on none. -/
def sortedInsert (garbage : α → Int) (l : NodeList α) (item : α) (sortKey : Int) :
    Option (NodeList α) :=
  let element := l.memory.size
  let l := l.new { item := item, key := some sortKey }
  (l.place element fun e => sortKey < e.key.getD (garbage e.item)).map (·.1)

/-- The loop of `List::SanityCheck`, which an assertion ends after `numInList` rounds. -/
def countLoop (l : NodeList α) : Nat → Option Nat → Int → Option Int
  | 0, _, _ => none
  | fuel + 1, ptr, numFound =>
    if ptr = l.last then some numFound
    else if l.numInList < numFound + 1 then none
    else (l.node ptr).bind fun node => l.countLoop fuel node.next (numFound + 1)

/-- `last->next`. -/
def lastNext (l : NodeList α) : Option (Option Nat) := (l.node l.last).map (·.next)

/-- `List::SanityCheck`: whether all its assertions hold. -/
def sanityCheck (l : NodeList α) : Bool :=
  if l.first = none then l.numInList = 0 ∧ l.last = none
  else if l.first = l.last then l.numInList = 1 ∧ l.lastNext = some none
  else
    l.countLoop (l.numInList.toNat + 1) l.first 1 = some l.numInList ∧ l.lastNext = some none

/-! ## The chain of a list -/

/-- The items of the elements of a chain. -/
def itemsOf (nodes : List (Nat × ListElement α)) : List α := nodes.map (·.2.item)

/-- The chain from `first` is `nodes`; `last` is its end, or `NULL` when it is empty. -/
structure Linked (l : NodeList α) (nodes : List (Nat × ListElement α)) : Prop where
  chain : Chain l.memory l.first nodes none
  last : l.last = nodes.getLast?.map (·.1)

/-- The representation invariant. -/
structure WellFormed (l : NodeList α) (nodes : List (Nat × ListElement α)) : Prop
    extends Linked l nodes where
  numInList : l.numInList = nodes.length

/-- A new element `a`, not yet on the list. -/
structure Loose (l : NodeList α) (nodes : List (Nat × ListElement α)) (a : Nat)
    (element : ListElement α) : Prop extends Linked l nodes where
  read : l.memory.read a = some ⟨element, none⟩
  notMem : a ∉ addresses nodes

section Chains

variable {l : NodeList α} {nodes pre post : List (Nat × ListElement α)} {a : Nat}
  {e : ListElement α} {item : α}

@[simp] theorem itemsOf_nil : itemsOf ([] : List (Nat × ListElement α)) = [] := rfl

@[simp] theorem itemsOf_cons (n : Nat × ListElement α) (nodes : List (Nat × ListElement α)) :
    itemsOf (n :: nodes) = n.2.item :: itemsOf nodes := rfl

@[simp] theorem itemsOf_append (nodes nodes' : List (Nat × ListElement α)) :
    itemsOf (nodes ++ nodes') = itemsOf nodes ++ itemsOf nodes' := List.map_append

@[simp] theorem length_itemsOf (nodes : List (Nat × ListElement α)) :
    (itemsOf nodes).length = nodes.length := List.length_map ..

theorem wellFormed_empty : WellFormed (empty : NodeList α) [] := ⟨⟨rfl, rfl⟩, rfl⟩

theorem WellFormed.isEmpty_iff (h : WellFormed l nodes) : l.isEmpty = true ↔ nodes = [] := by
  rw [isEmpty, beq_iff_eq, h.numInList, Int.natCast_eq_zero, List.length_eq_zero_iff]

theorem WellFormed.ne_nil (h : WellFormed l nodes) (hcount : l.isEmpty = false) : nodes ≠ [] := by
  intro hnil
  rw [h.isEmpty_iff.mpr hnil] at hcount
  cases hcount

theorem exists_setNext {c : Cell (ListElement α)} (h : l.memory.read a = some c)
    (next : Option Nat) :
    ∃ memory, l.setNext (some a) next = some { l with memory := memory } ∧
      ∀ b, memory.read b = if b = a then some { c with next := next } else l.memory.read b := by
  obtain ⟨memory, hset, hread⟩ := Memory.setNext_eq_some h next
  refine ⟨memory, ?_, hread⟩
  rw [setNext, Option.bind_some, hset]
  rfl

/-- The element in the middle of a chain points to the rest of it. -/
theorem Linked.node (h : Linked l (pre ++ (a, e) :: post)) :
    ∃ next, l.memory.read a = some ⟨e, next⟩ ∧ Chain l.memory next post none := by
  obtain ⟨q, -, -, hrest⟩ := chain_append.mp h.chain
  exact hrest

theorem Linked.node_first (h : Linked l ((a, e) :: post)) :
    ∃ next, l.memory.read a = some ⟨e, next⟩ ∧ Chain l.memory next post none :=
  h.chain.2

theorem Linked.first_eq (h : Linked l ((a, e) :: post)) : l.first = some a := h.chain.1

theorem Linked.last_eq (h : Linked l (pre ++ [(a, e)])) : l.last = some a := by
  rw [h.last, List.getLast?_concat]
  rfl

theorem Linked.last_eq_first (h : Linked l [(a, e)]) : l.last = some a := h.last

theorem Linked.eq_nil_iff (h : Linked l nodes) : nodes = [] ↔ l.first = none := by
  cases nodes with
  | nil => exact iff_of_true rfl h.chain
  | cons n post => exact iff_of_false (List.cons_ne_nil _ _) (by simp [h.first_eq])

theorem Linked.front (h : Linked l nodes) : l.front = (itemsOf nodes).head? := by
  cases nodes with
  | nil =>
    rw [NodeList.front, h.eq_nil_iff.mp rfl]
    rfl
  | cons n post =>
    obtain ⟨next, hread, -⟩ := h.node_first
    rw [NodeList.front, h.first_eq, NodeList.node, Option.bind_some, hread]
    rfl

theorem Linked.lastNext (h : Linked l nodes) (hne : nodes ≠ []) : l.lastNext = some none := by
  rcases nodes.eq_nil_or_concat' with rfl | ⟨pre, z, rfl⟩
  · exact absurd rfl hne
  · obtain ⟨next, hread, hnext⟩ := h.node
    obtain rfl : next = none := hnext
    rw [NodeList.lastNext, h.last_eq, NodeList.node, Option.bind_some, hread]
    rfl

/-- The list of the chain that is the same up to the element `a`, which is linked to `post'`. -/
theorem Linked.splice {l' : NodeList α} {q : Option Nat} {post' : List (Nat × ListElement α)}
    (h : Linked l (pre ++ (a, e) :: post)) (hfirst : l'.first = l.first)
    (hsame : ∀ b ∈ addresses pre, l'.memory.read b = l.memory.read b)
    (hread : l'.memory.read a = some ⟨e, q⟩) (hpost : Chain l'.memory q post' none)
    (hlast : l'.last = ((a, e) :: post').getLast?.map (·.1)) :
    Linked l' (pre ++ (a, e) :: post') where
  chain := hfirst ▸ h.chain.splice hsame hread hpost
  last := by rw [hlast, List.getLast?_append_of_ne_nil _ (List.cons_ne_nil _ _)]

/-! ## `IsInList` -/

theorem searchLoop_eq [DecidableEq α] {ptr : Option Nat} {fuel : Nat}
    (h : Chain l.memory ptr nodes none) (hfuel : nodes.length ≤ fuel) :
    l.searchLoop item fuel ptr = some (decide (item ∈ itemsOf nodes)) := by
  induction nodes generalizing ptr fuel with
  | nil =>
    obtain rfl : ptr = none := h
    cases fuel <;> rfl
  | cons n post ih =>
    obtain ⟨rfl, next, hread, hpost⟩ := h
    obtain ⟨fuel, rfl⟩ := Nat.exists_eq_add_one_of_ne_zero (Nat.ne_zero_of_lt hfuel)
    rw [searchLoop, hread, Option.bind_some, ih hpost (Nat.le_of_succ_le_succ hfuel)]
    by_cases hitem : item = n.2.item
    · simp [hitem]
    · simp [hitem]

theorem Linked.isInList [DecidableEq α] (h : Linked l nodes) (item : α) :
    l.isInList item = some (decide (item ∈ itemsOf nodes)) :=
  searchLoop_eq h.chain h.chain.length_le_size

/-! ## New elements -/

theorem Linked.new (h : Linked l nodes) (e : ListElement α) :
    Loose (l.new e) nodes l.memory.size e := by
  have hout : l.memory.size ∉ addresses nodes := by
    intro hmem
    obtain ⟨c, hc⟩ := h.chain.read hmem
    exact lt_irrefl _ (Memory.lt_size_of_read hc)
  refine ⟨⟨h.chain.frame ?_, h.last⟩, ?_, hout⟩
  · intro b hb
    rw [NodeList.new, Memory.read_new, if_neg (ne_of_mem_of_not_mem hb hout)]
  · rw [NodeList.new, Memory.read_new, if_pos rfl]

theorem Loose.alone (h : Loose l nodes a e) : Linked (l.alone a) [(a, e)] :=
  ⟨⟨rfl, none, h.read, rfl⟩, rfl⟩

theorem Loose.linkFirst (h : Loose l nodes a e) (hne : nodes ≠ []) :
    ∃ l', l.linkFirst a = some l' ∧ Linked l' ((a, e) :: nodes) ∧
      l'.numInList = l.numInList := by
  obtain ⟨memory, hset, hread⟩ := exists_setNext h.read l.first
  refine ⟨{ l with memory := memory, first := some a }, ?_, ⟨⟨rfl, l.first, ?_, ?_⟩, ?_⟩, rfl⟩
  · rw [NodeList.linkFirst, hset]
    rfl
  · rw [hread, if_pos rfl]
  · refine h.chain.frame fun b hb => ?_
    rw [hread, if_neg (ne_of_mem_of_not_mem hb h.notMem)]
  · show l.last = _
    rw [h.last, List.getLast?_cons_of_ne_nil hne]

theorem Loose.linkLast (h : Loose l nodes a e) (hne : nodes ≠ []) :
    ∃ l', l.linkLast a = some l' ∧ Linked l' (nodes ++ [(a, e)]) ∧
      l'.numInList = l.numInList := by
  rcases nodes.eq_nil_or_concat' with rfl | ⟨pre, ⟨z, w⟩, rfl⟩
  · exact absurd rfl hne
  · obtain ⟨next, hz, -⟩ := h.node
    obtain ⟨memory, hset, hread⟩ := exists_setNext hz (some a)
    have haz : a ≠ z := by
      rintro rfl
      exact h.notMem (by simp)
    have hnodup := h.chain.nodup
    rw [addresses_append, List.nodup_append] at hnodup
    refine ⟨{ l with memory := memory, last := some a }, ?_, ?_, rfl⟩
    · rw [NodeList.linkLast, h.last_eq, hset]
      rfl
    · rw [List.append_assoc]
      refine h.splice rfl (fun b hb => ?_) (hread z ▸ if_pos rfl) ⟨rfl, none, ?_, rfl⟩ rfl
      · rw [hread, if_neg (hnodup.2.2 b hb z List.mem_cons_self)]
      · rw [hread, if_neg haz]
        exact h.read

/-! ## `RemoveFront` and `Remove` -/

theorem Linked.removeFront (h : Linked l ((a, e) :: post)) (hcount : l.isEmpty = false) :
    ∃ l', l.removeFront = some (e.item, l') ∧ Linked l' post ∧
      l'.numInList = l.numInList - 1 := by
  obtain ⟨next, hread, hpost⟩ := h.node_first
  have hout : a ∉ addresses post := (List.nodup_cons.mp h.chain.nodup).1
  have hframe : Chain (l.memory.free a) next post none := by
    refine hpost.frame fun b hb => ?_
    rw [Memory.read_free, if_neg (ne_of_mem_of_not_mem hb hout)]
  unfold NodeList.removeFront
  rw [if_neg (by simp [hcount]), h.first_eq, Option.bind_some, hread]
  cases post with
  | nil =>
    obtain rfl : next = none := hpost
    let l' : NodeList α :=
      { memory := l.memory.free a, first := none, last := none, numInList := l.numInList - 1 }
    refine ⟨l', ?_, ⟨rfl, rfl⟩, rfl⟩
    simp [l', delete, h.last_eq_first]
  | cons n rest =>
    have hlast : some a ≠ l.last := h.last ▸ h.chain.first_ne_last
    let l' : NodeList α :=
      { memory := l.memory.free a, first := next, last := l.last, numInList := l.numInList - 1 }
    refine ⟨l', ?_, ⟨hframe, h.last.trans (by rw [List.getLast?_cons_cons])⟩, rfl⟩
    simp [l', delete, hlast]

/-- The element `b` behind `p` is taken out of the chain. -/
theorem Linked.unlink {p b : Nat} {v w : ListElement α} {next : Option Nat}
    (h : Linked l (pre ++ (p, v) :: (b, w) :: post)) (hb : l.memory.read b = some ⟨w, next⟩) :
    ∃ memory, l.setNext (some p) next = some { l with memory := memory } ∧
      Linked { memory := memory.free b, first := l.first,
               last := if next = none then some p else l.last, numInList := l.numInList - 1 }
        (pre ++ (p, v) :: post) := by
  obtain ⟨after, hp, -, hafter⟩ := h.node
  obtain ⟨next', hb', hpost⟩ := hafter
  obtain rfl : next = next' := (Cell.mk.inj (Option.some.inj (hb.symm.trans hb'))).2
  obtain ⟨memory, hset, hread⟩ := exists_setNext hp next
  have hnodup := h.chain.nodup
  simp only [addresses_append, addresses_cons, List.nodup_append, List.nodup_cons,
    List.mem_cons, not_or] at hnodup
  obtain ⟨-, ⟨⟨hpb, hpr⟩, hbr, -⟩, hpre⟩ := hnodup
  have hsame : ∀ c, c ≠ p → c ≠ b → (memory.free b).read c = l.memory.read c := by
    intro c hcp hcb
    rw [Memory.read_free, if_neg hcb, hread, if_neg hcp]
  refine ⟨memory, hset, h.splice rfl (fun c hc => ?_) (q := next) ?_ ?_ ?_⟩
  · exact hsame c (hpre c hc p (Or.inl rfl)) (hpre c hc b (Or.inr (Or.inl rfl)))
  · rw [Memory.read_free, if_neg hpb, hread, if_pos rfl]
  · refine hpost.frame fun c hc => ?_
    exact hsame c (ne_of_mem_of_not_mem hc hpr) (ne_of_mem_of_not_mem hc hbr)
  · cases post with
    | nil =>
      obtain rfl : next = none := hpost
      rfl
    | cons m rest =>
      obtain ⟨rfl, -⟩ := hpost
      rw [if_neg (Option.some_ne_none _), h.last, List.getLast?_append_of_ne_nil _ (by simp)]
      simp only [List.getLast?_cons_cons]

/-- The loop stands in front of `post`, behind the element `p`. -/
theorem Linked.removeLoop [DecidableEq α] (pre : List (Nat × ListElement α)) {p fuel : Nat}
    {v : ListElement α} {ptr : Option Nat} (h : Linked l (pre ++ (p, v) :: post))
    (hptr : Chain l.memory ptr post none) (hitem : item ∈ itemsOf post)
    (hfuel : post.length ≤ fuel) :
    ∃ l', l.removeLoop item fuel (some p) ptr = some l' ∧
      Linked l' (pre ++ (p, v) :: post.eraseP fun n => item = n.2.item) ∧
      l'.numInList = l.numInList - 1 := by
  induction post generalizing pre p v ptr fuel with
  | nil => cases hitem
  | cons n rest ih =>
    obtain ⟨b, w⟩ := n
    obtain ⟨rfl, next, hb, hrest⟩ := hptr
    obtain ⟨fuel, rfl⟩ := Nat.exists_eq_add_one_of_ne_zero (Nat.ne_zero_of_lt hfuel)
    unfold NodeList.removeLoop
    by_cases hfound : item = w.item
    · obtain ⟨memory, hset, hlinked⟩ := h.unlink hb
      rw [List.eraseP_cons_of_pos (by simpa using hfound)]
      refine ⟨_, ?_, hlinked, rfl⟩
      simp only [hb, Option.bind_eq_bind, Option.bind_some, if_pos hfound, hset]
      split
      · next hnext => simp [delete]
      · next hnext => simp [delete]
    · -- the element is passed: it goes to those in front of the loop
      have hitem' : item ∈ itemsOf rest := (List.mem_cons.mp hitem).resolve_left hfound
      rw [List.append_cons] at h
      obtain ⟨l', hl', hlinked, hcount⟩ :=
        ih (pre ++ [(p, v)]) h hrest hitem' (Nat.le_of_succ_le_succ hfuel)
      refine ⟨l', ?_, ?_, hcount⟩
      · simp only [hb, Option.bind_eq_bind, Option.bind_some, if_neg hfound, hl']
      · rw [List.eraseP_cons_of_neg (by simpa using hfound), List.append_cons]
        exact hlinked

theorem itemsOf_eraseP [DecidableEq α] (item : α) (nodes : List (Nat × ListElement α)) :
    itemsOf (nodes.eraseP fun n => item = n.2.item) = (itemsOf nodes).erase item := by
  induction nodes with
  | nil => rfl
  | cons n nodes ih =>
    by_cases h : item = n.2.item
    · rw [List.eraseP_cons_of_pos (by simpa using h), itemsOf_cons, ← h, List.erase_cons_head]
    · rw [List.eraseP_cons_of_neg (by simpa using h), itemsOf_cons, itemsOf_cons, ih,
        List.erase_cons_tail (by simpa using Ne.symm h)]

theorem WellFormed.removeFront (h : WellFormed l ((a, e) :: post)) :
    ∃ l', l.removeFront = some (e.item, l') ∧ WellFormed l' post := by
  have hempty : ¬ l.isEmpty = true := by simp [h.isEmpty_iff]
  obtain ⟨l', hl', hlinked, hcount⟩ := h.toLinked.removeFront (Bool.not_eq_true _ ▸ hempty)
  refine ⟨l', hl', hlinked, ?_⟩
  rw [hcount, h.numInList, List.length_cons]
  omega

theorem WellFormed.remove [DecidableEq α] (h : WellFormed l nodes)
    (hnodup : (itemsOf nodes).Nodup) (hitem : item ∈ itemsOf nodes) :
    ∃ l', l.remove item = some l' ∧ WellFormed l' (nodes.eraseP fun n => item = n.2.item) := by
  have hgone : item ∉ itemsOf (nodes.eraseP fun n => item = n.2.item) := by
    rw [itemsOf_eraseP]
    exact hnodup.not_mem_erase
  unfold NodeList.remove
  rw [h.isInList, if_neg (by simpa using hitem)]
  rcases nodes with _ | ⟨⟨a, e⟩, post⟩
  · cases hitem
  obtain ⟨next, hread, hpost⟩ := h.node_first
  simp only [NodeList.node, h.first_eq, Option.bind_some, hread, Option.bind_eq_bind]
  by_cases hfront : item = e.item
  · obtain ⟨l', hl', hwell⟩ := h.removeFront
    rw [List.eraseP_cons_of_pos (by simpa using hfront)] at hgone ⊢
    refine ⟨l', ?_, hwell⟩
    rw [if_pos hfront, hl']
    simp only [Option.bind_some, if_pos hfront]
    rw [hwell.isInList, if_pos]
    simpa using hgone
  · have hitem' : item ∈ itemsOf post := (List.mem_cons.mp hitem).resolve_left hfront
    have hfuel : post.length ≤ l.memory.size :=
      (Nat.le_succ _).trans h.chain.length_le_size
    obtain ⟨l', hl', hlinked, hcount⟩ :=
      Linked.removeLoop [] h.toLinked hpost hitem' hfuel
    rw [List.eraseP_cons_of_neg (by simpa using hfront)] at hgone ⊢
    refine ⟨l', ?_, hlinked, ?_⟩
    · rw [if_neg hfront, hl', Option.bind_some, hlinked.isInList, if_pos]
      simpa using hgone
    · have hlen := congrArg List.length (itemsOf_eraseP item post)
      have hpos := List.length_pos_of_mem hitem'
      rw [List.length_erase_of_mem hitem', length_itemsOf, length_itemsOf] at hlen
      rw [length_itemsOf] at hpos
      rw [hcount, h.numInList, List.length_cons, List.length_cons, hlen]
      omega

/-! ## `SanityCheck` -/

theorem countLoop_eq_some_iff {ptr : Option Nat} {fuel : Nat} {numFound : Int}
    (h : Chain l.memory ptr nodes none) (hne : nodes ≠ [])
    (hlast : l.last = nodes.getLast?.map (·.1))
    (hfuel : (l.numInList - numFound).toNat < fuel) :
    l.countLoop fuel ptr numFound = some l.numInList ↔
      numFound + nodes.length = l.numInList + 1 := by
  induction nodes generalizing ptr fuel numFound with
  | nil => exact absurd rfl hne
  | cons n post ih =>
    obtain ⟨fuel, rfl⟩ := Nat.exists_eq_add_one_of_ne_zero (Nat.ne_zero_of_lt hfuel)
    obtain ⟨hptr, next, hread, hpost⟩ := id h
    unfold countLoop
    cases post with
    | nil =>
      rw [if_pos (hptr.trans hlast.symm), Option.some.injEq, List.length_singleton]
      omega
    | cons m rest =>
      have hnext : ptr ≠ l.last := hptr ▸ hlast ▸ h.first_ne_last
      rw [List.getLast?_cons_cons] at hlast
      rw [if_neg hnext, List.length_cons]
      split
      · next hlt => simp; omega
      · next hle =>
        rw [hptr, node, Option.bind_some, hread, Option.bind_some,
          ih hpost (List.cons_ne_nil _ _) hlast (by omega)]
        omega

theorem Linked.sanityCheck_iff (h : Linked l nodes) :
    l.sanityCheck = true ↔ l.numInList = nodes.length := by
  unfold sanityCheck
  rcases nodes with _ | ⟨⟨a, e⟩, post⟩
  · rw [if_pos (h.eq_nil_iff.mp rfl)]
    simp [h.last]
  · have hnull := h.lastNext (List.cons_ne_nil _ _)
    rw [if_neg (by simp [h.first_eq])]
    split
    · next heq =>
      rcases post with _ | ⟨n, rest⟩
      · simp [hnull]
      · rw [h.first_eq, h.last] at heq
        exact absurd heq h.chain.first_ne_last
    · rw [decide_eq_true_iff, and_iff_left hnull, countLoop_eq_some_iff h.chain
        (List.cons_ne_nil _ _) h.last (by omega)]
      omega

theorem countLoop_chain {ptr : Option Nat} {fuel : Nat} {numFound total : Int}
    (h : l.countLoop fuel ptr numFound = some total) :
    ∃ nodes, Chain l.memory ptr nodes l.last ∧ numFound + nodes.length = total := by
  induction fuel generalizing ptr numFound with
  | zero => cases h
  | succ fuel ih =>
    unfold countLoop at h
    split at h
    · next hlast => exact ⟨[], hlast, by simpa using h⟩
    · split at h
      · cases h
      · obtain ⟨⟨e, next⟩, hnode, hrest⟩ := Option.bind_eq_some_iff.mp h
        obtain ⟨a, rfl, hread⟩ := Option.bind_eq_some_iff.mp hnode
        obtain ⟨nodes, hchain, hlen⟩ := ih hrest
        refine ⟨(a, e) :: nodes, ⟨rfl, next, hread, hchain⟩, ?_⟩
        rw [List.length_cons]
        omega

/-- `SanityCheck` misses nothing. -/
theorem sanityCheck_iff : l.sanityCheck = true ↔ ∃ nodes, WellFormed l nodes := by
  constructor
  · intro h
    unfold sanityCheck at h
    split at h
    · next hfirst =>
      obtain ⟨hcount, hlast⟩ := of_decide_eq_true h
      exact ⟨[], ⟨hfirst, hlast⟩, hcount⟩
    · next hfirst =>
      have hsegment : ∃ nodes, Chain l.memory l.first nodes l.last ∧
          1 + (nodes.length : Int) = l.numInList ∧ l.lastNext = some none := by
        split at h
        · next heq =>
          obtain ⟨hcount, hnull⟩ := of_decide_eq_true h
          exact ⟨[], heq, hcount.symm, hnull⟩
        · obtain ⟨hloop, hnull⟩ := of_decide_eq_true h
          obtain ⟨nodes, hchain, hlen⟩ := countLoop_chain hloop
          exact ⟨nodes, hchain, hlen, hnull⟩
      obtain ⟨nodes, hchain, hlen, hnull⟩ := hsegment
      obtain ⟨⟨w, next⟩, hnode, rfl⟩ := Option.map_eq_some_iff.mp hnull
      obtain ⟨z, hz, hread⟩ := Option.bind_eq_some_iff.mp hnode
      refine ⟨nodes ++ [(z, w)], ⟨chain_append.mpr ⟨_, hchain, hz, _, hread, rfl⟩, ?_⟩, ?_⟩
      · rw [hz, List.getLast?_concat]
        rfl
      · rw [List.length_append, List.length_singleton]
        omega
  · rintro ⟨nodes, h⟩
    exact h.toLinked.sanityCheck_iff.mpr h.numInList

/-! ## Insertion -/

/-- `put` puts a new element on a list that is not empty where `f` puts it in the chain. -/
def Puts (put : NodeList α → Nat → Option (NodeList α))
    (f : Nat × ListElement α → List (Nat × ListElement α) → List (Nat × ListElement α)) : Prop :=
  ∀ l nodes a e, Loose l nodes a e → nodes ≠ [] →
    ∃ l', put l a = some l' ∧ Linked l' (f (a, e) nodes) ∧ l'.numInList = l.numInList

theorem puts_linkFirst : Puts (α := α) linkFirst fun n nodes => n :: nodes :=
  fun _ _ _ _ h hne => h.linkFirst hne

theorem puts_linkLast : Puts (α := α) linkLast fun n nodes => nodes ++ [n] :=
  fun _ _ _ _ h hne => h.linkLast hne

/-- If the counter says that the list is empty, the elements that are on it are lost. -/
theorem Linked.add [DecidableEq α] {put : NodeList α → Nat → Option (NodeList α)}
    {f : Nat × ListElement α → List (Nat × ListElement α) → List (Nat × ListElement α)}
    (h : Linked l nodes) (hput : Puts put f) (hf : ∀ n nodes, n ∈ f n nodes)
    (hnew : item ∉ itemsOf nodes) (hne : l.isEmpty = false → nodes ≠ []) :
    ∃ l' a, l.add put item = some l' ∧
      Linked l' (if l.isEmpty then [(a, ⟨item, none⟩)] else f (a, ⟨item, none⟩) nodes) ∧
      l'.numInList = l.numInList + 1 := by
  let a := l.memory.size
  let nodes' := if l.isEmpty then [(a, ⟨item, none⟩)] else f (a, ⟨item, none⟩) nodes
  have hloose := h.new { item := item, key := none }
  have hlink : ∃ l', (l.new { item := item, key := none }).link a put = some l' ∧
      Linked l' nodes' ∧ l'.numInList = l.numInList := by
    simp only [link, nodes']
    show ∃ l', (if l.isEmpty then _ else _) = some l' ∧ _
    split
    · exact ⟨_, rfl, hloose.alone, rfl⟩
    · next hempty => exact hput _ _ _ _ hloose (hne (Bool.not_eq_true _ ▸ hempty))
  obtain ⟨l', hl', hlinked, hcount⟩ := hlink
  have hcounted : Linked { l' with numInList := l'.numInList + 1 } nodes' :=
    ⟨hlinked.chain, hlinked.last⟩
  have hmem : item ∈ itemsOf nodes' := by
    refine List.mem_map.mpr ⟨(a, ⟨item, none⟩), ?_, rfl⟩
    simp only [nodes']
    split
    · exact List.mem_singleton_self _
    · exact hf _ _
  refine ⟨_, a, ?_, hcounted, congrArg (· + 1) hcount⟩
  simp only [NodeList.add]
  rw [hloose.isInList, if_neg (by simpa using hnew), hl']
  simp [hcounted.isInList, hmem]

theorem WellFormed.add [DecidableEq α] {put : NodeList α → Nat → Option (NodeList α)}
    {f : Nat × ListElement α → List (Nat × ListElement α) → List (Nat × ListElement α)}
    (h : WellFormed l nodes) (hput : Puts put f) (hf : ∀ n nodes, (f n nodes).Perm (n :: nodes))
    (hnew : item ∉ itemsOf nodes) :
    ∃ l' a, l.add put item = some l' ∧ WellFormed l' (f (a, ⟨item, none⟩) nodes) := by
  have hmem : ∀ n nodes, n ∈ f n nodes := fun n nodes =>
    (hf n nodes).mem_iff.mpr List.mem_cons_self
  obtain ⟨l', a, hl', hlinked, hcount⟩ := h.toLinked.add hput hmem hnew h.ne_nil
  have hnodes : (if l.isEmpty then [(a, ⟨item, none⟩)] else f (a, ⟨item, none⟩) nodes) =
      f (a, ⟨item, none⟩) nodes := by
    split
    · next hempty =>
      rw [h.isEmpty_iff.mp hempty]
      exact (List.perm_singleton.mp (hf (a, ⟨item, none⟩) [])).symm
    · rfl
  rw [hnodes] at hlinked
  refine ⟨l', a, hl', hlinked, ?_⟩
  rw [hcount, h.numInList, (hf _ _).length_eq, List.length_cons]
  rfl

end Chains

end NodeList

end Nachos
