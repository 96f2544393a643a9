import Mathlib.Data.List.Nodup
import Mathlib.Data.List.Range

/-!
# Chains of cells in a memory

A memory hands out cells with a value and a pointer to a next cell; a pointer is an address, or
`none` for the null pointer. Addresses are not used again, so a freed cell stays unreadable.

`Chain m p l q` says that from the pointer `p` one gets along the cells `l` to the pointer `q`.

* `Chain.unique` — a chain to the null pointer is determined by its beginning
* `Chain.nodup` — no cell stands twice in it, so it has no more cells than were made
* `Chain.frame` — it is the same in a memory with the same cells along it
* `Chain.splice` — a cell of it is linked to another rest

Nothing here knows what the values are.
-/

namespace Base

structure Cell (β : Type*) where
  value : β
  next : Option Nat

/-- The cells made so far, at the addresses 0, 1, and so on. `none`: the cell has been freed. -/
structure Memory (β : Type*) where
  cells : List (Option (Cell β))

namespace Memory

variable {β : Type*} {m : Memory β} {a b : Nat} {c : Cell β}

def empty : Memory β := { cells := [] }

/-- The address of the next cell to be made. -/
def size (m : Memory β) : Nat := m.cells.length

/-- The cell at an address, if it is one. -/
def read (m : Memory β) (a : Nat) : Option (Cell β) := m.cells[a]?.join

/-- Make a cell that points nowhere. -/
def new (m : Memory β) (v : β) : Memory β :=
  { cells := m.cells ++ [some { value := v, next := none }] }

/-- Link the cell at `a` to `next`. -/
def setNext (m : Memory β) (a : Nat) (next : Option Nat) : Option (Memory β) :=
  (m.read a).map fun c => { cells := m.cells.set a (some { c with next := next }) }

def free (m : Memory β) (a : Nat) : Memory β := { cells := m.cells.set a none }

theorem lt_size_of_read (h : m.read a = some c) : a < m.size := by
  by_contra hlt
  rw [read, List.getElem?_eq_none (not_lt.mp hlt)] at h
  cases h

theorem read_new (v : β) :
    (m.new v).read a = if a = m.size then some { value := v, next := none } else m.read a := by
  unfold read new
  split
  · next h =>
    subst h
    rw [show m.size = m.cells.length from rfl, List.getElem?_concat_length]
    rfl
  · next h =>
    rcases Nat.lt_or_ge a m.cells.length with hlt | hge
    · rw [List.getElem?_append_left hlt]
    · have hgt : m.cells.length < a := lt_of_le_of_ne hge (Ne.symm h)
      rw [List.getElem?_eq_none hge, List.getElem?_eq_none]
      rw [List.length_append]
      exact hgt

/-- A cell that is there can be linked, and nothing else changes. -/
theorem setNext_eq_some (h : m.read a = some c) (next : Option Nat) :
    ∃ m', m.setNext a next = some m' ∧
      ∀ b, m'.read b = if b = a then some { c with next := next } else m.read b := by
  have hlt : a < m.cells.length := lt_size_of_read h
  refine ⟨{ cells := m.cells.set a (some { c with next := next }) }, ?_, ?_⟩
  · rw [setNext, h]
    rfl
  · intro b
    unfold read
    split
    · next hb =>
      subst hb
      rw [List.getElem?_set_self hlt]
      rfl
    · next hb => rw [List.getElem?_set_ne (Ne.symm hb)]

theorem read_free : (m.free a).read b = if b = a then none else m.read b := by
  unfold read free
  split
  · next hb =>
    subst hb
    rw [List.getElem?_set, if_pos rfl]
    split <;> rfl
  · next hb => rw [List.getElem?_set_ne (Ne.symm hb)]

end Memory

/-- From `p` along the cells `l`, given with their addresses, to `q`. -/
def Chain {β : Type*} (m : Memory β) : Option Nat → List (Nat × β) → Option Nat → Prop
  | p, [], q => p = q
  | p, (a, v) :: l, q => p = some a ∧ ∃ next, m.read a = some ⟨v, next⟩ ∧ Chain m next l q

/-- The addresses of the cells of a chain. -/
def addresses {β : Type*} (l : List (Nat × β)) : List Nat := l.map (·.1)

section Chain

variable {β : Type*} {m m' : Memory β} {p q r : Option Nat} {l l' rest : List (Nat × β)} {a : Nat}
  {v : β}

@[simp] theorem addresses_nil : addresses ([] : List (Nat × β)) = [] := rfl

@[simp] theorem addresses_cons (n : Nat × β) (l : List (Nat × β)) :
    addresses (n :: l) = n.1 :: addresses l := rfl

@[simp] theorem addresses_append (l l' : List (Nat × β)) :
    addresses (l ++ l') = addresses l ++ addresses l' := List.map_append

theorem chain_append : Chain m p (l ++ l') r ↔ ∃ q, Chain m p l q ∧ Chain m q l' r := by
  induction l generalizing p with
  | nil => simp [Chain]
  | cons n l ih =>
    simp only [List.cons_append, Chain, ih]
    constructor
    · rintro ⟨hp, next, hread, q, hl, hl'⟩
      exact ⟨q, ⟨hp, next, hread, hl⟩, hl'⟩
    · rintro ⟨q, ⟨hp, next, hread, hl⟩, hl'⟩
      exact ⟨hp, next, hread, q, hl, hl'⟩

theorem Chain.read (h : Chain m p l q) (ha : a ∈ addresses l) : ∃ c, m.read a = some c := by
  induction l generalizing p with
  | nil => cases ha
  | cons n l ih =>
    obtain ⟨-, next, hread, hl⟩ := h
    rcases List.mem_cons.mp ha with rfl | ha
    · exact ⟨_, hread⟩
    · exact ih hl ha

/-- The frame: only the cells of the chain matter. -/
theorem Chain.frame (h : Chain m p l q) (hsame : ∀ a ∈ addresses l, m'.read a = m.read a) :
    Chain m' p l q := by
  induction l generalizing p with
  | nil => exact h
  | cons n l ih =>
    obtain ⟨hp, next, hread, hl⟩ := h
    refine ⟨hp, next, ?_, ih hl fun a ha => hsame a (List.mem_cons_of_mem _ ha)⟩
    rw [hsame n.1 List.mem_cons_self, hread]

theorem Chain.unique (h : Chain m p l none) (h' : Chain m p l' none) : l = l' := by
  induction l generalizing p l' with
  | nil =>
    cases l' with
    | nil => rfl
    | cons n l' =>
      obtain ⟨hp, -⟩ := h'
      cases h.symm.trans hp
  | cons n l ih =>
    obtain ⟨hp, next, hread, hl⟩ := h
    cases l' with
    | nil => cases hp.symm.trans h'
    | cons n' l' =>
      obtain ⟨hp', next', hread', hl'⟩ := h'
      have haddr : n.1 = n'.1 := Option.some.inj (hp.symm.trans hp')
      rw [← haddr, hread] at hread'
      obtain ⟨hval, rfl⟩ := Cell.mk.inj (Option.some.inj hread')
      rw [ih hl hl', Prod.ext haddr hval]

/-- A cell that stood twice in the chain would begin two chains of different lengths. -/
theorem Chain.nodup (h : Chain m p l none) : (addresses l).Nodup := by
  induction l generalizing p with
  | nil => exact List.nodup_nil
  | cons n l ih =>
    obtain ⟨-, next, hread, hl⟩ := id h
    refine List.nodup_cons.mpr ⟨?_, ih hl⟩
    intro hmem
    obtain ⟨n', hn', haddr⟩ := List.mem_map.mp hmem
    obtain ⟨l₁, l₂, rfl⟩ := List.append_of_mem hn'
    obtain ⟨q, -, hq⟩ := chain_append.mp hl
    have hagain : Chain m (some n.1) (n' :: l₂) none := by
      obtain ⟨-, hrest⟩ := hq
      exact ⟨congrArg some haddr.symm, hrest⟩
    have hfirst : Chain m (some n.1) (n :: (l₁ ++ n' :: l₂)) none := ⟨rfl, next, hread, hl⟩
    have hlen := congrArg List.length (hfirst.unique hagain)
    simp only [List.length_cons, List.length_append] at hlen
    omega

/-- The first cell is not the last one if there is another. -/
theorem Chain.first_ne_last {n n' : Nat × β} (h : Chain m p (n :: n' :: l) none) :
    some n.1 ≠ (n :: n' :: l).getLast?.map (·.1) := by
  intro heq
  rw [List.getLast?_cons_cons] at heq
  obtain ⟨z, hz, haddr⟩ := Option.map_eq_some_iff.mp heq.symm
  exact (List.nodup_cons.mp h.nodup).1 (List.mem_map.mpr ⟨z, List.mem_of_getLast? hz, haddr⟩)

theorem Chain.length_le_size (h : Chain m p l none) : l.length ≤ m.size := by
  have hsub : addresses l ⊆ List.range m.size := by
    intro a ha
    obtain ⟨c, hc⟩ := h.read ha
    exact List.mem_range.mpr (Memory.lt_size_of_read hc)
  have hlen := List.Nodup.length_le_of_subset h.nodup hsub
  rwa [addresses, List.length_map, List.length_range] at hlen

/-- The cell `a` of a chain is linked to another rest. -/
theorem Chain.splice (h : Chain m p (l ++ (a, v) :: rest) none)
    (hsame : ∀ b ∈ addresses l, m'.read b = m.read b) (ha : m'.read a = some ⟨v, q⟩)
    (hrest : Chain m' q l' none) : Chain m' p (l ++ (a, v) :: l') none := by
  obtain ⟨r, hl, hr, -⟩ := chain_append.mp h
  exact chain_append.mpr ⟨r, hl.frame hsame, hr, q, ha, hrest⟩

end Chain

end Base
