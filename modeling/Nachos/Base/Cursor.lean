import Mathlib.Data.List.Basic

/-!
# Cursors

A cursor goes through the items of something: `done` says whether it is at the end, `item` is the
item where it stands, and `next` goes on. `item` and `next` may fail.

* `Yields` — the items that are in front of the cursor
* `visit_eq`, `find_eq` — a loop over a cursor with this many items fails nowhere and ends

Nothing here knows what the cursor goes through.
-/

namespace Base

structure Cursor (σ α : Type*) where
  done : σ → Bool
  item : σ → Option α
  next : σ → Option σ

namespace Cursor

variable {σ α : Type*} {c : Cursor σ α} {s : σ} {xs : List α} {fuel : Nat}

/-- The items that a loop to the end of the cursor looks at. `none`: it fails or does not end. -/
def visit (c : Cursor σ α) : Nat → σ → Option (List α)
  | 0, s => if c.done s then some [] else none
  | fuel + 1, s =>
    if c.done s then some []
    else
      (c.item s).bind fun x => (c.next s).bind fun t => (c.visit fuel t).map fun xs => x :: xs

/-- The item at which a loop stops that looks for `p`; `some none` at the end of the cursor. -/
def find (c : Cursor σ α) (p : α → Bool) : Nat → σ → Option (Option α)
  | 0, s => if c.done s then some none else none
  | fuel + 1, s =>
    if c.done s then some none
    else
      (c.item s).bind fun x =>
        if p x then some (some x) else (c.next s).bind fun t => c.find p fuel t

/-- The cursor goes through `xs` and is then at its end. -/
def Yields (c : Cursor σ α) : σ → List α → Prop
  | s, [] => c.done s = true
  | s, x :: xs => c.done s = false ∧ c.item s = some x ∧ ∃ t, c.next s = some t ∧ c.Yields t xs

theorem visit_eq (h : c.Yields s xs) (hfuel : xs.length ≤ fuel) : c.visit fuel s = some xs := by
  induction xs generalizing s fuel with
  | nil =>
    cases fuel with
    | zero => exact if_pos h
    | succ fuel => exact if_pos h
  | cons x xs ih =>
    obtain ⟨hdone, hitem, t, hnext, hrest⟩ := h
    obtain ⟨fuel, rfl⟩ := Nat.exists_eq_add_one_of_ne_zero (Nat.ne_zero_of_lt hfuel)
    rw [visit, if_neg (by simp [hdone]), hitem, Option.bind_some, hnext, Option.bind_some,
      ih hrest (Nat.le_of_succ_le_succ hfuel)]
    rfl

theorem find_eq (h : c.Yields s xs) (hfuel : xs.length ≤ fuel) (p : α → Bool) :
    c.find p fuel s = some (xs.find? p) := by
  induction xs generalizing s fuel with
  | nil =>
    cases fuel with
    | zero => exact if_pos h
    | succ fuel => exact if_pos h
  | cons x xs ih =>
    obtain ⟨hdone, hitem, t, hnext, hrest⟩ := h
    obtain ⟨fuel, rfl⟩ := Nat.exists_eq_add_one_of_ne_zero (Nat.ne_zero_of_lt hfuel)
    rw [find, if_neg (by simp [hdone]), hitem, Option.bind_some, hnext, Option.bind_some,
      ih hrest (Nat.le_of_succ_le_succ hfuel), List.find?_cons]
    cases p x <;> rfl

end Cursor

end Base
