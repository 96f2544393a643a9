import Mathlib.Data.List.Basic

/-!
# Logs of writes

A program that writes to memory is described by the list of its writes, oldest first. An address
holds the value of the last write to it, or what it held before when there is none. Addresses are
arbitrary, so a log can be kept of a program before it is known where its writes go.

* `written` — the last value written to an address
* `writeAll_apply` — memory after a log
* `written_writeFrom` — a run of values written to consecutive addresses
-/

namespace Base

/-- `value` is written at `addr`. -/
structure Write (ι β : Type*) where
  addr : ι
  value : β
deriving DecidableEq

variable {ι κ β : Type*}

/-- The last value written to the address, if any. -/
def written [DecidableEq ι] : List (Write ι β) → ι → Option β
  | [], _ => none
  | w :: ws, a => (written ws a).or (if w.addr = a then some w.value else none)

/-- The memory `mem` after the writes `ws`, where cell `k` is at address `loc k`. -/
def writeAll [DecidableEq ι] (loc : κ → ι) (mem : κ → β) (ws : List (Write ι β)) : κ → β :=
  ws.foldl (fun mem w k => if w.addr = loc k then w.value else mem k) mem

/-- The values are written to consecutive addresses. -/
def writeFrom (addr : Int) : List β → List (Write Int β)
  | [] => []
  | b :: values => { addr := addr, value := b } :: writeFrom (addr + 1) values

section Logs

variable [DecidableEq ι]

theorem written_append (ws vs : List (Write ι β)) (a : ι) :
    written (ws ++ vs) a = (written vs a).or (written ws a) := by
  induction ws with
  | nil => simp [written]
  | cons w ws ih => rw [List.cons_append, written, written, ih, Option.or_assoc]

theorem written_eq_none_iff {ws : List (Write ι β)} {a : ι} :
    written ws a = none ↔ ∀ w ∈ ws, w.addr ≠ a := by
  induction ws with
  | nil => simp [written]
  | cons w ws ih =>
    rw [written, Option.or_eq_none_iff, ih, List.forall_mem_cons, and_comm]
    simp

theorem exists_mem_of_written {ws : List (Write ι β)} {a : ι} {b : β} (h : written ws a = some b) :
    ∃ w ∈ ws, w.addr = a ∧ w.value = b := by
  induction ws with
  | nil => cases h
  | cons w ws ih =>
    rw [written, Option.or_eq_some_iff] at h
    rcases h with hlater | ⟨-, hfirst⟩
    · obtain ⟨v, hv, hrest⟩ := ih hlater
      exact ⟨v, List.mem_cons_of_mem _ hv, hrest⟩
    · split at hfirst
      · next haddr => exact ⟨w, List.mem_cons_self, haddr, Option.some.inj hfirst⟩
      · cases hfirst

/-- A cell holds the last value written to it. -/
theorem writeAll_apply (loc : κ → ι) (mem : κ → β) (ws : List (Write ι β)) (k : κ) :
    writeAll loc mem ws k = (written ws (loc k)).getD (mem k) := by
  induction ws generalizing mem with
  | nil => rfl
  | cons w ws ih =>
    rw [writeAll, List.foldl_cons]
    refine (ih _).trans ?_
    rw [written]
    cases written ws (loc k) with
    | some b => simp
    | none => by_cases h : w.addr = loc k <;> simp [h]

end Logs

/-! ## Consecutive addresses -/

theorem mem_writeFrom {addr : Int} {values : List β} {w : Write Int β} :
    w ∈ writeFrom addr values ↔
      ∃ (j : Nat) (b : β), values[j]? = some b ∧ w = { addr := addr + j, value := b } := by
  induction values generalizing addr with
  | nil => simp [writeFrom]
  | cons b values ih =>
    rw [writeFrom, List.mem_cons, ih]
    constructor
    · rintro (rfl | ⟨j, c, hc, rfl⟩)
      · exact ⟨0, b, rfl, by simp⟩
      · refine ⟨j + 1, c, hc, ?_⟩
        rw [show addr + 1 + (j : Int) = addr + ((j + 1 : Nat) : Int) by omega]
    · rintro ⟨j, c, hc, rfl⟩
      cases j with
      | zero =>
        obtain rfl := Option.some.inj hc
        exact Or.inl (by simp)
      | succ j =>
        refine Or.inr ⟨j, c, hc, ?_⟩
        rw [show addr + 1 + (j : Int) = addr + ((j + 1 : Nat) : Int) by omega]

theorem written_writeFrom (addr : Int) (values : List β) (a : Int) :
    written (writeFrom addr values) a = if addr ≤ a then values[(a - addr).toNat]? else none := by
  induction values generalizing addr with
  | nil => simp [writeFrom, written]
  | cons b values ih =>
    rw [writeFrom, written, ih]
    show (if addr + 1 ≤ a then _ else none).or (if addr = a then some b else none) = _
    by_cases hle : addr + 1 ≤ a
    · -- the address is behind the first one
      have hnat : (a - addr).toNat = (a - (addr + 1)).toNat + 1 := by omega
      rw [if_pos hle, if_pos (show addr ≤ a by omega), if_neg (show addr ≠ a by omega), hnat,
        List.getElem?_cons_succ, Option.or_none]
    · rw [if_neg hle, Option.none_or]
      by_cases heq : addr = a
      · subst heq
        simp
      · rw [if_neg heq, if_neg (show ¬ addr ≤ a by omega)]

end Base
