import Mathlib.Data.List.Basic

/-!
# Loops that move blocks

A loop reads a block from a source and hands it on to a sink, until the source has nothing left.
Reading and handing on may fail.

* `blockLoop` — the loop
* `blockLoop_eq` — all that the source had goes to the sink, in blocks of any length

Nothing here knows what the source and the sink are.
-/

namespace Base

variable {σ τ β : Type*}

/-- `none`: reading or handing on fails, or the loop goes on after `fuel` rounds. -/
def blockLoop (read : σ → Option (List β × σ)) (write : τ → List β → Option τ) :
    Nat → σ → τ → Option (σ × τ)
  | 0, _, _ => none
  | fuel + 1, s, t =>
    (read s).bind fun r =>
      if r.1.isEmpty then some (r.2, t)
      else (write t r.1).bind fun t => blockLoop read write fuel r.2 t

variable {read : σ → Option (List β × σ)} {write : τ → List β → Option τ}
  {source : σ → List β → Prop} {sink : τ → List β → Prop} {n : Nat} {all : List β}

/-- `source s rest` says what is left in the source, `sink t out` what the sink has got. -/
theorem blockLoop_eq (hn : 0 < n)
    (hread : ∀ s rest, source s rest →
      ∃ s', read s = some (rest.take n, s') ∧ source s' (rest.drop n))
    (hwrite : ∀ t out block, sink t out → out ++ block <+: all → block.length ≤ n →
      ∃ t', write t block = some t' ∧ sink t' (out ++ block))
    {s : σ} {t : τ} {out rest : List β} (hs : source s rest) (ht : sink t out)
    (hall : out ++ rest = all) {fuel : Nat} (hfuel : rest.length < fuel) :
    ∃ s' t', blockLoop read write fuel s t = some (s', t') ∧ source s' [] ∧ sink t' all := by
  induction fuel generalizing s t out rest with
  | zero => exact absurd hfuel (Nat.not_lt_zero _)
  | succ fuel ih =>
    obtain ⟨s', hblock, hs'⟩ := hread s rest hs
    rw [blockLoop, hblock, Option.bind_some]
    dsimp only
    cases rest with
    | nil =>
      rw [List.append_nil] at hall
      rw [List.drop_nil] at hs'
      rw [List.take_nil, ← hall]
      exact ⟨s', t, rfl, hs', ht⟩
    | cons x rest =>
      have hne : ((x :: rest).take n).isEmpty = false := by
        rw [← Nat.sub_add_cancel hn]
        rfl
      have hsplit : (out ++ (x :: rest).take n) ++ (x :: rest).drop n = all := by
        rw [List.append_assoc, List.take_append_drop, hall]
      obtain ⟨t', hput, ht'⟩ := hwrite t out _ ht ⟨_, hsplit⟩ (List.length_take_le _ _)
      rw [hne, hput]
      refine ih hs' ht' hsplit ?_
      rw [List.length_drop]
      have hpos := List.length_pos_of_ne_nil (List.cons_ne_nil x rest)
      omega

end Base
