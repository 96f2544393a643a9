import Mathlib.Data.List.Basic

/-!
# Runs of a partial step function

A component that takes step after step is given by a function `step : σ → ε → Option σ`:
`none` says that the event cannot happen in that state. `run` takes a list of events.

* `run_invariant` — what every step keeps, every run keeps
* `run_observed` — the same for a state together with a log of what happened
* `run_guarded` — the same for runs whose steps meet a condition
* `runAnswers_simulation` — step-by-step agreement of two machines that answer
* `runReplies_simulation` — the same when the first machine can come to its end
* `runReplies_relation` — the same for machines whose states are only related
* `runReplies_rel` — the same when both can come to their end, and do so together
* `runReplies_runs` — the same when the second machine is a relation
* `allStates_iff_allSteps` — a property of states that a step keeps exactly when it meets a
  condition holds along a run exactly when all its steps meet the condition
* `trail_eq` — the states that a loop goes through

Nothing here knows what the states and the events are.
-/

namespace Base

variable {σ ε : Type*} {step : σ → ε → Option σ}

/-- The state after the events `es`, or `none` when one of them cannot happen. -/
def run (step : σ → ε → Option σ) : σ → List ε → Option σ
  | s, [] => some s
  | s, e :: es => (step s e).bind fun t => run step t es

/-- `P` holds of every step of the run: of the event and the state in front of it. -/
def AllSteps (step : σ → ε → Option σ) (P : σ → ε → Prop) : σ → List ε → Prop
  | _, [] => True
  | s, e :: es => P s e ∧ ∀ t, step s e = some t → AllSteps step P t es

/-- `P` holds of every state the run goes through, the first and the last included. -/
def AllStates (step : σ → ε → Option σ) (P : σ → Prop) : σ → List ε → Prop
  | s, [] => P s
  | s, e :: es => P s ∧ ∀ t, step s e = some t → AllStates step P t es

/-- The state after the inputs `es` of a machine that always answers, and its answers. -/
def runAnswers {α : Type*} (step : σ → ε → σ × α) : σ → List ε → σ × List α
  | s, [] => (s, [])
  | s, e :: es =>
    let r := runAnswers step (step s e).1 es
    (r.1, (step s e).2 :: r.2)

/-- The same for a machine that can come to its end: `none` when one of the inputs ends it. -/
def runReplies {α : Type*} (step : σ → ε → Option (σ × α)) : σ → List ε → Option (σ × List α)
  | s, [] => some (s, [])
  | s, e :: es => (step s e).bind fun t => (runReplies step t.1 es).map fun r => (r.1, t.2 :: r.2)

/-- A run of a machine that is given by a relation: from `s` to `u`, with the answers `rs`. -/
inductive Runs {α : Type*} (R : σ → ε → α → σ → Prop) : σ → List ε → List α → σ → Prop
  | nil (s : σ) : Runs R s [] [] s
  | cons {s t u : σ} {e : ε} {es : List ε} {r : α} {rs : List α} :
      R s e r t → Runs R t es rs u → Runs R s (e :: es) (r :: rs) u

/-- The inputs meet the condition `Q`, whatever such a machine does. -/
def Admitted {α : Type*} (R : σ → ε → α → σ → Prop) (Q : σ → ε → Prop) : σ → List ε → Prop
  | _, [] => True
  | s, e :: es => Q s e ∧ ∀ r t, R s e r t → Admitted R Q t es

/-- What the steps of a run put into a log, one after the other. -/
def observed {α : Type*} (obs : σ → ε → List α) (step : σ → ε → Option σ) : σ → List ε → List α
  | _, [] => []
  | s, e :: es =>
    match step s e with
    | none => []
    | some t => obs s e ++ observed obs step t es

/-! ## run -/

@[simp] theorem run_nil (s : σ) : run step s [] = some s := rfl

theorem run_cons_eq_some {s u : σ} {e : ε} {es : List ε} :
    run step s (e :: es) = some u ↔ ∃ t, step s e = some t ∧ run step t es = some u := by
  simp [run, Option.bind_eq_some_iff]

theorem run_append_eq_some {s u : σ} {es es' : List ε} :
    run step s (es ++ es') = some u ↔ ∃ t, run step s es = some t ∧ run step t es' = some u := by
  induction es generalizing s with
  | nil => simp
  | cons e es ih =>
    rw [List.cons_append, run_cons_eq_some]
    simp only [run_cons_eq_some, ih]
    constructor
    · rintro ⟨t, ht, v, hv, hu⟩
      exact ⟨v, ⟨t, ht, hv⟩, hu⟩
    · rintro ⟨v, ⟨t, ht, hv⟩, hu⟩
      exact ⟨t, ht, v, hv, hu⟩

/-- The invariant rule. -/
theorem run_invariant {Inv : σ → Prop}
    (hstep : ∀ s e t, Inv s → step s e = some t → Inv t) {s u : σ} {es : List ε}
    (hs : Inv s) (h : run step s es = some u) : Inv u := by
  induction es generalizing s with
  | nil =>
    rw [run_nil] at h
    rw [← Option.some.inj h]
    exact hs
  | cons e es ih =>
    obtain ⟨t, ht, hrest⟩ := run_cons_eq_some.mp h
    exact ih (hstep s e t hs ht) hrest

/-! ## The log of a run -/

theorem observed_cons {α : Type*} {obs : σ → ε → List α} {s t : σ} {e : ε} (ht : step s e = some t)
    (es : List ε) : observed obs step s (e :: es) = obs s e ++ observed obs step t es := by
  simp only [observed, ht]

/-! ## Conditions along a run -/

theorem allSteps_cons {P : σ → ε → Prop} {s t : σ} {e : ε} {es : List ε}
    (ht : step s e = some t) :
    AllSteps step P s (e :: es) ↔ P s e ∧ AllSteps step P t es := by
  simp [AllSteps, ht]

theorem allSteps_of_eq_none {P : σ → ε → Prop} {s : σ} {e : ε} {es : List ε}
    (ht : step s e = none) : AllSteps step P s (e :: es) ↔ P s e := by
  simp [AllSteps, ht]

/-- A condition can be checked along a run. -/
instance decidableAllSteps (step : σ → ε → Option σ) (P : σ → ε → Prop)
    [∀ s e, Decidable (P s e)] : ∀ s es, Decidable (AllSteps step P s es)
  | _, [] => isTrue trivial
  | s, e :: es =>
    match ht : step s e with
    | none => decidable_of_iff (P s e) (allSteps_of_eq_none ht).symm
    | some t =>
      have := decidableAllSteps step P t es
      decidable_of_iff (P s e ∧ AllSteps step P t es) (allSteps_cons ht).symm

theorem allSteps_append {P : σ → ε → Prop} {s t : σ} {es es' : List ε}
    (ht : run step s es = some t) :
    AllSteps step P s (es ++ es') ↔ AllSteps step P s es ∧ AllSteps step P t es' := by
  induction es generalizing s with
  | nil =>
    obtain rfl := Option.some.inj ht
    exact (and_iff_right trivial).symm
  | cons e es ih =>
    obtain ⟨u, hu, hrest⟩ := run_cons_eq_some.mp ht
    rw [List.cons_append, allSteps_cons hu, allSteps_cons hu, ih hrest, and_assoc]

/-- A condition on the events alone. -/
theorem allSteps_of_forall {Q : ε → Prop} {s : σ} {es : List ε} (h : ∀ e ∈ es, Q e) :
    AllSteps step (fun _ e => Q e) s es := by
  induction es generalizing s with
  | nil => exact trivial
  | cons e es ih =>
    exact ⟨h e List.mem_cons_self, fun t _ => ih fun e he => h e (List.mem_cons_of_mem _ he)⟩

theorem allSteps_iff_forall {Q : ε → Prop} {s u : σ} {es : List ε} (h : run step s es = some u) :
    AllSteps step (fun _ e => Q e) s es ↔ ∀ e ∈ es, Q e := by
  refine ⟨?_, allSteps_of_forall⟩
  induction es generalizing s with
  | nil => simp
  | cons e es ih =>
    obtain ⟨t, ht, hrest⟩ := run_cons_eq_some.mp h
    rintro ⟨hq, hall⟩ e' he'
    rcases List.mem_cons.mp he' with rfl | he'
    · exact hq
    · exact ih hrest (hall t ht) e' he'

/-- The invariant rule for a state and the log that leads to it. -/
theorem run_observed_guarded {α : Type*} {obs : σ → ε → List α} {Q : σ → ε → Prop}
    {Inv : σ → List α → Prop}
    (hstep : ∀ s e t log, Inv s log → Q s e → step s e = some t → Inv t (log ++ obs s e)) {s u : σ}
    {es : List ε} {log : List α} (hs : Inv s log) (hq : AllSteps step Q s es)
    (h : run step s es = some u) : Inv u (log ++ observed obs step s es) := by
  induction es generalizing s log with
  | nil =>
    obtain rfl := Option.some.inj h
    rw [observed, List.append_nil]
    exact hs
  | cons e es ih =>
    obtain ⟨t, ht, hrest⟩ := run_cons_eq_some.mp h
    rw [observed_cons ht, ← List.append_assoc]
    exact ih (hstep s e t log hs hq.1 ht) (hq.2 t ht) hrest

theorem run_observed {α : Type*} {obs : σ → ε → List α} {Inv : σ → List α → Prop}
    (hstep : ∀ s e t log, Inv s log → step s e = some t → Inv t (log ++ obs s e)) {s u : σ}
    {es : List ε} {log : List α} (hs : Inv s log) (h : run step s es = some u) :
    Inv u (log ++ observed obs step s es) :=
  run_observed_guarded (fun s e t log hinv _ => hstep s e t log hinv) hs
    (allSteps_of_forall fun _ _ => trivial) h

/-- The invariant rule for runs whose steps meet a condition. -/
theorem run_guarded {P Q : σ → ε → Prop} {Inv : σ → Prop}
    (hstep : ∀ s e t, Inv s → Q s e → step s e = some t → Inv t ∧ P s e) {s u : σ} {es : List ε}
    (hs : Inv s) (hq : AllSteps step Q s es) (h : run step s es = some u) :
    Inv u ∧ AllSteps step P s es := by
  induction es generalizing s with
  | nil =>
    obtain rfl := Option.some.inj h
    exact ⟨hs, trivial⟩
  | cons e es ih =>
    obtain ⟨t, ht, hrest⟩ := run_cons_eq_some.mp h
    obtain ⟨hinv, hp⟩ := hstep s e t hs hq.1 ht
    obtain ⟨hu, hall⟩ := ih hinv (hq.2 t ht) hrest
    exact ⟨hu, (allSteps_cons ht).mpr ⟨hp, hall⟩⟩

/-- What follows from an invariant holds of every step, also of a last one that does not happen. -/
theorem allSteps_of_invariant {P : σ → ε → Prop} {Inv : σ → Prop}
    (hstep : ∀ s e t, Inv s → step s e = some t → Inv t) (hP : ∀ s e, Inv s → P s e) {s : σ}
    (hs : Inv s) (es : List ε) : AllSteps step P s es := by
  induction es generalizing s with
  | nil => trivial
  | cons e es ih => exact ⟨hP s e hs, fun t ht => ih (hstep s e t hs ht)⟩

theorem AllSteps.imp {P Q : σ → ε → Prop} {s : σ} {es : List ε} (hs : AllSteps step P s es)
    (h : ∀ s e, P s e → Q s e) : AllSteps step Q s es := by
  induction es generalizing s with
  | nil => trivial
  | cons e es ih => exact ⟨h s e hs.1, fun t ht => ih (hs.2 t ht)⟩

theorem allSteps_congr {P Q : σ → ε → Prop} (h : ∀ s e, P s e ↔ Q s e) {s : σ} {es : List ε} :
    AllSteps step P s es ↔ AllSteps step Q s es := by
  induction es generalizing s with
  | nil => exact Iff.rfl
  | cons e es ih => exact and_congr (h s e) (forall_congr' fun t => imp_congr_right fun _ => ih)

theorem allStates_cons {P : σ → Prop} {s t : σ} {e : ε} {es : List ε} (ht : step s e = some t) :
    AllStates step P s (e :: es) ↔ P s ∧ AllStates step P t es := by
  simp [AllStates, ht]

theorem AllStates.head {P : σ → Prop} {s : σ} {es : List ε} (h : AllStates step P s es) :
    P s := by
  cases es with
  | nil => exact h
  | cons e es => exact h.1

/--
`R` carries the property `P` along a run for as long as the steps meet the condition `Q`, and a step
that does not meet it ends in a state without `P`.
-/
theorem allStates_iff_allSteps_of {P R : σ → Prop} {Q : σ → ε → Prop} (hP : ∀ s, R s → P s)
    (hkeep : ∀ s e t, R s → step s e = some t → Q s e → R t)
    (hneed : ∀ s e t, R s → step s e = some t → P t → Q s e) {s u : σ} {es : List ε} (hs : R s)
    (h : run step s es = some u) : AllStates step P s es ↔ AllSteps step Q s es := by
  induction es generalizing s with
  | nil => exact ⟨fun _ => trivial, fun _ => hP s hs⟩
  | cons e es ih =>
    obtain ⟨t, ht, hrest⟩ := run_cons_eq_some.mp h
    rw [allSteps_cons ht, allStates_cons ht]
    constructor
    · rintro ⟨_, hall⟩
      have hq : Q s e := hneed s e t hs ht hall.head
      exact ⟨hq, (ih (hkeep s e t hs ht hq) hrest).mp hall⟩
    · rintro ⟨hq, hall⟩
      exact ⟨hP s hs, (ih (hkeep s e t hs ht hq) hrest).mpr hall⟩

/--
A property of states that a step keeps exactly when it meets a condition holds along a run exactly
when all steps meet the condition.
-/
theorem allStates_iff_allSteps {P : σ → Prop} {Q : σ → ε → Prop}
    (hstep : ∀ s e t, P s → step s e = some t → (P t ↔ Q s e)) {s u : σ} {es : List ε} (hs : P s)
    (h : run step s es = some u) : AllStates step P s es ↔ AllSteps step Q s es :=
  allStates_iff_allSteps_of (fun _ hp => hp) (fun s e t hp ht => (hstep s e t hp ht).mpr)
    (fun s e t hp ht => (hstep s e t hp ht).mp) hs h

/--
A step from a state with `Inv` meets the condition `Q` exactly when `P` holds of it, and `Inv` then
goes on to hold.
-/
theorem allStates_and_allSteps_iff {P Q : σ → ε → Prop} {Inv : σ → Prop}
    (hkeep : ∀ s e, Inv s → Q s e → P s e ∧ ∀ t, step s e = some t → Inv t)
    (hneed : ∀ s e, Inv s → P s e → Q s e) {s : σ} (hs : Inv s) (es : List ε) :
    AllStates step Inv s es ∧ AllSteps step P s es ↔ AllSteps step Q s es := by
  induction es generalizing s with
  | nil => exact iff_of_true ⟨hs, trivial⟩ trivial
  | cons e es ih =>
    constructor
    · rintro ⟨⟨_, hinv⟩, hp, hall⟩
      refine ⟨hneed s e hs hp, ?_⟩
      intro t ht
      exact (ih (hinv t ht).head).mp ⟨hinv t ht, hall t ht⟩
    · rintro ⟨hq, hall⟩
      obtain ⟨hp, hinv⟩ := hkeep s e hs hq
      have hrest := fun t ht => (ih (hinv t ht)).mpr (hall t ht)
      exact ⟨⟨hs, fun t ht => (hrest t ht).1⟩, hp, fun t ht => (hrest t ht).2⟩

/-! ## Machines that answer -/

/-- Two machines that agree step by step, through the map `abs` of states, agree on whole runs. -/
theorem runAnswers_simulation {τ α : Type*} {step : σ → ε → σ × α} {astep : τ → ε → τ × α}
    {Inv : σ → Prop} {abs : σ → τ}
    (hstep : ∀ s e, Inv s → Inv (step s e).1 ∧ astep (abs s) e = (abs (step s e).1, (step s e).2))
    {s : σ} (hs : Inv s) (es : List ε) :
    Inv (runAnswers step s es).1 ∧
      runAnswers astep (abs s) es = (abs (runAnswers step s es).1, (runAnswers step s es).2) := by
  induction es generalizing s with
  | nil => exact ⟨hs, rfl⟩
  | cons e es ih =>
    obtain ⟨hinv, heq⟩ := hstep s e hs
    obtain ⟨hinv', heq'⟩ := ih hinv
    refine ⟨hinv', ?_⟩
    simp only [runAnswers, heq, heq']

/-- A machine whose inputs and answers are those of another one under different names. -/
theorem runAnswers_map {ε' α β : Type*} (step : σ → ε → σ × α) (f : ε' → ε) (g : α → β) (s : σ)
    (es : List ε') :
    runAnswers (fun s e => ((step s (f e)).1, g (step s (f e)).2)) s es =
      ((runAnswers step s (es.map f)).1, (runAnswers step s (es.map f)).2.map g) := by
  induction es generalizing s with
  | nil => rfl
  | cons e es ih => rw [runAnswers, ih, List.map_cons, runAnswers, List.map_cons]

/--
On inputs that meet the condition `Q`, the first machine agrees with the second step by step for as
long as they meet the condition `R` as well, and comes to its end with the first one that does not.
-/
theorem runReplies_simulation {τ α : Type*} {step : σ → ε → Option (σ × α)}
    {astep : τ → ε → τ × α} {Inv : σ → Prop} {abs : σ → τ} {Q R : τ → ε → Prop}
    (hgo : ∀ s e, Inv s → Q (abs s) e → R (abs s) e →
      ∃ t, step s e = some (t, (astep (abs s) e).2) ∧ Inv t ∧ abs t = (astep (abs s) e).1)
    (hend : ∀ s e, Inv s → Q (abs s) e → ¬ R (abs s) e → step s e = none) {s : σ} (hs : Inv s)
    {es : List ε} (hq : AllSteps (fun a e => some (astep a e).1) Q (abs s) es) :
    (AllSteps (fun a e => some (astep a e).1) R (abs s) es →
      ∃ u, runReplies step s es = some (u, (runAnswers astep (abs s) es).2) ∧ Inv u ∧
        abs u = (runAnswers astep (abs s) es).1) ∧
    (¬ AllSteps (fun a e => some (astep a e).1) R (abs s) es → runReplies step s es = none) := by
  induction es generalizing s with
  | nil => exact ⟨fun _ => ⟨s, rfl, hs, rfl⟩, fun h => absurd trivial h⟩
  | cons e es ih =>
    obtain ⟨hqe, hqes⟩ := (allSteps_cons rfl).mp hq
    rw [allSteps_cons rfl]
    by_cases hr : R (abs s) e
    · obtain ⟨t, ht, hinv, habs⟩ := hgo s e hs hqe hr
      rw [← habs] at hqes ⊢
      obtain ⟨hgoes, hends⟩ := ih hinv hqes
      constructor
      · rintro ⟨_, hres⟩
        obtain ⟨u, hu, hinvu, habsu⟩ := hgoes hres
        refine ⟨u, ?_, hinvu, ?_⟩
        · simp only [runReplies, ht, Option.bind_some, hu, Option.map_some, runAnswers, ← habs]
        · simp only [runAnswers, ← habs, habsu]
      · intro hnot
        have hnone := hends fun hres => hnot ⟨hr, hres⟩
        simp only [runReplies, ht, Option.bind_some, hnone, Option.map_none]
    · refine ⟨fun h => absurd h.1 hr, fun _ => ?_⟩
      simp only [runReplies, hend s e hs hqe hr, Option.bind_none]

/--
On inputs that the second machine admits, the first one comes to no end, gives the same answers and
stays in related states.
-/
theorem runReplies_relation {τ α : Type*} {step : σ → ε → Option (σ × α)} {astep : τ → ε → τ × α}
    {Rel : σ → τ → Prop} {Q : τ → ε → Prop}
    (hstep : ∀ s a e, Rel s a → Q a e →
      ∃ t, step s e = some (t, (astep a e).2) ∧ Rel t (astep a e).1) {s : σ} {a : τ}
    (hs : Rel s a) {es : List ε} (hq : AllSteps (fun a e => some (astep a e).1) Q a es) :
    ∃ u, runReplies step s es = some (u, (runAnswers astep a es).2) ∧
      Rel u (runAnswers astep a es).1 := by
  induction es generalizing s a with
  | nil => exact ⟨s, rfl, hs⟩
  | cons e es ih =>
    obtain ⟨hqe, hqes⟩ := (allSteps_cons rfl).mp hq
    obtain ⟨t, ht, hrel⟩ := hstep s a e hs hqe
    obtain ⟨u, hu, hrelu⟩ := ih hrel hqes
    refine ⟨u, ?_, hrelu⟩
    simp only [runReplies, ht, Option.bind_some, hu, Option.map_some, runAnswers]

/-- Two replies with the same answer and related states. -/
def SameReply {τ α : Type*} (Rel : σ → τ → Prop) (r : σ × α) (r' : τ × α) : Prop :=
  Rel r.1 r'.1 ∧ r.2 = r'.2

theorem optionRel_cases {α β : Type*} {R : α → β → Prop} {x : Option α} {y : Option β}
    (h : Option.Rel R x y) : (x = none ∧ y = none) ∨ ∃ a b, x = some a ∧ y = some b ∧ R a b := by
  cases h with
  | none => exact Or.inl ⟨rfl, rfl⟩
  | some h => exact Or.inr ⟨_, _, rfl, rfl, h⟩

/-- Two machines that answer alike, or come to their end together, do so on whole runs. -/
theorem runReplies_rel {τ α : Type*} {step : σ → ε → Option (σ × α)}
    {step' : τ → ε → Option (τ × α)} {Rel : σ → τ → Prop}
    (hstep : ∀ s t e, Rel s t → Option.Rel (SameReply Rel) (step s e) (step' t e)) {s : σ} {t : τ}
    (h : Rel s t) (es : List ε) :
    Option.Rel (SameReply Rel) (runReplies step s es) (runReplies step' t es) := by
  induction es generalizing s t with
  | nil => exact .some ⟨h, rfl⟩
  | cons e es ih =>
    rcases optionRel_cases (hstep s t e h) with ⟨hs, ht⟩ | ⟨r, r', hs, ht, hrel, hanswer⟩
    · simp only [runReplies, hs, ht, Option.bind_none]
      exact .none
    · simp only [runReplies, hs, ht, Option.bind_some]
      rcases optionRel_cases (ih hrel) with ⟨hu, hv⟩ | ⟨u, v, hu, hv, hrel', hanswers⟩
      · rw [hu, hv]
        exact .none
      · rw [hu, hv]
        exact .some ⟨hrel', congrArg₂ List.cons hanswer hanswers⟩

/--
On inputs that a machine given by a relation admits, the first machine comes to no end, and what it
does is one of the runs of the other.
-/
theorem runReplies_runs {τ α : Type*} {step : σ → ε → Option (σ × α)} {R : τ → ε → α → τ → Prop}
    {Rel : σ → τ → Prop} {Q : τ → ε → Prop}
    (hstep : ∀ s a e, Rel s a → Q a e →
      ∃ t r b, step s e = some (t, r) ∧ R a e r b ∧ Rel t b) {s : σ} {a : τ} (hs : Rel s a)
    {es : List ε} (hq : Admitted R Q a es) :
    ∃ u rs b, runReplies step s es = some (u, rs) ∧ Runs R a es rs b ∧ Rel u b := by
  induction es generalizing s a with
  | nil => exact ⟨s, [], a, rfl, .nil a, hs⟩
  | cons e es ih =>
    obtain ⟨t, r, b, ht, hr, hrel⟩ := hstep s a e hs hq.1
    obtain ⟨u, rs, c, hu, hruns, hrelu⟩ := ih hrel (hq.2 r b hr)
    refine ⟨u, r :: rs, c, ?_, .cons hr hruns, hrelu⟩
    simp only [runReplies, ht, Option.bind_some, hu, Option.map_some]

/-! ## The states of a loop -/

/-- The states after each of `n` turns of a loop, where `loop i` is the state after `i` turns. -/
def trail (loop : Nat → Option σ) : Nat → Option (List σ)
  | 0 => some []
  | n + 1 => do
    let seen ← trail loop n
    let s ← loop (n + 1)
    return seen ++ [s]

theorem trail_eq {loop : Nat → Option σ} {n : Nat}
    (h : ∀ i < n, ∃ s, loop (i + 1) = some s) :
    ∃ seen, trail loop n = some seen ∧ (∀ s ∈ seen, ∃ i < n, loop (i + 1) = some s) ∧
      ∀ s₀ s, loop 0 = some s₀ → loop n = some s → seen.getLastD s₀ = s := by
  induction n with
  | zero =>
    refine ⟨[], rfl, nofun, fun s₀ s hs₀ hs => ?_⟩
    exact Option.some.inj (hs₀.symm.trans hs)
  | succ n ih =>
    obtain ⟨seen, hseen, hmem, -⟩ := ih fun i hi => h i (by omega)
    obtain ⟨s, hs⟩ := h n (Nat.lt_succ_self n)
    refine ⟨seen ++ [s], ?_, fun t ht => ?_, fun s₀ s' _ hs' => ?_⟩
    · rw [trail, hseen, hs]
      rfl
    · rcases List.mem_append.mp ht with hold | hnew
      · obtain ⟨i, hi, hloop⟩ := hmem t hold
        exact ⟨i, by omega, hloop⟩
      · obtain rfl := List.mem_singleton.mp hnew
        exact ⟨n, Nat.lt_succ_self n, hs⟩
    · rw [List.getLastD_concat]
      exact Option.some.inj (hs.symm.trans hs')

/-- The last one of two trails, one after the other. -/
theorem getLastD_append (seen seen' : List σ) (s : σ) :
    (seen ++ seen').getLastD s = seen'.getLastD (seen.getLastD s) := by
  induction seen generalizing s with
  | nil => rfl
  | cons t seen ih => rw [List.cons_append, List.getLastD_cons, List.getLastD_cons, ih]

end Base
