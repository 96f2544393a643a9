import Mathlib.Data.List.Nodup
import Mathlib.Logic.Function.Basic

/-!
# Lists of what is at a place

Things `τ` are moved between places `π`; `place t` is the place of `t`. `Lists l place q` says that
the list `l` holds exactly the things at place `q`, each of them once. A thing that moves is one
update of `place`, and the lists of the place it leaves and of the one it goes to have to follow.

Nothing here knows what the things and the places are.
-/

namespace Base

variable {τ π : Type*}

/-- The list holds exactly what is at place `q`, each thing once. -/
structure Lists (l : List τ) (place : τ → π) (q : π) : Prop where
  nodup : l.Nodup
  mem : ∀ t, t ∈ l ↔ place t = q

namespace Lists

variable {l : List τ} {place : τ → π} {q q' : π} {t : τ}

theorem head (h : Lists (t :: l) place q) : place t = q := (h.mem t).mp List.mem_cons_self

/-- Two places have nothing in common. -/
theorem disjoint {l' : List τ} (h : Lists l place q) (h' : Lists l' place q') (hmem : t ∈ l)
    (hmem' : t ∈ l') : q = q' :=
  ((h.mem t).mp hmem).symm.trans ((h'.mem t).mp hmem')

variable [DecidableEq τ]

/-- What arrives is appended. -/
theorem append (h : Lists l place q) (ht : place t ≠ q) :
    Lists (l ++ [t]) (Function.update place t q) q where
  nodup := by
    have hnot : t ∉ l := fun hmem => ht ((h.mem t).mp hmem)
    exact List.Nodup.append h.nodup (List.nodup_singleton t)
      (List.disjoint_singleton.mpr hnot)
  mem := by
    intro u
    rw [List.mem_append, List.mem_singleton, h.mem]
    by_cases hu : u = t <;> simp [hu]

/-- What leaves was in front. -/
theorem tail (h : Lists (t :: l) place q) (hq : q' ≠ q) :
    Lists l (Function.update place t q') q where
  nodup := (List.nodup_cons.mp h.nodup).2
  mem := by
    intro u
    have hnot : t ∉ l := (List.nodup_cons.mp h.nodup).1
    by_cases hu : u = t
    · subst hu
      simp [hnot, hq]
    · rw [Function.update_of_ne hu, ← h.mem u, List.mem_cons]
      simp [hu]

/-- A move between two other places. -/
theorem other (h : Lists l place q) (ht : place t ≠ q) (hq : q' ≠ q) :
    Lists l (Function.update place t q') q where
  nodup := h.nodup
  mem := by
    intro u
    rw [h.mem]
    by_cases hu : u = t
    · subst hu
      simp [ht, hq]
    · rw [Function.update_of_ne hu]

end Lists

end Base
