import Mathlib.Data.List.Nodup
import Mathlib.Order.Defs.Unbundled

/-!
# Sorting that keeps ties in order

A list is kept sorted by a total preorder `r`, while elements come and go. Elements that tie stay in
the order in which they came.

* `StableSort.insert` — a new element goes behind those that are not greater
* `StableSort.filter`, `StableSort.erase` — elements go
* `StableSort.find_min` — the first element is the minimum that came first
-/

namespace Base

variable {α : Type*} {r : α → α → Prop} [DecidableRel r]

/-- The elements that tie with `x`, in order. -/
def tiesOf (r : α → α → Prop) [DecidableRel r] (x : α) (l : List α) : List α :=
  l.filter fun y => r x y ∧ r y x

/-- `l` has the elements of `came`, sorted, and ties as there. -/
structure StableSort (r : α → α → Prop) [DecidableRel r] (came l : List α) : Prop where
  sorted : l.Pairwise r
  perm : l.Perm came
  ties : ∀ x, tiesOf r x l = tiesOf r x came

namespace StableSort

variable {came l pre post : List α} {x m : α}

theorem nil : StableSort r [] [] := ⟨List.Pairwise.nil, List.Perm.nil, fun _ => rfl⟩

theorem filter (h : StableSort r came l) (p : α → Bool) :
    StableSort r (came.filter p) (l.filter p) where
  sorted := h.sorted.filter p
  perm := h.perm.filter p
  ties := fun x => by
    have heq := congrArg (List.filter p) (h.ties x)
    rw [tiesOf, tiesOf, List.filter_comm, List.filter_comm p] at heq
    exact heq

theorem erase [DecidableEq α] (h : StableSort r came l) (hnodup : came.Nodup) (x : α) :
    StableSort r (came.erase x) (l.erase x) := by
  rw [hnodup.erase_eq_filter, (h.perm.nodup_iff.mpr hnodup).erase_eq_filter]
  exact h.filter _

variable [Std.Total r]

theorem head_le (h : StableSort r came (m :: l)) : ∀ y ∈ came, r m y := by
  intro y hy
  rcases List.mem_cons.mp (h.perm.mem_iff.mpr hy) with rfl | hy
  · exact (Std.Total.total y y).elim id id
  · exact (List.pairwise_cons.mp h.sorted).1 y hy

variable [IsTrans α r]

theorem insert (h : StableSort r came (pre ++ post)) (hpre : ∀ y ∈ pre, r y x)
    (hpost : ∀ y ∈ post, ¬ r y x) : StableSort r (came ++ [x]) (pre ++ x :: post) where
  sorted := by
    obtain ⟨hspre, hspost, hbetween⟩ := List.pairwise_append.mp h.sorted
    have hx : ∀ y ∈ post, r x y := fun y hy => (Std.Total.total x y).resolve_right (hpost y hy)
    refine List.pairwise_append.mpr ⟨hspre, List.pairwise_cons.mpr ⟨hx, hspost⟩, ?_⟩
    intro y hy z hz
    rcases List.mem_cons.mp hz with rfl | hz
    · exact hpre y hy
    · exact hbetween y hy z hz
  perm := List.perm_middle.trans ((h.perm.cons x).trans (List.perm_append_singleton x came).symm)
  ties := fun z => by
    have hties := h.ties z
    simp only [tiesOf, List.filter_append, List.filter_cons, List.filter_nil] at hties ⊢
    split
    · next hz =>
      have hnone : post.filter (fun y => r z y ∧ r y z) = [] := by
        refine List.filter_eq_nil_iff.mpr fun y hy htie => ?_
        have hzx := (of_decide_eq_true hz).1
        exact hpost y hy (IsTrans.trans _ _ _ (of_decide_eq_true htie).2 hzx)
      rw [hnone, List.append_nil] at hties
      rw [hnone, hties]
    · rw [hties, List.append_nil]

theorem find_min (h : StableSort r came (m :: l)) :
    came.find? (fun x => ∀ y ∈ came, r x y) = some m := by
  have hmin := h.head_le
  have hm : m ∈ came := h.perm.mem_iff.mp List.mem_cons_self
  have hfilter : came.filter (fun x => ∀ y ∈ came, r x y) = tiesOf r m came := by
    refine List.filter_congr fun x hx => ?_
    rw [Bool.eq_iff_iff, decide_eq_true_iff, decide_eq_true_iff]
    constructor
    · exact fun hall => ⟨hmin x hx, hall m hm⟩
    · exact fun htie y hy => IsTrans.trans _ _ _ htie.2 (hmin y hy)
  rw [← List.head?_filter, hfilter, ← h.ties m, tiesOf, List.filter_cons_of_pos]
  · rfl
  · exact decide_eq_true ⟨hmin m hm, hmin m hm⟩

end StableSort

end Base
