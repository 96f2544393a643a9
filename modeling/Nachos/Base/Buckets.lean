import Mathlib.Data.List.Forall2
import Mathlib.Data.List.Nodup

/-!
# Items in buckets

The contents of numbered buckets are a list of lists. Every item has its place, the number of the
bucket it belongs into.

* `InPlace` — every item is in the bucket it belongs into
* `put_perm`, `take_perm` — one item more, and one item less
* `find?_key_iff` — what is found under a key if there are no two items with one key
-/

namespace Base

variable {α κ : Type*} {place : α → Nat} {contents : List (List α)} {i : Nat} {xs ys : List α}
  {x : α}

def InPlace (place : α → Nat) (contents : List (List α)) : Prop :=
  ∀ i xs, contents[i]? = some xs → ∀ x ∈ xs, place x = i

theorem inPlace_replicate (place : α → Nat) (n : Nat) : InPlace place (List.replicate n []) := by
  intro i xs hget x hx
  rw [List.eq_of_mem_replicate (List.mem_of_getElem? hget)] at hx
  cases hx

theorem InPlace.set (h : InPlace place contents) (hys : ∀ x ∈ ys, place x = i) :
    InPlace place (contents.set i ys) := by
  intro j zs hget x hx
  rw [List.getElem?_set] at hget
  split at hget
  · next hij =>
    split at hget
    · obtain rfl := Option.some.inj hget
      exact hij ▸ hys x hx
    · cases hget
  · exact h j zs hget x hx

theorem InPlace.mem_iff (h : InPlace place contents) (hget : contents[i]? = some xs) :
    x ∈ xs ↔ x ∈ contents.flatten ∧ place x = i := by
  constructor
  · intro hx
    exact ⟨List.mem_flatten.mpr ⟨xs, List.mem_of_getElem? hget, hx⟩, h i xs hget x hx⟩
  · rintro ⟨hx, rfl⟩
    obtain ⟨zs, hzs, hx⟩ := List.mem_flatten.mp hx
    obtain ⟨j, hj⟩ := List.getElem?_of_mem hzs
    obtain rfl := h j zs hj x hx
    obtain rfl := Option.some.inj (hj.symm.trans hget)
    exact hx

/-! ## One bucket and the others -/

theorem flatten_perm (hget : contents[i]? = some xs) :
    contents.flatten.Perm (xs ++ (contents.eraseIdx i).flatten) := by
  induction contents generalizing i with
  | nil => cases hget
  | cons zs contents ih =>
    cases i with
    | zero =>
      obtain rfl := Option.some.inj hget
      exact List.Perm.refl _
    | succ i =>
      rw [List.eraseIdx_cons_succ, List.flatten_cons, List.flatten_cons]
      exact ((ih hget).append_left zs).trans (List.perm_append_comm_assoc zs xs _)

theorem flatten_set_perm (hget : contents[i]? = some xs) (ys : List α) :
    (contents.set i ys).flatten.Perm (ys ++ (contents.eraseIdx i).flatten) := by
  obtain ⟨hlt, -⟩ := List.getElem?_eq_some_iff.mp hget
  have hperm := flatten_perm (List.getElem?_set_self (a := ys) hlt)
  rwa [List.eraseIdx_set_eq] at hperm

theorem put_perm (hget : contents[i]? = some xs) (x : α) :
    (contents.set i (xs ++ [x])).flatten.Perm (x :: contents.flatten) := by
  refine (flatten_set_perm hget _).trans ?_
  rw [List.append_assoc, List.singleton_append]
  exact List.perm_middle.trans ((flatten_perm hget).symm.cons x)

theorem take_perm [DecidableEq α] (hget : contents[i]? = some xs) (hx : x ∈ xs) :
    contents.flatten.Perm (x :: (contents.set i (xs.erase x)).flatten) :=
  (flatten_perm hget).trans <|
    ((List.perm_cons_erase hx).append_right _).trans ((flatten_set_perm hget _).symm.cons x)

/-! ## Keys -/

theorem find?_key_iff [DecidableEq κ] {key : α → κ} (hkeys : (xs.map key).Nodup) {k : κ} :
    xs.find? (fun y => k = key y) = some x ↔ x ∈ xs ∧ key x = k := by
  constructor
  · intro hfind
    have hkey := List.find?_some hfind
    exact ⟨List.mem_of_find?_eq_some hfind, (of_decide_eq_true hkey).symm⟩
  · rintro ⟨hx, rfl⟩
    cases hfind : xs.find? fun y => key x = key y with
    | none => exact absurd (decide_eq_true rfl) (List.find?_eq_none.mp hfind x hx)
    | some y =>
      have hkey := List.find?_some hfind
      rw [List.inj_on_of_nodup_map hkeys hx (List.mem_of_find?_eq_some hfind)
        (of_decide_eq_true hkey)]

/-! ## Buckets and what represents them -/

theorem forall₂_getElem? {β γ : Type*} {R : β → γ → Prop} {buckets : List β} {contents : List γ}
    {i : Nat} (h : List.Forall₂ R buckets contents) (hlt : i < buckets.length) :
    ∃ b c, buckets[i]? = some b ∧ contents[i]? = some c ∧ R b c := by
  have hlt' : i < contents.length := h.length_eq ▸ hlt
  refine ⟨buckets[i], contents[i], List.getElem?_eq_getElem hlt, List.getElem?_eq_getElem hlt', ?_⟩
  exact h.get hlt hlt'

theorem forall₂_set {β γ : Type*} {R : β → γ → Prop} {buckets : List β} {contents : List γ}
    {b : β} {c : γ} (h : List.Forall₂ R buckets contents) (hb : R b c) (i : Nat) :
    List.Forall₂ R (buckets.set i b) (contents.set i c) := by
  induction h generalizing i with
  | nil => exact .nil
  | cons hhead htail ih =>
    cases i with
    | zero => exact .cons hb htail
    | succ i => exact .cons hhead (ih i)

end Base
