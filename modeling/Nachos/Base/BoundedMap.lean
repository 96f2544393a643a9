import Nachos.Base.Run
import Mathlib.Data.Finmap

/-!
# Bounded maps

A map that takes at most `capacity` keys: an addition under a key that is there already, or to a
full map, is refused. Elements that are kept in a list, in any order, are such a map as long as no
two of them have the same key.

* `BoundedMap.step` — adding, removing and looking up
* `BoundedMap.lookup_run` — what is bound is what was added last and not removed since
* `toFinmap` — a list of elements as a map
-/

namespace Base

variable {κ β : Type*} [DecidableEq κ]

namespace BoundedMap

inductive Op (κ β : Type*) where
  | add (key : κ) (value : β)
  | remove (key : κ)
  | find (key : κ)

inductive Answer (β : Type*) where
  | done (b : Bool)
  | found (value : Option β)

def Op.key : Op κ β → κ
  | .add key _ => key
  | .remove key => key
  | .find key => key

/-- One call. -/
def step (capacity : Nat) (m : Finmap fun _ : κ => β) :
    Op κ β → (Finmap fun _ : κ => β) × Answer β
  | .add key value =>
    if key ∉ m ∧ m.keys.card < capacity then (m.insert key value, .done true)
    else (m, .done false)
  | .remove key => if key ∈ m then (m.erase key, .done true) else (m, .done false)
  | .find key => (m, .found (m.lookup key))

/-- What an answered call makes of the binding of the key `k`. -/
def rebind (k : κ) (bound : Option β) : Op κ β × Answer β → Option β
  | (.add key value, .done true) => if key = k then some value else bound
  | (.remove key, .done true) => if key = k then none else bound
  | _ => bound

/--
The value of the last successful addition under the key `k` that no removal came after, by the calls
and their answers.
-/
def lastAdded (k : κ) (calls : List (Op κ β × Answer β)) : Option β := calls.foldl (rebind k) none

variable {capacity : Nat} {m : Finmap fun _ : κ => β}

theorem step_add {key : κ} (value : β) (h : key ∉ m ∧ m.keys.card < capacity) :
    step capacity m (.add key value) = (m.insert key value, .done true) :=
  if_pos h

theorem step_add_refused {key : κ} (value : β) (h : ¬ (key ∉ m ∧ m.keys.card < capacity)) :
    step capacity m (.add key value) = (m, .done false) :=
  if_neg h

theorem step_remove {key : κ} (h : key ∈ m) :
    step capacity m (.remove key) = (m.erase key, .done true) :=
  if_pos h

theorem step_remove_refused {key : κ} (h : key ∉ m) :
    step capacity m (.remove key) = (m, .done false) :=
  if_neg h

theorem lookup_step (op : Op κ β) (k : κ) :
    (step capacity m op).1.lookup k = rebind k (m.lookup k) (op, (step capacity m op).2) := by
  cases op with
  | add key value =>
    by_cases h : key ∉ m ∧ m.keys.card < capacity
    · rw [step_add value h]
      by_cases hk : key = k
      · rw [rebind, if_pos hk, ← hk, Finmap.lookup_insert]
      · rw [rebind, if_neg hk, Finmap.lookup_insert_of_ne _ (Ne.symm hk)]
    · rw [step_add_refused value h]
      rfl
  | remove key =>
    by_cases h : key ∈ m
    · rw [step_remove h]
      by_cases hk : key = k
      · rw [rebind, if_pos hk, ← hk, Finmap.lookup_erase]
      · rw [rebind, if_neg hk, Finmap.lookup_erase_ne (Ne.symm hk)]
    · rw [step_remove_refused h]
      rfl
  | find key => rfl

/-- A call does not touch the other keys. -/
theorem lookup_step_of_ne {op : Op κ β} {k : κ} (h : op.key ≠ k) :
    (step capacity m op).1.lookup k = m.lookup k := by
  rw [lookup_step]
  unfold rebind
  split
  next key value heq =>
    obtain ⟨rfl, -⟩ := Prod.mk.inj heq
    exact if_neg h
  next key heq =>
    obtain ⟨rfl, -⟩ := Prod.mk.inj heq
    exact if_neg h
  next => rfl

theorem lookup_run (m : Finmap fun _ : κ => β) (ops : List (Op κ β)) (k : κ) :
    (runAnswers (step capacity) m ops).1.lookup k =
      (ops.zip (runAnswers (step capacity) m ops).2).foldl (rebind k) (m.lookup k) := by
  induction ops generalizing m with
  | nil => rfl
  | cons op ops ih =>
    rw [runAnswers, List.zip_cons_cons, List.foldl_cons, ← lookup_step]
    exact ih _

/-- From the empty map on. -/
theorem lookup_run_empty (ops : List (Op κ β)) (k : κ) :
    (runAnswers (step capacity) ∅ ops).1.lookup k =
      lastAdded k (ops.zip (runAnswers (step capacity) ∅ ops).2) := by
  rw [lookup_run, Finmap.lookup_empty]
  rfl

end BoundedMap

/-! ## Lists of elements -/

section

variable {α : Type*} (key : α → κ) (value : α → β)

/-- The map of the elements of a list. -/
def toFinmap (l : List α) : Finmap fun _ : κ => β :=
  (l.map fun a => (⟨key a, value a⟩ : Sigma fun _ : κ => β)).toFinmap

variable {key value} {l l' : List α}

theorem toFinmap_cons (a : α) (l : List α) :
    toFinmap key value (a :: l) = (toFinmap key value l).insert (key a) (value a) :=
  Finmap.toFinmap_cons _ _ _

omit [DecidableEq κ] in
theorem nodupKeys_map (h : (l.map key).Nodup) :
    (l.map fun a => (⟨key a, value a⟩ : Sigma fun _ : κ => β)).NodupKeys := by
  unfold List.NodupKeys List.keys
  rw [List.map_map]
  exact h

/-- The order of the elements does not matter. -/
theorem toFinmap_perm (h : (l.map key).Nodup) (hperm : l.Perm l') :
    toFinmap key value l = toFinmap key value l' := by
  refine Finmap.ext_lookup fun k => ?_
  unfold toFinmap
  rw [Finmap.dlookup_list_toFinmap, Finmap.dlookup_list_toFinmap]
  exact List.perm_dlookup k (nodupKeys_map h) (hperm.map _)

theorem mem_toFinmap {k : κ} : k ∈ toFinmap key value l ↔ ∃ a ∈ l, key a = k := by
  unfold toFinmap
  rw [Finmap.mem_list_toFinmap]
  constructor
  · rintro ⟨v, hv⟩
    obtain ⟨a, ha, heq⟩ := List.mem_map.mp hv
    exact ⟨a, ha, congrArg Sigma.fst heq⟩
  · rintro ⟨a, ha, rfl⟩
    exact ⟨value a, List.mem_map.mpr ⟨a, ha, rfl⟩⟩

theorem card_keys_toFinmap (h : (l.map key).Nodup) :
    (toFinmap key value l).keys.card = l.length := by
  have hkeys : (toFinmap key value l).keys = (l.map key).toFinset := by
    ext k
    rw [Finmap.mem_keys, mem_toFinmap, List.mem_toFinset, List.mem_map]
  rw [hkeys, List.toFinset_card_of_nodup h, List.length_map]

theorem lookup_toFinmap {a : α} (h : (l.map key).Nodup) (ha : a ∈ l) :
    (toFinmap key value l).lookup (key a) = some (value a) := by
  unfold toFinmap
  rw [Finmap.dlookup_list_toFinmap]
  exact List.mem_dlookup (nodupKeys_map h) (List.mem_map.mpr ⟨a, ha, rfl⟩)

theorem toFinmap_congr {value' : α → β} (h : ∀ a ∈ l, value' a = value a) :
    toFinmap key value' l = toFinmap key value l := by
  unfold toFinmap
  rw [List.map_congr_left fun a ha => congrArg (Sigma.mk (key a)) (h a ha)]

/-- The value of one element changes. -/
theorem toFinmap_update {value' : α → β} {a : α} (h : (l.map key).Nodup) (ha : a ∈ l)
    (hothers : ∀ b ∈ l, b ≠ a → value' b = value b) :
    toFinmap key value' l = (toFinmap key value l).insert (key a) (value' a) := by
  refine Finmap.ext_lookup fun k => ?_
  by_cases hk : k = key a
  · rw [hk, Finmap.lookup_insert, lookup_toFinmap h ha]
  · rw [Finmap.lookup_insert_of_ne _ hk]
    by_cases hmem : ∃ b ∈ l, key b = k
    · obtain ⟨b, hb, rfl⟩ := hmem
      rw [lookup_toFinmap h hb, lookup_toFinmap h hb, hothers b hb fun heq => hk (by rw [heq])]
    · rw [Finmap.lookup_eq_none.mpr (mt mem_toFinmap.mp hmem),
        Finmap.lookup_eq_none.mpr (mt mem_toFinmap.mp hmem)]

/-- An element is taken out. -/
theorem toFinmap_erase {a : α} (h : (l.map key).Nodup) (hperm : l.Perm (a :: l')) :
    toFinmap key value l' = (toFinmap key value l).erase (key a) := by
  have hnodup : ((a :: l').map key).Nodup := (hperm.map key).nodup_iff.mp h
  have hnot : key a ∉ l'.map key := (List.nodup_cons.mp hnodup).1
  rw [toFinmap_perm h hperm, toFinmap_cons]
  refine Finmap.ext_lookup fun k => ?_
  by_cases hk : k = key a
  · rw [hk, Finmap.lookup_erase, Finmap.lookup_eq_none, mem_toFinmap]
    rintro ⟨b, hb, heq⟩
    exact hnot (heq ▸ List.mem_map_of_mem hb)
  · rw [Finmap.lookup_erase_ne hk, Finmap.lookup_insert_of_ne _ hk]

end

end Base
