import Mathlib.Data.Fintype.Card
import Mathlib.Data.Finset.Card
import Mathlib.Logic.Function.Basic

/-!
# An array of slots as a map

Slots `ι` that are empty or hold an element, and a key for each element. When no two occupied slots
have the same key, the array is a map from keys to elements, whatever the order in which the slots
were filled.

* `toMap` — the map
* `toMap_insert`, `toMap_modify` — a write to a free slot and a write to an occupied one

Nothing here knows what the elements are.
-/

namespace Base.KeyedSlots

variable {ι κ β : Type*} {key : β → κ} {tab : ι → Option β}

/-- No two occupied slots have the same key. -/
def Apart (key : β → κ) (tab : ι → Option β) : Prop :=
  ∀ i j a b, tab i = some a → tab j = some b → key a = key b → i = j

/-- No occupied slot has the key `k`. -/
def Fresh (key : β → κ) (tab : ι → Option β) (k : κ) : Prop :=
  ∀ i a, tab i = some a → key a ≠ k

/-- The element under the key `k`. -/
noncomputable def toMap (key : β → κ) (tab : ι → Option β) (k : κ) : Option β :=
  open Classical in
  if h : ∃ i a, tab i = some a ∧ key a = k then tab h.choose else none

/-- The slots that hold an element. -/
def occupied [Fintype ι] (tab : ι → Option β) : Finset ι :=
  Finset.univ.filter fun i => (tab i).isSome

/-! ## Looking up -/

theorem toMap_eq_none {k : κ} : toMap key tab k = none ↔ Fresh key tab k := by
  unfold toMap Fresh
  split
  · next h =>
    obtain ⟨a, ha, hk⟩ := h.choose_spec
    constructor
    · intro hnone
      rw [ha] at hnone
      simp at hnone
    · intro hfresh
      exact absurd hk (hfresh _ a ha)
  · next h =>
    refine ⟨fun _ i a ha hk => h ⟨i, a, ha, hk⟩, fun _ => rfl⟩

theorem toMap_eq_some (hapart : Apart key tab) {k : κ} {b : β} :
    toMap key tab k = some b ↔ ∃ i, tab i = some b ∧ key b = k := by
  unfold toMap
  split
  · next h =>
    obtain ⟨a, ha, hk⟩ := h.choose_spec
    constructor
    · intro hb
      rw [ha] at hb
      obtain rfl := Option.some.inj hb
      exact ⟨_, ha, hk⟩
    · rintro ⟨i, hi, hbk⟩
      rw [hapart _ i a b ha hi (hk.trans hbk.symm)]
      exact hi
  · next h =>
    simp only [reduceCtorEq, false_iff]
    rintro ⟨i, hi, hbk⟩
    exact h ⟨i, b, hi, hbk⟩

theorem toMap_of_slot (hapart : Apart key tab) {i : ι} {b : β} (h : tab i = some b) :
    toMap key tab (key b) = some b :=
  (toMap_eq_some hapart).mpr ⟨i, h, rfl⟩

/-! ## Writing -/

variable [DecidableEq ι]

/-- An element with a new key goes into any slot. -/
theorem Apart.insert (hapart : Apart key tab) {b : β} (hfresh : Fresh key tab (key b)) (i : ι) :
    Apart key (Function.update tab i (some b)) := by
  intro j l a c ha hc hk
  by_cases hj : j = i <;> by_cases hl : l = i
  · rw [hj, hl]
  · rw [hj, Function.update_self] at ha
    rw [Function.update_of_ne hl] at hc
    rw [← Option.some.inj ha] at hk
    exact absurd hk.symm (hfresh l c hc)
  · rw [Function.update_of_ne hj] at ha
    rw [hl, Function.update_self] at hc
    rw [← Option.some.inj hc] at hk
    exact absurd hk (hfresh j a ha)
  · rw [Function.update_of_ne hj] at ha
    rw [Function.update_of_ne hl] at hc
    exact hapart j l a c ha hc hk

/-- The element of a slot is replaced by one with the same key. -/
theorem Apart.modify (hapart : Apart key tab) {i : ι} {a b : β} (ha : tab i = some a)
    (hk : key b = key a) : Apart key (Function.update tab i (some b)) := by
  have hslot : ∀ j c, Function.update tab i (some b) j = some c →
      ∃ c', tab j = some c' ∧ key c' = key c := by
    intro j c hc
    by_cases hj : j = i
    · rw [hj, Function.update_self] at hc
      rw [hj, ← Option.some.inj hc]
      exact ⟨a, ha, hk.symm⟩
    · rw [Function.update_of_ne hj] at hc
      exact ⟨c, hc, rfl⟩
  intro j l c d hc hd hcd
  obtain ⟨c', hc', hkc⟩ := hslot j c hc
  obtain ⟨d', hd', hkd⟩ := hslot l d hd
  exact hapart j l c' d' hc' hd' (by rw [hkc, hkd, hcd])

/-- A write to the slot `i` does not touch the keys that slot has neither before nor after. -/
theorem toMap_update_of_ne (hapart : Apart key tab) {i : ι} {b : β}
    (hapart' : Apart key (Function.update tab i (some b))) {k : κ}
    (hold : ∀ a, tab i = some a → key a ≠ k) (hnew : key b ≠ k) :
    toMap key (Function.update tab i (some b)) k = toMap key tab k := by
  apply Option.ext
  intro c
  rw [toMap_eq_some hapart', toMap_eq_some hapart]
  constructor
  · rintro ⟨j, hj, hc⟩
    refine ⟨j, ?_, hc⟩
    by_cases hji : j = i
    · rw [hji, Function.update_self] at hj
      exact absurd (by rw [Option.some.inj hj, hc]) hnew
    · rw [Function.update_of_ne hji] at hj
      exact hj
  · rintro ⟨j, hj, hc⟩
    refine ⟨j, ?_, hc⟩
    by_cases hji : j = i
    · rw [hji] at hj
      exact absurd hc (hold c hj)
    · rw [Function.update_of_ne hji]
      exact hj

variable [DecidableEq κ]

theorem toMap_insert (hapart : Apart key tab) {b : β} (hfresh : Fresh key tab (key b)) {i : ι}
    (hfree : tab i = none) :
    toMap key (Function.update tab i (some b))
      = Function.update (toMap key tab) (key b) (some b) := by
  have hapart' := hapart.insert hfresh i
  funext k
  by_cases hk : k = key b
  · rw [hk, Function.update_self]
    exact toMap_of_slot hapart' (Function.update_self i (some b) tab)
  · rw [Function.update_of_ne hk]
    refine toMap_update_of_ne hapart hapart' ?_ (Ne.symm hk)
    intro a ha
    rw [hfree] at ha
    simp at ha

theorem toMap_modify (hapart : Apart key tab) {i : ι} {a b : β} (ha : tab i = some a)
    (hkey : key b = key a) :
    toMap key (Function.update tab i (some b))
      = Function.update (toMap key tab) (key a) (some b) := by
  have hapart' := hapart.modify ha hkey
  funext k
  by_cases hk : k = key a
  · rw [hk, Function.update_self, ← hkey]
    exact toMap_of_slot hapart' (Function.update_self i (some b) tab)
  · rw [Function.update_of_ne hk]
    refine toMap_update_of_ne hapart hapart' ?_ (by rw [hkey]; exact Ne.symm hk)
    intro c hc
    rw [ha] at hc
    rw [← Option.some.inj hc]
    exact Ne.symm hk

end Base.KeyedSlots
