import Nachos.Base.Bytes
import Mathlib.Data.List.TakeWhile

/-!
# C strings

A string is the bytes in front of the first zero byte of a buffer. `strcmp` compares what stands in
front of the terminators.

* `strcmp_eq_zero` — it answers 0 exactly on equal strings
* `CStr` — a string as a value, and what `strcpy` of it leaves in memory
* `copied` — how far a loop gets that copies bytes up to and including the first zero
* `EndsAt` — where a string ends
* `strncmp_eq_zero_iff` — what `strncmp` compares
* `strncmp_eq_zero`, `strncpy_add` — what `strncpy` has copied compares equal
-/

namespace Base

/-- The string in the first `size` bytes of a buffer. -/
def cString (buffer : Nat → BitVec 8) (size : Nat) : List (BitVec 8) :=
  ((List.range size).map buffer).takeWhile fun c => c != 0

theorem cString_congr {b c : Nat → BitVec 8} {size : Nat} (h : ∀ k < size, b k = c k) :
    cString b size = cString c size := by
  unfold cString
  rw [List.map_congr_left fun k hk => h k (List.mem_range.mp hk)]

theorem cString_succ (buffer : Nat → BitVec 8) (size : Nat) :
    cString buffer (size + 1) =
      if buffer 0 = 0 then [] else buffer 0 :: cString (fun l => buffer (l + 1)) size := by
  unfold cString
  rw [List.range_succ_eq_map, List.map_cons, List.map_map, List.takeWhile_cons]
  by_cases hzero : buffer 0 = 0
  · rw [if_pos hzero, hzero]
    rfl
  · rw [if_neg hzero, if_pos (bne_iff_ne.mpr hzero)]
    rfl

theorem cString_nonzero (buffer : Nat → BitVec 8) (size : Nat) :
    ∀ c ∈ cString buffer size, c ≠ 0 := by
  intro c hc
  have := List.mem_takeWhile_imp hc
  simpa using this

/-- `strcmp`, on what stands in front of the terminators. -/
def strcmp : List (BitVec 8) → List (BitVec 8) → Int
  | [], [] => 0
  | [], b :: _ => 0 - (b.toNat : Int)
  | a :: _, [] => (a.toNat : Int) - 0
  | a :: as, b :: bs => if a = b then strcmp as bs else (a.toNat : Int) - b.toNat

theorem strcmp_eq_zero {as bs : List (BitVec 8)} (ha : ∀ c ∈ as, c ≠ 0) (hb : ∀ c ∈ bs, c ≠ 0) :
    strcmp as bs = 0 ↔ as = bs := by
  have hpos : ∀ c : BitVec 8, c ≠ 0 → (c.toNat : Int) ≠ 0 := by
    intro c hc h
    exact hc (BitVec.eq_of_toNat_eq (by simpa using h))
  induction as generalizing bs with
  | nil =>
    cases bs with
    | nil => simp [strcmp]
    | cons b bs =>
      have := hpos b (hb b List.mem_cons_self)
      simp only [strcmp, reduceCtorEq, iff_false]
      omega
  | cons a as ih =>
    cases bs with
    | nil =>
      have := hpos a (ha a List.mem_cons_self)
      simp only [strcmp, reduceCtorEq, iff_false]
      omega
    | cons b bs =>
      by_cases hab : a = b
      · have htail : strcmp as bs = 0 ↔ as = bs :=
          ih (fun c hc => ha c (List.mem_cons_of_mem a hc))
            (fun c hc => hb c (List.mem_cons_of_mem b hc))
        rw [strcmp, if_pos hab, htail, hab]
        simp
      · have hne : (a.toNat : Int) ≠ b.toNat := by
          intro h
          exact hab (BitVec.eq_of_toNat_eq (by exact_mod_cast h))
        rw [strcmp, if_neg hab]
        simp only [List.cons.injEq, hab, false_and, iff_false]
        omega

/-! ## Strings as values -/

/-- A C string: the characters in front of its terminator. -/
@[ext]
structure CStr where
  chars : List (BitVec 8)
  nonzero : ∀ c ∈ chars, c ≠ 0
deriving DecidableEq

namespace CStr

theorem strcmp_eq_zero_iff (m n : CStr) : strcmp m.chars n.chars = 0 ↔ m = n := by
  rw [strcmp_eq_zero m.nonzero n.nonzero]
  cases m
  cases n
  simp

/-- The string that starts with the first of these bytes. It ends with the last of them. -/
def ofBytes (bytes : List (BitVec 8)) : CStr where
  chars := bytes.takeWhile fun c => c != 0
  nonzero := fun c hc => by simpa using List.mem_takeWhile_imp hc

/-- The bytes from some address on after `strcpy` of the string to it. -/
def overwrite (src : CStr) (bytes : List (BitVec 8)) : List (BitVec 8) :=
  src.chars ++ 0 :: bytes.drop (src.chars.length + 1)

/-- A string that ends in front of index `n` reads the same whatever stands from there on. -/
theorem ofBytes_overwrite_of_lt {src : CStr} {n : Nat} (h : src.chars.length < n)
    (bytes rest : List (BitVec 8)) : ofBytes ((src.overwrite bytes).take n ++ rest) = src := by
  obtain ⟨k, rfl⟩ := Nat.exists_eq_add_of_lt h
  have hsplit : (src.overwrite bytes).take (src.chars.length + k + 1) =
      src.chars ++ 0 :: (bytes.drop (src.chars.length + 1)).take k := by
    rw [overwrite, Nat.add_assoc, List.take_length_add_append, List.take_succ_cons]
  refine CStr.ext ?_
  show ((src.overwrite bytes).take (src.chars.length + k + 1) ++ rest).takeWhile _ = src.chars
  rw [hsplit, List.append_assoc, List.takeWhile_append_of_pos]
  · simp
  · exact fun c hc => bne_iff_ne.mpr (src.nonzero c hc)

/-- One that does not runs on into what stands there. -/
theorem ofBytes_overwrite_of_le {src : CStr} {n : Nat} (h : n ≤ src.chars.length)
    (bytes rest : List (BitVec 8)) :
    (ofBytes ((src.overwrite bytes).take n ++ rest)).chars =
      src.chars.take n ++ (ofBytes rest).chars := by
  show ((src.overwrite bytes).take n ++ rest).takeWhile _ = _
  rw [overwrite, List.take_append_of_le_length h, List.takeWhile_append_of_pos]
  · rfl
  · exact fun c hc => bne_iff_ne.mpr (src.nonzero c (List.mem_of_mem_take hc))

end CStr

/-! ## Copying up to the first zero -/

/--
How many of the `k` bytes from index `i` on a loop copies that stops behind the first zero byte.
-/
def copied (b : Nat → BitVec 8) (i : Nat) : Nat → Nat
  | 0 => 0
  | k + 1 => if b i = 0 then 1 else copied b (i + 1) k + 1

theorem lt_copied_iff {b : Nat → BitVec 8} {i j k : Nat} :
    j < copied b i k ↔ j < k ∧ ∀ l < j, b (i + l) ≠ 0 := by
  induction k generalizing i j with
  | zero => simp [copied]
  | succ k ih =>
    unfold copied
    by_cases hz : b i = 0
    · rw [if_pos hz]
      constructor
      · intro hj
        exact ⟨by omega, fun l hl => by omega⟩
      · rintro ⟨_, hall⟩
        by_contra hj
        exact hall 0 (by omega) hz
    · rw [if_neg hz]
      cases j with
      | zero => simp
      | succ j =>
        rw [Nat.add_lt_add_iff_right, ih, Nat.add_lt_add_iff_right]
        refine and_congr_right fun _ => ?_
        constructor
        · intro hall l hl
          cases l with
          | zero => exact hz
          | succ l =>
            rw [show i + (l + 1) = i + 1 + l by omega]
            exact hall l (by omega)
        · intro hall l hl
          rw [show i + 1 + l = i + (l + 1) by omega]
          exact hall (l + 1) (by omega)

/-- Bytes that agree in front of the first zero are copied equally far. -/
theorem copied_congr {b c : Nat → BitVec 8} {i k : Nat}
    (h : ∀ j < copied b i k, c (i + j) = b (i + j)) : copied c i k = copied b i k := by
  induction k generalizing i with
  | zero => rfl
  | succ k ih =>
    have hi : c i = b i := by
      refine h 0 (lt_copied_iff.mpr ⟨by omega, fun l hl => by omega⟩)
    unfold copied at h ⊢
    by_cases hz : b i = 0
    · rw [if_pos hz, if_pos (hi.trans hz)]
    · rw [if_neg hz, if_neg (by rw [hi]; exact hz)]
      rw [if_neg hz] at h
      rw [ih]
      intro j hj
      rw [show i + 1 + j = i + (j + 1) by omega]
      exact h (j + 1) (by omega)

/-! ## Where a string ends -/

/-- The string in the first `size` bytes ends at index `z`: at a zero byte, or with the bytes. -/
structure EndsAt (b : Nat → BitVec 8) (size z : Nat) : Prop where
  le : z ≤ size
  ne_zero : ∀ j < z, b j ≠ 0
  zero : z < size → b z = 0

theorem exists_endsAt (b : Nat → BitVec 8) (size : Nat) : ∃ z, EndsAt b size z := by
  induction size with
  | zero =>
    exact ⟨0, le_refl 0, fun j hj => absurd hj (Nat.not_lt_zero j),
      fun h => absurd h (Nat.not_lt_zero 0)⟩
  | succ size ih =>
    obtain ⟨z, hle, hne, hzero⟩ := ih
    by_cases hz : z = size ∧ b z ≠ 0
    · obtain ⟨rfl, hbz⟩ := hz
      refine ⟨z + 1, le_refl _, fun j hj => ?_, fun h => absurd h (Nat.lt_irrefl _)⟩
      rcases Nat.lt_succ_iff_lt_or_eq.mp hj with hlt | rfl
      · exact hne j hlt
      · exact hbz
    · refine ⟨z, Nat.le_succ_of_le hle, hne, fun _ => ?_⟩
      by_cases hlt : z < size
      · exact hzero hlt
      · exact not_not.mp (not_and.mp hz (by omega))

namespace EndsAt

variable {b c : Nat → BitVec 8} {size z : Nat}

theorem cString_eq (h : EndsAt b size z) : cString b size = (List.range z).map b := by
  have hsplit : List.range size = List.range z ++ (List.range (size - z)).map (z + ·) := by
    rw [← List.range_add, Nat.add_sub_cancel' h.le]
  have hfront : ∀ c ∈ (List.range z).map b, (c != 0) = true := by
    intro c hc
    obtain ⟨j, hj, rfl⟩ := List.mem_map.mp hc
    exact bne_iff_ne.mpr (h.ne_zero j (List.mem_range.mp hj))
  unfold cString
  rw [hsplit, List.map_append, List.takeWhile_append_of_pos hfront]
  cases hrest : size - z with
  | zero => simp
  | succ k =>
    have hzero : b z = 0 := h.zero (by omega)
    rw [List.range_succ_eq_map, List.map_cons, List.map_cons, Nat.add_zero, hzero,
      List.takeWhile_cons_of_neg (by decide), List.append_nil]

theorem copied_eq (h : EndsAt b size z) : copied b 0 size = min size (z + 1) := by
  refine eq_of_forall_lt_iff fun j => ?_
  rw [lt_copied_iff, lt_min_iff]
  refine and_congr_right fun hj => ?_
  constructor
  · intro hall
    by_contra hnot
    refine hall z (by omega) ?_
    rw [Nat.zero_add]
    exact h.zero (by omega)
  · intro hlt l hl
    rw [Nat.zero_add]
    exact h.ne_zero l (by omega)

theorem exists_zero_iff (h : EndsAt b size z) : (∃ j < size, b j = 0) ↔ z < size := by
  constructor
  · rintro ⟨j, hj, hz⟩
    by_contra hnot
    exact h.ne_zero j (by omega) hz
  · intro hlt
    exact ⟨z, hlt, h.zero hlt⟩

end EndsAt

/-! ## strcpy -/

/-- `strcpy` into an array of `n` bytes. `none`: the string does not fit with its terminator. -/
def strcpy {n : Nat} (dst : Bytes n) (src : Nat → BitVec 8) : Option (Bytes n) :=
  if ∃ k : Fin n, src k = 0 then some fun k => if k < copied src 0 n then src k else dst k
  else none

theorem strcpy_eq_none {n : Nat} {dst : Bytes n} {src : Nat → BitVec 8} :
    strcpy dst src = none ↔ ∀ k < n, src k ≠ 0 := by
  unfold strcpy
  split
  next h =>
    obtain ⟨k, hk⟩ := h
    exact iff_of_false (by simp) (fun hall => hall k k.isLt hk)
  next h => exact iff_of_true rfl (fun k hk hz => h ⟨⟨k, hk⟩, hz⟩)

/-! ## strncmp and strncpy -/

/-- `strncmp`, on the at most `n` bytes from index `i` on. -/
def strncmpFrom (a b : Nat → BitVec 8) (i : Nat) : Nat → Int
  | 0 => 0
  | n + 1 =>
    if a i = b i then if a i = 0 then 0 else strncmpFrom a b (i + 1) n
    else (a i).toNat - (b i).toNat

/-- `strncmp`. -/
def strncmp (a b : Nat → BitVec 8) (n : Nat) : Int := strncmpFrom a b 0 n

/-- The buffer after `strncpy` to index `j`: behind the terminator come zeros. -/
def strncpy (dst : Nat → BitVec 8) (j : Nat) (src : Nat → BitVec 8) (n : Nat) : Nat → BitVec 8 :=
  fun k =>
    if j ≤ k ∧ k < j + n then if k - j < copied src 0 n then src (k - j) else 0 else dst k

theorem strncpy_of_lt {dst src : Nat → BitVec 8} {j n k : Nat} (h : k < j) :
    strncpy dst j src n k = dst k :=
  if_neg (by omega)

theorem strncmpFrom_eq_zero {a b : Nat → BitVec 8} {i n : Nat}
    (h : ∀ l < copied b i n, a (i + l) = b (i + l)) : strncmpFrom a b i n = 0 := by
  induction n generalizing i with
  | zero => rfl
  | succ n ih =>
    unfold copied at h
    have hi : a i = b i := by
      refine h 0 ?_
      split <;> omega
    unfold strncmpFrom
    rw [if_pos hi, hi]
    by_cases hz : b i = 0
    · rw [if_pos hz]
    · rw [if_neg hz] at h ⊢
      refine ih fun l hl => ?_
      rw [show i + 1 + l = i + (l + 1) by omega]
      exact h (l + 1) (by omega)

/-- Strings that agree up to the terminator compare equal. -/
theorem strncmp_eq_zero {a b : Nat → BitVec 8} {n : Nat} (h : ∀ l < copied b 0 n, a l = b l) :
    strncmp a b n = 0 := by
  refine strncmpFrom_eq_zero fun l hl => ?_
  rw [Nat.zero_add]
  exact h l hl

theorem eq_of_strncmpFrom {a b : Nat → BitVec 8} {i n : Nat} (h : strncmpFrom a b i n = 0) :
    ∀ l < copied b i n, a (i + l) = b (i + l) := by
  induction n generalizing i with
  | zero => exact fun l hl => absurd hl (Nat.not_lt_zero l)
  | succ n ih =>
    unfold strncmpFrom at h
    by_cases hi : a i = b i
    · rw [if_pos hi, hi] at h
      intro l hl
      unfold copied at hl
      cases l with
      | zero => exact hi
      | succ l =>
        by_cases hz : b i = 0
        · rw [if_pos hz] at hl
          omega
        · rw [if_neg hz] at h hl
          rw [show i + (l + 1) = i + 1 + l by omega]
          exact ih h l (by omega)
    · rw [if_neg hi] at h
      exact absurd (BitVec.eq_of_toNat_eq (by omega)) hi

/-- `strncmp` compares the strings in the first `n` bytes. -/
theorem strncmp_eq_zero_iff {a b : Nat → BitVec 8} {n : Nat} :
    strncmp a b n = 0 ↔ cString a n = cString b n := by
  obtain ⟨z, hz⟩ := exists_endsAt b n
  have hcopied := hz.copied_eq
  have hle := hz.le
  constructor
  · intro h
    have hall : ∀ l < copied b 0 n, a l = b l := by
      intro l hl
      have := eq_of_strncmpFrom h l hl
      rwa [Nat.zero_add] at this
    rw [hcopied] at hall
    have ha : EndsAt a n z := by
      refine ⟨hle, fun j hj => ?_, fun hlt => ?_⟩
      · rw [hall j (by omega)]
        exact hz.ne_zero j hj
      · rw [hall z (by omega)]
        exact hz.zero hlt
    rw [ha.cString_eq, hz.cString_eq]
    refine List.map_congr_left fun j hj => hall j ?_
    have := List.mem_range.mp hj
    omega
  · intro h
    obtain ⟨y, hy⟩ := exists_endsAt a n
    rw [hy.cString_eq, hz.cString_eq] at h
    have hyz : y = z := by simpa using congrArg List.length h
    obtain rfl := hyz
    refine strncmp_eq_zero fun l hl => ?_
    rw [hcopied] at hl
    by_cases hly : l < y
    · exact List.map_inj_left.mp h l (List.mem_range.mpr hly)
    · rw [show l = y by omega, hy.zero (by omega), hz.zero (by omega)]

theorem strncpy_add {dst src : Nat → BitVec 8} {j n l : Nat} (h : l < copied src 0 n) :
    strncpy dst j src n (j + l) = src l := by
  have hn : l < n := (lt_copied_iff.mp h).1
  rw [strncpy, if_pos (by omega), Nat.add_sub_cancel_left, if_pos h]

end Base
