import Nachos.Machine.LoadDelay
import Nachos.Machine.Arithmetic
import Nachos.Machine.UserMemory

/-!
# Unaligned accesses in two halves (`machine/mipssim.cc`)

`LWL` and `LWR` each read the aligned word that holds one end of an unaligned word, and put its
bytes into the target; `SWL` and `SWR` put bytes of the source into such a word and write it back.
The two halves together are to be the access to the unaligned word.

A half covers some of the four bytes, and the halves cover all of them. The other bytes of the
target, or of memory, are left as they are; the target may still be pending from the half before.

* `byteOf_mergeLeft` and its companions — the masks and shifts, byte by byte
* `Half.covers` — the bytes of the unaligned word that a half is for
* `Half.oneInstruction_load`, `Half.oneInstruction_store` — one half
* `unaligned_pairs` — both halves, in either order
-/

namespace Nachos

open Base

/-! ## Masks and shifts -/

theorem byteOf_mergeLeft (old value byte : BitVec 32) {j : Nat} (hj : j < 4) :
    byteOf (mergeLeft old value byte) j =
      if 3 - byte.toNat ≤ j then byteOf value (j - (3 - byte.toNat)) else byteOf old j := by
  have hcases : 3 - byte.toNat = 0 ∨ 3 - byte.toNat = 1 ∨ 3 - byte.toNat = 2 ∨
      3 - byte.toNat = 3 := by omega
  unfold mergeLeft
  rcases hcases with h | h | h | h
  · rw [h]
    exact (if_pos (Nat.zero_le j)).symm
  · rw [h]
    exact byteOf_spliceUp (s := 1) old value rfl (by omega)
  · rw [h]
    exact byteOf_spliceUp (s := 2) old value rfl (by omega)
  · rw [h]
    exact byteOf_spliceUp (s := 3) old value rfl (by omega)

theorem byteOf_mergeRight (old value : BitVec 32) {byte : BitVec 32} (hbyte : byte.toNat < 4)
    {j : Nat} (hj : j < 4) : byteOf (mergeRight old value byte) j =
      if j + byte.toNat < 4 then byteOf value (j + byte.toNat) else byteOf old j := by
  have hcases : byte.toNat = 0 ∨ byte.toNat = 1 ∨ byte.toNat = 2 ∨ byte.toNat = 3 := by omega
  unfold mergeRight
  rcases hcases with h | h | h | h
  · rw [h]
    exact (if_pos hj).symm
  · rw [h]
    exact byteOf_spliceDown (s := 1) (r := 3) old value rfl rfl hj
  · rw [h]
    exact byteOf_spliceDown (s := 2) (r := 2) old value rfl rfl hj
  · rw [h]
    exact byteOf_spliceDown (s := 3) (r := 1) old value rfl rfl hj

theorem byteOf_storeLeft (value rt byte : BitVec 32) {j : Nat} (hj : j < 4) :
    byteOf (storeLeft value rt byte) j =
      if j + (3 - byte.toNat) < 4 then byteOf rt (j + (3 - byte.toNat)) else byteOf value j := by
  have hcases : 3 - byte.toNat = 0 ∨ 3 - byte.toNat = 1 ∨ 3 - byte.toNat = 2 ∨
      3 - byte.toNat = 3 := by omega
  unfold storeLeft
  rcases hcases with h | h | h | h
  · rw [h]
    exact (if_pos hj).symm
  · rw [h]
    exact byteOf_spliceDown (s := 1) (r := 3) value rt rfl rfl hj
  · rw [h]
    exact byteOf_spliceDown (s := 2) (r := 2) value rt rfl rfl hj
  · rw [h]
    exact byteOf_spliceDown (s := 3) (r := 1) value rt rfl rfl hj

theorem byteOf_storeRight (value rt : BitVec 32) {byte : BitVec 32} (hbyte : byte.toNat < 4)
    {j : Nat} (hj : j < 4) : byteOf (storeRight value rt byte) j =
      if byte.toNat ≤ j then byteOf rt (j - byte.toNat) else byteOf value j := by
  have hcases : byte.toNat = 0 ∨ byte.toNat = 1 ∨ byte.toNat = 2 ∨ byte.toNat = 3 := by omega
  unfold storeRight
  rcases hcases with h | h | h | h
  · rw [h]
    exact (if_pos (Nat.zero_le j)).symm
  · rw [h]
    exact byteOf_spliceUp (s := 1) value rt rfl (by omega)
  · rw [h]
    exact byteOf_spliceUp (s := 2) value rt rfl (by omega)
  · rw [h]
    exact byteOf_spliceUp (s := 3) value rt rfl (by omega)

/-! ## The two halves -/

/-- The end of the unaligned word that an instruction is for: the high one or the low one. -/
inductive Half where
  | left
  | right
deriving DecidableEq

namespace Half

/-- The offset of the instruction. -/
def offset : Half → BitVec 16
  | left => 3
  | right => 0

def loadCode : Half → OpCode
  | left => .lwl
  | right => .lwr

def storeCode : Half → OpCode
  | left => .swl
  | right => .swr

/-- `LWL rt, 3(base)` and `LWR rt, 0(base)`. -/
def loadWord (half : Half) (base rt : BitVec 5) : BitVec 32 :=
  (match half with
    | left => 0x22#6
    | right => 0x26#6) ++ base ++ rt ++ half.offset

/-- `SWL rt, 3(base)` and `SWR rt, 0(base)`. -/
def storeWord (half : Half) (base rt : BitVec 5) : BitVec 32 :=
  (match half with
    | left => 0x2a#6
    | right => 0x2e#6) ++ base ++ rt ++ half.offset

/-- The half is for byte `i` of the unaligned word at `a`. -/
def covers (half : Half) (a i : Nat) : Prop :=
  match half with
  | left => 3 ≤ i + (a + 3) % 4
  | right => i + a % 4 < 4

instance (half : Half) (a i : Nat) : Decidable (half.covers a i) :=
  match half with
  | left => inferInstanceAs (Decidable (_ ≤ _))
  | right => inferInstanceAs (Decidable (_ < _))

theorem covers_or {first second : Half} (h : first ≠ second) (a : Nat) {i : Nat} (hi : i < 4) :
    first.covers a i ∨ second.covers a i := by
  have hor : left.covers a i ∨ right.covers a i := by
    unfold covers
    dsimp only
    omega
  cases first with
  | left =>
    cases second with
    | left => exact absurd rfl h
    | right => exact hor
  | right =>
    cases second with
    | left => exact hor.symm
    | right => exact absurd rfl h

/-- What a load makes of the old value and the aligned word, by `tmp & 0x3`. -/
def merge : Half → BitVec 32 → BitVec 32 → BitVec 32 → BitVec 32
  | left => mergeLeft
  | right => mergeRight

/-- What a store makes of the aligned word and the register. -/
def splice : Half → BitVec 32 → BitVec 32 → BitVec 32 → BitVec 32
  | left => storeLeft
  | right => storeRight

/-- A load puts the covered bytes into the register. -/
theorem byteOf_merge (half : Half) (old value : BitVec 32) {a : Nat} {byte : BitVec 32}
    {mem : Nat → BitVec 8} (hbyte : byte.toNat = (a + half.offset.toNat) % 4)
    (hvalue : ∀ j < 4, byteOf value j = mem (a + half.offset.toNat - byte.toNat + j))
    {i : Nat} (hi : i < 4) :
    byteOf (half.merge old value byte) i =
      if half.covers a i then mem (a + i) else byteOf old i := by
  cases half with
  | left =>
    have hoff : left.offset.toNat = 3 := rfl
    rw [hoff] at hbyte hvalue
    have hle : 3 - byte.toNat ≤ i ↔ left.covers a i := by
      unfold covers
      dsimp only
      omega
    simp only [merge, byteOf_mergeLeft old value byte hi, hle]
    split
    next hcovers =>
      have hindex : a + 3 - byte.toNat + (i - (3 - byte.toNat)) = a + i := by
        have := hle.mpr hcovers
        omega
      rw [hvalue _ (by omega), hindex]
    next => rfl
  | right =>
    have hoff : right.offset.toNat = 0 := rfl
    rw [hoff, Nat.add_zero] at hbyte hvalue
    have hlt : i + byte.toNat < 4 ↔ right.covers a i := by rw [hbyte]; rfl
    simp only [merge, byteOf_mergeRight old value (hbyte ▸ Nat.mod_lt a (by decide)) hi, hlt]
    split
    next hcovers =>
      have hindex : a - byte.toNat + (i + byte.toNat) = a + i := by omega
      rw [hvalue _ (hlt.mpr hcovers), hindex]
    next => rfl

/-- A store puts the covered bytes of the register into memory, and leaves the other ones there. -/
theorem byteOf_splice (half : Half) (value rt : BitVec 32) {a : Nat} {byte : BitVec 32}
    {mem : Nat → BitVec 8} (hbyte : byte.toNat = (a + half.offset.toNat) % 4)
    (hvalue : ∀ j < 4, byteOf value j = mem (a + half.offset.toNat - byte.toNat + j)) (k : Nat) :
    (if a + half.offset.toNat - byte.toNat ≤ k ∧ k < a + half.offset.toNat - byte.toNat + 4 then
        byteOf (half.splice value rt byte) (k - (a + half.offset.toNat - byte.toNat))
      else mem k) =
      if a ≤ k ∧ k < a + 4 ∧ half.covers a (k - a) then byteOf rt (k - a) else mem k := by
  cases half with
  | left =>
    have hoff : left.offset.toNat = 3 := rfl
    rw [hoff] at hbyte hvalue
    rw [hoff]
    have hcovers : left.covers a (k - a) ↔ 3 ≤ k - a + byte.toNat := by rw [hbyte]; rfl
    simp only [hcovers]
    by_cases hin : a + 3 - byte.toNat ≤ k ∧ k < a + 3 - byte.toNat + 4
    · have hold : byteOf value (k - (a + 3 - byte.toNat)) = mem k := by
        rw [hvalue _ (by omega), Nat.add_sub_cancel' hin.1]
      rw [if_pos hin, splice, byteOf_storeLeft value rt byte (by omega), hold]
      by_cases hk : k < a + 4
      · have hindex : k - (a + 3 - byte.toNat) + (3 - byte.toNat) = k - a := by omega
        rw [if_pos (by omega), if_pos (by omega), hindex]
      · rw [if_neg (by omega), if_neg (by omega)]
    · rw [if_neg hin, if_neg (by omega)]
  | right =>
    have hoff : right.offset.toNat = 0 := rfl
    rw [hoff, Nat.add_zero] at hbyte hvalue
    rw [hoff, Nat.add_zero]
    have hcovers : right.covers a (k - a) ↔ k - a + byte.toNat < 4 := by rw [hbyte]; rfl
    simp only [hcovers]
    by_cases hin : a - byte.toNat ≤ k ∧ k < a - byte.toNat + 4
    · have hold : byteOf value (k - (a - byte.toNat)) = mem k := by
        rw [hvalue _ (by omega), Nat.add_sub_cancel' hin.1]
      have hlt : byte.toNat < 4 := hbyte ▸ Nat.mod_lt a (by decide)
      rw [if_pos hin, splice, byteOf_storeRight value rt hlt (by omega), hold]
      by_cases hk : a ≤ k
      · have hindex : k - (a - byte.toNat) - byte.toNat = k - a := by omega
        rw [if_pos (by omega), if_pos (by omega), hindex]
      · rw [if_neg (by omega), if_neg (by omega)]
    · rw [if_neg hin, if_neg (by omega)]

/-! ### The instruction words -/

theorem halfWord_eq (value : BitVec 32) :
    value &&& 0xffff = (value.extractLsb' 0 16).setWidth 32 := by
  refine BitVec.eq_of_toNat_eq ?_
  have hmask : (0xffff : BitVec 32).toNat = 2 ^ 16 - 1 := rfl
  rw [BitVec.toNat_and, hmask, Nat.and_two_pow_sub_one_eq_mod,
    BitVec.toNat_setWidth_of_le (by decide), BitVec.extractLsb'_toNat, Nat.shiftRight_zero]

/-- The fields of an instruction with an immediate operand. -/
theorem fields (field : BitVec 6) (base rt : BitVec 5) (immediate : BitVec 16) :
    (field ++ base ++ rt ++ immediate).extractLsb' 26 6 = field ∧
      (field ++ base ++ rt ++ immediate).extractLsb' 21 5 = base ∧
      (field ++ base ++ rt ++ immediate).extractLsb' 16 5 = rt ∧
      (field ++ base ++ rt ++ immediate) &&& 0xffff = immediate.setWidth 32 := by
  rw [halfWord_eq]
  simp (disch := decide) only [extractLsb'_append_of_le, extractLsb'_append_of_add_le]
  refine ⟨?_, ?_, ?_, congrArg _ ?_⟩
  all_goals exact BitVec.extractLsb'_eq_self

theorem decode_fields {field : BitVec 6} {code : OpCode} (half : Half) (base rt : BitVec 5)
    (htable : opTable[field.toFin] = ⟨code, .iFmt⟩) (hspecial : code ≠ .special)
    (hbcond : code ≠ .bcond) :
    ∃ rd, Instruction.decode (field ++ base ++ rt ++ half.offset) =
      ⟨code, base, rt, rd, half.offset.setWidth 32⟩ := by
  refine ⟨(field ++ base ++ rt ++ half.offset).extractLsb' 11 5, ?_⟩
  obtain ⟨hop, hbase, hrt, hextra⟩ := fields field base rt half.offset
  have hsign : ¬ half.offset.setWidth 32 &&& 0x8000 ≠ (0 : BitVec 32) := by
    cases half with
    | left => decide
    | right => decide
  unfold Instruction.decode
  simp only [hop, hbase, hrt, htable, Instruction.decodeExtra, hextra]
  rw [if_neg hsign]

theorem decode_loadWord (half : Half) (base rt : BitVec 5) :
    ∃ rd, Instruction.decode (half.loadWord base rt) =
      ⟨half.loadCode, base, rt, rd, half.offset.setWidth 32⟩ := by
  cases half with
  | left => exact decode_fields left base rt rfl (by decide) (by decide)
  | right => exact decode_fields right base rt rfl (by decide) (by decide)

theorem decode_storeWord (half : Half) (base rt : BitVec 5) :
    ∃ rd, Instruction.decode (half.storeWord base rt) =
      ⟨half.storeCode, base, rt, rd, half.offset.setWidth 32⟩ := by
  cases half with
  | left => exact decode_fields left base rt rfl (by decide) (by decide)
  | right => exact decode_fields right base rt rfl (by decide) (by decide)

end Half

/-! ## The registers between the halves -/

/-- The value of a general register once the pending load is finished. -/
def Registers.loaded (regs : Registers) (r : BitVec 5) : BitVec 32 :=
  if regs loadReg = r.setWidth 32 then regs loadValueReg else regs.gp r

/--
Before, between and behind the halves: the base register holds `a`, and `rt` holds `v` or is about
to get it. No other load is pending.
-/
structure Between (base rt : BitVec 5) (a v : BitVec 32) (regs : Registers) : Prop where
  pending : ∃ r, (r = rt ∨ r = 0) ∧ regs loadReg = r.setWidth 32
  zero : regs.gp 0 = 0
  base : regs.gp base = a
  loaded : regs.loaded rt = v

namespace Between

variable {base rt : BitVec 5} {a v x : BitVec 32} {regs : Registers}

theorem loaded_eq_gp (hload : regs loadReg = 0) (hrt : rt ≠ 0) : regs.loaded rt = regs.gp rt := by
  have hne : ¬ regs loadReg = rt.setWidth 32 := fun h =>
    hrt (setWidth_inj.mp (h.symm.trans hload : _ = (0 : BitVec 5).setWidth 32))
  unfold Registers.loaded
  rw [if_neg hne]

theorem of_valid (hvalid : regs.Valid) (hload : regs loadReg = 0) (hrt : rt ≠ 0) :
    Between base rt (regs.gp base) (regs.gp rt) regs :=
  ⟨⟨0, .inr rfl, hload⟩, hvalid.zero, rfl, loaded_eq_gp hload hrt⟩

theorem gp_eq (h : Between base rt a v regs) (hload : regs loadReg = 0) (hrt : rt ≠ 0) :
    regs.gp rt = v :=
  (loaded_eq_gp hload hrt).symm.trans h.loaded

/-- `DelayedLoad` with a new value for `rt`, or with none. -/
theorem delayedLoad (h : Between base rt a v regs) (hrt : rt ≠ 0) (hbase : base ≠ rt)
    {r : BitVec 5} (hr : r = rt ∨ r = 0) :
    ∃ regs', regs.delayedLoad (r.setWidth 32) x = some regs' ∧
      Between base rt a (if r = rt then x else v) regs' ∧ regs' loadReg = r.setWidth 32 := by
  obtain ⟨s, hs, hpending⟩ := h.pending
  refine ⟨_, Registers.delayedLoad_eq hpending, ⟨⟨r, hr, rfl⟩, ?_, ?_, ?_⟩, rfl⟩
  · rw [Registers.delayed_gp, if_pos rfl]
  · rw [Registers.delayed_gp]
    by_cases hzero : base = 0
    · rw [if_pos hzero, ← h.base, hzero, h.zero]
    · have hne : base ≠ s := by
        rcases hs with rfl | rfl
        · exact hbase
        · exact hzero
      rw [if_neg hzero, if_neg hne, h.base]
  · unfold Registers.loaded
    rw [Registers.delayed_loadReg, Registers.delayed_loadValueReg]
    simp only [setWidth_inj]
    by_cases hrr : r = rt
    · rw [if_pos hrr, if_pos hrr]
    · rw [if_neg hrr, if_neg hrr, Registers.delayed_gp, if_neg hrt, ← h.loaded]
      unfold Registers.loaded
      rw [hpending]
      simp only [setWidth_inj, eq_comm]

/-- The pending load is finished. -/
theorem settle (h : Between base rt a v regs) (hrt : rt ≠ 0) (hbase : base ≠ rt) :
    ∃ regs', regs.delayedLoad 0 0 = some regs' ∧ Between base rt a v regs' ∧
      regs' loadReg = 0 := by
  obtain ⟨regs', hregs', h', hload⟩ := h.delayedLoad (x := 0) hrt hbase (.inr rfl)
  rw [if_neg hrt.symm] at h'
  exact ⟨regs', hregs', h', hload⟩

theorem advance (h : Between base rt a v regs) (pcAfter : BitVec 32) :
    Between base rt a v (regs.advance pcAfter) := by
  have hload : regs.advance pcAfter loadReg = regs loadReg := rfl
  have hvalue : regs.advance pcAfter loadValueReg = regs loadValueReg := rfl
  refine ⟨?_, ?_, ?_, ?_⟩
  · rw [hload]
    exact h.pending
  · rw [Registers.advance_gp, h.zero]
  · rw [Registers.advance_gp, h.base]
  · unfold Registers.loaded
    rw [hload, hvalue, Registers.advance_gp]
    exact h.loaded

/-- The end of the instruction. -/
theorem finish (h : Between base rt a v regs) (hrt : rt ≠ 0) (hbase : base ≠ rt) {r : BitVec 5}
    (hr : r = rt ∨ r = 0) {n : Nat} (m : Machine n) (pcAfter x : BitVec 32) :
    ∃ regs', (Executed.next regs m pcAfter r x).finish = .finished regs' m ∧
      Between base rt a (if r = rt then x else v) regs' ∧ regs' loadReg = r.setWidth 32 := by
  obtain ⟨regs', hdelayed, hregs', hload⟩ := h.delayedLoad (x := x) hrt hbase hr
  refine ⟨regs'.advance pcAfter, ?_, hregs'.advance pcAfter, hload⟩
  unfold Executed.finish
  dsimp only
  rw [hdelayed]

theorem interrupted (h : Between base rt a v regs) (hrt : rt ≠ 0) (hbase : base ≠ rt) (k : Nat) :
    ∃ regs', regs.interrupted k = some regs' ∧ Between base rt a v regs' ∧
      (regs loadReg = 0 → regs' loadReg = 0) := by
  induction k generalizing regs with
  | zero => exact ⟨regs, rfl, h, id⟩
  | succ k ih =>
    obtain ⟨regs₁, hregs₁, h₁, hload₁⟩ := h.settle hrt hbase
    obtain ⟨regs₂, hregs₂, h₂, hload₂⟩ := ih h₁
    exact ⟨regs₂, by rw [Registers.interrupted, hregs₁, Option.bind_some, hregs₂], h₂,
      fun _ => hload₂ hload₁⟩

end Between

/-! ## The unaligned word -/

section Word

variable {n : Nat} {f : FlatStore n} {a : BitVec 32}

/-- The four bytes from `a` on are mapped and can be written. -/
def FlatStore.PermitsWord (f : FlatStore n) (a : BitVec 32) : Prop :=
  ∀ i < 4, f.Permits (a + BitVec.ofNat 32 i) .byte

/-- The bytes are next to each other, and do not reach the end of the address space. -/
theorem FlatStore.PermitsWord.toNat (h : f.PermitsWord a) (hsize : n * pageSize ≤ memorySize)
    {i : Nat} (hi : i < 4) : (a + BitVec.ofNat 32 i).toNat = a.toNat + i := by
  have hlt : a.toNat < memorySize := by
    obtain ⟨_, hlt, _⟩ := h 0 (by decide)
    have hzero : a + BitVec.ofNat 32 0 = a := BitVec.add_zero a
    rw [hzero] at hlt
    exact Nat.lt_of_lt_of_le hlt hsize
  have hmemory : memorySize = 2 ^ 14 := rfl
  rw [BitVec.toNat_add, BitVec.toNat_ofNat]
  omega

/-- The aligned word that a half reads. -/
theorem Half.aligned (half : Half) (h : f.PermitsWord a) (hsize : n * pageSize ≤ memorySize) :
    ((a + half.offset.setWidth 32) &&& 0x3).toNat = (a.toNat + half.offset.toNat) % 4 ∧
      (a + half.offset.setWidth 32 - ((a + half.offset.setWidth 32) &&& 0x3)).toNat =
        a.toNat + half.offset.toNat - ((a + half.offset.setWidth 32) &&& 0x3).toNat ∧
      f.Permits (a + half.offset.setWidth 32 - ((a + half.offset.setWidth 32) &&& 0x3)) .word := by
  have hoff : half.offset.toNat < 4 := by cases half <;> decide
  have hoffset : half.offset.setWidth 32 = BitVec.ofNat 32 half.offset.toNat := by
    cases half <;> rfl
  rw [hoffset]
  have ht := h.toNat hsize hoff
  have hpermits := h half.offset.toNat hoff
  generalize a + BitVec.ofNat 32 half.offset.toNat = t at ht hpermits ⊢
  have hbyte : (t &&& 0x3).toNat = t.toNat % 4 := by
    have hmask : (0x3 : BitVec 32).toNat = 2 ^ 2 - 1 := rfl
    rw [BitVec.toNat_and, hmask, Nat.and_two_pow_sub_one_eq_mod]
  have hword : (t - (t &&& 0x3)).toNat = t.toNat - t.toNat % 4 := by
    have hle : (t &&& 0x3).toNat ≤ t.toNat := hbyte ▸ Nat.mod_le _ _
    rw [BitVec.toNat_sub_of_le hle, hbyte]
  refine ⟨hbyte.trans (by rw [ht]), ?_, f.permits_word hpermits hword⟩
  rw [hword, hbyte, ht]

end Word

/-! ## One half -/

section Halves

variable {n : Nat} {m m₁ : Machine n} {frame : Fin n → Fin numPhysPages} {f : FlatStore n}
  {base rt : BitVec 5} {a v : BitVec 32} {regs : Registers}

theorem Half.execute_load (half : Half) (rd : BitVec 5) (hregs : Between base rt a v regs) :
    (Instruction.mk half.loadCode base rt rd (half.offset.setWidth 32)).execute regs m =
      .load regs m rt (a + half.offset.setWidth 32 - ((a + half.offset.setWidth 32) &&& 0x3)) 4
        fun value => half.merge v value ((a + half.offset.setWidth 32) &&& 0x3) := by
  rw [← hregs.base, ← hregs.loaded]
  cases half <;> rfl

/-- A load puts the covered bytes into `rt`, and leaves the other ones there. -/
theorem Half.oneInstruction_load (half : Half) (hshows : Shows m frame f)
    (hregs : Between base rt a v regs) (hrt : rt ≠ 0) (hbase : base ≠ rt)
    (hword : f.PermitsWord a) (hsize : n * pageSize ≤ memorySize)
    (hfetch : m.readMem (regs pcReg) 4 = .done (m₁, half.loadWord base rt)) :
    ∃ regs' m' v', oneInstruction regs m = .finished regs' m' ∧ m'.mainMemory = m.mainMemory ∧
      Shows m' frame f ∧ Between base rt a v' regs' ∧ ∀ i < 4, byteOf v' i =
        if half.covers a.toNat i then f.byteAt (a.toNat + i) else byteOf v i := by
  obtain ⟨rd, hdecode⟩ := half.decode_loadWord base rt
  obtain ⟨hbyte, hx, hpermits⟩ := half.aligned hword hsize
  obtain ⟨value, hread, hvalue⟩ := FlatStore.read_word hpermits
  rw [hx] at hvalue
  have hm₁ : m₁.mainMemory = m.mainMemory := Machine.mainMemory_of_readMem hfetch
  obtain ⟨m₂, hm₂, hsame, hshows₂⟩ :=
    (hshows.of_readMem (w := .word) hfetch).exists_readMem hread
  have hexec : (Instruction.decode (half.loadWord base rt)).execute regs m₁ =
      .next regs m₂ (regs nextPCReg + 4) rt
        (half.merge v value ((a + half.offset.setWidth 32) &&& 0x3)) := by
    rw [hdecode, half.execute_load rd hregs, Executed.load]
    rw [show (4 : Nat) = Width.word.size from rfl, hm₂]
  obtain ⟨regs', hfinish, hregs', _⟩ := hregs.finish hrt hbase (.inl rfl) m₂ (regs nextPCReg + 4)
    (half.merge v value ((a + half.offset.setWidth 32) &&& 0x3))
  rw [if_pos rfl] at hregs'
  refine ⟨regs', m₂, _, ?_, hsame.trans hm₁, hshows₂, hregs', ?_⟩
  · unfold oneInstruction
    rw [hfetch]
    dsimp only
    rw [hexec, hfinish]
  · intro i hi
    exact half.byteOf_merge v value hbyte hvalue hi

theorem Half.execute_store (half : Half) (rd : BitVec 5) (hbase : regs.gp base = a) :
    (Instruction.mk half.storeCode base rt rd (half.offset.setWidth 32)).execute regs m =
      .storePart regs m (a + half.offset.setWidth 32)
        fun value byte => half.splice value (regs.gp rt) byte := by
  rw [← hbase]
  cases half <;> rfl

/-- A store puts the covered bytes of `rt` into memory, and changes no other byte. -/
theorem Half.oneInstruction_store (half : Half) (hshows : Shows m frame f)
    (hinj : Function.Injective frame) (hregs : Between base rt a v regs)
    (hload : regs loadReg = 0) (hrt : rt ≠ 0) (hbase : base ≠ rt) (hword : f.PermitsWord a)
    (hfetch : m.readMem (regs pcReg) 4 = .done (m₁, half.storeWord base rt)) :
    ∃ regs' m' f', oneInstruction regs m = .finished regs' m' ∧ Shows m' frame f' ∧
      Between base rt a v regs' ∧ regs' loadReg = 0 ∧
      (∀ p, (∀ v, phys frame v ≠ p) → m'.mainMemory p = m.mainMemory p) ∧
      (∀ addr w, f'.Permits addr w ↔ f.Permits addr w) ∧
      ∀ k, f'.byteAt k =
        if a.toNat ≤ k ∧ k < a.toNat + 4 ∧ half.covers a.toNat (k - a.toNat) then
          byteOf v (k - a.toNat)
        else f.byteAt k := by
  obtain ⟨rd, hdecode⟩ := half.decode_storeWord base rt
  obtain ⟨hbyte, hx, hpermits⟩ := half.aligned hword (size_le_memorySize hinj)
  obtain ⟨value, hread, hvalue⟩ := FlatStore.read_word hpermits
  rw [hx] at hvalue
  obtain ⟨m₂, hm₂, hsame₂, hshows₂⟩ :=
    (hshows.of_readMem (w := .word) hfetch).exists_readMem hread
  have hrtv : regs.gp rt = v := hregs.gp_eq hload hrt
  obtain ⟨f', hwrite, hbytes⟩ := FlatStore.write_word hpermits
    (half.splice value v ((a + half.offset.setWidth 32) &&& 0x3))
  obtain ⟨m₃, hm₃, hshows₃, hframe⟩ := hshows₂.exists_writeMem hinj hwrite
  have hexec : (Instruction.decode (half.storeWord base rt)).execute regs m₁ =
      .next regs m₃ (regs nextPCReg + 4) 0 0 := by
    rw [hdecode, half.execute_store rd hregs.base, Executed.storePart, hrtv]
    rw [show (4 : Nat) = Width.word.size from rfl, hm₂]
    show Executed.store _ _ _ _ _ = _
    rw [Executed.store, hm₃]
  obtain ⟨regs', hfinish, hregs', hload'⟩ := hregs.finish hrt hbase (.inr rfl) m₃
    (regs nextPCReg + 4) 0
  rw [if_neg hrt.symm] at hregs'
  refine ⟨regs', m₃, f', ?_, hshows₃, hregs', hload', ?_, fun addr w =>
    FlatStore.permits_write hwrite addr w, ?_⟩
  · unfold oneInstruction
    rw [hfetch]
    dsimp only
    rw [hexec, hfinish]
  · intro p hp
    rw [hframe p hp, hsame₂, Machine.mainMemory_of_readMem hfetch]
  · intro k
    rw [hbytes, hx]
    exact half.byteOf_splice value v hbyte hvalue k

/-! ## Both halves -/

theorem runInstructions_cons {regs₁ regs₂ : Registers} {m' : Machine n} {k : Nat}
    (hone : oneInstruction regs m = .finished regs₁ m') (hregs₂ : regs₁.interrupted k = some regs₂)
    (ks : List Nat) : runInstructions (k :: ks) regs m = runInstructions ks regs₂ m' := by
  rw [runInstructions, hone]
  simp only [Instructed.andThen, hregs₂]

theorem Instructed.settled_finished {regs' : Registers} (h : regs.delayedLoad 0 0 = some regs') :
    (Instructed.finished regs m).settled = .finished regs' m := by
  unfold settled
  dsimp only
  rw [h]

/-- Two instructions with these words, and `k` interrupts between them. -/
structure FetchesBoth (regs : Registers) (m : Machine n) (k : Nat) (word word' : BitVec 32) :
    Prop where
  first : ∃ m₁, m.readMem (regs pcReg) 4 = .done (m₁, word)
  second : ∀ regs₁ m₁, runInstructions [k] regs m = .finished regs₁ m₁ →
    ∃ m₂, m₁.readMem (regs₁ pcReg) 4 = .done (m₂, word')

theorem loads_compose {first second : Half} (horder : first ≠ second) (hshows : Shows m frame f)
    (hregs : Between base rt a v regs) (hrt : rt ≠ 0) (hbase : base ≠ rt)
    (hword : f.PermitsWord a) (hsize : n * pageSize ≤ memorySize) (k j : Nat)
    (hfetch : FetchesBoth regs m k (first.loadWord base rt) (second.loadWord base rt)) :
    ∃ regs' m', (runInstructions [k, j] regs m).settled = .finished regs' m' ∧
      m'.mainMemory = m.mainMemory ∧
      ∀ i < 4, byteOf (regs'.gp rt) i = f.byteAt (a.toNat + i) := by
  obtain ⟨_, hfirst⟩ := hfetch.first
  obtain ⟨regs₁, m₁, v₁, hone, hm₁, hshows₁, hregs₁, hv₁⟩ :=
    first.oneInstruction_load hshows hregs hrt hbase hword hsize hfirst
  obtain ⟨regs₂, hint, hregs₂, _⟩ := hregs₁.interrupted hrt hbase k
  obtain ⟨_, hsecond⟩ := hfetch.second regs₂ m₁ (runInstructions_cons hone hint [])
  obtain ⟨regs₃, m₃, v₃, hone₃, hm₃, _, hregs₃, hv₃⟩ :=
    second.oneInstruction_load hshows₁ hregs₂ hrt hbase hword hsize hsecond
  obtain ⟨regs₄, hint₄, hregs₄, _⟩ := hregs₃.interrupted hrt hbase j
  obtain ⟨regs₅, hlast, hregs₅, hload⟩ := hregs₄.settle hrt hbase
  refine ⟨regs₅, m₃, ?_, hm₃.trans hm₁, ?_⟩
  · rw [runInstructions_cons hone hint, runInstructions_cons hone₃ hint₄, runInstructions,
      Instructed.settled_finished hlast]
  · intro i hi
    rw [hregs₅.gp_eq hload hrt, hv₃ i hi, hv₁ i hi]
    -- what the second half does not cover, the first one does
    by_cases hcovers : second.covers a.toNat i
    · rw [if_pos hcovers]
    · rw [if_neg hcovers, if_pos ((Half.covers_or horder a.toNat hi).resolve_right hcovers)]

theorem stores_compose {first second : Half} (horder : first ≠ second) (hshows : Shows m frame f)
    (hinj : Function.Injective frame) (hregs : Between base rt a v regs)
    (hload : regs loadReg = 0) (hrt : rt ≠ 0) (hbase : base ≠ rt) (hword : f.PermitsWord a)
    (k j : Nat)
    (hfetch : FetchesBoth regs m k (first.storeWord base rt) (second.storeWord base rt)) :
    ∃ regs' m' f', (runInstructions [k, j] regs m).settled = .finished regs' m' ∧
      Shows m' frame f' ∧ f'.PermitsWord a ∧
      (∀ p, (∀ v, phys frame v ≠ p) → m'.mainMemory p = m.mainMemory p) ∧
      ∀ i, f'.byteAt i =
        if a.toNat ≤ i ∧ i < a.toNat + 4 then byteOf v (i - a.toNat) else f.byteAt i := by
  have hsize := size_le_memorySize hinj
  obtain ⟨_, hfirst⟩ := hfetch.first
  obtain ⟨regs₁, m₁, f₁, hone, hshows₁, hregs₁, hload₁, hframe₁, hpermits₁, hbytes₁⟩ :=
    first.oneInstruction_store hshows hinj hregs hload hrt hbase hword hfirst
  obtain ⟨regs₂, hint, hregs₂, hload₂⟩ := hregs₁.interrupted hrt hbase k
  have hword₁ : f₁.PermitsWord a := fun i hi => (hpermits₁ _ _).mpr (hword i hi)
  obtain ⟨_, hsecond⟩ := hfetch.second regs₂ m₁ (runInstructions_cons hone hint [])
  obtain ⟨regs₃, m₃, f₃, hone₃, hshows₃, hregs₃, _, hframe₃, hpermits₃, hbytes₃⟩ :=
    second.oneInstruction_store hshows₁ hinj hregs₂ (hload₂ hload₁) hrt hbase hword₁ hsecond
  obtain ⟨regs₄, hint₄, hregs₄, _⟩ := hregs₃.interrupted hrt hbase j
  obtain ⟨regs₅, hlast, _, _⟩ := hregs₄.settle hrt hbase
  refine ⟨regs₅, m₃, f₃, ?_, hshows₃, fun i hi => (hpermits₃ _ _).mpr (hword₁ i hi), ?_, ?_⟩
  · rw [runInstructions_cons hone hint, runInstructions_cons hone₃ hint₄, runInstructions,
      Instructed.settled_finished hlast]
  · intro p hp
    rw [hframe₃ p hp, hframe₁ p hp]
  · intro i
    rw [hbytes₃, hbytes₁]
    by_cases hin : a.toNat ≤ i ∧ i < a.toNat + 4
    · rw [if_pos hin]
      by_cases hcovers : second.covers a.toNat (i - a.toNat)
      · rw [if_pos ⟨hin.1, hin.2, hcovers⟩]
      · have hfirst := (Half.covers_or horder a.toNat (i := i - a.toNat) (by omega)).resolve_right
          hcovers
        rw [if_neg fun h => hcovers h.2.2, if_pos ⟨hin.1, hin.2, hfirst⟩]
    · rw [if_neg hin, if_neg fun h => hin ⟨h.1, h.2.1⟩, if_neg fun h => hin ⟨h.1, h.2.1⟩]

/--
The halves of an unaligned access compose.

`LWL` and `LWR`, in either order and interrupted between them or not, leave in `rt` the four bytes
from the address on; `SWL` and `SWR` store the four bytes of `rt` there, and change no other byte of
main memory. The word may span two words or two pages.
-/
theorem unaligned_pairs (hsees : Sees m f) (hvalid : regs.Valid) (hload : regs loadReg = 0)
    (hrt : rt ≠ 0) (hbase : base ≠ rt)
    (hwritable : ∀ i < 4, UserWritable m (regs.gp base + BitVec.ofNat 32 i))
    {first second : Half} (horder : first ≠ second) (k j : Nat) :
    (FetchesBoth regs m k (first.loadWord base rt) (second.loadWord base rt) →
      ∃ regs' m', (runInstructions [k, j] regs m).settled = .finished regs' m' ∧
        m'.mainMemory = m.mainMemory ∧
        ∀ i < 4, UserByte m (regs.gp base + BitVec.ofNat 32 i) (byteOf (regs'.gp rt) i)) ∧
    (FetchesBoth regs m k (first.storeWord base rt) (second.storeWord base rt) →
      ∃ regs' m', (runInstructions [k, j] regs m).settled = .finished regs' m' ∧
        (∀ i < 4, UserByte m' (regs.gp base + BitVec.ofNat 32 i) (byteOf (regs.gp rt) i)) ∧
        ∀ p, m'.mainMemory p ≠ m.mainMemory p →
          ∃ i < 4, UserPhys m (regs.gp base + BitVec.ofNat 32 i) p) := by
  obtain ⟨frame, hinj, hshows⟩ := sees_iff.mp hsees
  have hsize := size_le_memorySize hinj
  have hword : f.PermitsWord (regs.gp base) :=
    fun i hi => hsees.userWritable_iff.mp (hwritable i hi)
  have hregs : Between base rt (regs.gp base) (regs.gp rt) regs :=
    Between.of_valid hvalid hload hrt
  constructor
  · intro hfetch
    obtain ⟨regs', m', hrun, hm, hbytes⟩ :=
      loads_compose horder hshows hregs hrt hbase hword hsize k j hfetch
    refine ⟨regs', m', hrun, hm, ?_⟩
    intro i hi
    rw [hbytes i hi, ← hword.toNat hsize hi]
    exact hshows.userByte hinj (hword i hi)
  · intro hfetch
    obtain ⟨regs', m', f', hrun, hshows', hword', hframe, hbytes⟩ :=
      stores_compose horder hshows hinj hregs hload hrt hbase hword k j hfetch
    refine ⟨regs', m', hrun, ?_, ?_⟩
    · intro i hi
      have hbyte := hshows'.userByte hinj (hword' i hi)
      rw [hword'.toNat hsize hi, hbytes, if_pos (by omega), Nat.add_sub_cancel_left] at hbyte
      exact hbyte
    · intro p hp
      obtain ⟨v, rfl, hv⟩ := hshows.changed hshows' hframe hp
      have hin : (regs.gp base).toNat ≤ v ∧ v < (regs.gp base).toNat + 4 := by
        by_contra hout
        rw [hbytes, if_neg hout] at hv
        exact hv rfl
      have hi : v - (regs.gp base).toNat < 4 := by omega
      obtain ⟨hlt, hphys⟩ := hshows.userPhys (hword _ hi)
      refine ⟨_, hi, ?_⟩
      have hindex : (⟨_, hlt⟩ : Fin (n * pageSize)) = v :=
        Fin.ext ((hword.toNat hsize hi).trans (Nat.add_sub_cancel' hin.1))
      rw [hindex] at hphys
      exact hphys

end Halves

/-- A page with `LWR r2, 0(r1)` and `LWL r2, 3(r1)`, and with bytes behind them. -/
def loadHalves : Machine 1 :=
  programPage [Half.right.loadWord 1 2, Half.left.loadWord 1 2, 0x44332211, 0x88776655]

/-- A page with `SWL r2, 3(r1)` and `SWR r2, 0(r1)`. -/
def storeHalves : Machine 1 :=
  programPage [Half.left.storeWord 1 2, Half.right.storeWord 1 2, 0x44332211, 0x88776655]

/-- The word that the program counter points to behind a run. -/
def Instructed.nextWord : Instructed n → Access (BitVec 32)
  | .finished regs m => (m.readMem (regs pcReg) 4).map Prod.snd
  | _ => .aborted

/-- The word at 9 is read with an interrupt between the halves, and written without one. -/
theorem unaligned_pairs_nine :
    (∃ regs' m', (runInstructions [1, 0] (operands 9 0) loadHalves).settled = .finished regs' m' ∧
      UserByte loadHalves 11 (byteOf (regs'.gp 2) 2)) ∧
    ∃ regs' m', (runInstructions [0, 0] (operands 9 0x0a0b0c0d) storeHalves).settled =
      .finished regs' m' ∧ UserByte m' 11 0x0b := by
  have hsees : ∀ words, Sees (programPage words) _ := fun words =>
    ⟨_, fun _ => ⟨0, by decide⟩, rfl, rfl, fun _ => rfl, fun p q _ => Subsingleton.elim p q, rfl⟩
  have hbase : ∀ rt, (operands 9 rt).gp 1 = 9 := fun _ => rfl
  have hwritable : ∀ words rt, ∀ i < 4,
      UserWritable (programPage words) ((operands 9 rt).gp 1 + BitVec.ofNat 32 i) := by
    intro words rt i hi value
    rw [hbase]
    obtain rfl | rfl | rfl | rfl : i = 0 ∨ i = 1 ∨ i = 2 ∨ i = 3 := by omega
    all_goals exact ⟨_, rfl⟩
  have hvalid : ∀ rt, (operands 9 rt).Valid := fun rt => ⟨⟨0, rfl⟩, rfl⟩
  constructor
  · have hfetch : FetchesBoth (operands 9 0) loadHalves 1 (Half.right.loadWord 1 2)
        (Half.left.loadWord 1 2) := by
      refine ⟨⟨_, rfl⟩, ?_⟩
      intro regs₁ m₁ hrun
      cases hrun
      exact ⟨_, rfl⟩
    obtain ⟨regs', m', hrun, _, hbytes⟩ := (unaligned_pairs (hsees _) (hvalid 0) rfl (by decide)
      (by decide) (hwritable _ 0) (by decide) 1 0).1 hfetch
    have hbyte := hbytes 2 (by decide)
    rw [hbase] at hbyte
    exact ⟨regs', m', hrun, hbyte⟩
  · have hfetch : FetchesBoth (operands 9 0x0a0b0c0d) storeHalves 0 (Half.left.storeWord 1 2)
        (Half.right.storeWord 1 2) := by
      have hsecond : (runInstructions [0] (operands 9 0x0a0b0c0d) storeHalves).nextWord =
          .done (Half.right.storeWord 1 2) := by decide +kernel
      refine ⟨⟨_, rfl⟩, ?_⟩
      intro regs₁ m₁ hrun
      rw [hrun] at hsecond
      obtain ⟨⟨m₂, _⟩, hread, rfl⟩ := Access.map_eq_done.mp hsecond
      exact ⟨m₂, hread⟩
    obtain ⟨regs', m', hrun, hbytes, _⟩ := (unaligned_pairs (hsees _) (hvalid 0x0a0b0c0d) rfl
      (by decide) (by decide) (hwritable _ 0x0a0b0c0d) (by decide) 0 0).2 hfetch
    have hbyte := hbytes 2 (by decide)
    rw [hbase] at hbyte
    exact ⟨regs', m', hrun, hbyte⟩

end Nachos
