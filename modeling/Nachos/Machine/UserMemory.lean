import Nachos.Machine.FlatStore

/-!
# User memory, byte by byte (`machine/translate.cc`)

A process reads and writes memory through its page table. While the table maps its pages to
different frames, what the process sees is a flat store, and every access is one to that store.

* `Sees` — the flat store that a process sees
* `Shows` — the same with the frames given; main memory behind other frames is not touched
* `UserByte`, `UserWritable` — the bytes that `ReadMem` and `WriteMem` get at
* `UserPhys` — where they are in main memory
-/

namespace Nachos

open Base

variable {n : Nat}

/-- The process can read the byte `b` at `addr`. -/
def UserByte (m : Machine n) (addr : BitVec 32) (b : BitVec 8) : Prop :=
  ∃ m', m.readMem addr 1 = .done (m', b.signExtend 32)

/-- The process can write a byte at `addr`. -/
def UserWritable (m : Machine n) (addr : BitVec 32) : Prop :=
  ∀ value, ∃ m', m.writeMem addr 1 value = .done m'

/-- The byte of main memory behind `addr`. -/
def UserPhys (m : Machine n) (addr : BitVec 32) (p : Fin memorySize) : Prop :=
  ∃ m' pa, m.translate addr 1 true = .done (m', pa) ∧ pa.1 = p

/-- The page table of `m` maps its pages to different frames, and `f` is what it shows of memory. -/
def Sees (m : Machine n) (f : FlatStore n) : Prop :=
  ∃ pageTable frame, m.tlb = none ∧ m.pageTable = some pageTable ∧ Maps pageTable frame ∧
    Function.Injective frame ∧ f = flat m.mainMemory pageTable frame

/-- The page table of `m` puts its pages into these frames, and `f` is what it shows of memory. -/
def Shows (m : Machine n) (frame : Fin n → Fin numPhysPages) (f : FlatStore n) : Prop :=
  ∃ pageTable, m.tlb = none ∧ m.pageTable = some pageTable ∧ Maps pageTable frame ∧
    f = flat m.mainMemory pageTable frame

theorem sees_iff {m : Machine n} {f : FlatStore n} :
    Sees m f ↔ ∃ frame, Function.Injective frame ∧ Shows m frame f := by
  constructor
  · rintro ⟨pageTable, frame, htlb, htable, hmaps, hinj, hf⟩
    exact ⟨frame, hinj, pageTable, htlb, htable, hmaps, hf⟩
  · rintro ⟨frame, hinj, pageTable, htlb, htable, hmaps, hf⟩
    exact ⟨pageTable, frame, htlb, htable, hmaps, hinj, hf⟩

/-- There are no more pages than frames. -/
theorem size_le_memorySize {frame : Fin n → Fin numPhysPages} (hinj : Function.Injective frame) :
    n * pageSize ≤ memorySize :=
  Nat.mul_le_mul_right _ (by simpa using Fintype.card_le_of_injective frame hinj)

/-! ## Accesses of the process -/

namespace Shows

variable {m : Machine n} {frame : Fin n → Fin numPhysPages} {f : FlatStore n}

theorem bytes (h : Shows m frame f) : f.bytes = m.mainMemory ∘ phys frame := by
  obtain ⟨pageTable, _, _, _, rfl⟩ := h
  rfl

/-- `ReadMem` is a read of the flat store. -/
theorem readMem (h : Shows m frame f) (addr : BitVec 32) (w : Width) :
    (∃ m' value, f.read addr w = .done value ∧ m.readMem addr w.size = .done (m', value) ∧
      m'.mainMemory = m.mainMemory ∧ Shows m' frame f) ∨
    ∃ e, f.read addr w = .raised e ∧ m.readMem addr w.size = .raised e := by
  obtain ⟨pageTable, htlb, htable, hmaps, rfl⟩ := h
  have hread := readMem_flat htlb htable hmaps addr w
  cases hf : (flat m.mainMemory pageTable frame).read addr w with
  | done value =>
    rw [hf] at hread
    obtain ⟨pageTable', hsame, hread⟩ := hread
    refine .inl ⟨_, value, rfl, hread, rfl, pageTable', htlb, rfl, hmaps.sameMapping hsame, ?_⟩
    exact (flat_sameMapping hsame m.mainMemory frame).symm
  | raised e =>
    rw [hf] at hread
    exact .inr ⟨e, rfl, hread⟩
  | aborted =>
    rw [hf] at hread
    exact hread.elim

/-- `WriteMem` is a write of the flat store, and changes nothing behind the other frames. -/
theorem writeMem (h : Shows m frame f) (hinj : Function.Injective frame) (addr : BitVec 32)
    (w : Width) (value : BitVec 32) :
    (∃ m' f', f.write addr w value = .done f' ∧ m.writeMem addr w.size value = .done m' ∧
      Shows m' frame f' ∧ ∀ p, (∀ v, phys frame v ≠ p) → m'.mainMemory p = m.mainMemory p) ∨
    ∃ e, f.write addr w value = .raised e ∧ m.writeMem addr w.size value = .raised e := by
  obtain ⟨pageTable, htlb, htable, hmaps, rfl⟩ := h
  have hwrite := writeMem_flat htlb htable hmaps addr w value
  unfold FlatStore.write
  cases hcheck : (flat m.mainMemory pageTable frame).check addr w true with
  | done v =>
    rw [hcheck] at hwrite
    obtain ⟨pageTable', pa, hsame, hwrite, hpa⟩ := hwrite
    refine .inl ⟨_, _, rfl, hwrite, ⟨pageTable', htlb, rfl, hmaps.sameMapping hsame, ?_⟩, ?_⟩
    · rw [flat_sameMapping hsame]
      simp only [flat]
      congr 1
      exact (Bytes.store_comp (phys_injective hinj) pa.2 v.2 hpa).symm
    · intro p hp
      simp only [Bytes.store_apply]
      rw [if_neg]
      rintro ⟨hlo, hhi⟩
      refine hp _ ((hpa (p - pa.1) (by omega)).trans (Fin.ext ?_))
      simp only
      omega
  | raised e =>
    rw [hcheck] at hwrite
    exact .inr ⟨e, rfl, hwrite⟩
  | aborted =>
    rw [hcheck] at hwrite
    exact hwrite.elim

theorem of_readMem (h : Shows m frame f) {m' : Machine n} {addr value : BitVec 32} {w : Width}
    (hm : m.readMem addr w.size = .done (m', value)) : Shows m' frame f := by
  rcases h.readMem addr w with ⟨_, _, _, hread, _, hshows⟩ | ⟨_, _, hread⟩
  · cases hread.symm.trans hm
    exact hshows
  · cases hread.symm.trans hm

theorem exists_readMem (h : Shows m frame f) {addr value : BitVec 32} {w : Width}
    (hf : f.read addr w = .done value) :
    ∃ m', m.readMem addr w.size = .done (m', value) ∧ m'.mainMemory = m.mainMemory ∧
      Shows m' frame f := by
  rcases h.readMem addr w with ⟨m', _, hread, hm, hsame, hshows⟩ | ⟨_, hread, _⟩
  · cases hread.symm.trans hf
    exact ⟨m', hm, hsame, hshows⟩
  · cases hread.symm.trans hf

theorem exists_writeMem (h : Shows m frame f) (hinj : Function.Injective frame)
    {addr value : BitVec 32} {w : Width} {f' : FlatStore n} (hf : f.write addr w value = .done f') :
    ∃ m', m.writeMem addr w.size value = .done m' ∧ Shows m' frame f' ∧
      ∀ p, (∀ v, phys frame v ≠ p) → m'.mainMemory p = m.mainMemory p := by
  rcases h.writeMem hinj addr w value with ⟨m', _, hwrite, hm, hshows, hframe⟩ | ⟨_, hwrite, _⟩
  · cases hwrite.symm.trans hf
    exact ⟨m', hm, hshows, hframe⟩
  · cases hwrite.symm.trans hf

end Shows

/-- `ReadMem` is a read of the flat store. -/
theorem Sees.readMem {m : Machine n} {f : FlatStore n} (h : Sees m f) (addr : BitVec 32)
    (w : Width) :
    (∃ m' value, f.read addr w = .done value ∧ m.readMem addr w.size = .done (m', value) ∧
      Sees m' f) ∨
    ∃ e, f.read addr w = .raised e ∧ m.readMem addr w.size = .raised e := by
  obtain ⟨frame, hinj, hshows⟩ := sees_iff.mp h
  rcases hshows.readMem addr w with ⟨m', value, hf, hm, _, hshows'⟩ | herror
  · exact .inl ⟨m', value, hf, hm, sees_iff.mpr ⟨frame, hinj, hshows'⟩⟩
  · exact .inr herror

/-- `WriteMem` is a write of the flat store. -/
theorem Sees.writeMem {m : Machine n} {f : FlatStore n} (h : Sees m f) (addr : BitVec 32)
    (w : Width) (value : BitVec 32) :
    (∃ m' f', f.write addr w value = .done f' ∧ m.writeMem addr w.size value = .done m' ∧
      Sees m' f') ∨
    ∃ e, f.write addr w value = .raised e ∧ m.writeMem addr w.size value = .raised e := by
  obtain ⟨frame, hinj, hshows⟩ := sees_iff.mp h
  rcases hshows.writeMem hinj addr w value with ⟨m', f', hf, hm, hshows', _⟩ | herror
  · exact .inl ⟨m', f', hf, hm, sees_iff.mpr ⟨frame, hinj, hshows'⟩⟩
  · exact .inr herror

theorem UserByte.unique {m : Machine n} {addr : BitVec 32} {b c : BitVec 8}
    (hb : UserByte m addr b) (hc : UserByte m addr c) : b = c := by
  obtain ⟨m₁, hb⟩ := hb
  obtain ⟨m₂, hc⟩ := hc
  rw [hb] at hc
  exact signExtend_inj.mp (Prod.mk.inj (Access.done.inj hc)).2

/-- Different offsets are different addresses. -/
theorem offset_ne {addr : BitVec 32} {i j : Nat} (hi : i < 2 ^ 32) (hj : j < 2 ^ 32) (hij : i ≠ j) :
    addr + BitVec.ofNat 32 i ≠ addr + BitVec.ofNat 32 j := by
  intro heq
  have hnat := congrArg BitVec.toNat ((BitVec.add_right_inj addr).mp heq)
  rw [BitVec.toNat_ofNat, BitVec.toNat_ofNat] at hnat
  omega

/-! ## Bytes of the flat store -/

namespace FlatStore

/-- The byte at `addr` is `b`, and can be read. -/
def Holds (f : FlatStore n) (addr : BitVec 32) (b : BitVec 8) : Prop :=
  f.read addr .byte = .done (b.signExtend 32)

theorem read_byte (f : FlatStore n) (addr : BitVec 32) :
    f.read addr .byte = if h : addr.toNat < n * pageSize then
      if f.valid (Fin.divNat ⟨addr.toNat, h⟩) then
        .done ((f.bytes ⟨addr.toNat, h⟩).signExtend 32)
      else .raised .pageFaultException
    else .raised .addressErrorException := by
  have hmod : addr.toNat % Width.byte.size = 0 := Nat.mod_one _
  unfold read check
  rw [dif_pos hmod]
  by_cases h : addr.toNat < n * pageSize
  · rw [dif_pos h, dif_pos h]
    cases hv : f.valid (Fin.divNat ⟨addr.toNat, h⟩) with
    | false => simp [hv, Access.map]
    | true => simp [hv, Access.map, extend, Bytes.load, Width.size]
  · rw [dif_neg h, dif_neg h]
    rfl

theorem exists_holds {f : FlatStore n} {addr value : BitVec 32}
    (h : f.read addr .byte = .done value) : ∃ b, f.Holds addr b := by
  unfold Holds
  rw [read_byte] at h ⊢
  split at h
  · next hlt =>
    split at h
    · next hvalid => exact ⟨_, by rw [dif_pos hlt, if_pos hvalid]⟩
    · simp at h
  · simp at h

/-- A write of the byte `b` at `addr` changes that byte, and no other. -/
theorem write_byte {f f' : FlatStore n} {addr value : BitVec 32}
    (h : f.write addr .byte value = .done f') (a : BitVec 32) :
    f'.read a .byte = if a = addr then .done ((byteOf value 0).signExtend 32)
      else f.read a .byte := by
  rcases f.write_eq addr .byte value with ⟨hv, hperm, hwrite⟩ | ⟨_, e, hwrite⟩
  · rw [h] at hwrite
    obtain rfl := Access.done.inj hwrite
    obtain ⟨_, hlt, hvalid, _⟩ := hperm
    rw [read_byte, read_byte]
    by_cases ha : a = addr
    · rw [if_pos ha, ha, dif_pos hlt, if_pos hvalid]
      simp [Bytes.store_apply, Width.size]
    · rw [if_neg ha]
      by_cases hlt' : a.toNat < n * pageSize
      · have hne : ¬ (addr.toNat ≤ a.toNat ∧ a.toNat < addr.toNat + 1) := by
          intro hc
          exact ha (BitVec.eq_of_toNat_eq (by omega))
        rw [dif_pos hlt', dif_pos hlt']
        simp only [Bytes.store_apply, Width.size, if_neg hne]
      · rw [dif_neg hlt', dif_neg hlt']
  · rw [h] at hwrite
    simp at hwrite

/-- The protection of the pages is not changed by a write. -/
theorem permits_write {f f' : FlatStore n} {addr value : BitVec 32} {w : Width}
    (h : f.write addr w value = .done f') (a : BitVec 32) (w' : Width) :
    f'.Permits a w' ↔ f.Permits a w' := by
  rcases f.write_eq addr w value with ⟨hv, _, hwrite⟩ | ⟨_, e, hwrite⟩
  · rw [h] at hwrite
    obtain rfl := Access.done.inj hwrite
    exact permits_congr rfl rfl
  · rw [h] at hwrite
    simp at hwrite

/-! ### Words and their bytes -/

/-- The byte at index `k`, and 0 outside. -/
def byteAt (f : FlatStore n) (k : Nat) : BitVec 8 :=
  if h : k < n * pageSize then f.bytes ⟨k, h⟩ else 0

theorem holds_byteAt {f : FlatStore n} {addr : BitVec 32} (h : f.Permits addr .byte) :
    f.Holds addr (f.byteAt addr.toNat) := by
  obtain ⟨_, hlt, hvalid, _⟩ := h
  unfold Holds byteAt
  rw [read_byte, dif_pos hlt, dif_pos hlt, if_pos hvalid]

/-- What is permitted for one byte is permitted for the word around it. -/
theorem permits_word {f : FlatStore n} {addr x : BitVec 32} (h : f.Permits addr .byte)
    (hx : x.toNat = addr.toNat - addr.toNat % 4) : f.Permits x .word := by
  obtain ⟨_, hlt, hvalid, hreadOnly⟩ := h
  have hle : x.toNat < n * pageSize := by omega
  have hpage : Fin.divNat (⟨x.toNat, hle⟩ : Fin (n * pageSize)) = Fin.divNat ⟨addr.toNat, hlt⟩ := by
    refine Fin.ext ?_
    show x.toNat / pageSize = addr.toNat / pageSize
    unfold pageSize
    omega
  refine ⟨?_, hle, ?_, ?_⟩
  · unfold Width.size
    dsimp only
    omega
  · rw [hpage, hvalid]
  · rw [hpage, hreadOnly]

theorem read_word {f : FlatStore n} {x : BitVec 32} (h : f.Permits x .word) :
    ∃ value, f.read x .word = .done value ∧
      ∀ j < 4, byteOf value j = f.byteAt (x.toNat + j) := by
  obtain ⟨hmod, hlt, hvalid, _⟩ := h
  have hsize : x.toNat + 4 ≤ n * pageSize := add_size_le hmod hlt
  have hread : f.read x .word = .done (BitVec.ofNat 32 (f.bytes.load x.toNat 4 hsize)) := by
    have hcheck : f.check x .word false = .done ⟨x.toNat, hsize⟩ := by
      simp [check, hmod, hlt, hvalid]
    unfold read
    rw [hcheck]
    rfl
  refine ⟨_, hread, ?_⟩
  intro j hj
  unfold byteAt
  rw [dif_pos (by omega), Bytes.byteOf_load _ hsize (by decide) hj]

theorem write_word {f : FlatStore n} {x : BitVec 32} (h : f.Permits x .word) (value : BitVec 32) :
    ∃ f', f.write x .word value = .done f' ∧ ∀ k, f'.byteAt k =
      if x.toNat ≤ k ∧ k < x.toNat + 4 then byteOf value (k - x.toNat) else f.byteAt k := by
  rcases f.write_eq x .word value with ⟨hv, _, hwrite⟩ | ⟨hnot, _⟩
  · refine ⟨_, hwrite, ?_⟩
    intro k
    have hsize : x.toNat + 4 ≤ n * pageSize := hv
    unfold byteAt
    by_cases hk : k < n * pageSize
    · rw [dif_pos hk, dif_pos hk]
      exact Bytes.store_apply _ _
    · rw [dif_neg hk, dif_neg hk, if_neg (by omega)]
  · exact absurd h hnot

end FlatStore

theorem Sees.userByte_iff {m : Machine n} {f : FlatStore n} (h : Sees m f) {addr : BitVec 32}
    {b : BitVec 8} : UserByte m addr b ↔ f.Holds addr b := by
  unfold UserByte FlatStore.Holds
  rcases h.readMem addr .byte with ⟨m', value, hf, hm, _⟩ | ⟨e, hf, hm⟩
  · rw [hf]
    constructor
    · rintro ⟨m₁, hm₁⟩
      rw [show (1 : Nat) = Width.byte.size from rfl, hm] at hm₁
      rw [(Prod.mk.inj (Access.done.inj hm₁)).2]
    · intro heq
      exact ⟨m', by rw [← Access.done.inj heq]; exact hm⟩
  · rw [hf]
    constructor
    · rintro ⟨m₁, hm₁⟩
      rw [show (1 : Nat) = Width.byte.size from rfl, hm] at hm₁
      simp at hm₁
    · intro heq
      simp at heq

theorem Sees.userWritable_iff {m : Machine n} {f : FlatStore n} (h : Sees m f) {addr : BitVec 32} :
    UserWritable m addr ↔ f.Permits addr .byte := by
  unfold UserWritable
  constructor
  · intro hw
    obtain ⟨m', hm'⟩ := hw 0
    rcases f.write_eq addr .byte 0 with ⟨_, hperm, _⟩ | ⟨_, e, hwrite⟩
    · exact hperm
    · rcases h.writeMem addr .byte 0 with ⟨_, f', hf, _⟩ | ⟨e', _, hm⟩
      · rw [hf] at hwrite
        simp at hwrite
      · rw [show (1 : Nat) = Width.byte.size from rfl, hm] at hm'
        simp at hm'
  · intro hperm value
    rcases h.writeMem addr .byte value with ⟨m', _, _, hm, _⟩ | ⟨e, hf, _⟩
    · exact ⟨m', hm⟩
    · rcases f.write_eq addr .byte value with ⟨_, _, hwrite⟩ | ⟨hnot, _⟩
      · rw [hf] at hwrite
        simp at hwrite
      · exact absurd hperm hnot

namespace Shows

variable {m m' : Machine n} {frame : Fin n → Fin numPhysPages} {f f' : FlatStore n}
  {addr : BitVec 32}

theorem userByte (h : Shows m frame f) (hinj : Function.Injective frame)
    (hpermits : f.Permits addr .byte) : UserByte m addr (f.byteAt addr.toNat) :=
  (sees_iff.mpr ⟨frame, hinj, h⟩ : Sees m f).userByte_iff.mpr (FlatStore.holds_byteAt hpermits)

theorem userPhys (h : Shows m frame f) (hpermits : f.Permits addr .byte) :
    ∃ hlt : addr.toNat < n * pageSize, UserPhys m addr (phys frame ⟨addr.toNat, hlt⟩) := by
  obtain ⟨pageTable, htlb, htable, hmaps, rfl⟩ := h
  obtain ⟨hmod, hlt, hvalid, hreadOnly⟩ := hpermits
  have htranslate := translate_flat htlb htable hmaps addr .byte true
  have hcheck : (flat m.mainMemory pageTable frame).check addr .byte true =
      .done ⟨addr.toNat, add_size_le hmod hlt⟩ := by
    simp [FlatStore.check, hmod, hlt, hvalid, hreadOnly]
  rw [hcheck] at htranslate
  obtain ⟨_, pa, htranslate, _, hpa⟩ := htranslate
  exact ⟨hlt, _, pa, htranslate, congrArg Fin.val (hpa 0 Nat.one_pos).symm⟩

/-- A byte of main memory has changed only where the flat store has. -/
theorem changed (h : Shows m frame f) (h' : Shows m' frame f')
    (hframe : ∀ p, (∀ v, phys frame v ≠ p) → m'.mainMemory p = m.mainMemory p)
    {p : Fin memorySize} (hp : m'.mainMemory p ≠ m.mainMemory p) :
    ∃ v : Fin (n * pageSize), phys frame v = p ∧ f'.byteAt v ≠ f.byteAt v := by
  by_cases hrange : ∃ v, phys frame v = p
  · obtain ⟨v, rfl⟩ := hrange
    refine ⟨v, rfl, ?_⟩
    unfold FlatStore.byteAt
    rw [dif_pos v.isLt, dif_pos v.isLt, h.bytes, h'.bytes]
    exact hp
  · exact absurd (hframe p fun v hv => hrange ⟨v, hv⟩) hp

end Shows

end Nachos
