import Nachos.Userprog.LoadImage

/-!
# What a program finds in its memory

A process that has just been loaded should read its segments at their virtual addresses and 0
everywhere else. What it does read is decided by the last copy loop to reach the byte, and each loop
copies whole pages of the file, from the start of its segment to the end of the program or of the
file. If `Load` returns at all, the program is in memory as it should be exactly when these bytes
happen to be the right ones (`load_correct_iff`). With two segments that follow each other in the
file and not in memory they are not (`gap_not_zero`).

* `Expects` — what should be at a virtual address
* `Readable` — `Load` gets to its end
* `PlacesCorrectly` — what comes out of the copy loops is what should be there
-/

namespace Nachos

open Base

/-! ## What should be in memory -/

/-- Byte `k` of the file. -/
def Executable.byteAt (exe : Executable) (k : Int) : Option (BitVec 8) :=
  if k < 0 then none else exe.bytes[k.toNat]?

/-- The virtual address is in the segment. -/
def Segment.Contains (seg : Segment) (v : Int) : Prop :=
  seg.virtualAddr.toInt ≤ v ∧ v < seg.virtualAddr.toInt + seg.size.toInt

instance (seg : Segment) (v : Int) : Decidable (seg.Contains v) :=
  inferInstanceAs (Decidable (_ ∧ _))

/-- `b` is what should be at virtual address `v`. -/
def Executable.Expects (exe : Executable) (v : Nat) (b : BitVec 8) : Prop :=
  (∀ seg ∈ exe.segments, seg.Contains v →
    exe.byteAt (seg.inFileAddr.toInt + (v - seg.virtualAddr.toInt)) = some b) ∧
  ((∀ seg ∈ exe.segments, ¬ seg.Contains v) → b = 0)

instance (exe : Executable) (v : Nat) (b : BitVec 8) : Decidable (exe.Expects v b) :=
  inferInstanceAs (Decidable (_ ∧ _))

/-- A segment that is not empty lies below virtual address `n`. -/
def Segment.Within (n : Nat) (seg : Segment) : Prop :=
  0 < seg.size.toInt →
    0 ≤ seg.virtualAddr.toInt ∧ seg.virtualAddr.toInt + seg.size.toInt ≤ n

/-- One segment ends before the other begins, if none is empty. -/
def Segment.Apart (seg seg' : Segment) : Prop :=
  0 < seg.size.toInt → 0 < seg'.size.toInt →
    seg.virtualAddr.toInt + seg.size.toInt ≤ seg'.virtualAddr.toInt ∨
      seg'.virtualAddr.toInt + seg'.size.toInt ≤ seg.virtualAddr.toInt

instance (n : Nat) (seg : Segment) : Decidable (seg.Within n) :=
  inferInstanceAs (Decidable (_ → _))

instance (seg seg' : Segment) : Decidable (seg.Apart seg') :=
  inferInstanceAs (Decidable (_ → _ → _))

/-- The four segments are disjoint and inside the address space. -/
def Executable.WellFormed (exe : Executable) : Prop :=
  (∀ seg ∈ exe.segments ++ [exe.header.uninitData],
    seg.Within (exe.header.numPages * pageSize)) ∧
  (exe.segments ++ [exe.header.uninitData]).Pairwise Segment.Apart

instance (exe : Executable) : Decidable exe.WellFormed :=
  inferInstanceAs (Decidable (_ ∧ _))

/-- Every virtual address of the new space reads as it should, if `Load` returns `TRUE`. -/
def LoadsCorrectly (bm : Bitmap) (exe : Executable) : Prop :=
  (AddrSpace.load bm (some exe)).2 = true →
    ∀ (mem : Bytes memorySize) (v : BitVec 32), v.toNat < exe.header.numPages * pageSize →
      ∃ m b,
        (AddrSpace.restoreState
          (memoryAfter mem (AddrSpace.load bm (some exe)).1.stores)
          (AddrSpace.load bm (some exe)).1.pageTable).readMem v 1 = .done (m, b.signExtend 32) ∧
        exe.Expects v.toNat b

/-- No copy loop gets to a negative file position. -/
def Executable.Readable (exe : Executable) (n : Nat) : Prop :=
  ∀ seg ∈ exe.segments, seg.Readable n

/--
The frames are in main memory, and at every virtual address the byte of the last copy loop to get
there, or 0 when none does, is the one that should be there.
-/
def PlacesCorrectly (exe : Executable) (frames : List Nat) : Prop :=
  (∀ f ∈ frames, f < numPhysPages) ∧
    ∀ v f : Nat, frames[v / pageSize]? = some f →
      exe.Expects v
        ((lastReaches exe frames exe.segments (f * pageSize + (v % pageSize : Nat))).getD 0)

/-! ## Main memory after a load -/

theorem written_zeroPages {frames : List Nat} {f r : Nat} (hf : f ∈ frames) (hr : r < pageSize) :
    written (zeroPages (entriesFor 0 frames)) (f * pageSize + r : Int) = some 0 := by
  cases h : written (zeroPages (entriesFor 0 frames)) (f * pageSize + r : Int) with
  | none =>
    rw [written_eq_none_iff] at h
    exact absurd rfl (h _ (mem_zeroPages.mpr ⟨f, hf, r, hr, rfl⟩))
  | some b =>
    obtain ⟨w, hw, -, rfl⟩ := exists_mem_of_written h
    obtain ⟨g, -, j, -, rfl⟩ := mem_zeroPages.mp hw
    rfl

/-- A byte of a frame of the program, after a load that got to its end. -/
theorem memoryAfter_load {exe : Executable} {frames : List Nat} (hnodup : frames.Nodup)
    (hread : exe.Readable frames.length) {f r : Nat} (hf : f ∈ frames) (hr : r < pageSize)
    (mem : Bytes memorySize) (h : f * pageSize + r < memorySize) :
    memoryAfter mem (zeroPages (entriesFor 0 frames) ++
        (copySegments exe (entriesFor 0 frames)).1) ⟨f * pageSize + r, h⟩
      = (lastReaches exe frames exe.segments (f * pageSize + r)).getD 0 := by
  have hzero := written_zeroPages hf hr
  rw [memoryAfter, writeAll_apply, copySegments_eq, written_append]
  simp only [Nat.cast_add, Nat.cast_mul, hzero, written_copyAll hnodup hread]
  cases lastReaches exe frames exe.segments (f * pageSize + r) <;> rfl

/-! ## Reading through the page table -/

theorem getElem_entriesFor {i j : Nat} {frames : List Nat} (h : j < (entriesFor i frames).length)
    {f : Nat} (hf : frames[j]? = some f) : (entriesFor i frames)[j] = newEntry (i + j) f := by
  induction frames generalizing i j with
  | nil => cases hf
  | cons g frames ih =>
    cases j with
    | zero =>
      obtain rfl := Option.some.inj hf
      rfl
    | succ j =>
      have hrec := ih (i := i + 1) (j := j) (by simpa [entriesFor] using h) hf
      rw [show i + (j + 1) = i + 1 + j by omega]
      exact hrec

theorem address_lt {f offset : Nat} (hf : f < numPhysPages) (ho : offset < pageSize) :
    f * pageSize + offset < memorySize := by
  simp only [memorySize, numPhysPages, pageSize] at *
  omega

/-- One byte of a page that is in main memory. -/
theorem resolve_newEntry {i f offset : Nat} (hf : f < numPhysPages) (ho : offset < pageSize) :
    (newEntry i f).resolve offset 1 false
      = .done ({ newEntry i f with use := true }, ⟨f * pageSize + offset, address_lt hf ho⟩) := by
  have hframe : (((f : Nat) : Int) % 2 ^ 32).toNat = f := by
    simp only [numPhysPages] at hf
    omega
  have hfit : f * pageSize + offset + 1 ≤ memorySize := address_lt hf ho
  unfold TranslationEntry.resolve
  simp only [newEntry, hframe, Bool.false_and, Bool.false_eq_true, if_false, Bool.false_or,
    if_neg (not_le.mpr hf), dif_pos hfit]

/-- A page that is not. -/
theorem resolve_newEntry_of_le {i f offset : Nat} (hle : numPhysPages ≤ f) (hf : f < 2 ^ 31) :
    (newEntry i f).resolve offset 1 false = .raised .busErrorException := by
  have hframe : (((f : Nat) : Int) % 2 ^ 32).toNat = f := by omega
  unfold TranslationEntry.resolve
  simp only [newEntry, hframe, Bool.false_and, Bool.false_eq_true, if_false, if_pos hle]

/-- `Translate` for a byte of the program. -/
theorem translate_restoreState (mem : Bytes memorySize) {frames : List Nat} {v : BitVec 32}
    {f : Nat} (hf : frames[v.toNat / pageSize]? = some f) :
    ∃ next : TranslationEntry → Option (Fin (entriesFor 0 frames).length → TranslationEntry),
      (AddrSpace.restoreState mem (entriesFor 0 frames)).translate v 1 false
        = ((newEntry (v.toNat / pageSize) f).resolve (v.toNat % pageSize) 1 false).map
            fun r => ({ AddrSpace.restoreState mem (entriesFor 0 frames) with
              pageTable := next r.1 }, r.2) := by
  have hlt : v.toNat / pageSize < (entriesFor 0 frames).length := by
    rw [length_entriesFor]
    exact (List.getElem?_eq_some_iff.mp hf).1
  have hentry : (entriesFor 0 frames).get ⟨v.toNat / pageSize, hlt⟩
      = newEntry (v.toNat / pageSize) f := by
    rw [List.get_eq_getElem, getElem_entriesFor hlt hf, Nat.zero_add]
  have haligned : misaligned v 1 = false := rfl
  refine ⟨fun entry => some (Function.update (entriesFor 0 frames).get ⟨_, hlt⟩ entry), ?_⟩
  unfold Machine.translate
  rw [haligned]
  simp only [Bool.false_eq_true, if_false, AddrSpace.restoreState, dif_pos hlt, hentry]
  rfl

theorem readMem_restoreState (mem : Bytes memorySize) {frames : List Nat} {v : BitVec 32}
    {f : Nat} (hf : frames[v.toNat / pageSize]? = some f) (hlt : f < numPhysPages) :
    ∃ m, (AddrSpace.restoreState mem (entriesFor 0 frames)).readMem v 1
      = .done (m, (mem ⟨f * pageSize + v.toNat % pageSize,
          address_lt hlt (mod_pageSize_lt _)⟩).signExtend 32) := by
  obtain ⟨next, htranslate⟩ := translate_restoreState mem hf
  rw [resolve_newEntry hlt (mod_pageSize_lt _)] at htranslate
  unfold Machine.readMem
  rw [htranslate]
  exact ⟨_, rfl⟩

theorem readMem_restoreState_of_le {mem : Bytes memorySize} {frames : List Nat} {v : BitVec 32}
    {f : Nat} (hf : frames[v.toNat / pageSize]? = some f) (hle : numPhysPages ≤ f)
    (hlt : f < 2 ^ 31) :
    (AddrSpace.restoreState mem (entriesFor 0 frames)).readMem v 1
      = .raised .busErrorException := by
  obtain ⟨next, htranslate⟩ := translate_restoreState mem hf
  rw [resolve_newEntry_of_le hle hlt] at htranslate
  unfold Machine.readMem
  rw [htranslate]
  rfl

/-! ## The whole load -/

theorem length_takenFrames {bm : Bitmap} {exe : Executable}
    (hle : exe.header.numPages ≤ bm.free.length) :
    (takenFrames bm exe).length = exe.header.numPages := by
  rw [takenFrames, List.length_take, min_eq_left hle]

/-- The address space has no more than 2^32 bytes. -/
theorem numPages_mul_pageSize_le (noffH : NoffHeader) : noffH.numPages * pageSize ≤ 2 ^ 32 := by
  unfold NoffHeader.numPages divRoundUp pageSize
  have hlt := (noffH.code.size + noffH.readonlyData.size + noffH.initData.size +
    noffH.uninitData.size + userStackSize).isLt
  split <;> omega

/-- The outcome of a load that is admitted. -/
theorem load_of_admitted {bm : Bitmap} {exe : Executable}
    (hmagic : exe.header.noffMagic = noffMagic) (hle : exe.header.numPages ≤ bm.free.length) :
    (AddrSpace.load bm (some exe)).1.pageTable = entriesFor 0 (takenFrames bm exe) ∧
    (AddrSpace.load bm (some exe)).1.stores = zeroPages (entriesFor 0 (takenFrames bm exe)) ++
      (copySegments exe (entriesFor 0 (takenFrames bm exe))).1 ∧
    ((AddrSpace.load bm (some exe)).2 = true ↔ exe.Readable (takenFrames bm exe).length) := by
  rcases loadExecutable_eq bm hmagic with ⟨hlt, -⟩ | ⟨-, bm', heq, -⟩
  · omega
  · rw [Executable.Readable, ← copyAll_ok_iff exe, ← copySegments_eq]
    simp only [AddrSpace.load, loadProgram, heq, true_and]
    cases (copySegments exe (entriesFor 0 (takenFrames bm exe))).2 <;> simp

section Admitted

variable {bm : Bitmap} {exe : Executable} (hmagic : exe.header.noffMagic = noffMagic)
  (hle : exe.header.numPages ≤ bm.free.length)

include hmagic hle

theorem loadsCorrectly_of_placesCorrectly
    (h : exe.Readable (takenFrames bm exe).length → PlacesCorrectly exe (takenFrames bm exe)) :
    LoadsCorrectly bm exe := by
  obtain ⟨htable, hstores, hok⟩ := load_of_admitted hmagic hle
  intro htrue mem v hv
  have hread := hok.mp htrue
  obtain ⟨hrange, hplaced⟩ := h hread
  have hpage : v.toNat / pageSize < (takenFrames bm exe).length := by
    rw [length_takenFrames hle]
    exact Nat.div_lt_of_lt_mul (by rwa [Nat.mul_comm])
  have hf := List.getElem?_eq_getElem hpage
  have hmem := List.getElem_mem hpage
  have hmod : v.toNat % pageSize < pageSize := mod_pageSize_lt _
  rw [htable, hstores]
  obtain ⟨m, hread'⟩ := readMem_restoreState (memoryAfter mem
    (zeroPages (entriesFor 0 (takenFrames bm exe)) ++
      (copySegments exe (entriesFor 0 (takenFrames bm exe))).1)) hf (hrange _ hmem)
  rw [memoryAfter_load (takenFrames_nodup bm exe) hread hmem hmod] at hread'
  exact ⟨m, _, hread', hplaced v.toNat _ hf⟩

theorem placesCorrectly_of_loadsCorrectly (h : LoadsCorrectly bm exe)
    (hread : exe.Readable (takenFrames bm exe).length) :
    PlacesCorrectly exe (takenFrames bm exe) := by
  obtain ⟨htable, hstores, hok⟩ := load_of_admitted hmagic hle
  have hall := h (hok.mpr hread)
  rw [htable, hstores] at hall
  -- every virtual address of the program is a word
  have haddr : ∀ v, v / pageSize < (takenFrames bm exe).length →
      v < exe.header.numPages * pageSize ∧ (BitVec.ofNat 32 v).toNat = v := by
    intro v hv
    rw [length_takenFrames hle] at hv
    have hlt : v < exe.header.numPages * pageSize := (Nat.div_lt_iff_lt_mul (by decide)).mp hv
    have hle32 := numPages_mul_pageSize_le exe.header
    refine ⟨hlt, ?_⟩
    rw [BitVec.toNat_ofNat, Nat.mod_eq_of_lt (by omega)]
  have hrange : ∀ f ∈ takenFrames bm exe, f < numPhysPages := by
    intro f hf
    obtain ⟨i, hi, hif⟩ := List.mem_iff_getElem.mp hf
    have hdiv : i * pageSize / pageSize = i := Nat.mul_div_cancel _ (by decide)
    obtain ⟨hlt, htoNat⟩ := haddr (i * pageSize) (by rw [hdiv]; exact hi)
    obtain ⟨m, b, hdone, -⟩ := hall (fun _ => 0) (BitVec.ofNat 32 (i * pageSize))
      (by rw [htoNat]; exact hlt)
    by_contra hbig
    have hbit : f < 2 ^ 31 := by
      have hfree := (Bitmap.mem_free.mp (List.mem_of_mem_take hf)).1
      exact hfree.trans bm.numBits_range.2
    have hget : (takenFrames bm exe)[(BitVec.ofNat 32 (i * pageSize)).toNat / pageSize]?
        = some f := by
      rw [htoNat, hdiv, ← hif]
      exact List.getElem?_eq_getElem hi
    rw [readMem_restoreState_of_le hget (not_lt.mp hbig) hbit] at hdone
    cases hdone
  refine ⟨hrange, fun v f hf => ?_⟩
  have hmem := List.mem_of_getElem? hf
  obtain ⟨hlt, htoNat⟩ := haddr v (List.getElem?_eq_some_iff.mp hf).1
  obtain ⟨m, b, hdone, hexpects⟩ := hall (fun _ => 0) (BitVec.ofNat 32 v)
    (by rw [htoNat]; exact hlt)
  have hget : (takenFrames bm exe)[(BitVec.ofNat 32 v).toNat / pageSize]? = some f := by
    rw [htoNat]
    exact hf
  obtain ⟨m', hdone'⟩ := readMem_restoreState (memoryAfter (fun _ => 0)
    (zeroPages (entriesFor 0 (takenFrames bm exe)) ++
      (copySegments exe (entriesFor 0 (takenFrames bm exe))).1)) hget (hrange f hmem)
  rw [hdone, Access.done.injEq, Prod.mk.injEq] at hdone'
  have hbyte := signExtend_inj.mp hdone'.2
  rw [memoryAfter_load (takenFrames_nodup bm exe) hread hmem (mod_pageSize_lt _)] at hbyte
  rw [htoNat] at hexpects hbyte
  rw [← hbyte]
  exact hexpects

end Admitted

/-! ## Programs that are loaded as they should be -/

theorem toNat_position {seg : Segment} {i : Nat}
    (h : seg.inFileAddr.toNat + i * pageSize < 2 ^ 32) :
    (seg.position i).toNat = seg.inFileAddr.toNat + i * pageSize := by
  rw [Segment.position, BitVec.toNat_add, BitVec.toNat_ofNat, Nat.add_mod_mod, Nat.mod_eq_of_lt h]

/-- The copy loop of a segment at virtual address 0 puts page `i` where the program looks for it. -/
theorem reaches_of_virtualAddr_zero {exe : Executable} {frames : List Nat} (hnodup : frames.Nodup)
    {seg : Segment} (hsize : 0 < seg.size.toInt) (hva : seg.virtualAddr = 0) {v f : Nat}
    (hf : frames[v / pageSize]? = some f) (hsmall : seg.inFileAddr.toNat + v < 2 ^ 32) :
    seg.reaches exe frames (f * pageSize + (v % pageSize : Nat))
      = exe.bytes[seg.inFileAddr.toNat + v]? := by
  have hmod : v % pageSize < pageSize := mod_pageSize_lt _
  have hdiv := Nat.div_add_mod v pageSize
  have hoffset : ((f : Int) * pageSize + (v % pageSize : Nat) - (0 : BitVec 32).toInt)
      = (v % pageSize : Nat) + (f : Int) * pageSize := by
    rw [show (0 : BitVec 32).toInt = 0 from rfl]
    omega
  have hpage : ((v % pageSize : Nat) + (f : Int) * pageSize) / pageSize = f := by
    rw [Int.add_mul_ediv_right _ _ (by decide), Int.ediv_eq_zero_of_lt (by omega) (by omega)]
    omega
  have hrest : (((v % pageSize : Nat) + (f : Int) * pageSize) % pageSize).toNat = v % pageSize := by
    rw [Int.add_mul_emod_self_right, Int.emod_eq_of_lt (by omega) (by omega), Int.toNat_natCast]
  have hidx : (frames.findIdx? fun g : Nat => (g : Int) = f) = some (v / pageSize) := by
    obtain ⟨hlt, hget⟩ := List.getElem?_eq_some_iff.mp hf
    rw [List.findIdx?_eq_some_iff_getElem]
    refine ⟨hlt, by simp [hget], fun j hj => ?_⟩
    -- the frame is not at an earlier page as well
    have hne : frames[j] ≠ f := by
      rw [← hget, ne_eq, hnodup.getElem_inj_iff]
      omega
    simpa using hne
  have hlt : seg.inFileAddr.toNat + v / pageSize * pageSize < 2 ^ 32 := by
    have := Nat.div_mul_le_self v pageSize
    omega
  rw [Segment.reaches, if_pos hsize, hva]
  simp only [hoffset, hpage, hrest, hidx, Option.bind_some]
  rw [toNat_position hlt]
  congr 1
  rw [Nat.mul_comm] at hdiv
  omega

theorem not_pos_of_size_zero {seg : Segment} (h : seg.size = 0) : ¬ 0 < seg.size.toInt := by
  rw [h]
  decide

theorem length_le_of_forall_lt {frames : List Nat} (hnodup : frames.Nodup)
    (hrange : ∀ f ∈ frames, f < numPhysPages) : frames.length ≤ numPhysPages := by
  have hsub : frames ⊆ List.range numPhysPages := fun f hf => List.mem_range.mpr (hrange f hf)
  simpa using (hnodup.subperm hsub).length_le

/-- A program with nothing but code near the beginning of the file is copied to its end. -/
theorem readable_of_code_only {exe : Executable} {n : Nat} (hn : n ≤ numPhysPages)
    (hinit : exe.header.initData.size = 0) (hro : exe.header.readonlyData.size = 0)
    (hshort : exe.header.code.inFileAddr.toNat + memorySize < 2 ^ 31) : exe.Readable n := by
  simp only [Executable.Readable, Executable.segments, List.forall_mem_cons, List.not_mem_nil,
    false_implies, implies_true, and_true]
  refine ⟨fun _ i hi => ?_, fun h => absurd h (not_pos_of_size_zero hinit),
    fun h => absurd h (not_pos_of_size_zero hro)⟩
  have hpage : i * pageSize < memorySize :=
    Nat.mul_lt_mul_of_pos_right (hi.trans_le hn) (by decide)
  rw [BitVec.toInt_eq_toNat_of_lt]
  · exact Int.natCast_nonneg _
  · rw [toNat_position (by omega)]
    omega

/--
A program with nothing but code at virtual address 0, in a file that ends with the code.

It is loaded as it should be into any frames of main memory.
-/
theorem placesCorrectly_of_code_only {exe : Executable} {frames : List Nat}
    (hnodup : frames.Nodup) (hrange : ∀ f ∈ frames, f < numPhysPages)
    (hsize : 0 < exe.header.code.size.toInt) (hva : exe.header.code.virtualAddr = 0)
    (hinit : exe.header.initData.size = 0) (hro : exe.header.readonlyData.size = 0)
    (hend : exe.header.code.inFileAddr.toNat + exe.header.code.size.toInt = exe.bytes.length)
    (hshort : exe.header.code.inFileAddr.toNat + memorySize < 2 ^ 31) :
    PlacesCorrectly exe frames := by
  have hlen := length_le_of_forall_lt hnodup hrange
  have hinFile : exe.header.code.inFileAddr.toInt = exe.header.code.inFileAddr.toNat :=
    BitVec.toInt_eq_toNat_of_lt (by omega)
  have hva0 : exe.header.code.virtualAddr.toInt = 0 := by
    rw [hva]
    rfl
  refine ⟨hrange, fun v f hf => ?_⟩
  have hv : v < memorySize := by
    have hpage := (List.getElem?_eq_some_iff.mp hf).1.trans_le hlen
    exact (Nat.div_lt_iff_lt_mul (by decide)).mp hpage
  have hlast : lastReaches exe frames exe.segments (f * pageSize + (v % pageSize : Nat))
      = exe.bytes[exe.header.code.inFileAddr.toNat + v]? := by
    rw [← reaches_of_virtualAddr_zero hnodup hsize hva hf (by omega)]
    simp only [Executable.segments, lastReaches]
    rw [Segment.reaches, if_neg (not_pos_of_size_zero hro), Segment.reaches,
      if_neg (not_pos_of_size_zero hinit)]
    rfl
  rw [hlast]
  constructor
  · intro seg hseg hcontains
    simp only [Executable.segments, List.mem_cons, List.not_mem_nil, or_false] at hseg
    unfold Segment.Contains at hcontains
    rcases hseg with rfl | rfl | rfl
    · rw [hva0, hinFile, Executable.byteAt, if_neg (by omega),
        show ((exe.header.code.inFileAddr.toNat : Int) + ((v : Int) - 0)).toNat
          = exe.header.code.inFileAddr.toNat + v by omega,
        List.getElem?_eq_getElem (by omega)]
      rfl
    · exact absurd (show 0 < exe.header.initData.size.toInt by omega) (not_pos_of_size_zero hinit)
    · exact absurd (show 0 < exe.header.readonlyData.size.toInt by omega) (not_pos_of_size_zero hro)
  · intro hnone
    have hout := hnone _ (show exe.header.code ∈ exe.segments by simp [Executable.segments])
    unfold Segment.Contains at hout
    rw [List.getElem?_eq_none (by omega)]
    rfl

/--
Load correctness.

`Load` returns `TRUE` exactly when no file position is negative. It has then put the segments at
their addresses, and 0 elsewhere, exactly when the frames are in main memory and for every virtual
address the last copy loop to reach it takes the right byte from the file.
-/
theorem load_correct_iff {bm : Bitmap} {exe : Executable}
    (hmagic : exe.header.noffMagic = noffMagic) (hle : exe.header.numPages ≤ bm.free.length) :
    ((AddrSpace.load bm (some exe)).2 = true ↔ exe.Readable (takenFrames bm exe).length) ∧
      (LoadsCorrectly bm exe ↔ (exe.Readable (takenFrames bm exe).length →
        PlacesCorrectly exe (takenFrames bm exe))) :=
  ⟨(load_of_admitted hmagic hle).2.2, placesCorrectly_of_loadsCorrectly hmagic hle,
    loadsCorrectly_of_placesCorrectly hmagic hle⟩

/-- The program with one instruction. -/
theorem load_correct_tiny :
    tinyProgram.header.noffMagic = noffMagic ∧ tinyProgram.WellFormed ∧
      (AddrSpace.load gPhysPageBitMap (some tinyProgram)).2 = true ∧
      LoadsCorrectly gPhysPageBitMap tinyProgram := by
  have hmagic : tinyProgram.header.noffMagic = noffMagic := by decide
  have hfit : tinyProgram.header.numPages ≤ 256 := by decide
  have hrange : ∀ f ∈ List.range tinyProgram.header.numPages, f < numPhysPages :=
    fun f hf => (List.mem_range.mp hf).trans (by decide)
  obtain ⟨htrue, hcorrect⟩ := load_correct_iff hmagic (numPages_le_free_gPhysPageBitMap hfit)
  rw [takenFrames_gPhysPageBitMap hfit] at htrue hcorrect
  refine ⟨hmagic, by decide, htrue.mpr ?_, hcorrect.mpr fun _ => ?_⟩
  · exact readable_of_code_only (by decide) (by decide) (by decide) (by decide)
  · exact placesCorrectly_of_code_only List.nodup_range hrange (by decide) (by decide)
      (by decide) (by decide) (by decide) (by decide)

/--
The four bytes behind the code are the data, as in the file.

The data is at virtual address 128, and what is behind the code should be 0.
-/
theorem gap_not_zero :
    dataProgram.header.noffMagic = noffMagic ∧ dataProgram.WellFormed ∧
      dataProgram.header.numPages ≤ gPhysPageBitMap.free.length ∧
      (AddrSpace.load gPhysPageBitMap (some dataProgram)).2 = true ∧
      ¬ LoadsCorrectly gPhysPageBitMap dataProgram := by
  have hmagic : dataProgram.header.noffMagic = noffMagic := by decide
  have hfit : dataProgram.header.numPages ≤ 256 := by rw [dataProgram_numPages]; decide
  have hclear := numPages_le_free_gPhysPageBitMap hfit
  have hread : dataProgram.Readable (takenFrames gPhysPageBitMap dataProgram).length := by
    rw [length_takenFrames hclear, dataProgram_numPages]
    unfold Executable.Readable Segment.Readable
    decide
  refine ⟨hmagic, by decide, hclear, (load_of_admitted hmagic hclear).2.2.mpr hread, fun h => ?_⟩
  have hplaced := placesCorrectly_of_loadsCorrectly hmagic hclear h hread
  rw [takenFrames_gPhysPageBitMap hfit, dataProgram_numPages] at hplaced
  have hfour := hplaced.2 4 0 (by decide)
  revert hfour
  decide

end Nachos
