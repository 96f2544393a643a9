import Nachos.Coff2noff.Convert
import Nachos.Userprog.LoadCorrectness
import Mathlib.Algebra.Order.BigOperators.Group.List
import Mathlib.Algebra.BigOperators.Group.Finset.Basic

/-!
# From COFF to the memory of a process (`test/script`, `coff2noff.c`, `addrspace.cc`)

The linker script of the test programs puts the sections one behind the other, from the virtual
address 0 on. In the NOFF file their bytes are one behind the other, too: a byte has the same
distance from the NOFF header and from the virtual address 0, whatever its section. So it does not
matter that `Load` copies whole pages, as long as the frames come one behind the other.

* `Executable.Linear` — the file behind the header is the memory of the process
* `placesCorrectly_of_linear` — such a program is loaded as it should be
* `convert_then_load` — from the COFF file to what the process reads
-/

namespace Nachos

open Base

/-! ## Programs with one piece of file and memory -/

/-- The segments have the same distance in the file as in memory, and nothing is behind them. -/
structure Executable.Linear (exe : Executable) : Prop where
  offset : ∀ seg ∈ exe.segments, 0 < seg.size.toInt →
    seg.inFileAddr.toNat = noffHeaderSize + seg.virtualAddr.toNat
  inside : ∀ seg ∈ exe.segments, 0 < seg.size.toInt →
    seg.virtualAddr.toNat + seg.size.toNat ≤ memorySize
  inFile : ∀ seg ∈ exe.segments, 0 < seg.size.toInt →
    seg.inFileAddr.toNat + seg.size.toNat ≤ exe.bytes.length
  covered : ∀ v : Nat, noffHeaderSize + v < exe.bytes.length →
    ∃ seg ∈ exe.segments, seg.Contains v

section Linear

variable {exe : Executable} {seg : Segment} {first n v : Nat}

theorem toInt_eq_toNat {x : BitVec 32} (h : x.toNat ≤ memorySize) : x.toInt = x.toNat := by
  refine BitVec.toInt_eq_toNat_of_lt ?_
  have hmax : memorySize = 16384 := rfl
  omega

theorem findIdx?_range' {k : Int} (hk : k = ((first + v : Nat) : Int)) (hv : v < n) :
    ((List.range' first n).findIdx? fun f : Nat => (f : Int) = k) = some v := by
  rw [List.findIdx?_eq_some_iff_getElem]
  refine ⟨by rwa [List.length_range'], ?_, fun j hj => ?_⟩
  · rw [List.getElem_range', hk]
    simp
  · rw [List.getElem_range', hk]
    simp
    omega

theorem findIdx?_range'_eq_none {k : Int} (hk : k < first) :
    ((List.range' first n).findIdx? fun f : Nat => (f : Int) = k) = none := by
  rw [List.findIdx?_eq_none_iff]
  intro f hf
  obtain ⟨i, -, rfl⟩ := List.mem_range'.mp hf
  simp
  omega

/-- What the copy loop of a segment puts at the virtual address `v`. -/
theorem reaches_of_linear (hsize : 0 < seg.size.toInt)
    (hoffset : seg.inFileAddr.toNat = noffHeaderSize + seg.virtualAddr.toNat)
    (hinside : seg.virtualAddr.toNat + seg.size.toNat ≤ memorySize)
    (hn : n ≤ numPhysPages) (hv : v / pageSize < n) :
    seg.reaches exe (List.range' first n) ((first + v / pageSize : Nat) * pageSize
        + (v % pageSize : Nat)) =
      if seg.virtualAddr.toNat ≤ v then exe.bytes[noffHeaderSize + v]? else none := by
  have hmemory : memorySize = 16384 := rfl
  have hva := toInt_eq_toNat (x := seg.virtualAddr) (by omega)
  unfold numPhysPages at hn
  unfold noffHeaderSize at *
  rw [Segment.reaches, if_pos hsize, hva]
  unfold pageSize at *
  have hoff : ((first + v / 128 : Nat) : Int) * (128 : Nat) + (v % 128 : Nat)
      - seg.virtualAddr.toNat = first * 128 + v - seg.virtualAddr.toNat := by
    omega
  simp only [hoff]
  split
  next hle =>
    -- page `w / 128` of the segment is in the frame that is as far from the first one
    obtain ⟨w, rfl⟩ := Nat.exists_eq_add_of_le hle
    have hw : w / 128 < n := by omega
    have hposition : (seg.position (w / 128)).toNat = seg.inFileAddr.toNat + w / 128 * 128 :=
      toNat_position (by unfold pageSize; omega)
    rw [findIdx?_range' (v := w / 128) (by omega) hw, Option.bind_some, hposition]
    congr 1
    omega
  next hlt =>
    rw [findIdx?_range'_eq_none (by omega), Option.bind_none]

/-- All copy loops that get to a virtual address put the same byte there. -/
theorem lastReaches_of_linear (h : exe.Linear) (first : Nat) (hn : n ≤ numPhysPages)
    (hv : v / pageSize < n) {segs : List Segment} (hsegs : segs ⊆ exe.segments) :
    lastReaches exe (List.range' first n) segs ((first + v / pageSize : Nat) * pageSize
        + (v % pageSize : Nat)) =
      if ∃ seg ∈ segs, 0 < seg.size.toInt ∧ seg.virtualAddr.toNat ≤ v then
        exe.bytes[noffHeaderSize + v]?
      else none := by
  induction segs with
  | nil => simp [lastReaches]
  | cons seg segs ih =>
    obtain ⟨hseg, hsegs⟩ := List.cons_subset.mp hsegs
    rw [lastReaches, ih hsegs]
    by_cases hsize : 0 < seg.size.toInt
    · rw [reaches_of_linear hsize (h.offset seg hseg hsize) (h.inside seg hseg hsize) hn hv]
      simp only [List.exists_mem_cons_iff, hsize, true_and]
      by_cases hle : seg.virtualAddr.toNat ≤ v
      · simp only [hle, true_or, if_true]
        split
        · exact Option.or_self
        · rfl
      · simp only [hle, false_or, if_false, Option.or_none]
    · have hnone : seg.reaches exe (List.range' first n) ((first + v / pageSize : Nat) * pageSize
          + (v % pageSize : Nat)) = none := if_neg hsize
      rw [hnone, Option.or_none]
      simp only [List.exists_mem_cons_iff, hsize, false_and, false_or]

theorem readable_of_linear (h : exe.Linear) (hn : n ≤ numPhysPages) : exe.Readable n := by
  intro seg hseg hsize i hi
  have hinside := h.inside seg hseg hsize
  have hoffset := h.offset seg hseg hsize
  have hmemory : memorySize = 16384 := rfl
  unfold numPhysPages at hn
  unfold noffHeaderSize at hoffset
  have hposition : (seg.position i).toNat = seg.inFileAddr.toNat + i * 128 :=
    toNat_position (by unfold pageSize; omega)
  rw [BitVec.toInt_eq_toNat_of_lt (by omega)]
  exact Int.natCast_nonneg _

/-- In frames that come one behind the other, the program is loaded as it should be. -/
theorem placesCorrectly_of_linear (h : exe.Linear) (hn : first + n ≤ numPhysPages) :
    PlacesCorrectly exe (List.range' first n) := by
  refine ⟨fun f hf => ?_, fun v f hf => ?_⟩
  · obtain ⟨i, hi, rfl⟩ := List.mem_range'.mp hf
    omega
  · obtain ⟨hv, hget⟩ := List.getElem?_eq_some_iff.mp hf
    rw [List.length_range'] at hv
    rw [List.getElem_range', Nat.one_mul] at hget
    have hlast := lastReaches_of_linear h first (by omega) hv (List.Subset.refl _)
    rw [← hget, hlast]
    constructor
    · intro seg hseg hcontains
      have hsize : 0 < seg.size.toInt := by
        unfold Segment.Contains at hcontains
        omega
      have hinside := h.inside seg hseg hsize
      have hoffset := h.offset seg hseg hsize
      have hfile := h.inFile seg hseg hsize
      have hva := toInt_eq_toNat (x := seg.virtualAddr) (by omega)
      have hsz := toInt_eq_toNat (x := seg.size) (by omega)
      have hmemory : memorySize = 16384 := rfl
      have hheader : noffHeaderSize = 52 := rfl
      have haddr : seg.inFileAddr.toInt = seg.inFileAddr.toNat :=
        BitVec.toInt_eq_toNat_of_lt (by omega)
      unfold Segment.Contains at hcontains
      rw [if_pos ⟨seg, hseg, hsize, by omega⟩, Executable.byteAt, if_neg (by omega), haddr, hva,
        show ((seg.inFileAddr.toNat : Int) + (v - seg.virtualAddr.toNat)).toNat =
          noffHeaderSize + v by omega, List.getElem?_eq_getElem (by omega)]
      rfl
    · intro hnone
      have hend : exe.bytes.length ≤ noffHeaderSize + v := by
        by_contra hlt
        obtain ⟨seg, hseg, hcontains⟩ := h.covered v (not_le.mp hlt)
        exact hnone seg hseg hcontains
      rw [List.getElem?_eq_none hend]
      split <;> rfl

end Linear

/-! ## Linked COFF files -/

/-- The sections lie in memory one behind the other, from `start` on. -/
def Consecutive (start : Nat) : List Scnhdr → Prop
  | [] => True
  | s :: sections => s.paddr.toNat = start ∧ Consecutive (start + s.size.toNat) sections

/-- The linker script has put the sections with bytes at the beginning, one behind the other. -/
def Linked (coff : List (BitVec 8)) : Prop := Consecutive 0 (copiedSections (coffSections coff))

/-- The number of bytes in all sections. -/
def programSize (coff : List (BitVec 8)) : Nat :=
  ((coffSections coff).map fun s => s.size.toNat).sum

/-- The number of pages of a process that runs the program. -/
def pagesFor (coff : List (BitVec 8)) : Nat :=
  divRoundUp (programSize coff + userStackSize.toNat) pageSize

/-- The virtual address `v` is in the section. -/
def Scnhdr.Contains (s : Scnhdr) (v : Nat) : Prop :=
  s.paddr.toNat ≤ v ∧ v < s.paddr.toNat + s.size.toNat

section Sections

variable {sections : List Scnhdr} {start base v : Nat} {s : Scnhdr}

/-- In the file and in memory the sections have the same distance. -/
theorem Consecutive.inFileAddr (h : Consecutive start sections) (base : Nat)
    {segment : Scnhdr → Segment}
    (hadjacent : Adjacent (base + start) (sections.map segment))
    (hsize : ∀ s ∈ sections, (segment s).size = s.size) (hs : s ∈ sections) :
    (segment s).inFileAddr.toNat = base + s.paddr.toNat := by
  induction sections generalizing start with
  | nil => cases hs
  | cons first sections ih =>
    obtain ⟨hstart, hrest⟩ := h
    obtain ⟨hfile, hadjacent⟩ := hadjacent
    rcases List.mem_cons.mp hs with rfl | hs
    · rw [hfile, hstart]
    · rw [hsize first List.mem_cons_self, Nat.add_assoc] at hadjacent
      exact ih hrest hadjacent (fun s hs => hsize s (List.mem_cons_of_mem _ hs)) hs

theorem Consecutive.end_le (h : Consecutive start sections) (hs : s ∈ sections) :
    s.paddr.toNat + s.size.toNat ≤ start + (sections.map fun s => s.size.toNat).sum := by
  induction sections generalizing start with
  | nil => cases hs
  | cons first sections ih =>
    obtain ⟨hstart, hrest⟩ := h
    rw [List.map_cons, List.sum_cons]
    rcases List.mem_cons.mp hs with rfl | hs
    · omega
    · have hle := ih hrest hs
      omega

theorem Consecutive.start_le (h : Consecutive start sections) (hs : s ∈ sections) :
    start ≤ s.paddr.toNat := by
  induction sections generalizing start with
  | nil => cases hs
  | cons first sections ih =>
    obtain ⟨hstart, hrest⟩ := h
    rcases List.mem_cons.mp hs with rfl | hs
    · exact hstart.ge
    · exact (Nat.le_add_right _ _).trans (ih hrest hs)

/-- There are no gaps. -/
theorem Consecutive.covered (h : Consecutive start sections) (hstart : start ≤ v)
    (hv : v < start + (sections.map fun s => s.size.toNat).sum) :
    ∃ s ∈ sections, s.Contains v := by
  induction sections generalizing start with
  | nil =>
    rw [List.map_nil, List.sum_nil] at hv
    omega
  | cons first sections ih =>
    obtain ⟨hfirst, hrest⟩ := h
    rw [List.map_cons, List.sum_cons] at hv
    rcases Nat.lt_or_ge v (start + first.size.toNat) with hin | hout
    · exact ⟨first, List.mem_cons_self, hfirst.le.trans hstart, by omega⟩
    · obtain ⟨s, hs, hcontains⟩ := ih hrest hout (by omega)
      exact ⟨s, List.mem_cons_of_mem _ hs, hcontains⟩

end Sections

section Conversion

variable {coff : List (BitVec 8)} {room : Nat} {noff : Executable}

theorem copiedSize_le_programSize (coff : List (BitVec 8)) :
    copiedSize (coffSections coff) ≤ programSize coff :=
  (List.filter_sublist.map _).sum_le_sum fun _ _ => Nat.zero_le _

theorem size_initialHeader (stack : NoffHeader) (name : List (BitVec 8)) :
    ((initialHeader stack).segment name).size = 0 := by
  unfold NoffHeader.segment
  split_ifs <;> rfl

/-- The NOFF file is the header, with the bytes of the sections behind it. -/
theorem convert_bytes (h : WellFormed coff) (hroom : room ≤ maxFileSize)
    (hfits : noffHeaderSize + copiedSize (coffSections coff) ≤ room) (stack : NoffHeader) :
    ∃ noff : Executable, convert room stack coff = some noff.bytes ∧
      Converted noffHeaderSize (initialHeader stack) noff.header (coffSections coff) ∧
      noff.bytes = noff.header.toBytes ++ bodyBytes coff (coffSections coff) := by
  have hstart :=
    Running.start coff (filehdrSize + aouthdrSize + numSections coff * scnhdrSize) stack
  obtain ⟨c, hloop, hrunning, hconverted⟩ := hstart.convertSections h.length hroom
    (fun s hs => size_ne_zero hs) h.known h.once (fun s _ => size_initialHeader stack s.name)
    h.inside hfits
  obtain ⟨fdOut, hwrite, hbytes⟩ := hrunning.output.finish (length_header_toBytes c.noffH)
    (show noffHeaderSize ≤ room from (Nat.le_add_right _ _).trans hfits)
  rw [List.nil_append] at hbytes
  have hle : noffHeaderSize ≤ fdOut.bytes.length := by
    rw [hbytes, List.length_append, length_header_toBytes]
    exact Nat.le_add_right _ _
  have hheader : (⟨fdOut.bytes, hle⟩ : Executable).header = c.noffH := header_of_bytes hbytes
  refine ⟨⟨fdOut.bytes, hle⟩, ?_, ?_, ?_⟩
  · rw [convert_eq h.readable]
    dsimp only
    rw [hloop]
    dsimp only [Option.bind_eq_bind, Option.bind_some]
    rw [hwrite]
    rfl
  · rw [hheader]
    exact hconverted
  · rw [hheader]
    exact hbytes

theorem length_bodyBytes (h : WellFormed coff) :
    (bodyBytes coff (coffSections coff)).length = copiedSize (coffSections coff) := by
  rw [bodyBytes, List.length_flatMap, copiedSize]
  exact congrArg List.sum
    (List.map_congr_left fun s hs => length_hostRead_of_le (h.inside s hs))

/-- The byte of a linked section, in the order of the sections. -/
theorem Consecutive.getElem?_flatMap {sections : List Scnhdr} {start v : Nat} {s : Scnhdr}
    (h : Consecutive start sections)
    (hinside : ∀ s ∈ sections, s.scnptr.toNat + s.size.toNat ≤ coff.length) (hs : s ∈ sections)
    (hv : s.Contains (start + v)) :
    (sections.flatMap (sectionBytes coff))[v]? =
      (sectionBytes coff s)[start + v - s.paddr.toNat]? := by
  induction sections generalizing start v with
  | nil => cases hs
  | cons first sections ih =>
    obtain ⟨hfirst, hrest⟩ := h
    have hlength : (sectionBytes coff first).length = first.size.toNat :=
      length_hostRead_of_le (hinside first List.mem_cons_self)
    unfold Scnhdr.Contains at hv
    rw [List.flatMap_cons]
    rcases List.mem_cons.mp hs with rfl | hs
    · rw [List.getElem?_append_left (by omega)]
      congr 1
      omega
    · have hstart := hrest.start_le hs
      have hv' : s.Contains (start + first.size.toNat + (v - first.size.toNat)) := by
        unfold Scnhdr.Contains
        omega
      rw [List.getElem?_append_right (by omega), hlength,
        ih hrest (fun s hs => hinside s (List.mem_cons_of_mem _ hs)) hs hv']
      congr 1
      omega

variable {stack : NoffHeader}

/-- A segment that is not empty comes from a section. -/
theorem Converted.of_segment
    (hp : Converted noffHeaderSize (initialHeader stack) noff.header (coffSections coff))
    {seg : Segment}
    (hseg : seg ∈ noff.segments) (hsize : 0 < seg.size.toInt) :
    ∃ s ∈ copiedSections (coffSections coff), noff.header.segment s.name = seg := by
  obtain ⟨name, hname, hbss, rfl⟩ : ∃ name ∈ segmentNames, name ≠ bssName ∧
      noff.header.segment name = seg := by
    simp only [Executable.segments, List.mem_cons, List.not_mem_nil, or_false] at hseg
    rcases hseg with rfl | rfl | rfl
    · exact ⟨textName, by decide, by decide, rfl⟩
    · exact ⟨dataName, by decide, by decide, rfl⟩
    · exact ⟨rdataName, by decide, by decide, rfl⟩
  by_contra hnone
  have habsent : ∀ s ∈ coffSections coff, s.name ≠ name := by
    rintro s hs rfl
    exact hnone ⟨s, List.mem_filter.mpr ⟨hs, decide_eq_true hbss⟩, rfl⟩
  rw [hp.others name hname habsent, size_initialHeader] at hsize
  exact absurd hsize (by decide)

theorem mem_segments (h : WellFormed coff) {s : Scnhdr}
    (hs : s ∈ copiedSections (coffSections coff)) :
    noff.header.segment s.name ∈ noff.segments := by
  obtain ⟨hmem, hbss⟩ := List.mem_filter.mp hs
  have hname := h.known s hmem
  have hbss' : s.name ≠ bssName := of_decide_eq_true hbss
  simp only [segmentNames, List.mem_cons, List.not_mem_nil, or_false] at hname
  rcases hname with heq | heq | heq | heq
  · rw [heq]
    exact List.mem_cons_self
  · rw [heq]
    exact List.mem_cons_of_mem _ List.mem_cons_self
  · rw [heq]
    exact List.mem_cons_of_mem _ (List.mem_cons_of_mem _ List.mem_cons_self)
  · exact absurd heq hbss'

/-- The sizes in the NOFF header. -/
theorem Converted.sum_sizes (h : WellFormed coff)
    (hp : Converted noffHeaderSize (initialHeader stack) noff.header (coffSections coff)) :
    (segmentNames.map fun name => (noff.header.segment name).size.toNat).sum =
      programSize coff := by
  have hsizes : programSize coff =
      (((coffSections coff).map Scnhdr.name).map fun name =>
        (noff.header.segment name).size.toNat).sum := by
    rw [List.map_map, programSize]
    exact congrArg List.sum (List.map_congr_left fun s hs =>
      (congrArg BitVec.toNat (hp.placed s hs).2).symm)
  have hnodup : segmentNames.Nodup := by decide
  rw [hsizes, ← List.sum_toFinset _ hnodup, ← List.sum_toFinset _ h.once]
  refine (Finset.sum_subset ?_ ?_).symm
  · intro name hname
    obtain ⟨s, hs, rfl⟩ := List.mem_map.mp (List.mem_toFinset.mp hname)
    exact List.mem_toFinset.mpr (h.known s hs)
  · intro name hname hnot
    rw [hp.others name (List.mem_toFinset.mp hname) fun s hs heq => hnot ?_, size_initialHeader]
    · rfl
    · exact List.mem_toFinset.mpr (List.mem_map.mpr ⟨s, hs, heq⟩)

theorem Converted.numPages_eq (h : WellFormed coff)
    (hp : Converted noffHeaderSize (initialHeader stack) noff.header (coffSections coff))
    (hsmall : programSize coff + userStackSize.toNat < 2 ^ 32) :
    noff.header.numPages = pagesFor coff := by
  have hsum := hp.sum_sizes h
  simp only [segmentNames, List.map_cons, List.map_nil, List.sum_cons, List.sum_nil] at hsum
  change noff.header.code.size.toNat + (noff.header.initData.size.toNat +
    (noff.header.readonlyData.size.toNat + (noff.header.uninitData.size.toNat + 0))) = _ at hsum
  have hnat : (noff.header.code.size + noff.header.readonlyData.size + noff.header.initData.size +
      noff.header.uninitData.size + userStackSize).toNat =
        programSize coff + userStackSize.toNat := by
    simp only [BitVec.toNat_add]
    omega
  rw [NoffHeader.numPages, hnat, pagesFor]

/-- The NOFF file of a linked program, behind its header, is the memory of the process. -/
theorem Converted.linear (h : WellFormed coff) (hlinked : Linked coff)
    (hp : Converted noffHeaderSize (initialHeader stack) noff.header (coffSections coff))
    (hlength : noff.bytes.length = noffHeaderSize + copiedSize (coffSections coff))
    (hsmall : programSize coff ≤ memorySize) : noff.Linear := by
  have hsize : ∀ s ∈ copiedSections (coffSections coff),
      (noff.header.segment s.name).size = s.size := fun s hs =>
    (hp.placed s (List.mem_of_mem_filter hs)).2
  have hplace : ∀ s ∈ copiedSections (coffSections coff),
      (noff.header.segment s.name).virtualAddr = s.paddr := fun s hs =>
    (hp.placed s (List.mem_of_mem_filter hs)).1
  have hoffset := fun s hs => hlinked.inFileAddr noffHeaderSize (s := s) hp.adjacent hsize hs
  have hend := fun s hs => hlinked.end_le (s := s) hs
  have hle := copiedSize_le_programSize coff
  unfold copiedSize at hle hlength
  have hmemory : memorySize = 16384 := rfl
  refine ⟨?_, ?_, ?_, ?_⟩
  · intro seg hseg hpos
    obtain ⟨s, hs, rfl⟩ := hp.of_segment hseg hpos
    rw [hoffset s hs, hplace s hs]
  · intro seg hseg hpos
    obtain ⟨s, hs, rfl⟩ := hp.of_segment hseg hpos
    have hlast := hend s hs
    rw [hplace s hs, hsize s hs]
    omega
  · intro seg hseg hpos
    obtain ⟨s, hs, rfl⟩ := hp.of_segment hseg hpos
    have hlast := hend s hs
    rw [hoffset s hs, hsize s hs]
    omega
  · intro v hv
    obtain ⟨s, hs, hcontains⟩ := hlinked.covered (Nat.zero_le v) (by omega)
    have hlast := hend s hs
    refine ⟨_, mem_segments h hs, ?_⟩
    unfold Scnhdr.Contains at hcontains
    unfold Segment.Contains
    rw [hplace s hs, hsize s hs, toInt_eq_toNat (by omega), toInt_eq_toNat (by omega)]
    omega

/-- What should be in memory for the NOFF file is what is in the COFF file. -/
theorem Converted.expects (h : WellFormed coff) (hlinked : Linked coff)
    (hp : Converted noffHeaderSize (initialHeader stack) noff.header (coffSections coff))
    (hbytes : noff.bytes = noff.header.toBytes ++ bodyBytes coff (coffSections coff))
    (hsmall : programSize coff ≤ memorySize) {v : Nat} {b : BitVec 8} (hb : noff.Expects v b) :
    (∀ s ∈ copiedSections (coffSections coff), s.Contains v →
      (sectionBytes coff s)[v - s.paddr.toNat]? = some b) ∧
    ((∀ s ∈ copiedSections (coffSections coff), ¬ s.Contains v) → b = 0) := by
  have hmemory : memorySize = 16384 := rfl
  have hheader : noffHeaderSize = 52 := rfl
  have hle := copiedSize_le_programSize coff
  have hcontains : ∀ s ∈ copiedSections (coffSections coff),
      (noff.header.segment s.name).Contains v ↔ s.Contains v := by
    intro s hs
    have hlast := hlinked.end_le hs
    unfold copiedSize at hle
    unfold Segment.Contains Scnhdr.Contains
    rw [(hp.placed s (List.mem_of_mem_filter hs)).1, (hp.placed s (List.mem_of_mem_filter hs)).2,
      toInt_eq_toNat (by omega), toInt_eq_toNat (by omega)]
    omega
  constructor
  · intro s hs hv
    have hlast := hlinked.end_le hs
    have hoffset := hlinked.inFileAddr noffHeaderSize hp.adjacent
      (fun s hs => (hp.placed s (List.mem_of_mem_filter hs)).2) hs
    have hbyte := hb.1 _ (mem_segments h hs) ((hcontains s hs).mpr hv)
    rw [(hp.placed s (List.mem_of_mem_filter hs)).1] at hbyte
    unfold Scnhdr.Contains at hv
    unfold copiedSize at hle
    have haddr : (noff.header.segment s.name).inFileAddr.toInt =
        (noff.header.segment s.name).inFileAddr.toNat := BitVec.toInt_eq_toNat_of_lt (by omega)
    rw [haddr, hoffset, toInt_eq_toNat (by omega), Executable.byteAt, if_neg (by omega),
      show ((noffHeaderSize + s.paddr.toNat : Nat) + ((v : Int) - s.paddr.toNat)).toNat =
        noff.header.toBytes.length + v by rw [length_header_toBytes]; omega, hbytes,
      List.getElem?_append_right (Nat.le_add_right _ _), Nat.add_sub_cancel_left] at hbyte
    have hsection := hlinked.getElem?_flatMap h.inside hs (v := v) (by rwa [Nat.zero_add])
    rw [Nat.zero_add] at hsection
    rw [← hsection]
    exact hbyte
  · intro hnone
    refine hb.2 fun seg hseg hv => ?_
    have hpos : 0 < seg.size.toInt := by
      unfold Segment.Contains at hv
      omega
    obtain ⟨s, hs, rfl⟩ := hp.of_segment hseg hpos
    exact hnone s hs ((hcontains s hs).mp hv)

end Conversion

/--
**What the linker has put at an address, the process finds there.**

The COFF file is well formed and linked by the linker script, the host has room for the NOFF file,
and the frames that `Load` gets for the program and its stack come one behind the other in main
memory. Then the conversion succeeds, `Load` returns `TRUE`, and a read of the process at any
virtual address gives the byte of the COFF section at this address, or 0 outside of the sections
that have bytes: so `.bss` and the stack are 0.
-/
theorem convert_then_load {coff : List (BitVec 8)} (h : WellFormed coff) (hlinked : Linked coff)
    {room : Nat} (hroom : room ≤ maxFileSize)
    (hfits : noffHeaderSize + copiedSize (coffSections coff) ≤ room) (stack : NoffHeader)
    {bm : Bitmap} {first : Nat}
    (hframes : bm.free.take (pagesFor coff) = List.range' first (pagesFor coff))
    (hmemory : first + pagesFor coff ≤ numPhysPages) :
    ∃ noff : Executable, convert room stack coff = some noff.bytes ∧
      (AddrSpace.load bm (some noff)).2 = true ∧
      ∀ (mem : Bytes memorySize) (v : BitVec 32), v.toNat < pagesFor coff * pageSize →
        ∃ m b,
          (AddrSpace.restoreState (memoryAfter mem (AddrSpace.load bm (some noff)).1.stores)
            (AddrSpace.load bm (some noff)).1.pageTable).readMem v 1 =
              .done (m, b.signExtend 32) ∧
          (∀ s ∈ copiedSections (coffSections coff), s.Contains v.toNat →
            (sectionBytes coff s)[v.toNat - s.paddr.toNat]? = some b) ∧
          ((∀ s ∈ copiedSections (coffSections coff), ¬ s.Contains v.toNat) → b = 0) := by
  obtain ⟨noff, hconvert, hp, hbytes⟩ := convert_bytes h hroom hfits stack
  have hpage : pageSize = 128 := rfl
  have hstack : userStackSize.toNat = 1024 := rfl
  have hroomy : programSize coff + 1024 ≤ pagesFor coff * 128 := by
    unfold pagesFor divRoundUp
    rw [hpage, hstack]
    split <;> omega
  have hpages : numPhysPages = 128 := rfl
  have hsmall : programSize coff ≤ memorySize := by
    have hsize : memorySize = 16384 := rfl
    omega
  have hnum := hp.numPages_eq h (by rw [hstack]; omega)
  have hlength : noff.bytes.length = noffHeaderSize + copiedSize (coffSections coff) := by
    rw [hbytes, List.length_append, length_header_toBytes, length_bodyBytes h]
  have hlinear := hp.linear h hlinked hlength hsmall
  have hle : noff.header.numPages ≤ bm.free.length := by
    have hcount := congrArg List.length hframes
    rw [List.length_take, List.length_range'] at hcount
    omega
  have htaken : takenFrames bm noff = List.range' first (pagesFor coff) := by
    rw [takenFrames, hnum, hframes]
  have hmagic : noff.header.noffMagic = noffMagic := hp.magic
  have htrue : (AddrSpace.load bm (some noff)).2 = true := by
    rw [(load_of_admitted hmagic hle).2.2, htaken, List.length_range']
    exact readable_of_linear hlinear (by omega)
  have hloads : LoadsCorrectly bm noff := by
    refine loadsCorrectly_of_placesCorrectly hmagic hle fun _ => ?_
    rw [htaken]
    exact placesCorrectly_of_linear hlinear hmemory
  refine ⟨noff, hconvert, htrue, fun mem v hv => ?_⟩
  obtain ⟨m, b, hread, hexpects⟩ := hloads htrue mem v (hnum ▸ hv)
  exact ⟨m, b, hread, hp.expects h hlinked hbytes hsmall hexpects⟩

/-- Two bytes of `.text`, one of `.data` and eight of `.bss`. -/
def linkedCoff : List (BitVec 8) :=
  [0x62, 0x01, 3, 0] ++ List.replicate 16 0 ++ [0x07, 0x01] ++ List.replicate 54 0 ++
    textName ++ [0, 0, 0, 0, 0, 0, 0, 0, 0, 0, 0, 2, 0, 0, 0, 196, 0, 0, 0] ++
    List.replicate 16 0 ++
    dataName ++ [0, 0, 0, 2, 0, 0, 0, 0, 0, 0, 0, 1, 0, 0, 0, 198, 0, 0, 0] ++
    List.replicate 16 0 ++
    bssName ++ [0, 0, 0, 0, 3, 0, 0, 0, 0, 0, 0, 0, 8, 0, 0, 0, 0, 0, 0, 0] ++
    List.replicate 16 0 ++ [1, 2, 3]

/-- The first process of a machine reads the byte of `.data` at the address 2. -/
theorem convert_then_load_data :
    ∃ noff : Executable,
      convert maxFileSize ⟨0, ⟨7, 7, 7⟩, ⟨7, 7, 7⟩, ⟨7, 7, 7⟩, ⟨7, 7, 7⟩⟩ linkedCoff =
        some noff.bytes ∧
      ∀ mem : Bytes memorySize, ∃ m,
        (AddrSpace.restoreState
          (memoryAfter mem (AddrSpace.load gPhysPageBitMap (some noff)).1.stores)
          (AddrSpace.load gPhysPageBitMap (some noff)).1.pageTable).readMem 2 1 = .done (m, 3) := by
  have hwell : WellFormed linkedCoff := by constructor <;> decide +kernel
  have hlinked : Linked linkedCoff := by
    have hcopied : (copiedSections (coffSections linkedCoff)) =
        [⟨textName, 0, 2, 196⟩, ⟨dataName, 2, 1, 198⟩] := by decide +kernel
    rw [Linked, hcopied]
    exact ⟨rfl, rfl, trivial⟩
  have hpages : pagesFor linkedCoff = 9 := by decide +kernel
  have hframes : gPhysPageBitMap.free.take (pagesFor linkedCoff) =
      List.range' 0 (pagesFor linkedCoff) := by
    rw [free_gPhysPageBitMap, List.take_range, hpages]
    exact List.range_eq_range'
  obtain ⟨noff, hconvert, -, hread⟩ := convert_then_load hwell hlinked le_rfl (by decide +kernel)
    ⟨0, ⟨7, 7, 7⟩, ⟨7, 7, 7⟩, ⟨7, 7, 7⟩, ⟨7, 7, 7⟩⟩ hframes (by rw [hpages]; decide)
  refine ⟨noff, hconvert, fun mem => ?_⟩
  obtain ⟨m, b, hdone, hbyte, -⟩ := hread mem 2 (by rw [hpages]; decide)
  have hb := hbyte ⟨dataName, 2, 1, 198⟩ (by decide +kernel) ⟨by decide, by decide⟩
  have hthree : (3 : BitVec 8) = b := Option.some.inj (Eq.trans (by decide +kernel) hb)
  rw [← hthree] at hdone
  exact ⟨m, hdone⟩

end Nachos
