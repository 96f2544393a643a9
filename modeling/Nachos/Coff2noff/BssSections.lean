import Nachos.Coff2noff.Convert

/-!
# Several uninitialised sections (`coff2noff/coff2noff.c`)

The NOFF file has one segment for uninitialised data. The converter puts the sections `.bss` of a
COFF file together in it, and it means to make sure that they are contiguous; but its test refuses
those that are, and it accepts the others.

* `Region` — what the converter has put together so far
* `StartsAtEnd` — the sections that the test refuses
* `convert_isSome_iff` — the files that are converted
* `bss_merged_iff` — the files on which the converter does what it means to
-/

namespace Nachos

open Base

/-- The address and the size of `uninitData`. -/
structure Region where
  start : BitVec 32
  size : BitVec 32

namespace Region

/-- In front of the loop. -/
def empty : Region := ⟨0, 0⟩

/-- The region with one more section. -/
def add (r : Region) (s : Scnhdr) : Region :=
  if r.size ≠ 0 then { r with size := r.size + s.size } else ⟨s.paddr, s.size⟩

/-- The section starts where the region ends. -/
def Touches (r : Region) (s : Scnhdr) : Prop := r.size ≠ 0 ∧ s.paddr = r.start + r.size

instance (r : Region) (s : Scnhdr) : Decidable (r.Touches s) := inferInstanceAs (Decidable (_ ∧ _))

end Region

/-- The sections `.bss` that are not empty. -/
def bssSections (coff : List (BitVec 8)) : List Scnhdr :=
  (coffSections coff).filter fun s => s.name = bssName

/-- One of the sections starts where the region of those before it ends, in `int`s. -/
def StartsAtEnd (sections : List Scnhdr) : Prop :=
  ∃ earlier s later, sections = earlier ++ s :: later ∧
    (earlier.foldl Region.add Region.empty).Touches s

/-- The sections lie one behind the other, the first of them at `start`. -/
def ContiguousAt (start : Nat) : List Scnhdr → Prop
  | [] => True
  | s :: sections => s.paddr.toNat = start ∧ ContiguousAt (start + s.size.toNat) sections

/-- Each section after the first starts at the end of those before it. -/
def Contiguous : List Scnhdr → Prop
  | [] => True
  | s :: sections => ContiguousAt (s.paddr.toNat + s.size.toNat) sections

/-- The segment covers what the sections cover, and nothing else. -/
def Covers (seg : Segment) (sections : List Scnhdr) : Prop :=
  ∀ addr, (seg.virtualAddr.toNat ≤ addr ∧ addr < seg.virtualAddr.toNat + seg.size.toNat) ↔
    ∃ s ∈ sections, s.paddr.toNat ≤ addr ∧ addr < s.paddr.toNat + s.size.toNat

/-- What is expected of the converter. -/
structure MergesBss (room : Nat) (stack : NoffHeader) (coff : List (BitVec 8)) : Prop where
  accepts : (convert room stack coff).isSome ↔ Contiguous (bssSections coff)
  covers : ∀ noff : Executable, convert room stack coff = some noff.bytes →
    Covers noff.header.uninitData (bssSections coff)

/-! ## The test -/

/-- The region that is in the header. -/
def Conversion.region (c : Conversion) : Region :=
  ⟨c.noffH.uninitData.virtualAddr, c.noffH.uninitData.size⟩

/-- The test refuses one of the sections, where `r` is the region in front of them. -/
def Refused : Region → List Scnhdr → Prop
  | _, [] => False
  | r, s :: sections => r.Touches s ∨ Refused (r.add s) sections

theorem refused_iff {r : Region} {sections : List Scnhdr} :
    Refused r sections ↔ ∃ earlier s later, sections = earlier ++ s :: later ∧
      (earlier.foldl Region.add r).Touches s := by
  induction sections generalizing r with
  | nil =>
    refine iff_of_false id ?_
    rintro ⟨earlier, s, later, heq, -⟩
    exact absurd heq.symm (List.append_ne_nil_of_right_ne_nil _ (List.cons_ne_nil _ _))
  | cons first sections ih =>
    rw [Refused, ih]
    constructor
    · rintro (htouches | ⟨earlier, s, later, rfl, htouches⟩)
      · exact ⟨[], first, sections, rfl, htouches⟩
      · exact ⟨first :: earlier, s, later, rfl, htouches⟩
    · rintro ⟨earlier, s, later, heq, htouches⟩
      cases earlier with
      | nil =>
        obtain ⟨rfl, rfl⟩ := List.cons.inj heq
        exact .inl htouches
      | cons e earlier =>
        obtain ⟨rfl, rfl⟩ := List.cons.inj heq
        exact .inr ⟨earlier, s, later, rfl, htouches⟩

/-- Where an empty region starts does not matter. -/
theorem refused_of_size_eq_zero {r : Region} (hr : r.size = 0) {sections : List Scnhdr} :
    Refused r sections ↔ StartsAtEnd sections := by
  rw [StartsAtEnd, ← refused_iff]
  cases sections with
  | nil => exact Iff.rfl
  | cons s sections =>
    have hadd : r.add s = Region.empty.add s := by
      rw [Region.add, if_neg (not_not.mpr hr)]
      rfl
    have hnot : ¬ r.Touches s := fun h => h.1 hr
    have hnot' : ¬ Region.empty.Touches s := fun h => h.1 rfl
    rw [Refused, Refused, hadd, or_iff_right hnot, or_iff_right hnot']

/-- Of contiguous sections, the second one is refused. -/
theorem startsAtEnd_of_contiguous {sections : List Scnhdr} (hlength : 2 ≤ sections.length)
    (hnonempty : ∀ s ∈ sections, s.size ≠ 0) (h : Contiguous sections) : StartsAtEnd sections := by
  match sections, hlength with
  | first :: second :: sections, _ =>
    have hfirst : Region.empty.add first = ⟨first.paddr, first.size⟩ := rfl
    refine ⟨[first], second, sections, rfl, ?_⟩
    rw [List.foldl_cons, List.foldl_nil, hfirst]
    refine ⟨hnonempty first List.mem_cons_self, BitVec.eq_of_toNat_eq ?_⟩
    have hstart : second.paddr.toNat = first.paddr.toNat + first.size.toNat := h.1
    have hlt := second.paddr.isLt
    rw [BitVec.toNat_add, ← hstart]
    exact (Nat.mod_eq_of_lt hlt).symm

/-! ## The loop -/

section Loop

variable {coff body : List (BitVec 8)} {room : Nat} {c : Conversion} {s : Scnhdr}

/-- One more section in the region. -/
def Conversion.addBss (c : Conversion) (s : Scnhdr) : Conversion :=
  { c with
    noffH := { c.noffH with
      uninitData := { c.noffH.uninitData with
        virtualAddr := (c.region.add s).start
        size := (c.region.add s).size } } }

/-- The branch of `.bss` refuses the section, or adds it to the region. -/
theorem Conversion.convertSection_bss_eq (hsize : s.size ≠ 0) (hname : s.name = bssName) :
    c.convertSection room s = if c.region.Touches s then none else some (c.addBss s) := by
  rw [convertSection_eq_bss hsize hname]
  by_cases hzero : c.noffH.uninitData.size = 0
  · have hadd : c.region.add s = ⟨s.paddr, s.size⟩ := if_neg (not_not.mpr hzero)
    rw [if_neg (not_not.mpr hzero), if_neg (fun h => h.1 hzero), addBss, hadd]
  · have hadd : c.region.add s = ⟨c.region.start, c.region.size + s.size⟩ := if_pos hzero
    rw [if_pos hzero, addBss, hadd]
    refine if_congr ?_ rfl rfl
    exact (and_iff_right hzero).symm

theorem uninitData_setSegment {noffH : NoffHeader} {name : List (BitVec 8)} {seg : Segment}
    (hname : name = textName ∨ name = dataName ∨ name = rdataName) :
    (noffH.setSegment name seg).uninitData = noffH.uninitData := by
  rcases hname with rfl | rfl | rfl
  · rfl
  · rfl
  · rfl

/-- The loop gets to its end, unless the test refuses a section. -/
theorem Running.convertSections_bss {sections : List Scnhdr} (h : Running coff body c)
    (hlength : coff.length ≤ maxFileSize) (hroom : room ≤ maxFileSize)
    (hnonempty : ∀ s ∈ sections, s.size ≠ 0) (hknown : ∀ s ∈ sections, s.name ∈ segmentNames)
    (hinside : ∀ s ∈ copiedSections sections, s.scnptr.toNat + s.size.toNat ≤ coff.length)
    (hfits : c.fdOut.pos + copiedSize sections ≤ room) :
    (Refused c.region (sections.filter fun s => s.name = bssName) ∧
        c.convertSections room sections = none) ∨
      (¬ Refused c.region (sections.filter fun s => s.name = bssName) ∧
        ∃ c' body', c.convertSections room sections = some c' ∧ Running coff body' c') := by
  induction sections generalizing body c with
  | nil => exact .inr ⟨id, c, body, rfl, h⟩
  | cons s sections ih =>
    rw [copiedSize_cons] at hfits
    obtain ⟨hsize, hnonempty'⟩ := List.forall_mem_cons.mp hnonempty
    obtain ⟨hname, hknown'⟩ := List.forall_mem_cons.mp hknown
    have hinside' : ∀ s ∈ copiedSections sections,
        s.scnptr.toNat + s.size.toNat ≤ coff.length := by
      intro s' hs'
      refine hinside s' ?_
      rw [copiedSections_cons]
      exact List.mem_append_right _ hs'
    rw [Conversion.convertSections]
    by_cases hbss : s.name = bssName
    · have hfilter : (s :: sections).filter (fun s => s.name = bssName) =
          s :: sections.filter fun s => s.name = bssName :=
        List.filter_cons_of_pos (decide_eq_true hbss)
      rw [hfilter, Refused, Conversion.convertSection_bss_eq hsize hbss]
      by_cases htouches : c.region.Touches s
      · rw [if_pos htouches]
        exact .inl ⟨.inl htouches, rfl⟩
      · have hnext : Running coff body (c.addBss s) := ⟨h.input, h.output, h.addr⟩
        have hpos : (c.addBss s).fdOut.pos = c.fdOut.pos := rfl
        rw [if_neg htouches, or_iff_right htouches]
        exact ih hnext hnonempty' hknown' hinside' (by omega)
    · have hfilter : (s :: sections).filter (fun s => s.name = bssName) =
          sections.filter fun s => s.name = bssName :=
        List.filter_cons_of_neg (by simp [hbss])
      have hkind := name_of_ne hname hbss
      have hthis : s.scnptr.toNat + s.size.toNat ≤ coff.length := by
        refine hinside s ?_
        rw [copiedSections_cons, copiedSections_of_ne hbss]
        exact List.mem_append_left _ (List.mem_singleton_self s)
      rw [copiedSize_of_ne hbss] at hfits
      obtain ⟨c', hcopy, hrunning, hnoffH, hpos⟩ := h.copy hlength hroom hsize hthis (by omega)
        (c.noffH.setSegment s.name (c.segment s))
      have hregion : c'.region = c.region := by
        unfold Conversion.region
        rw [hnoffH, uninitData_setSegment hkind]
      rw [hfilter, Conversion.convertSection_eq_copy hsize hkind, hcopy, ← hregion]
      exact ih hrunning hnonempty' hknown' hinside' (by omega)

end Loop

/-! ## The whole program -/

/-- The files that are converted are those in which no section starts where the region ends. -/
theorem convert_isSome_iff {coff : List (BitVec 8)} (h : Readable coff) {room : Nat}
    (hroom : room ≤ maxFileSize)
    (hfits : noffHeaderSize + copiedSize (coffSections coff) ≤ room) (stack : NoffHeader) :
    (convert room stack coff).isSome ↔ ¬ StartsAtEnd (bssSections coff) := by
  have hstart := Running.start coff (filehdrSize + aouthdrSize + numSections coff * scnhdrSize)
    stack
  have hloop := hstart.convertSections_bss h.length hroom (fun s hs => size_ne_zero hs) h.known
    h.inside hfits
  have hempty : (⟨stack.uninitData.virtualAddr, 0⟩ : Region).size = 0 := rfl
  rw [convert_eq h, bssSections, ← refused_of_size_eq_zero hempty]
  dsimp only
  rcases hloop with ⟨hrefused, hnone⟩ | ⟨haccepted, c, body, hsome, hrunning⟩
  · rw [hnone]
    exact iff_of_false Bool.false_ne_true (not_not.mpr hrefused)
  · obtain ⟨fdOut, hwrite, -⟩ := hrunning.output.finish (length_header_toBytes c.noffH)
      (show noffHeaderSize ≤ room from (Nat.le_add_right _ _).trans hfits)
    rw [hsome]
    dsimp only [Option.bind_eq_bind, Option.bind_some]
    rw [hwrite]
    exact iff_of_true rfl haccepted

/--
**The test for contiguous sections.**

On a file with several sections `.bss`, the converter does what it means to exactly when one of them
starts where those before it end, and not all of them do.
-/
theorem bss_merged_iff {coff : List (BitVec 8)} (h : Readable coff) {room : Nat}
    (hroom : room ≤ maxFileSize)
    (hfits : noffHeaderSize + copiedSize (coffSections coff) ≤ room) (stack : NoffHeader)
    (hseveral : 2 ≤ (bssSections coff).length) :
    MergesBss room stack coff ↔
      StartsAtEnd (bssSections coff) ∧ ¬ Contiguous (bssSections coff) := by
  have hsome := convert_isSome_iff h hroom hfits stack
  have hsecond := startsAtEnd_of_contiguous hseveral fun s hs =>
    size_ne_zero (List.mem_of_mem_filter hs)
  constructor
  · intro hmerges
    have hstarts : StartsAtEnd (bssSections coff) := by
      by_contra hnot
      exact hnot (hsecond (hmerges.accepts.mp (hsome.mpr hnot)))
    exact ⟨hstarts, fun hcontiguous => hsome.mp (hmerges.accepts.mpr hcontiguous) hstarts⟩
  · rintro ⟨hstarts, hnot⟩
    have hnone : ¬ (convert room stack coff).isSome := fun hs => hsome.mp hs hstarts
    refine ⟨iff_of_false hnone hnot, fun noff hnoff => absurd ?_ hnone⟩
    rw [hnoff]
    rfl

/-- A file with three sections `.bss` of 8 bytes, at these addresses. -/
def bssFile (first second third : BitVec 8) : List (BitVec 8) :=
  let header (addr : BitVec 8) : List (BitVec 8) :=
    bssName ++ [0, 0, 0, 0, addr, 0, 0, 0, 0, 0, 0, 0, 8, 0, 0, 0] ++ List.replicate 20 0
  [0x62, 0x01, 3, 0] ++ List.replicate 16 0 ++ [0x07, 0x01] ++ List.replicate 54 0 ++
    header first ++ header second ++ header third

/--
There is a gap behind the first section, and the third one starts where the region that is made of
the first two ends.
-/
theorem bss_merged_iff_gap :
    MergesBss maxFileSize ⟨0, ⟨7, 7, 7⟩, ⟨7, 7, 7⟩, ⟨7, 7, 7⟩, ⟨7, 7, 7⟩⟩ (bssFile 16 32 32) := by
  have hsections : bssSections (bssFile 16 32 32) =
      [⟨bssName, 16, 8, 0⟩, ⟨bssName, 32, 8, 0⟩, ⟨bssName, 32, 8, 0⟩] := by decide +kernel
  have hreadable : Readable (bssFile 16 32 32) := by constructor <;> decide +kernel
  refine (bss_merged_iff hreadable (le_refl maxFileSize) (by decide +kernel) _
    (by decide +kernel)).mpr ?_
  rw [hsections]
  refine ⟨⟨[⟨bssName, 16, 8, 0⟩, ⟨bssName, 32, 8, 0⟩], ⟨bssName, 32, 8, 0⟩, [], rfl, ?_⟩, ?_⟩
  · exact ⟨by decide, by decide⟩
  · rintro ⟨hgap, -⟩
    exact absurd hgap (by decide)

/-- Three contiguous sections are not converted. -/
theorem contiguous_bss_refused :
    ¬ MergesBss maxFileSize ⟨0, ⟨7, 7, 7⟩, ⟨7, 7, 7⟩, ⟨7, 7, 7⟩, ⟨7, 7, 7⟩⟩ (bssFile 16 24 32) := by
  intro hmerges
  have hsections : bssSections (bssFile 16 24 32) =
      [⟨bssName, 16, 8, 0⟩, ⟨bssName, 24, 8, 0⟩, ⟨bssName, 32, 8, 0⟩] := by decide +kernel
  have hcontiguous : Contiguous (bssSections (bssFile 16 24 32)) := by
    rw [hsections]
    exact ⟨rfl, rfl, trivial⟩
  have hrefused : convert maxFileSize ⟨0, ⟨7, 7, 7⟩, ⟨7, 7, 7⟩, ⟨7, 7, 7⟩, ⟨7, 7, 7⟩⟩
      (bssFile 16 24 32) = none := by decide +kernel
  have hsome := hmerges.accepts.mpr hcontiguous
  rw [hrefused] at hsome
  cases hsome

end Nachos
