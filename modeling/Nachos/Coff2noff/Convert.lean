import Nachos.Base.CString
import Nachos.Filesys.OpenFile
import Nachos.Userprog.Addrspace

/-!
# From COFF to NOFF (`coff2noff/coff2noff.c`, `coff2noff/coff.h`, `coff2noff/noff.h`)

The converter reads the headers of a COFF file, copies the sections one behind the other into the
NOFF file and writes the NOFF header in front of them. It is compiled with `-m32 -DRDATA` for a
little-endian host, so its `long`s have 32 bits, and `WordToHost` and `SwapHeader` do nothing. Where
it exits with an error, the model says `none`.

A file descriptor is the contents of the file and a position. `room` is the length to which the
host lets the NOFF file grow. The NOFF header is on the stack, and what is not assigned is left over
from before: it is a parameter.

* `convert` — the program
* `Preserves` — what the loader of the kernel finds in the NOFF file
* `convert_preserves` — the program image
-/

namespace Nachos

open Base

/-! ## COFF files -/

/-- `MIPSELMAGIC`. -/
def mipselMagic : BitVec 16 := 0x0162

/-- `OMAGIC`. -/
def omagic : BitVec 16 := 0o407

/-- `sizeof(struct filehdr)`. -/
def filehdrSize : Nat := 20

/-- `sizeof(struct aouthdr)`. -/
def aouthdrSize : Nat := 56

/-- `sizeof(struct scnhdr)`. -/
def scnhdrSize : Nat := 40

/-- The little-endian `short` at offset `i`. -/
def shortAt (bytes : List (BitVec 8)) (i : Nat) : BitVec 16 :=
  bytes.getD (i + 1) 0 ++ bytes.getD i 0

/-- The little-endian `long` at offset `i`. -/
def longAt (bytes : List (BitVec 8)) (i : Nat) : BitVec 32 :=
  bytes.getD (i + 3) 0 ++ bytes.getD (i + 2) 0 ++ bytes.getD (i + 1) 0 ++ bytes.getD i 0

/-- What the converter looks at in a `struct scnhdr`. -/
structure Scnhdr where
  /-- The string in `s_name`. -/
  name : List (BitVec 8)
  paddr : BitVec 32
  size : BitVec 32
  scnptr : BitVec 32
deriving DecidableEq

/-- The section header at offset `i`. -/
def scnhdrAt (bytes : List (BitVec 8)) (i : Nat) : Scnhdr where
  name := cString (fun k => bytes.getD (i + k) 0) 8
  paddr := longAt bytes (i + 8)
  size := longAt bytes (i + 16)
  scnptr := longAt bytes (i + 20)

/-- `".text"`. -/
def textName : List (BitVec 8) := [0x2e, 0x74, 0x65, 0x78, 0x74]

/-- `".data"`. -/
def dataName : List (BitVec 8) := [0x2e, 0x64, 0x61, 0x74, 0x61]

/-- `".rdata"`. -/
def rdataName : List (BitVec 8) := [0x2e, 0x72, 0x64, 0x61, 0x74, 0x61]

/-- `".bss"`. -/
def bssName : List (BitVec 8) := [0x2e, 0x62, 0x73, 0x73]

/-! ## Files -/

/-- An open file of the converter. -/
structure Descriptor where
  bytes : List (BitVec 8)
  pos : Nat

namespace Descriptor

/-- `lseek`, whose answer is not looked at. -/
def lseek (f : Descriptor) (offset : BitVec 32) : Descriptor :=
  if 0 ≤ offset.toInt then { f with pos := offset.toNat } else f

/-- `Read`. The host answers -1 to a negative count. -/
def read (f : Descriptor) (nBytes : BitVec 32) : Option (List (BitVec 8) × Descriptor) :=
  if nBytes.toInt < 0 then
    if nBytes.toInt = -1 then some ([], f) else none
  else
    let buf := hostRead f.bytes f.pos nBytes.toNat
    if buf.length = nBytes.toNat then some (buf, { f with pos := f.pos + nBytes.toNat }) else none

/-- `Write`. -/
def write (f : Descriptor) (room : Nat) (buf : List (BitVec 8)) : Option Descriptor :=
  if f.pos + buf.length ≤ room then
    some { bytes := hostWrite f.bytes f.pos buf, pos := f.pos + buf.length }
  else none

end Descriptor

/-! ## The program -/

/-- The variables of the loop in `main`. -/
structure Conversion where
  noffH : NoffHeader
  inNoffFile : BitVec 32
  fdIn : Descriptor
  fdOut : Descriptor

namespace Conversion

/-- What is put into the NOFF header for a section that is copied. -/
def segment (c : Conversion) (s : Scnhdr) : Segment where
  virtualAddr := s.paddr
  inFileAddr := c.inNoffFile
  size := s.size

/-- A section is copied, and `noffH` is the header from now on. -/
def copy (room : Nat) (c : Conversion) (s : Scnhdr) (noffH : NoffHeader) : Option Conversion := do
  let (buffer, fdIn) ← (c.fdIn.lseek s.scnptr).read s.size
  let fdOut ← c.fdOut.write room buffer
  return {
    noffH := noffH
    inNoffFile := c.inNoffFile + s.size
    fdIn := fdIn
    fdOut := fdOut }

/-- The body of the loop. -/
def convertSection (room : Nat) (c : Conversion) (s : Scnhdr) : Option Conversion :=
  if s.size = 0 then some c
  else if strcmp s.name textName = 0 then c.copy room s { c.noffH with code := c.segment s }
  else if strcmp s.name dataName = 0 then c.copy room s { c.noffH with initData := c.segment s }
  else if strcmp s.name rdataName = 0 then
    c.copy room s { c.noffH with readonlyData := c.segment s }
  else if strcmp s.name bssName = 0 then
    let bss := c.noffH.uninitData
    if bss.size ≠ 0 then
      if s.paddr = bss.virtualAddr + bss.size then none
      else
        some { c with
          noffH := { c.noffH with uninitData := { bss with size := bss.size + s.size } } }
    else
      some { c with
        noffH := { c.noffH with
          uninitData := { bss with
            virtualAddr := s.paddr
            size := s.size } } }
  else none

/-- The loop. -/
def convertSections (room : Nat) (c : Conversion) : List Scnhdr → Option Conversion
  | [] => some c
  | s :: sections => (c.convertSection room s).bind fun c => c.convertSections room sections

end Conversion

/-- The bytes of an `int`. -/
def intBytes (x : BitVec 32) : List (BitVec 8) := (List.range 4).map (byteOf x)

/-- The bytes of a `Segment`. -/
def Segment.toBytes (seg : Segment) : List (BitVec 8) :=
  intBytes seg.virtualAddr ++ intBytes seg.inFileAddr ++ intBytes seg.size

/-- The bytes of a `NoffHeader`. -/
def NoffHeader.toBytes (noffH : NoffHeader) : List (BitVec 8) :=
  intBytes noffH.noffMagic ++ noffH.code.toBytes ++ noffH.initData.toBytes ++
    noffH.readonlyData.toBytes ++ noffH.uninitData.toBytes

/-- The NOFF header in front of the loop; `stack` is what was there before. -/
def initialHeader (stack : NoffHeader) : NoffHeader where
  noffMagic := noffMagic
  code := { stack.code with size := 0 }
  initData := { stack.initData with size := 0 }
  readonlyData := { stack.readonlyData with size := 0 }
  uninitData := { stack.uninitData with size := 0 }

/-- `main` with the file `coff`: the NOFF file. -/
def convert (room : Nat) (stack : NoffHeader) (coff : List (BitVec 8)) :
    Option (List (BitVec 8)) := do
  -- `open` refuses a file whose positions do not fit the `off_t`
  guard (coff.length ≤ maxFileSize)
  let fdIn : Descriptor := ⟨coff, 0⟩
  let (fileh, fdIn) ← fdIn.read (BitVec.ofNat 32 filehdrSize)
  guard (shortAt fileh 0 = mipselMagic)
  let (systemh, fdIn) ← fdIn.read (BitVec.ofNat 32 aouthdrSize)
  guard (shortAt systemh 0 = omagic)
  let numsections := (shortAt fileh 2).toNat
  let (headers, fdIn) ← fdIn.read (BitVec.ofNat 32 (numsections * scnhdrSize))
  let sections := (List.range numsections).map fun i => scnhdrAt headers (i * scnhdrSize)
  let start : Conversion := {
    noffH := initialHeader stack
    inNoffFile := BitVec.ofNat 32 noffHeaderSize
    fdIn := fdIn
    fdOut := ⟨[], noffHeaderSize⟩ }
  let c ← start.convertSections room sections
  let fdOut ← (c.fdOut.lseek 0).write room c.noffH.toBytes
  return fdOut.bytes

/-! ## What is to be preserved -/

/-- The number of sections. -/
def numSections (coff : List (BitVec 8)) : Nat := (shortAt coff 2).toNat

/-- The sections that are not empty. -/
def coffSections (coff : List (BitVec 8)) : List Scnhdr :=
  ((List.range (numSections coff)).map fun i =>
    scnhdrAt coff (filehdrSize + aouthdrSize + i * scnhdrSize)).filter fun s => s.size ≠ 0

/-- Those of them that have bytes in the file. -/
def copiedSections (sections : List Scnhdr) : List Scnhdr :=
  sections.filter fun s => s.name ≠ bssName

/-- The bytes of a section. -/
def sectionBytes (coff : List (BitVec 8)) (s : Scnhdr) : List (BitVec 8) :=
  hostRead coff s.scnptr.toNat s.size.toNat

/-- The names that the converter knows. -/
def segmentNames : List (List (BitVec 8)) := [textName, dataName, rdataName, bssName]

/-- A COFF file that can be converted. -/
structure WellFormed (coff : List (BitVec 8)) : Prop where
  length : coff.length ≤ maxFileSize
  magic : shortAt coff 0 = mipselMagic
  omagic : shortAt coff filehdrSize = omagic
  headers : filehdrSize + aouthdrSize + numSections coff * scnhdrSize ≤ coff.length
  inside : ∀ s ∈ copiedSections (coffSections coff), s.scnptr.toNat + s.size.toNat ≤ coff.length
  known : ∀ s ∈ coffSections coff, s.name ∈ segmentNames
  once : ((coffSections coff).map Scnhdr.name).Nodup

/-- The same of a file in which a name can come more than once. -/
structure Readable (coff : List (BitVec 8)) : Prop where
  length : coff.length ≤ maxFileSize
  magic : shortAt coff 0 = mipselMagic
  omagic : shortAt coff filehdrSize = omagic
  headers : filehdrSize + aouthdrSize + numSections coff * scnhdrSize ≤ coff.length
  inside : ∀ s ∈ copiedSections (coffSections coff), s.scnptr.toNat + s.size.toNat ≤ coff.length
  known : ∀ s ∈ coffSections coff, s.name ∈ segmentNames

theorem WellFormed.readable {coff : List (BitVec 8)} (h : WellFormed coff) : Readable coff :=
  ⟨h.length, h.magic, h.omagic, h.headers, h.inside, h.known⟩

/-- The segment for the section with this name. -/
def NoffHeader.segment (noffH : NoffHeader) (name : List (BitVec 8)) : Segment :=
  if name = textName then noffH.code
  else if name = dataName then noffH.initData
  else if name = rdataName then noffH.readonlyData
  else noffH.uninitData

/-- The segments lie in the file one behind the other, from `start` on. -/
def Adjacent (start : Nat) : List Segment → Prop
  | [] => True
  | seg :: segs => seg.inFileAddr.toNat = start ∧ Adjacent (start + seg.size.toNat) segs

/-- The NOFF file has the program image of the COFF file. -/
structure Preserves (coff : List (BitVec 8)) (noff : Executable) : Prop where
  magic : noff.header.noffMagic = noffMagic
  /-- All sections have their address and their size, `.bss` included. -/
  placed : ∀ s ∈ coffSections coff, (noff.header.segment s.name).virtualAddr = s.paddr ∧
    (noff.header.segment s.name).size = s.size
  bytes : ∀ s ∈ copiedSections (coffSections coff),
    hostRead noff.bytes (noff.header.segment s.name).inFileAddr.toNat s.size.toNat =
      sectionBytes coff s
  /-- The bytes come behind the header, in the order of the sections and without gaps. -/
  adjacent : Adjacent noffHeaderSize
    ((copiedSections (coffSections coff)).map fun s => noff.header.segment s.name)
  disjoint : ((copiedSections (coffSections coff)).map fun s => noff.header.segment s.name).Pairwise
    fun a b => a.inFileAddr.toNat + a.size.toNat ≤ b.inFileAddr.toNat
  absent : ∀ name ∈ segmentNames, (∀ s ∈ coffSections coff, s.name ≠ name) →
    (noff.header.segment name).size = 0

/-! ## The NOFF header in the file -/

theorem length_header_toBytes (noffH : NoffHeader) : noffH.toBytes.length = noffHeaderSize := rfl

/-- The four bytes of an `int` say what it is. -/
theorem append_byteOf (x : BitVec 32) :
    byteOf x 3 ++ byteOf x 2 ++ byteOf x 1 ++ byteOf x 0 = x := by
  refine BitVec.eq_of_getLsbD_eq ?_
  intro i hi
  simp only [BitVec.getLsbD_append]
  split
  next h => rw [getLsbD_byteOf _ _ h, Nat.mul_zero, Nat.zero_add]
  next h =>
    split
    next h' => rw [getLsbD_byteOf _ _ h', show 8 * 1 + (i - 8) = i by omega]
    next h' =>
      split
      next h'' => rw [getLsbD_byteOf _ _ h'', show 8 * 2 + (i - 8 - 8) = i by omega]
      next h'' =>
        rw [getLsbD_byteOf _ _ (by omega), show 8 * 3 + (i - 8 - 8 - 8) = i by omega]

/-- What the kernel reads as the header is what was written. -/
theorem header_of_bytes {noff : Executable} {noffH : NoffHeader} {body : List (BitVec 8)}
    (h : noff.bytes = noffH.toBytes ++ body) : noff.header = noffH := by
  have hword : ∀ {i : Nat} {x : BitVec 32}, noff.bytes.getD (i + 3) 0 = byteOf x 3 →
      noff.bytes.getD (i + 2) 0 = byteOf x 2 → noff.bytes.getD (i + 1) 0 = byteOf x 1 →
      noff.bytes.getD i 0 = byteOf x 0 → noff.wordAt i = x := by
    intro i x h3 h2 h1 h0
    rw [Executable.wordAt, h3, h2, h1, h0]
    exact append_byteOf x
  have hsegment : ∀ {i : Nat} {seg : Segment}, noff.wordAt i = seg.virtualAddr →
      noff.wordAt (i + 4) = seg.inFileAddr → noff.wordAt (i + 8) = seg.size →
      noff.segmentAt i = seg := by
    intro i seg haddr hfile hsize
    rw [Executable.segmentAt, haddr, hfile, hsize]
  have hmagic : noff.wordAt 0 = noffH.noffMagic := by
    apply hword <;> rw [h] <;> rfl
  have hcode : noff.segmentAt 4 = noffH.code := by
    apply hsegment <;> apply hword <;> rw [h] <;> rfl
  have hinit : noff.segmentAt 16 = noffH.initData := by
    apply hsegment <;> apply hword <;> rw [h] <;> rfl
  have hrdata : noff.segmentAt 28 = noffH.readonlyData := by
    apply hsegment <;> apply hword <;> rw [h] <;> rfl
  have hbss : noff.segmentAt 40 = noffH.uninitData := by
    apply hsegment <;> apply hword <;> rw [h] <;> rfl
  rw [Executable.header, hmagic, hcode, hinit, hrdata, hbss]

/-! ## The segments of the header -/

def NoffHeader.setSegment (noffH : NoffHeader) (name : List (BitVec 8)) (seg : Segment) :
    NoffHeader :=
  if name = textName then { noffH with code := seg }
  else if name = dataName then { noffH with initData := seg }
  else if name = rdataName then { noffH with readonlyData := seg }
  else { noffH with uninitData := seg }

theorem mem_segmentNames {name : List (BitVec 8)} :
    name ∈ segmentNames ↔
      name = textName ∨ name = dataName ∨ name = rdataName ∨ name = bssName := by
  simp [segmentNames]

theorem segment_setSegment {noffH : NoffHeader} {name : List (BitVec 8)} (seg : Segment) :
    (noffH.setSegment name seg).segment name = seg := by
  unfold NoffHeader.setSegment NoffHeader.segment
  split
  next => rfl
  next =>
    split
    next => rfl
    next =>
      split
      next => rfl
      next => rfl

theorem segment_setSegment_of_ne {noffH : NoffHeader} {name name' : List (BitVec 8)}
    (hname : name ∈ segmentNames) (hname' : name' ∈ segmentNames) (hne : name' ≠ name)
    (seg : Segment) : (noffH.setSegment name seg).segment name' = noffH.segment name' := by
  rw [mem_segmentNames] at hname hname'
  rcases hname with rfl | rfl | rfl | rfl
  all_goals
    rcases hname' with rfl | rfl | rfl | rfl
    all_goals first | exact absurd rfl hne | rfl

theorem magic_setSegment (noffH : NoffHeader) (name : List (BitVec 8)) (seg : Segment) :
    (noffH.setSegment name seg).noffMagic = noffH.noffMagic := by
  unfold NoffHeader.setSegment
  split
  next => rfl
  next =>
    split
    next => rfl
    next =>
      split
      next => rfl
      next => rfl

/-! ## Adjacent segments -/

theorem Adjacent.le {start : Nat} {segs : List Segment} (h : Adjacent start segs) :
    ∀ seg ∈ segs, start ≤ seg.inFileAddr.toNat := by
  induction segs generalizing start with
  | nil => exact fun seg hseg => by cases hseg
  | cons first segs ih =>
    intro seg hseg
    rcases List.mem_cons.mp hseg with rfl | hseg
    · exact Nat.le_of_eq h.1.symm
    · exact (Nat.le_add_right _ _).trans (ih h.2 seg hseg)

theorem Adjacent.pairwise {start : Nat} {segs : List Segment} (h : Adjacent start segs) :
    segs.Pairwise fun a b => a.inFileAddr.toNat + a.size.toNat ≤ b.inFileAddr.toNat := by
  induction segs generalizing start with
  | nil => exact List.Pairwise.nil
  | cons first segs ih =>
    refine List.Pairwise.cons (fun seg hseg => ?_) (ih h.2)
    rw [h.1]
    exact h.2.le seg hseg

/-- Pieces that are written one behind the other are found where the segments say. -/
theorem Adjacent.hostRead {coff : List (BitVec 8)} {sections : List Scnhdr}
    {seg : Scnhdr → Segment} (hsize : ∀ s ∈ sections, (seg s).size = s.size)
    (hlength : ∀ s ∈ sections, (sectionBytes coff s).length = s.size.toNat)
    {front : List (BitVec 8)} (h : Adjacent front.length (sections.map seg)) :
    ∀ s ∈ sections,
      Nachos.hostRead (front ++ sections.flatMap (sectionBytes coff)) (seg s).inFileAddr.toNat
        s.size.toNat = sectionBytes coff s := by
  induction sections generalizing front with
  | nil => exact fun s hs => by cases hs
  | cons first sections ih =>
    have hfirst := hlength first List.mem_cons_self
    obtain ⟨hstart, hrest⟩ := h
    intro s hs
    rw [List.flatMap_cons]
    rcases List.mem_cons.mp hs with rfl | hs
    · rw [Nachos.hostRead, hstart, List.drop_left, ← hfirst, List.take_left]
    · rw [← List.append_assoc]
      refine ih (fun s hs => hsize s (List.mem_cons_of_mem _ hs))
        (fun s hs => hlength s (List.mem_cons_of_mem _ hs)) ?_ s hs
      rw [List.length_append, hfirst, ← hsize first List.mem_cons_self]
      exact hrest

/-! ## One section -/

theorem toInt_nonneg {x : BitVec 32} (h : x.toNat ≤ maxFileSize) : 0 ≤ x.toInt := by
  rw [BitVec.toInt_eq_toNat_cond]
  unfold maxFileSize at h
  split
  · omega
  · omega

theorem Descriptor.read_eq {f : Descriptor} {n : BitVec 32} (hn : n.toNat ≤ maxFileSize)
    (h : f.pos + n.toNat ≤ f.bytes.length) :
    f.read n = some (hostRead f.bytes f.pos n.toNat, { f with pos := f.pos + n.toNat }) := by
  unfold Descriptor.read
  rw [if_neg (not_lt.mpr (toInt_nonneg hn))]
  exact if_pos (length_hostRead_of_le h)

/-- The NOFF file, with its header missing and these bytes behind it. -/
structure Body (f : Descriptor) (body : List (BitVec 8)) : Prop where
  pos : f.pos = noffHeaderSize + body.length
  bytes : f.bytes = [] ∧ body = [] ∨ f.bytes.length = f.pos ∧ f.bytes.drop noffHeaderSize = body

/-- A write behind the end of an empty file. -/
theorem hostWrite_nil {offset : Nat} {buf : List (BitVec 8)} (hbuf : buf ≠ []) :
    hostWrite [] offset buf = List.replicate offset 0 ++ buf := by
  rw [hostWrite, if_neg hbuf, List.take_nil, List.drop_nil, List.append_nil, List.nil_append,
    List.length_nil, Nat.sub_zero]

/-- A write at the end of the file. -/
theorem hostWrite_end {content buf : List (BitVec 8)} {offset : Nat} (hbuf : buf ≠ [])
    (h : content.length = offset) : hostWrite content offset buf = content ++ buf := by
  subst h
  rw [hostWrite, if_neg hbuf, List.take_length, Nat.sub_self, List.drop_eq_nil_of_le (by omega),
    List.append_nil]
  exact congrArg (· ++ buf) (List.append_nil content)

theorem Body.write {f : Descriptor} {body buf : List (BitVec 8)} {room : Nat} (h : Body f body)
    (hbuf : buf ≠ []) (hroom : f.pos + buf.length ≤ room) :
    ∃ f', f.write room buf = some f' ∧ f'.pos = f.pos + buf.length ∧ Body f' (body ++ buf) := by
  have hpos := h.pos
  refine ⟨_, if_pos hroom, rfl, ?_, .inr ?_⟩
  · rw [List.length_append, hpos]
    exact Nat.add_assoc ..
  · rcases h.bytes with ⟨hbytes, rfl⟩ | ⟨hlength, hdrop⟩
    · have hstart : f.pos = noffHeaderSize := hpos
      rw [hbytes, hostWrite_nil hbuf, List.length_append, List.length_replicate, hstart,
        List.drop_left' List.length_replicate]
      exact ⟨rfl, rfl⟩
    · rw [hostWrite_end hbuf hlength, List.length_append, hlength,
        List.drop_append_of_le_length (by omega), hdrop]
      exact ⟨rfl, rfl⟩

/-- The header comes last, to the front. -/
theorem Body.finish {f : Descriptor} {body header : List (BitVec 8)} {room : Nat} (h : Body f body)
    (hheader : header.length = noffHeaderSize) (hroom : noffHeaderSize ≤ room) :
    ∃ f', (f.lseek 0).write room header = some f' ∧ f'.bytes = header ++ body := by
  have hseek : f.lseek 0 = ⟨f.bytes, 0⟩ := rfl
  have hne : header ≠ [] := by
    rintro rfl
    exact absurd hheader (by decide)
  rw [hseek]
  refine ⟨_, if_pos (show 0 + header.length ≤ room by omega), ?_⟩
  show hostWrite f.bytes 0 header = header ++ body
  rw [hostWrite, if_neg hne, List.take_zero, Nat.zero_sub, List.replicate_zero, hheader,
    Nat.zero_add]
  rcases h.bytes with ⟨hbytes, rfl⟩ | ⟨-, hdrop⟩
  · rw [hbytes]
    rfl
  · rw [hdrop]
    rfl

/-- The state of the loop, with the bytes that it has copied. -/
structure Running (coff : List (BitVec 8)) (body : List (BitVec 8)) (c : Conversion) : Prop where
  input : c.fdIn.bytes = coff
  output : Body c.fdOut body
  addr : c.inNoffFile.toNat = c.fdOut.pos

/-- In front of the loop. -/
theorem Running.start (coff : List (BitVec 8)) (pos : Nat) (stack : NoffHeader) :
    Running coff [] ⟨initialHeader stack, BitVec.ofNat 32 noffHeaderSize, ⟨coff, pos⟩,
      ⟨[], noffHeaderSize⟩⟩ :=
  ⟨rfl, ⟨rfl, .inl ⟨rfl, rfl⟩⟩, rfl⟩

section Loop

variable {coff body : List (BitVec 8)} {room : Nat} {c : Conversion} {s : Scnhdr}

theorem Running.copy (h : Running coff body c) (hlength : coff.length ≤ maxFileSize)
    (hroom : room ≤ maxFileSize) (hsize : s.size ≠ 0)
    (hinside : s.scnptr.toNat + s.size.toNat ≤ coff.length)
    (hfits : c.fdOut.pos + s.size.toNat ≤ room) (noffH : NoffHeader) :
    ∃ c', c.copy room s noffH = some c' ∧ Running coff (body ++ sectionBytes coff s) c' ∧
      c'.noffH = noffH ∧ c'.fdOut.pos = c.fdOut.pos + s.size.toNat := by
  have hseek : c.fdIn.lseek s.scnptr = ⟨coff, s.scnptr.toNat⟩ := by
    rw [Descriptor.lseek, if_pos (toInt_nonneg (by omega)), h.input]
  have hread : (c.fdIn.lseek s.scnptr).read s.size =
      some (sectionBytes coff s, ⟨coff, s.scnptr.toNat + s.size.toNat⟩) := by
    rw [hseek]
    exact Descriptor.read_eq (by omega) hinside
  have hbytes : (sectionBytes coff s).length = s.size.toNat := length_hostRead_of_le hinside
  have hne : sectionBytes coff s ≠ [] := by
    intro hnil
    rw [hnil] at hbytes
    exact hsize (BitVec.eq_of_toNat_eq hbytes.symm)
  have hfits' : c.fdOut.pos + (sectionBytes coff s).length ≤ room := by
    rw [hbytes]
    exact hfits
  obtain ⟨fdOut, hwrite, hpos, hbody⟩ := h.output.write hne hfits'
  rw [hbytes] at hpos
  refine ⟨⟨noffH, c.inNoffFile + s.size, ⟨coff, s.scnptr.toNat + s.size.toNat⟩, fdOut⟩, ?_,
    ⟨rfl, hbody, ?_⟩, rfl, hpos⟩
  · unfold Conversion.copy
    rw [hread]
    dsimp only [Option.bind_eq_bind, Option.bind_some]
    rw [hwrite]
    rfl
  · show (c.inNoffFile + s.size).toNat = fdOut.pos
    rw [BitVec.toNat_add, h.addr, hpos]
    unfold maxFileSize at hroom
    exact Nat.mod_eq_of_lt (by omega)

/-- The branches that copy. -/
theorem Conversion.convertSection_eq_copy (hsize : s.size ≠ 0)
    (hname : s.name = textName ∨ s.name = dataName ∨ s.name = rdataName) :
    c.convertSection room s = c.copy room s (c.noffH.setSegment s.name (c.segment s)) := by
  have hdata : strcmp dataName textName ≠ 0 := by decide
  have hrdata : strcmp rdataName textName ≠ 0 := by decide
  have hrdata' : strcmp rdataName dataName ≠ 0 := by decide
  unfold Conversion.convertSection
  rw [if_neg hsize]
  rcases hname with hname | hname | hname
  · rw [hname, if_pos (by decide)]
    rfl
  · rw [hname, if_neg hdata, if_pos (by decide)]
    rfl
  · rw [hname, if_neg hrdata, if_neg hrdata', if_pos (by decide)]
    rfl

/-- The branch of `.bss`. -/
theorem Conversion.convertSection_eq_bss (hsize : s.size ≠ 0) (hname : s.name = bssName) :
    c.convertSection room s =
      if c.noffH.uninitData.size ≠ 0 then
        if s.paddr = c.noffH.uninitData.virtualAddr + c.noffH.uninitData.size then none
        else some { c with
          noffH := { c.noffH with uninitData := { c.noffH.uninitData with
            size := c.noffH.uninitData.size + s.size } } }
      else some { c with
        noffH := { c.noffH with uninitData := { c.noffH.uninitData with
          virtualAddr := s.paddr
          size := s.size } } } := by
  have htext : strcmp bssName textName ≠ 0 := by decide
  have hdata : strcmp bssName dataName ≠ 0 := by decide
  have hrdata : strcmp bssName rdataName ≠ 0 := by decide
  unfold Conversion.convertSection
  rw [if_neg hsize, hname, if_neg htext, if_neg hdata, if_neg hrdata, if_pos (by decide)]

/-- The branch of `.bss`, when it comes for the first time. -/
theorem Conversion.convertSection_bss (hsize : s.size ≠ 0) (hname : s.name = bssName)
    (hfirst : (c.noffH.segment bssName).size = 0) :
    c.convertSection room s = some { c with
      noffH := c.noffH.setSegment s.name { c.noffH.uninitData with
        virtualAddr := s.paddr
        size := s.size } } := by
  have hzero : c.noffH.uninitData.size = 0 := hfirst
  rw [convertSection_eq_bss hsize hname, hname, if_neg (not_not.mpr hzero)]
  rfl

/-- The bytes of the sections, one behind the other. -/
def bodyBytes (coff : List (BitVec 8)) (sections : List Scnhdr) : List (BitVec 8) :=
  (copiedSections sections).flatMap (sectionBytes coff)

def copiedSize (sections : List Scnhdr) : Nat :=
  ((copiedSections sections).map fun s => s.size.toNat).sum

/-- A section `.bss` is not copied. -/
theorem copiedSections_bss (h : s.name = bssName) : copiedSections [s] = [] := by
  simp [copiedSections, h]

theorem copiedSections_of_ne (h : s.name ≠ bssName) : copiedSections [s] = [s] := by
  simp [copiedSections, h]

theorem copiedSize_of_ne (h : s.name ≠ bssName) : copiedSize [s] = s.size.toNat := by
  rw [copiedSize, copiedSections_of_ne h]
  exact Nat.add_zero _

theorem name_of_ne (hname : s.name ∈ segmentNames) (h : s.name ≠ bssName) :
    s.name = textName ∨ s.name = dataName ∨ s.name = rdataName := by
  rcases mem_segmentNames.mp hname with htext | hdata | hrdata | hbss
  · exact .inl htext
  · exact .inr (.inl hdata)
  · exact .inr (.inr hrdata)
  · exact absurd hbss h

/-- What one section leaves. -/
theorem Running.convertSection (h : Running coff body c) (hlength : coff.length ≤ maxFileSize)
    (hroom : room ≤ maxFileSize) (hsize : s.size ≠ 0) (hname : s.name ∈ segmentNames)
    (hfirst : (c.noffH.segment s.name).size = 0)
    (hinside : s.name ≠ bssName → s.scnptr.toNat + s.size.toNat ≤ coff.length)
    (hfits : c.fdOut.pos + copiedSize [s] ≤ room) :
    ∃ c' seg, c.convertSection room s = some c' ∧ Running coff (body ++ bodyBytes coff [s]) c' ∧
      c'.fdOut.pos = c.fdOut.pos + copiedSize [s] ∧ c'.noffH = c.noffH.setSegment s.name seg ∧
      seg.virtualAddr = s.paddr ∧ seg.size = s.size ∧
      (s.name ≠ bssName → seg.inFileAddr.toNat = c.fdOut.pos) := by
  by_cases hbss : s.name = bssName
  · have hcopied : copiedSections [s] = [] := copiedSections_bss hbss
    rw [hbss] at hfirst
    refine ⟨_, _, Conversion.convertSection_bss hsize hbss hfirst, ?_, ?_, rfl, rfl, rfl, ?_⟩
    · rw [bodyBytes, hcopied]
      exact ⟨h.input, by rw [List.flatMap_nil, List.append_nil]; exact h.output, h.addr⟩
    · rw [copiedSize, hcopied]
      rfl
    · exact fun hne => absurd hbss hne
  · rw [copiedSize_of_ne hbss] at hfits ⊢
    obtain ⟨c', hcopy, hrunning, hnoffH, hpos⟩ := h.copy hlength hroom hsize (hinside hbss) hfits
      (c.noffH.setSegment s.name (c.segment s))
    refine ⟨c', c.segment s, ?_, ?_, hpos, hnoffH, rfl, rfl, fun _ => h.addr⟩
    · rw [Conversion.convertSection_eq_copy hsize (name_of_ne hname hbss), hcopy]
    · rw [bodyBytes, copiedSections_of_ne hbss, List.flatMap_singleton]
      exact hrunning

/-! ## The loop -/

theorem copiedSections_cons (s : Scnhdr) (sections : List Scnhdr) :
    copiedSections (s :: sections) = copiedSections [s] ++ copiedSections sections :=
  List.filter_append [s] sections

theorem bodyBytes_cons (coff : List (BitVec 8)) (s : Scnhdr) (sections : List Scnhdr) :
    bodyBytes coff (s :: sections) = bodyBytes coff [s] ++ bodyBytes coff sections := by
  unfold bodyBytes
  rw [copiedSections_cons, List.flatMap_append]

theorem copiedSize_cons (s : Scnhdr) (sections : List Scnhdr) :
    copiedSize (s :: sections) = copiedSize [s] + copiedSize sections := by
  unfold copiedSize
  rw [copiedSections_cons, List.map_append, List.sum_append]

/-- What the loop leaves in the NOFF header, from the file position `pos` on. -/
structure Converted (pos : Nat) (old new : NoffHeader) (sections : List Scnhdr) : Prop where
  magic : new.noffMagic = old.noffMagic
  others : ∀ name ∈ segmentNames, (∀ s ∈ sections, s.name ≠ name) →
    new.segment name = old.segment name
  placed : ∀ s ∈ sections, (new.segment s.name).virtualAddr = s.paddr ∧
    (new.segment s.name).size = s.size
  adjacent : Adjacent pos ((copiedSections sections).map fun s => new.segment s.name)

/-- One section, and then the others. -/
theorem Converted.cons {old new : NoffHeader} {sections : List Scnhdr} {seg : Segment} {pos : Nat}
    (hname : s.name ∈ segmentNames) (hnew : ∀ s' ∈ sections, s'.name ≠ s.name)
    (haddr : seg.virtualAddr = s.paddr) (hsize : seg.size = s.size)
    (hfile : s.name ≠ bssName → seg.inFileAddr.toNat = pos)
    (h : Converted (pos + copiedSize [s]) (old.setSegment s.name seg) new sections) :
    Converted pos old new (s :: sections) := by
  have hsegment : new.segment s.name = seg := by
    rw [h.others s.name hname hnew, segment_setSegment]
  refine ⟨h.magic.trans (magic_setSegment ..), ?_, ?_, ?_⟩
  · intro name hmem hnot
    rw [h.others name hmem fun s' hs' => hnot s' (List.mem_cons_of_mem _ hs')]
    exact segment_setSegment_of_ne hname hmem (Ne.symm (hnot s List.mem_cons_self)) seg
  · intro s' hs'
    rcases List.mem_cons.mp hs' with rfl | hs'
    · rw [hsegment]
      exact ⟨haddr, hsize⟩
    · exact h.placed s' hs'
  · rw [copiedSections_cons, List.map_append]
    by_cases hbss : s.name = bssName
    · have hcopied : copiedSections [s] = [] := copiedSections_bss hbss
      have hadjacent := h.adjacent
      rw [copiedSize, hcopied] at hadjacent
      rw [hcopied]
      exact hadjacent
    · have hcopied : copiedSections [s] = [s] := copiedSections_of_ne hbss
      have hadjacent := h.adjacent
      rw [copiedSize, hcopied] at hadjacent
      rw [hcopied]
      show (new.segment s.name).inFileAddr.toNat = pos ∧
        Adjacent (pos + (new.segment s.name).size.toNat) _
      rw [hsegment, hsize]
      exact ⟨hfile hbss, hadjacent⟩

theorem Running.convertSections {sections : List Scnhdr} (h : Running coff body c)
    (hlength : coff.length ≤ maxFileSize) (hroom : room ≤ maxFileSize)
    (hnonempty : ∀ s ∈ sections, s.size ≠ 0) (hknown : ∀ s ∈ sections, s.name ∈ segmentNames)
    (honce : (sections.map Scnhdr.name).Nodup)
    (hfirst : ∀ s ∈ sections, (c.noffH.segment s.name).size = 0)
    (hinside : ∀ s ∈ copiedSections sections, s.scnptr.toNat + s.size.toNat ≤ coff.length)
    (hfits : c.fdOut.pos + copiedSize sections ≤ room) :
    ∃ c', c.convertSections room sections = some c' ∧
      Running coff (body ++ bodyBytes coff sections) c' ∧
      Converted c.fdOut.pos c.noffH c'.noffH sections := by
  induction sections generalizing body c with
  | nil =>
    refine ⟨c, rfl, ?_, ⟨rfl, fun _ _ _ => rfl, ?_, trivial⟩⟩
    · rw [show bodyBytes coff [] = [] from rfl, List.append_nil]
      exact h
    · intro s hs
      cases hs
  | cons s sections ih =>
    rw [copiedSize_cons] at hfits
    obtain ⟨hnotin, honce'⟩ := List.nodup_cons.mp honce
    have hnew : ∀ s' ∈ sections, s'.name ≠ s.name := by
      intro s' hs' heq
      exact hnotin (heq ▸ List.mem_map_of_mem hs')
    have hname := hknown s List.mem_cons_self
    have hthis : s.name ≠ bssName → s.scnptr.toNat + s.size.toNat ≤ coff.length := by
      intro hbss
      refine hinside s ?_
      rw [copiedSections, List.mem_filter]
      exact ⟨List.mem_cons_self, by simpa using hbss⟩
    obtain ⟨c', seg, hstep, hrunning, hpos, hnoffH, haddr, hsize, hfile⟩ :=
      h.convertSection hlength hroom (hnonempty s List.mem_cons_self) hname
        (hfirst s List.mem_cons_self) hthis (by omega)
    obtain ⟨c'', hloop, hrunning', hconverted⟩ := ih hrunning
      (fun s' hs' => hnonempty s' (List.mem_cons_of_mem _ hs'))
      (fun s' hs' => hknown s' (List.mem_cons_of_mem _ hs')) honce'
      (by
        intro s' hs'
        rw [hnoffH, segment_setSegment_of_ne hname (hknown s' (List.mem_cons_of_mem _ hs'))
          (hnew s' hs')]
        exact hfirst s' (List.mem_cons_of_mem _ hs'))
      (by
        intro s' hs'
        refine hinside s' ?_
        rw [copiedSections_cons]
        exact List.mem_append_right _ hs')
      (by omega)
    refine ⟨c'', ?_, ?_, ?_⟩
    · rw [Conversion.convertSections, hstep]
      exact hloop
    · rw [bodyBytes_cons, ← List.append_assoc]
      exact hrunning'
    · rw [hpos, hnoffH] at hconverted
      exact hconverted.cons hname hnew haddr hsize hfile

/-- Empty sections are passed over. -/
theorem Conversion.convertSections_filter (room : Nat) (c : Conversion) (sections : List Scnhdr) :
    c.convertSections room sections =
      c.convertSections room (sections.filter fun s => s.size ≠ 0) := by
  induction sections generalizing c with
  | nil => rfl
  | cons s sections ih =>
    by_cases hsize : s.size = 0
    · have hskip : c.convertSection room s = some c := if_pos hsize
      rw [List.filter_cons_of_neg (by simp [hsize]), Conversion.convertSections, hskip]
      exact ih c
    · have hkeep : (s :: sections).filter (fun s => s.size ≠ 0) =
          s :: sections.filter fun s => s.size ≠ 0 :=
        List.filter_cons_of_pos (decide_eq_true hsize)
      rw [hkeep, Conversion.convertSections, Conversion.convertSections]
      exact Option.bind_congr fun c' _ => ih c'

end Loop

/-! ## The whole program -/

theorem getD_hostRead {content : List (BitVec 8)} {offset count k : Nat} (h : k < count) :
    (hostRead content offset count).getD k 0 = content.getD (offset + k) 0 := by
  rw [List.getD_eq_getElem?_getD, List.getD_eq_getElem?_getD, hostRead, List.getElem?_take,
    if_pos h, List.getElem?_drop]

theorem shortAt_hostRead {content : List (BitVec 8)} {offset count i : Nat} (h : i + 2 ≤ count) :
    shortAt (hostRead content offset count) i = shortAt content (offset + i) := by
  unfold shortAt
  rw [getD_hostRead (by omega), getD_hostRead (by omega)]
  rfl

theorem longAt_hostRead {content : List (BitVec 8)} {offset count i : Nat} (h : i + 4 ≤ count) :
    longAt (hostRead content offset count) i = longAt content (offset + i) := by
  unfold longAt
  rw [getD_hostRead (by omega), getD_hostRead (by omega), getD_hostRead (by omega),
    getD_hostRead (by omega)]
  rfl

theorem scnhdrAt_hostRead {content : List (BitVec 8)} {offset count i : Nat}
    (h : i + scnhdrSize ≤ count) :
    scnhdrAt (hostRead content offset count) i = scnhdrAt content (offset + i) := by
  unfold scnhdrSize at h
  have hname : cString (fun k => (hostRead content offset count).getD (i + k) 0) 8 =
      cString (fun k => content.getD (offset + i + k) 0) 8 := by
    refine cString_congr fun k hk => ?_
    rw [getD_hostRead (by omega), Nat.add_assoc]
  unfold scnhdrAt
  rw [hname, longAt_hostRead (by omega), longAt_hostRead (by omega), longAt_hostRead (by omega)]
  rfl

/-- The headers are there, and the section headers are those of `coffSections`. -/
theorem convert_eq {coff : List (BitVec 8)} (h : Readable coff) (room : Nat)
    (stack : NoffHeader) :
    convert room stack coff = do
      let pos := filehdrSize + aouthdrSize + numSections coff * scnhdrSize
      let start : Conversion := {
        noffH := initialHeader stack
        inNoffFile := BitVec.ofNat 32 noffHeaderSize
        fdIn := ⟨coff, pos⟩
        fdOut := ⟨[], noffHeaderSize⟩ }
      let c ← start.convertSections room (coffSections coff)
      let fdOut ← (c.fdOut.lseek 0).write room c.noffH.toBytes
      return fdOut.bytes := by
  have hheaders := h.headers
  have hlength := h.length
  have hfileh : Descriptor.read ⟨coff, 0⟩ (BitVec.ofNat 32 filehdrSize) =
      some (hostRead coff 0 filehdrSize, ⟨coff, filehdrSize⟩) :=
    (Descriptor.read_eq (by decide) (by
      show 0 + filehdrSize ≤ coff.length
      omega))
  have hsystemh : Descriptor.read ⟨coff, filehdrSize⟩ (BitVec.ofNat 32 aouthdrSize) =
      some (hostRead coff filehdrSize aouthdrSize, ⟨coff, filehdrSize + aouthdrSize⟩) :=
    (Descriptor.read_eq (by decide) (by
      show filehdrSize + aouthdrSize ≤ coff.length
      omega))
  have hcount : (BitVec.ofNat 32 (numSections coff * scnhdrSize)).toNat =
      numSections coff * scnhdrSize := by
    rw [BitVec.toNat_ofNat]
    unfold maxFileSize at hlength
    exact Nat.mod_eq_of_lt (by omega)
  have hscnhdrs : Descriptor.read ⟨coff, filehdrSize + aouthdrSize⟩
      (BitVec.ofNat 32 (numSections coff * scnhdrSize)) =
      some (hostRead coff (filehdrSize + aouthdrSize) (numSections coff * scnhdrSize),
        ⟨coff, filehdrSize + aouthdrSize + numSections coff * scnhdrSize⟩) := by
    rw [Descriptor.read_eq (by rw [hcount]; omega) (by
      rw [hcount]
      exact hheaders), hcount]
  have hmagic : shortAt (hostRead coff 0 filehdrSize) 0 = mipselMagic :=
    (shortAt_hostRead (by decide)).trans h.magic
  have homagic : shortAt (hostRead coff filehdrSize aouthdrSize) 0 = omagic :=
    (shortAt_hostRead (by decide)).trans h.omagic
  have hnum : (shortAt (hostRead coff 0 filehdrSize) 2).toNat = numSections coff :=
    congrArg BitVec.toNat (shortAt_hostRead (by decide))
  have hsections : ((List.range (numSections coff)).map fun i =>
      scnhdrAt (hostRead coff (filehdrSize + aouthdrSize) (numSections coff * scnhdrSize))
        (i * scnhdrSize)) = (List.range (numSections coff)).map fun i =>
      scnhdrAt coff (filehdrSize + aouthdrSize + i * scnhdrSize) := by
    refine List.map_congr_left fun i hi => scnhdrAt_hostRead ?_
    have hlt := List.mem_range.mp hi
    calc i * scnhdrSize + scnhdrSize = (i + 1) * scnhdrSize := (Nat.succ_mul i scnhdrSize).symm
      _ ≤ numSections coff * scnhdrSize := Nat.mul_le_mul_right _ hlt
  unfold convert
  simp only [guard, if_pos hlength, hfileh, if_pos hmagic, hsystemh, if_pos homagic, hnum, hscnhdrs,
    hsections, Option.pure_def, Option.bind_eq_bind, Option.bind_some, coffSections]
  rw [Conversion.convertSections_filter]

theorem size_ne_zero {coff : List (BitVec 8)} {s : Scnhdr} (hs : s ∈ coffSections coff) :
    s.size ≠ 0 :=
  of_decide_eq_true (List.mem_filter.mp hs).2

/--
**The conversion preserves the program image.**

For every well-formed COFF file, whatever the order of its sections, if the host has room for the
NOFF file: the conversion succeeds, and the kernel finds the sections in the NOFF file with their
addresses, their sizes and their bytes, one behind the other.
-/
theorem convert_preserves {coff : List (BitVec 8)} (h : WellFormed coff) {room : Nat}
    (hroom : room ≤ maxFileSize)
    (hfits : noffHeaderSize + copiedSize (coffSections coff) ≤ room) (stack : NoffHeader) :
    ∃ noff : Executable, convert room stack coff = some noff.bytes ∧ Preserves coff noff := by
  have hstart := Running.start coff (filehdrSize + aouthdrSize + numSections coff * scnhdrSize)
    stack
  have hempty : ∀ name, ((initialHeader stack).segment name).size = 0 := by
    intro name
    unfold NoffHeader.segment
    split
    next => rfl
    next =>
      split
      next => rfl
      next =>
        split
        next => rfl
        next => rfl
  obtain ⟨c, hloop, hrunning, hconverted⟩ := hstart.convertSections h.length hroom
    (fun s hs => size_ne_zero hs) h.known h.once (fun s _ => hempty s.name) h.inside hfits
  obtain ⟨fdOut, hwrite, hbytes⟩ :=
    hrunning.output.finish (length_header_toBytes c.noffH)
      (show noffHeaderSize ≤ room from (Nat.le_add_right _ _).trans hfits)
  rw [List.nil_append] at hbytes
  have hlength : noffHeaderSize ≤ fdOut.bytes.length := by
    rw [hbytes, List.length_append, length_header_toBytes]
    exact Nat.le_add_right _ _
  have hheader : (⟨fdOut.bytes, hlength⟩ : Executable).header = c.noffH := header_of_bytes hbytes
  refine ⟨⟨fdOut.bytes, hlength⟩, ?_, ?_⟩
  · rw [convert_eq h.readable]
    dsimp only
    rw [hloop]
    dsimp only [Option.bind_eq_bind, Option.bind_some]
    rw [hwrite]
    rfl
  · refine ⟨?_, ?_, ?_, ?_, ?_, ?_⟩
    · rw [hheader, hconverted.magic]
      rfl
    · rw [hheader]
      exact hconverted.placed
    · have hsize : ∀ s ∈ copiedSections (coffSections coff),
          (c.noffH.segment s.name).size = s.size :=
        fun s hs => (hconverted.placed s (List.mem_of_mem_filter hs)).2
      have hadjacent : Adjacent c.noffH.toBytes.length
          ((copiedSections (coffSections coff)).map fun s => c.noffH.segment s.name) :=
        hconverted.adjacent
      rw [hheader]
      intro s hs
      show hostRead fdOut.bytes _ _ = _
      rw [hbytes]
      exact hadjacent.hostRead hsize (fun s hs => length_hostRead_of_le (h.inside s hs)) s hs
    · rw [hheader]
      exact hconverted.adjacent
    · rw [hheader]
      exact hconverted.adjacent.pairwise
    · intro name hname hnot
      rw [hheader, hconverted.others name hname hnot]
      exact hempty name

/-- A file with the sections `.data`, `.bss` and `.text`, the bytes of `.text` in front. -/
theorem convert_preserves_three_sections :
    ∃ (coff : List (BitVec 8)) (noff : Executable),
      (coffSections coff).map Scnhdr.name = [dataName, bssName, textName] ∧
      convert maxFileSize ⟨0, ⟨7, 7, 7⟩, ⟨7, 7, 7⟩, ⟨7, 7, 7⟩, ⟨7, 7, 7⟩⟩ coff = some noff.bytes ∧
      Preserves coff noff := by
  have hwell : WellFormed ([0x62, 0x01, 3, 0] ++ List.replicate 16 0 ++
    [0x07, 0x01] ++ List.replicate 54 0 ++
    dataName ++ [0, 0, 0, 0, 1, 0, 0, 0, 0, 0, 0, 3, 0, 0, 0, 198, 0, 0, 0] ++
    List.replicate 16 0 ++
    bssName ++ [0, 0, 0, 0, 0, 2, 0, 0, 0, 0, 0, 0, 8, 0, 0, 0, 0, 0, 0, 0] ++
    List.replicate 16 0 ++
    textName ++ [0, 0, 0, 0, 0, 0, 0, 0, 0, 0, 0, 2, 0, 0, 0, 196, 0, 0, 0] ++
    List.replicate 16 0 ++ [1, 2, 3, 4, 5]) := by
    constructor <;> decide +kernel
  obtain ⟨noff, hconvert, hpreserves⟩ := convert_preserves hwell (le_refl maxFileSize)
    (by decide +kernel) ⟨0, ⟨7, 7, 7⟩, ⟨7, 7, 7⟩, ⟨7, 7, 7⟩, ⟨7, 7, 7⟩⟩
  exact ⟨_, noff, by decide +kernel, hconvert, hpreserves⟩

end Nachos
