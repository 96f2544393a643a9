import Nachos.Filesys.DiskFile
import Nachos.Filesys.Requests

/-!
# A file on the disk is an array of bytes (`filesys/openfile.cc`)

`ReadAt` and `WriteAt` with the `int`s that they take. What they work out may be negative; then
`new`, a table or a buffer is used in front of its start, which is `none` here.

* `DiskFile.readAtInt`, `DiskFile.writeAtInt` — the two functions
* `readAtInt_eq`, `writeAtInt_eq` — requests whose end is an `int`
* `FileArray` — an array of bytes that is read and written
* `diskFile_refines` — the file is such an array
-/

namespace Nachos

open Base

namespace DiskFile

/-- The index of something that does not lie in front of its array. -/
def index (i : BitVec 32) : Option Nat := if 0 ≤ i.toInt then some i.toNat else none

/-- `SectorSize`, as an `int`. -/
def sectorSizeInt : BitVec 32 := BitVec.ofNat 32 sectorSize

/-- `FileHeader::ByteToSector`. -/
def byteToSectorInt (h : FileHeader) (offset : BitVec 32) : Option (BitVec 32) :=
  (index (divRoundDown offset)).bind fun i => if i < numDirect then some (h.dataSector i) else none

/-- The loop of `ReadAt`, over `n` sectors. -/
def readSectorsInt (f : DiskFile) (disk : DiskImage) (buf : Buffer) (firstSector : BitVec 32) :
    Nat → Option Buffer
  | 0 => some buf
  | n + 1 => do
    let buf ← readSectorsInt f disk buf firstSector n
    let i := firstSector + BitVec.ofNat 32 n
    let sector ← byteToSectorInt f.hdr (i * sectorSizeInt)
    readSector disk sector buf (← index ((i - firstSector) * sectorSizeInt))

/-- The loop of `WriteAt`, over `n` sectors. -/
def writeSectorsInt (f : DiskFile) (disk : DiskImage) (buf : Buffer) (firstSector : BitVec 32) :
    Nat → Option DiskImage
  | 0 => some disk
  | n + 1 => do
    let disk ← writeSectorsInt f disk buf firstSector n
    let i := firstSector + BitVec.ofNat 32 n
    let sector ← byteToSectorInt f.hdr (i * sectorSizeInt)
    writeSector disk sector buf (← index ((i - firstSector) * sectorSizeInt))

/-- How often the loops are run through. -/
def turns (r : Request) : Nat := (r.lastSector.toInt + 1 - r.firstSector.toInt).toNat

/--
`OpenFile::ReadAt`, to index `i` of the buffer `into`.

`fresh` is the memory that `new` finds for `buf`.
-/
def readAtInt (f : DiskFile) (fresh : Buffer) (disk : DiskImage) (into : Buffer) (i : Nat)
    (numBytes position : BitVec 32) : Option (Buffer × BitVec 32) :=
  match request f.hdr.fileLength numBytes position with
  | none => some (into, 0)
  | some r => do
    let _ ← index (r.numSectors * sectorSizeInt)
    let buf ← f.readSectorsInt disk fresh r.firstSector (turns r)
    let offset ← index (position - r.firstSector * sectorSizeInt)
    return (bcopy buf offset into i (← index r.numBytes), r.numBytes)

/-- `WriteAt` reads the first sector, if it is to be partially modified. -/
def readFirstInt (f : DiskFile) (fresh : Nat → Buffer) (disk : DiskImage) (position : BitVec 32)
    (r : Request) : Option Buffer :=
  let firstAligned := position = r.firstSector * sectorSizeInt
  if firstAligned then some (fresh 0)
  else
    (f.readAtInt (fresh 1) disk (fresh 0) 0 sectorSizeInt (r.firstSector * sectorSizeInt)).map
      Prod.fst

/-- And the last one, if that is another or was not read. -/
def readLastInt (f : DiskFile) (fresh : Nat → Buffer) (disk : DiskImage) (buf : Buffer)
    (position : BitVec 32) (r : Request) : Option Buffer :=
  let firstAligned := position = r.firstSector * sectorSizeInt
  let lastAligned := position + r.numBytes = (r.lastSector + 1#32) * sectorSizeInt
  if ¬ lastAligned ∧ (r.firstSector ≠ r.lastSector ∨ firstAligned) then do
    let i ← index ((r.lastSector - r.firstSector) * sectorSizeInt)
    (f.readAtInt (fresh 2) disk buf i sectorSizeInt (r.lastSector * sectorSizeInt)).map Prod.fst
  else some buf

/--
`OpenFile::WriteAt`, from the start of the buffer `data`.

`fresh` is the memory that it and the two calls of `ReadAt` get from `new`.
-/
def writeAtInt (f : DiskFile) (fresh : Nat → Buffer) (disk : DiskImage) (data : Buffer)
    (numBytes position : BitVec 32) : Option (DiskImage × BitVec 32) :=
  match request f.hdr.fileLength numBytes position with
  | none => some (disk, 0)
  | some r => do
    let _ ← index (r.numSectors * sectorSizeInt)
    let buf ← f.readFirstInt fresh disk position r
    let buf ← f.readLastInt fresh disk buf position r
    let offset ← index (position - r.firstSector * sectorSizeInt)
    let buf := bcopy data 0 buf offset (← index r.numBytes)
    let disk ← f.writeSectorsInt disk buf r.firstSector (turns r)
    return (disk, r.numBytes)

/-! ## Small numbers -/

theorem toInt_ofNat_of_lt {n : Nat} (h : n < 2 ^ 31) : (BitVec.ofNat 32 n).toInt = n := by
  rw [BitVec.toInt_ofNat']
  exact Int.bmod_eq_of_le (by omega) (by omega)

theorem index_ofNat {n : Nat} (h : n < 2 ^ 31) : index (BitVec.ofNat 32 n) = some n := by
  have hnat : (BitVec.ofNat 32 n).toNat = n := by
    rw [BitVec.toNat_ofNat]
    exact Nat.mod_eq_of_lt (by omega)
  rw [index, toInt_ofNat_of_lt h, if_pos (Int.natCast_nonneg n), hnat]

theorem ofNat_mul_sectorSizeInt (n : Nat) :
    BitVec.ofNat 32 n * sectorSizeInt = BitVec.ofNat 32 (n * sectorSize) :=
  (BitVec.ofNat_mul n sectorSize).symm

theorem divRoundDown_ofNat {n : Nat} (h : n < 2 ^ 31) :
    divRoundDown (BitVec.ofNat 32 n) = BitVec.ofNat 32 (n / sectorSize) := by
  unfold divRoundDown
  rw [toInt_ofNat_of_lt h, ← Int.ofNat_tdiv, BitVec.ofInt_natCast]

theorem ofNat_inj_of_lt {m n : Nat} (hm : m < 2 ^ 31) (hn : n < 2 ^ 31) :
    BitVec.ofNat 32 m = BitVec.ofNat 32 n ↔ m = n := by
  refine ⟨fun heq => ?_, congrArg _⟩
  have hint := congrArg BitVec.toInt heq
  rw [toInt_ofNat_of_lt hm, toInt_ofNat_of_lt hn] at hint
  exact_mod_cast hint

/-! ## Requests whose end is an `int` -/

section

variable {f : DiskFile} {n p : Nat}

/-- A request that starts in the file, and that ends at an `int`. -/
theorem request_ofNat (hn : 0 < n) (hp : p < f.hdr.fileLength.toInt) (hend : p + n < 2 ^ 31) :
    request f.hdr.fileLength (BitVec.ofNat 32 n) (BitVec.ofNat 32 p) =
      some ⟨BitVec.ofNat 32 (f.clipped n p), BitVec.ofNat 32 (p / sectorSize),
        BitVec.ofNat 32 ((p + f.clipped n p - 1) / sectorSize),
        BitVec.ofNat 32 (1 + (p + f.clipped n p - 1) / sectorSize - p / sectorSize)⟩ := by
  have hlt := BitVec.toInt_lt (x := f.hdr.fileLength)
  have hnat : f.hdr.fileLength.toInt = f.hdr.fileLength.toNat :=
    FileHeader.toInt_of_nonneg (by omega)
  have hn' := toInt_ofNat_of_lt (n := n) (by omega)
  have hp' := toInt_ofNat_of_lt (n := p) (by omega)
  have hsum : (BitVec.ofNat 32 p + BitVec.ofNat 32 n).toInt = (p + n : Nat) := by
    rw [← BitVec.ofNat_add, toInt_ofNat_of_lt hend]
  have hbytes : (if f.hdr.fileLength.toInt < (p + n : Nat) then
      f.hdr.fileLength - BitVec.ofNat 32 p else BitVec.ofNat 32 n) =
        BitVec.ofNat 32 (f.clipped n p) := by
    unfold clipped
    by_cases hover : f.hdr.fileLength.toInt < (p + n : Nat)
    · have hlength : f.hdr.fileLength = BitVec.ofNat 32 f.hdr.fileLength.toNat :=
        ((BitVec.ofNat_toNat 32 _).trans (BitVec.setWidth_eq _)).symm
      rw [if_pos hover, if_pos (by omega), hlength,
        BitVec.ofNat_sub_ofNat_of_le _ _ (by omega) (by omega), ← hlength]
      congr 1
      omega
    · rw [if_neg hover, if_neg (by omega)]
  have hpos := clipped_pos hn hp
  have hle : (p + f.clipped n p : Nat) ≤ f.hdr.fileLength.toInt := add_clipped_le hp
  unfold request
  rw [hn', hp', if_neg (by omega), hsum]
  dsimp only
  rw [hbytes]
  generalize f.clipped n p = m at hpos hle ⊢
  have hstop : BitVec.ofNat 32 p + BitVec.ofNat 32 m - 1#32 = BitVec.ofNat 32 (p + m - 1) := by
    rw [← BitVec.ofNat_add]
    exact BitVec.ofNat_sub_ofNat_of_le _ _ (by decide) (by omega)
  have hfirst : p / sectorSize ≤ (p + m - 1) / sectorSize := Nat.div_le_div_right (by omega)
  have hself := Nat.div_le_self p sectorSize
  rw [hstop, divRoundDown_ofNat (by omega), divRoundDown_ofNat (by omega)]
  congr 2
  rw [← BitVec.ofNat_sub_ofNat_of_le _ _ (by omega) (by omega), BitVec.ofNat_add]

/-- The table and the buffer of the loops, as far as the table goes. -/
theorem byteToSectorInt_ofNat {h : FileHeader} {i : Nat} (hi : i < numDirect) :
    byteToSectorInt h (BitVec.ofNat 32 i * sectorSizeInt) =
      some (h.byteToSector (i * sectorSize)) := by
  have hlt : i * sectorSize < 2 ^ 31 := by
    unfold numDirect at hi
    unfold sectorSize
    omega
  have hdiv : i * sectorSize / sectorSize = i := Nat.mul_div_cancel _ (by decide)
  rw [byteToSectorInt, ofNat_mul_sectorSizeInt, divRoundDown_ofNat hlt, hdiv,
    index_ofNat (by unfold numDirect at hi; omega), Option.bind_some, if_pos hi, byteToSector_mul]

theorem index_turn {first n : Nat} (h : first + n < numDirect) :
    index ((BitVec.ofNat 32 first + BitVec.ofNat 32 n - BitVec.ofNat 32 first) * sectorSizeInt) =
      some (n * sectorSize) := by
  unfold numDirect at h
  rw [BitVec.add_comm, BitVec.add_sub_cancel, ofNat_mul_sectorSizeInt]
  refine index_ofNat ?_
  unfold sectorSize
  omega

theorem readSectorsInt_eq (disk : DiskImage) (buf : Buffer) {first : Nat}
    (h : first + n ≤ numDirect) :
    f.readSectorsInt disk buf (BitVec.ofNat 32 first) n = f.readSectors disk buf first n := by
  induction n with
  | zero => rfl
  | succ n ih =>
    rw [readSectorsInt, readSectors, ih (by omega)]
    dsimp only
    rw [index_turn (by omega), ← BitVec.ofNat_add, byteToSectorInt_ofNat (by omega)]
    rfl

theorem writeSectorsInt_eq (disk : DiskImage) (buf : Buffer) {first : Nat}
    (h : first + n ≤ numDirect) :
    f.writeSectorsInt disk buf (BitVec.ofNat 32 first) n = f.writeSectors disk buf first n := by
  induction n with
  | zero => rfl
  | succ n ih =>
    rw [writeSectorsInt, writeSectors, ih (by omega)]
    dsimp only
    rw [index_turn (by omega), ← BitVec.ofNat_add, byteToSectorInt_ofNat (by omega)]
    rfl

/-- The last sector of a request is in the table. -/
theorem last_lt_numDirect (hwf : f.hdr.WellFormed) (hn : 0 < n)
    (hp : p < f.hdr.fileLength.toInt) :
    (p + f.clipped n p - 1) / sectorSize < numDirect := by
  have hpos := clipped_pos hn hp
  have hle : (p + f.clipped n p : Nat) ≤ f.hdr.fileLength.toInt := add_clipped_le hp
  have hlt := hwf.index_lt (k := p + f.clipped n p - 1) (by omega)
  have hdirect := hwf.direct
  omega

theorem fileLength_le (hwf : f.hdr.WellFormed) : f.hdr.fileLength.toInt ≤ 3840 := by
  have hlength := hwf.length
  have hdirect := hwf.direct
  unfold numDirect sectorSize at *
  omega

section

variable {first last : Nat}

theorem turns_eq {m k : BitVec 32} (hle : first ≤ last) (hlast : last < numDirect) :
    turns ⟨m, BitVec.ofNat 32 first, BitVec.ofNat 32 last, k⟩ = 1 + last - first := by
  unfold numDirect at hlast
  unfold turns
  dsimp only
  rw [toInt_ofNat_of_lt (by omega), toInt_ofNat_of_lt (by omega)]
  omega

theorem index_size (hlast : last < numDirect) :
    index (BitVec.ofNat 32 (1 + last - first) * sectorSizeInt) =
      some ((1 + last - first) * sectorSize) := by
  unfold numDirect at hlast
  rw [ofNat_mul_sectorSizeInt]
  refine index_ofNat ?_
  unfold sectorSize
  omega

theorem index_offset (hle : first * sectorSize ≤ p) (hp : p < 2 ^ 31) :
    index (BitVec.ofNat 32 p - BitVec.ofNat 32 first * sectorSizeInt) =
      some (p - first * sectorSize) := by
  rw [ofNat_mul_sectorSizeInt, BitVec.ofNat_sub_ofNat_of_le _ _ (by omega) hle]
  exact index_ofNat (by omega)

end

/-- `ReadAt` on a request that starts in the file. -/
theorem readAtInt_eq (hwf : f.hdr.WellFormed) (fresh : Buffer) (disk : DiskImage) (into : Buffer)
    (i : Nat) (hn : 0 < n) (hp : p < f.hdr.fileLength.toInt) (hend : p + n < 2 ^ 31) :
    f.readAtInt fresh disk into i (BitVec.ofNat 32 n) (BitVec.ofNat 32 p) =
      (f.readAt fresh disk into i n p).map fun r => (r.1, BitVec.ofNat 32 r.2) := by
  have hlast := last_lt_numDirect hwf hn hp
  have hlength := fileLength_le hwf
  have hpos := clipped_pos hn hp
  have hle : (p + f.clipped n p : Nat) ≤ f.hdr.fileLength.toInt := add_clipped_le hp
  unfold readAtInt readAt
  rw [request_ofNat hn hp hend, if_neg (by omega)]
  dsimp only
  generalize f.clipped n p = m at hpos hle hlast ⊢
  have hfirst : p / sectorSize ≤ (p + m - 1) / sectorSize := Nat.div_le_div_right (by omega)
  have hmul := Nat.div_mul_le_self p sectorSize
  rw [turns_eq hfirst hlast, index_size hlast, index_offset hmul (by omega),
    index_ofNat (by omega), readSectorsInt_eq disk fresh (by omega)]
  dsimp only [Option.bind_eq_bind, Option.bind_some]
  cases f.readSectors disk fresh (p / sectorSize)
      (1 + (p + m - 1) / sectorSize - p / sectorSize) with
  | none => rfl
  | some buf => rfl

/-- `WriteAt` reads a sector of the file. -/
theorem readSectorInt_eq (hwf : f.hdr.WellFormed) (fresh : Buffer) (disk : DiskImage)
    (into : Buffer) (i : Nat) {s : Nat} (hs : (s * sectorSize : Nat) < f.hdr.fileLength.toInt) :
    (f.readAtInt fresh disk into i sectorSizeInt (BitVec.ofNat 32 (s * sectorSize))).map Prod.fst =
      (f.readAt fresh disk into i sectorSize (s * sectorSize)).map Prod.fst := by
  have hlength := fileLength_le hwf
  have hend : s * sectorSize + sectorSize < 2 ^ 31 := by
    unfold sectorSize at hs ⊢
    omega
  rw [sectorSizeInt, readAtInt_eq hwf fresh disk into i (by decide) hs hend, Option.map_map]
  rfl

theorem readFirstInt_eq (hwf : f.hdr.WellFormed) (fresh : Nat → Buffer) (disk : DiskImage)
    {first : Nat} {r : Request} (hp : p < 2 ^ 31)
    (hs : (first * sectorSize : Nat) < f.hdr.fileLength.toInt)
    (hr : r.firstSector = BitVec.ofNat 32 first) :
    f.readFirstInt fresh disk (BitVec.ofNat 32 p) r = f.readFirst fresh disk p first := by
  have hlength := fileLength_le hwf
  have haligned := ofNat_inj_of_lt (m := p) (n := first * sectorSize) hp (by omega)
  unfold readFirstInt readFirst
  rw [hr, ofNat_mul_sectorSizeInt]
  exact if_congr haligned rfl (readSectorInt_eq hwf _ _ _ _ hs)

theorem readLastInt_eq (hwf : f.hdr.WellFormed) (fresh : Nat → Buffer) (disk : DiskImage)
    (buf : Buffer) {first last m : Nat} {r : Request} (hp : p + m < 2 ^ 31)
    (hle : first ≤ last) (hlast : last < numDirect)
    (hs : (last * sectorSize : Nat) < f.hdr.fileLength.toInt)
    (hm : r.numBytes = BitVec.ofNat 32 m) (hrf : r.firstSector = BitVec.ofNat 32 first)
    (hrl : r.lastSector = BitVec.ofNat 32 last) :
    f.readLastInt fresh disk buf (BitVec.ofNat 32 p) r =
      f.readLast fresh disk buf p m first last := by
  unfold numDirect at hlast
  have hbound : (last + 1) * sectorSize < 2 ^ 31 := by
    unfold sectorSize
    omega
  have hmul := Nat.mul_le_mul_right sectorSize hle
  have hplus : BitVec.ofNat 32 last + 1#32 = BitVec.ofNat 32 (last + 1) :=
    (BitVec.ofNat_add last 1).symm
  have hindex : index ((BitVec.ofNat 32 last - BitVec.ofNat 32 first) * sectorSizeInt) =
      some ((last - first) * sectorSize) := by
    rw [BitVec.ofNat_sub_ofNat_of_le _ _ (by omega) hle, ofNat_mul_sectorSizeInt, Nat.sub_mul]
    rw [Nat.succ_mul] at hbound
    exact index_ofNat (by omega)
  have hcond : (¬ BitVec.ofNat 32 (p + m) = BitVec.ofNat 32 ((last + 1) * sectorSize) ∧
      (BitVec.ofNat 32 first ≠ BitVec.ofNat 32 last ∨
        BitVec.ofNat 32 p = BitVec.ofNat 32 (first * sectorSize))) ↔
      ¬ p + m = (last + 1) * sectorSize ∧ (first ≠ last ∨ p = first * sectorSize) := by
    rw [Nat.succ_mul] at hbound ⊢
    rw [ofNat_inj_of_lt hp (by omega), ofNat_inj_of_lt (by omega) (by omega), ne_eq,
      ofNat_inj_of_lt (by omega) (by omega)]
  unfold readLastInt readLast
  rw [hm, hrf, hrl, hplus, ofNat_mul_sectorSizeInt, ofNat_mul_sectorSizeInt,
    ofNat_mul_sectorSizeInt, ← BitVec.ofNat_add]
  refine if_congr hcond ?_ rfl
  rw [hindex]
  exact readSectorInt_eq hwf _ _ _ _ hs

/-- `WriteAt` on a request that starts in the file. -/
theorem writeAtInt_eq (hwf : f.hdr.WellFormed) (fresh : Nat → Buffer) (disk : DiskImage)
    (data : Buffer) (hn : 0 < n) (hp : p < f.hdr.fileLength.toInt) (hend : p + n < 2 ^ 31) :
    f.writeAtInt fresh disk data (BitVec.ofNat 32 n) (BitVec.ofNat 32 p) =
      (f.writeAt fresh disk data n p).map fun r => (r.1, BitVec.ofNat 32 r.2) := by
  have hlast := last_lt_numDirect hwf hn hp
  have hlength := fileLength_le hwf
  have hpos := clipped_pos hn hp
  have hle : (p + f.clipped n p : Nat) ≤ f.hdr.fileLength.toInt := add_clipped_le hp
  unfold writeAtInt writeAt
  rw [request_ofNat hn hp hend, if_neg (by omega)]
  dsimp only
  generalize f.clipped n p = m at hpos hle hlast ⊢
  have hfirst : p / sectorSize ≤ (p + m - 1) / sectorSize := Nat.div_le_div_right (by omega)
  have hmul := Nat.div_mul_le_self p sectorSize
  have hmul' := Nat.div_mul_le_self (p + m - 1) sectorSize
  generalize p / sectorSize = first at hfirst hmul ⊢
  generalize (p + m - 1) / sectorSize = last at hfirst hlast hmul' ⊢
  have hlt : (last * sectorSize : Nat) < f.hdr.fileLength.toInt := by omega
  rw [index_size hlast, readFirstInt_eq hwf fresh disk (by omega) (by omega) rfl,
    index_offset hmul (by omega), index_ofNat (by omega), turns_eq hfirst hlast]
  dsimp only [Option.bind_eq_bind, Option.bind_some]
  cases f.readFirst fresh disk p first with
  | none => rfl
  | some buf =>
    dsimp only [Option.bind_some]
    rw [readLastInt_eq hwf fresh disk buf (by omega) hfirst hlast hlt rfl rfl rfl]
    cases f.readLast fresh disk buf p m first last with
    | none => rfl
    | some buf =>
      dsimp only [Option.bind_some]
      rw [writeSectorsInt_eq disk _ (by omega)]
      cases f.writeSectors disk (bcopy data 0 buf (p - first * sectorSize) m) first
          (1 + last - first) with
      | none => rfl
      | some disk' => rfl

end

end DiskFile

/-! ## Arrays of bytes -/

/-- An array of bytes. -/
abbrev FileArray := List (BitVec 8)

/-- `ReadAt` and `WriteAt` with their arguments, and with the memory that they get from `new`. -/
inductive Transfer where
  | readAt (fresh into : Buffer) (i : Nat) (numBytes position : BitVec 32)
  | writeAt (fresh : Nat → Buffer) (data : Buffer) (numBytes position : BitVec 32)

/-- What they answer, and the buffer that is read to. -/
inductive TransferReply where
  | read (into : Buffer) (result : BitVec 32)
  | written (result : BitVec 32)

/-- The position is not negative, and the request ends at an `int`. -/
def Transfer.InRange : Transfer → Prop
  | readAt _ _ _ numBytes position | writeAt _ _ numBytes position =>
    0 ≤ position.toInt ∧ position.toInt + numBytes.toInt < 2 ^ 31

namespace FileArray

/-- How many of `numBytes` bytes there are, starting with number `position`. -/
def count (a : FileArray) (numBytes position : Int) : Nat :=
  (min numBytes (a.length - position)).toNat

/-- The bytes of the array in a buffer. -/
def readAt (a : FileArray) (into : Buffer) (i : Nat) (numBytes position : Int) : Buffer :=
  bcopy (fun k => a.getD k 0) position.toNat into i (a.count numBytes position)

/-- The array with some of its bytes replaced. -/
def writeAt (a : FileArray) (data : Buffer) (numBytes position : Int) : FileArray :=
  a.mapIdx fun k byte =>
    if position ≤ k ∧ k < position + a.count numBytes position then data (k - position.toNat)
    else byte

def step (a : FileArray) : Transfer → FileArray × TransferReply
  | .readAt _ into i numBytes position =>
    (a, .read (a.readAt into i numBytes.toInt position.toInt)
      (BitVec.ofNat 32 (a.count numBytes.toInt position.toInt)))
  | .writeAt _ data numBytes position =>
    (a.writeAt data numBytes.toInt position.toInt,
      .written (BitVec.ofNat 32 (a.count numBytes.toInt position.toInt)))

theorem length_writeAt (a : FileArray) (data : Buffer) (numBytes position : Int) :
    (a.writeAt data numBytes position).length = a.length := List.length_mapIdx

theorem getElem_writeAt {a : FileArray} {data : Buffer} {numBytes position : Int} {k : Nat}
    (hk : k < a.length) (hk' : k < (a.writeAt data numBytes position).length) :
    (a.writeAt data numBytes position)[k] =
      if position ≤ k ∧ k < position + a.count numBytes position then data (k - position.toNat)
      else a[k] :=
  List.getElem_mapIdx ..

theorem readAt_of_count_eq_zero {a : FileArray} {into : Buffer} {i : Nat}
    {numBytes position : Int} (h : a.count numBytes position = 0) :
    a.readAt into i numBytes position = into := by
  funext k
  rw [readAt, h, bcopy, if_neg (by omega)]

theorem writeAt_of_count_eq_zero {a : FileArray} {data : Buffer} {numBytes position : Int}
    (h : a.count numBytes position = 0) : a.writeAt data numBytes position = a := by
  refine List.ext_getElem (a.length_writeAt ..) fun k hk hk' => ?_
  rw [getElem_writeAt hk', h, if_neg (by omega)]

end FileArray

/-! ## The file -/

namespace DiskFile

/-- The bytes of the file. -/
def contents (f : DiskFile) (disk : DiskImage) : FileArray :=
  (List.range f.hdr.fileLength.toInt.toNat).map (fileByte f.hdr disk)

def step (f : DiskFile) (disk : DiskImage) : Transfer → Option (DiskImage × TransferReply)
  | .readAt fresh into i numBytes position =>
    (f.readAtInt fresh disk into i numBytes position).map fun r => (disk, .read r.1 r.2)
  | .writeAt fresh data numBytes position =>
    (f.writeAtInt fresh disk data numBytes position).map fun r => (r.1, .written r.2)

section

variable {f : DiskFile} {disk disk' : DiskImage} {numBytes position : BitVec 32}

theorem length_contents : (f.contents disk).length = f.hdr.fileLength.toInt.toNat := by
  rw [contents, List.length_map, List.length_range]

theorem getElem_contents {k : Nat} (hk : k < (f.contents disk).length) :
    (f.contents disk)[k] = fileByte f.hdr disk k :=
  (List.getElem_map ..).trans (congrArg (fileByte f.hdr disk) (List.getElem_range ..))

theorem getD_contents {k : Nat} (hk : k < (f.contents disk).length) :
    (f.contents disk).getD k 0 = fileByte f.hdr disk k := by
  rw [List.getD_eq_getElem _ _ hk, getElem_contents]

/-- A file that none of the changed sectors belongs to. -/
theorem contents_congr (hwf : f.hdr.WellFormed) (h : ∀ s ∈ f.hdr.sectors, disk' s = disk s) :
    f.contents disk' = f.contents disk := by
  refine List.map_congr_left fun k hk => fileByte_congr hwf h ?_
  have := List.mem_range.mp hk
  omega

/-- An `int` that is not negative. -/
theorem ofNat_toInt {x : BitVec 32} (h : 0 ≤ x.toInt) : BitVec.ofNat 32 x.toInt.toNat = x := by
  rw [FileHeader.toInt_of_nonneg h, Int.toNat_natCast, BitVec.ofNat_toNat, BitVec.setWidth_eq]

/-- A request on which the two functions return 0. -/
theorem count_contents_of_none (hr : request f.hdr.fileLength numBytes position = none)
    (hp : 0 ≤ position.toInt) :
    (f.contents disk).count numBytes.toInt position.toInt = 0 := by
  unfold request at hr
  split at hr
  next hzero =>
    unfold FileArray.count
    rw [length_contents]
    omega
  next => cases hr

/-- A request of some bytes in the file, in natural numbers. -/
theorem request_cases (hp : 0 ≤ position.toInt) (hend : position.toInt + numBytes.toInt < 2 ^ 31) :
    request f.hdr.fileLength numBytes position = none ∨
      ∃ n p : Nat, 0 < n ∧ (p : Int) < f.hdr.fileLength.toInt ∧ p + n < 2 ^ 31 ∧
        numBytes = BitVec.ofNat 32 n ∧ position = BitVec.ofNat 32 p ∧ numBytes.toInt = n ∧
        position.toInt = p ∧ ∀ disk,
          (f.contents disk).count numBytes.toInt position.toInt = f.clipped n p := by
  by_cases hzero : numBytes.toInt ≤ 0 ∨ f.hdr.fileLength.toInt ≤ position.toInt
  · exact .inl (if_pos hzero)
  · have hnum := ofNat_toInt (x := numBytes) (by omega)
    have hpos := ofNat_toInt hp
    refine .inr ⟨numBytes.toInt.toNat, position.toInt.toNat, by omega, by omega, by omega,
      hnum.symm, hpos.symm, by omega, by omega, fun disk => ?_⟩
    unfold FileArray.count clipped
    rw [length_contents]
    split <;> omega

/-- `ReadAt` reads the bytes of the array. -/
theorem readAtInt_refines (hwf : f.hdr.WellFormed)
    (hdisk : ∀ s ∈ f.hdr.sectors, s < numDiskSectors) (fresh into : Buffer) (i : Nat)
    (hp : 0 ≤ position.toInt) (hend : position.toInt + numBytes.toInt < 2 ^ 31) :
    f.readAtInt fresh disk into i numBytes position =
      some ((f.contents disk).readAt into i numBytes.toInt position.toInt,
        BitVec.ofNat 32 ((f.contents disk).count numBytes.toInt position.toInt)) := by
  rcases request_cases (f := f) hp hend with
    hnone | ⟨n, p, hn, hlt, hint, rfl, rfl, hnum, hpos, hcount⟩
  · have hzero : (f.contents disk).count numBytes.toInt position.toInt = 0 :=
      count_contents_of_none hnone hp
    rw [readAtInt, hnone, FileArray.readAt_of_count_eq_zero hzero, hzero]
    rfl
  · obtain ⟨into', hread, hbytes, hrest⟩ := readAt_eq disk hwf hdisk fresh into i n p hn hlt
    rw [readAtInt_eq hwf fresh disk into i hn hlt hint, hread, Option.map_some,
      FileArray.readAt, hcount, hpos, Int.toNat_natCast]
    refine congrArg (fun b => some (b, BitVec.ofNat 32 (f.clipped n p))) (funext fun k => ?_)
    have hle : (p + f.clipped n p : Nat) ≤ f.hdr.fileLength.toInt := add_clipped_le hlt
    dsimp only
    unfold bcopy
    split
    next hin =>
      obtain ⟨l, rfl⟩ := Nat.exists_eq_add_of_le hin.1
      have hk : p + l < (f.contents disk).length := by
        rw [length_contents]
        omega
      rw [hbytes l (by omega), Nat.add_sub_cancel_left]
      exact (getD_contents hk).symm
    next hout => exact hrest k (by omega)

/-- `WriteAt` replaces the bytes of the array, and nothing else on the disk. -/
theorem writeAtInt_refines (disk : DiskImage) (hwf : f.hdr.WellFormed)
    (hdisk : ∀ s ∈ f.hdr.sectors, s < numDiskSectors) (hnodup : f.hdr.sectors.Nodup)
    (fresh : Nat → Buffer) (data : Buffer) (hp : 0 ≤ position.toInt)
    (hend : position.toInt + numBytes.toInt < 2 ^ 31) :
    ∃ disk', f.writeAtInt fresh disk data numBytes position =
        some (disk', BitVec.ofNat 32 ((f.contents disk).count numBytes.toInt position.toInt)) ∧
      f.contents disk' = (f.contents disk).writeAt data numBytes.toInt position.toInt ∧
      ∀ s ∉ f.hdr.sectors, disk' s = disk s := by
  rcases request_cases (f := f) hp hend with
    hnone | ⟨n, p, hn, hlt, hint, rfl, rfl, hnum, hpos, hcount⟩
  · have hzero : (f.contents disk).count numBytes.toInt position.toInt = 0 :=
      count_contents_of_none hnone hp
    refine ⟨disk, ?_, (FileArray.writeAt_of_count_eq_zero hzero).symm, fun _ _ => rfl⟩
    rw [writeAtInt, hnone, hzero]
    rfl
  · obtain ⟨disk', hwrite, hbytes, hrest⟩ :=
      writeAt_eq disk hwf hdisk hnodup fresh data n p hn hlt
    refine ⟨disk', ?_, ?_, hrest⟩
    · rw [writeAtInt_eq hwf fresh disk data hn hlt hint, hwrite, hcount]
      rfl
    · refine List.ext_getElem ?_ fun k hk hk' => ?_
      · rw [FileArray.length_writeAt, length_contents, length_contents]
      · have hlen : (k : Int) < f.hdr.fileLength.toInt := by
          rw [length_contents] at hk
          exact Int.lt_toNat.mp hk
        have hin : ((p : Int) ≤ k ∧ (k : Int) < p + f.clipped n p) ↔
            p ≤ k ∧ k < p + f.clipped n p := by
          norm_cast
        have hold : k < (f.contents disk).length := by
          rwa [FileArray.length_writeAt] at hk'
        rw [FileArray.getElem_writeAt hold, hcount, hpos, Int.toNat_natCast, getElem_contents hk,
          getElem_contents hold, hbytes k hlen]
        exact (if_congr hin rfl rfl).symm

/-- One request, and the sectors that are not the file's. -/
theorem step_refines (disk : DiskImage) (hwf : f.hdr.WellFormed)
    (hdisk : ∀ s ∈ f.hdr.sectors, s < numDiskSectors) (hnodup : f.hdr.sectors.Nodup)
    {t : Transfer} (ht : t.InRange) :
    ∃ disk', f.step disk t = some (disk', (FileArray.step (f.contents disk) t).2) ∧
      f.contents disk' = (FileArray.step (f.contents disk) t).1 ∧
      ∀ s ∉ f.hdr.sectors, disk' s = disk s := by
  cases t with
  | readAt fresh into i numBytes position =>
    refine ⟨disk, ?_, rfl, fun _ _ => rfl⟩
    rw [step, readAtInt_refines hwf hdisk fresh into i ht.1 ht.2]
    rfl
  | writeAt fresh data numBytes position =>
    obtain ⟨disk', hwrite, hcontents, hrest⟩ :=
      writeAtInt_refines disk hwf hdisk hnodup fresh data ht.1 ht.2
    refine ⟨disk', ?_, hcontents, hrest⟩
    rw [step, hwrite]
    rfl

/-- A header is read from its sector alone. -/
theorem fetchFrom_congr {sector : BitVec 32} (h : disk' sector.toNat = disk sector.toNat) :
    FileHeader.fetchFrom disk' sector = FileHeader.fetchFrom disk sector := by
  unfold FileHeader.fetchFrom readSector
  rw [h]

end

end DiskFile

/--
**A file on the disk is an array of bytes.**

The calls of `ReadAt` and of `WriteAt` on a file answer what the array of its bytes does, and they
leave the bytes of that array behind. All other sectors of the disk stay as they are, so the headers
in them do, with their lengths, and the bytes of the other files.
-/
theorem diskFile_refines {f : DiskFile} (hwf : f.hdr.WellFormed)
    (hdisk : ∀ s ∈ f.hdr.sectors, s < numDiskSectors) (hnodup : f.hdr.sectors.Nodup)
    (disk : DiskImage) {calls : List Transfer} (hcalls : ∀ t ∈ calls, t.InRange) :
    ∃ disk', runReplies f.step disk calls =
        some (disk', (runAnswers FileArray.step (f.contents disk) calls).2) ∧
      f.contents disk' = (runAnswers FileArray.step (f.contents disk) calls).1 ∧
      (∀ s ∉ f.hdr.sectors, disk' s = disk s) ∧
      (∀ sector, sector.toNat ∉ f.hdr.sectors →
        FileHeader.fetchFrom disk' sector = FileHeader.fetchFrom disk sector) ∧
      ∀ g : DiskFile, g.hdr.WellFormed → g.hdr.sectors.Disjoint f.hdr.sectors →
        g.contents disk' = g.contents disk := by
  have hgo : ∀ (d : DiskImage) (t : Transfer), (∀ s ∉ f.hdr.sectors, d s = disk s) → t.InRange →
      True → ∃ d', f.step d t = some (d', (FileArray.step (f.contents d) t).2) ∧
        (∀ s ∉ f.hdr.sectors, d' s = disk s) ∧
        f.contents d' = (FileArray.step (f.contents d) t).1 := by
    intro d t hd ht _
    obtain ⟨d', hstep, hcontents, hrest⟩ := DiskFile.step_refines d hwf hdisk hnodup ht
    exact ⟨d', hstep, fun s hs => (hrest s hs).trans (hd s hs), hcontents⟩
  have hrun := @runReplies_simulation _ _ _ _ f.step FileArray.step
    (fun d => ∀ s ∉ f.hdr.sectors, d s = disk s) f.contents (fun _ t => t.InRange)
    (fun _ _ => True) hgo (fun _ _ _ _ hfalse => absurd trivial hfalse) disk (fun _ _ => rfl) calls
    (allSteps_of_forall hcalls)
  obtain ⟨disk', hreplies, hrest, hcontents⟩ := hrun.1 (allSteps_of_forall fun _ _ => trivial)
  refine ⟨disk', hreplies, hcontents, hrest, fun sector hs => ?_, fun g hg hdisjoint => ?_⟩
  · exact DiskFile.fetchFrom_congr (hrest _ hs)
  · exact DiskFile.contents_congr hg fun s hs => hrest s (hdisjoint hs)

/-- A file of 200 bytes in the sectors 5 and 9. -/
def twoSectorFile : DiskFile where
  hdr :=
    let blank : FileHeader := fun _ => 0
    let hdr := FileHeader.setWord (FileHeader.setWord blank 0 200#32) 1 2#32
    FileHeader.setWord (FileHeader.setWord hdr 2 5#32) 3 9#32

/-- A write of 100 bytes at position 150, of which the file has 50. -/
theorem diskFile_refines_twoSectorFile : ∃ disk',
    runReplies twoSectorFile.step (fun _ _ => 0)
        [.writeAt (fun _ _ => 1) (fun _ => 7) 100#32 150#32] =
      some (disk', [.written 50#32]) ∧
    twoSectorFile.contents disk' =
      (twoSectorFile.contents fun _ _ => 0).writeAt (fun _ => 7) 100 150 ∧
    ∀ s ∉ twoSectorFile.hdr.sectors, disk' s = fun _ => 0 := by
  have hrange : Transfer.InRange (.writeAt (fun _ _ => 1) (fun _ => 7) 100#32 150#32) :=
    ⟨by decide, by decide⟩
  obtain ⟨disk', hrun, hcontents, hrest, -⟩ := diskFile_refines (f := twoSectorFile)
    ⟨by decide, by decide⟩ (by decide) (by decide) (fun _ _ => 0)
    (List.forall_mem_singleton.mpr hrange)
  have hcount : (twoSectorFile.contents fun _ _ => 0).count 100 150 = 50 := by
    rw [FileArray.count, DiskFile.length_contents]
    decide
  have hstep : FileArray.step (twoSectorFile.contents fun _ _ => 0)
      (.writeAt (fun _ _ => 1) (fun _ => 7) 100#32 150#32) =
      ((twoSectorFile.contents fun _ _ => 0).writeAt (fun _ => 7) 100 150, .written 50#32) := by
    have h100 : (100#32).toInt = 100 := rfl
    have h150 : (150#32).toInt = 150 := rfl
    rw [FileArray.step, h100, h150, hcount]
  simp only [runAnswers, hstep] at hrun hcontents
  exact ⟨disk', hrun, hcontents, hrest⟩

end Nachos
