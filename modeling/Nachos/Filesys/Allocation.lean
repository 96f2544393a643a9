import Nachos.Filesys.FileHeader

/-!
# The table of a file header (`filesys/filehdr.cc`, `filesys/filehdr.h`)

`dataSectors` has `NumDirect` elements. `Allocate` looks at the number of free sectors only, and the
size of a file comes from its callers as it is: here a write behind the end of the table is a fault
of its own.

* `FileHeader.allocateInTable` — `FileHeader::Allocate`
* `allocateInTable_agrees` — it is `FileHeader.allocate` as long as there is no fault
* `allocate_inside_iff` — the sizes for which it does what it should
-/

namespace Nachos

open Base

/-- What goes wrong in `Allocate`. -/
inductive AllocFault where
  | assertion
  /-- `dataSectors[i]` is written, and there is no such element. -/
  | overrun (i : Nat)
deriving DecidableEq

namespace FileHeader

/-- `dataSectors[i] = sector`. -/
def setDataSector (h : FileHeader) (i : Nat) (sector : BitVec 32) : Except AllocFault FileHeader :=
  if i < numDirect then .ok (setWord h (2 + i) sector) else .error (.overrun i)

/-- An assertion of the bitmap. -/
def ofBitmap {α : Type} : Option α → Except AllocFault α
  | some a => .ok a
  | none => .error .assertion

/-- The loop of `Allocate`, `n` times. -/
def allocateInTableLoop (freeMap : Bitmap) (h : FileHeader) :
    Nat → Except AllocFault (Bitmap × FileHeader)
  | 0 => .ok (freeMap, h)
  | n + 1 => do
    let (freeMap, h) ← allocateInTableLoop freeMap h n
    let (freeMap, sector) ← ofBitmap freeMap.findAndSet
    let h ← setDataSector h n (BitVec.ofInt 32 sector)
    if 0 ≤ (dataSector h n).toInt then .ok (freeMap, h) else .error .assertion

/-- `FileHeader::Allocate`. -/
def allocateInTable (h : FileHeader) (freeMap : Bitmap) (fileSize : BitVec 32) :
    Except AllocFault (Bitmap × FileHeader × Bool) := do
  let h := setWord h 0 fileSize
  let h := setWord h 1 (BitVec.ofInt 32 (divRoundUpInt fileSize.toInt sectorSize))
  if (← ofBitmap freeMap.numClear) < (numSectors h).toInt then return (freeMap, h, false)
  else
    let (freeMap, h) ← allocateInTableLoop freeMap h (numSectors h).toInt.toNat
    return (freeMap, h, true)

/-- The sectors in the table are all there, and they have been taken from the map. -/
structure Holds (freeMap : Bitmap) (fileSize : BitVec 32) (freeMap' : Bitmap) (h' : FileHeader) :
    Prop where
  nonneg : 0 ≤ (numSectors h').toInt
  direct : (numSectors h').toInt ≤ numDirect
  covers : fileSize.toInt ≤ (numSectors h').toInt * sectorSize
  nodup : (sectors h').Nodup
  wereClear : ∀ s ∈ sectors h', s < freeMap.numBits ∧ s ∉ freeMap.bits
  numBits : freeMap'.numBits = freeMap.numBits
  bits : freeMap'.bits = freeMap.bits ∪ (sectors h').toFinset

/-- What is expected of `Allocate`. -/
def StaysInside (freeMap : Bitmap) (fileSize : BitVec 32) :
    Except AllocFault (Bitmap × FileHeader × Bool) → Prop
  | .ok (freeMap', h', true) => Holds freeMap fileSize freeMap' h'
  | .ok (freeMap', _, false) => freeMap' = freeMap
  | .error _ => False

/-! ## The number of sectors -/

/-- `divRoundUp` rounds up, also below zero. -/
theorem divRoundUpInt_bounds (n : Int) {s : Int} (hs : 0 < s) :
    n ≤ divRoundUpInt n s * s ∧ divRoundUpInt n s * s < n + s := by
  have hsplit := Int.tdiv_mul_add_tmod n s
  have hlt := Int.tmod_lt_of_pos n hs
  have hgt := Int.lt_tmod_of_pos n hs
  unfold divRoundUpInt
  rw [Int.add_mul]
  split
  next hpos => omega
  next hpos => omega

theorem numSectors_sized_bounds (h : FileHeader) (fileSize : BitVec 32) :
    fileSize.toInt ≤ (numSectors (sized h fileSize)).toInt * sectorSize ∧
      (numSectors (sized h fileSize)).toInt * sectorSize < fileSize.toInt + sectorSize := by
  have hbounds := divRoundUpInt_bounds fileSize.toInt (s := sectorSize) (by decide)
  have hword : numSectors (sized h fileSize) =
      BitVec.ofInt 32 (divRoundUpInt fileSize.toInt sectorSize) := word_setWord (by decide)
  have hint : (numSectors (sized h fileSize)).toInt = divRoundUpInt fileSize.toInt sectorSize := by
    have hlo := BitVec.le_toInt fileSize
    have hhi := BitVec.toInt_lt (x := fileSize)
    rw [hword, BitVec.toInt_ofInt]
    generalize divRoundUpInt fileSize.toInt sectorSize = k at *
    unfold sectorSize at hbounds
    refine Int.bmod_eq_of_le ?_ ?_ <;> omega
  rw [hint]
  exact hbounds

/-! ## The loop -/

/-- As long as the loop is in the table, it is the loop of `allocate`. -/
theorem allocateInTableLoop_eq {freeMap : Bitmap} {h : FileHeader} {n : Nat}
    {r : Bitmap × FileHeader} (hdirect : n ≤ numDirect)
    (hloop : allocateLoop freeMap h n = some r) : allocateInTableLoop freeMap h n = .ok r := by
  induction n generalizing r with
  | zero =>
    obtain rfl := Option.some.inj hloop
    rfl
  | succ n ih =>
    rw [allocateLoop, Option.bind_eq_bind, Option.bind_eq_some_iff] at hloop
    obtain ⟨⟨fm, hdr⟩, hfirst, hrest⟩ := hloop
    dsimp only at hrest
    rw [Option.bind_eq_bind, Option.bind_eq_some_iff] at hrest
    obtain ⟨⟨fm', sector⟩, hfind, hlast⟩ := hrest
    have hset : setDataSector hdr n (BitVec.ofInt 32 sector) =
        .ok (setWord hdr (2 + n) (BitVec.ofInt 32 sector)) := if_pos hdirect
    rw [allocateInTableLoop, ih (Nat.le_of_succ_le hdirect) hfirst]
    simp only [Except.bind, bind, hfind, ofBitmap, hset]
    dsimp only at hlast
    split_ifs at hlast with hassert
    obtain rfl := Option.some.inj hlast
    exact if_pos hassert

/-- With enough free sectors, the loop runs out of the table at its end. -/
theorem allocateInTableLoop_overrun {freeMap : Bitmap} (h : FileHeader) {n : Nat}
    (hlt : numDirect < n) (hfree : n ≤ freeMap.free.length) :
    allocateInTableLoop freeMap h n = .error (.overrun numDirect) := by
  induction n, hlt using Nat.le_induction with
  | base =>
    obtain ⟨fm, hdr, hloop, -, hdrop, -⟩ :=
      allocateLoop_eq freeMap h (Nat.le_of_succ_le hfree) (le_refl numDirect)
    rw [List.drop_eq_getElem_cons hfree] at hdrop
    obtain ⟨fm', hfind, -⟩ := Bitmap.findAndSet_of_free_cons hdrop
    rw [allocateInTableLoop, allocateInTableLoop_eq (le_refl numDirect) hloop]
    simp only [Except.bind, bind, hfind, ofBitmap]
    rfl
  | succ n _ ih =>
    rw [allocateInTableLoop, ih (Nat.le_of_succ_le hfree)]
    rfl

/-! ## The whole of Allocate -/

theorem allocateInTable_eq (h : FileHeader) (freeMap : Bitmap) (fileSize : BitVec 32) :
    allocateInTable h freeMap fileSize =
      if (freeMap.free.length : Int) < (numSectors (sized h fileSize)).toInt then
        .ok (freeMap, sized h fileSize, false)
      else
        (allocateInTableLoop freeMap (sized h fileSize)
          (numSectors (sized h fileSize)).toInt.toNat).map fun r => (r.1, r.2, true) := by
  rw [allocateInTable, Bitmap.numClear_eq]
  rfl

/-- As long as there is no fault, it is `FileHeader::Allocate` of a table without an end. -/
theorem allocateInTable_agrees {h : FileHeader} {freeMap : Bitmap} {fileSize : BitVec 32}
    (hdirect : (numSectors (sized h fileSize)).toInt ≤ numDirect) :
    (allocateInTable h freeMap fileSize).toOption = allocate h freeMap fileSize := by
  rw [allocateInTable_eq]
  unfold allocate
  rw [Bitmap.numClear_eq]
  by_cases hfull : (freeMap.free.length : Int) < (numSectors (sized h fileSize)).toInt
  · rw [if_pos hfull]
    exact (if_pos hfull).symm
  · rw [if_neg hfull]
    have hfree : (numSectors (sized h fileSize)).toInt.toNat ≤ freeMap.free.length := by omega
    have htable : (numSectors (sized h fileSize)).toInt.toNat ≤ numDirect := by omega
    obtain ⟨fm, hdr, hloop, -⟩ := allocateLoop_eq freeMap (sized h fileSize) hfree htable
    rw [allocateInTableLoop_eq htable hloop]
    refine Eq.trans ?_ (if_neg hfull).symm
    exact (congrArg (fun r => Option.bind r fun p => some (p.1, p.2, true)) hloop).symm

/-- The header of a file for which there are sectors, and place in the table. -/
theorem allocateInTable_holds {h : FileHeader} {freeMap : Bitmap} {fileSize : BitVec 32}
    (hnonneg : 0 ≤ (numSectors (sized h fileSize)).toInt)
    (hdirect : (numSectors (sized h fileSize)).toInt ≤ numDirect)
    (hfree : (numSectors (sized h fileSize)).toInt ≤ freeMap.free.length) :
    ∃ freeMap' h', allocateInTable h freeMap fileSize = .ok (freeMap', h', true) ∧
      Holds freeMap fileSize freeMap' h' := by
  obtain ⟨n, hn⟩ := Int.eq_ofNat_of_zero_le hnonneg
  have hcovers := (numSectors_sized_bounds h fileSize).1
  rw [hn] at hdirect hfree hcovers
  have hdirect' : n ≤ numDirect := by exact_mod_cast hdirect
  have hfree' : n ≤ freeMap.free.length := by exact_mod_cast hfree
  obtain ⟨fm, hdr, hloop, hnum, -, hbits, hdata, hwords⟩ :=
    allocateLoop_eq freeMap (sized h fileSize) hfree' hdirect'
  have hcount : (numSectors hdr).toInt = n :=
    (congrArg BitVec.toInt (hwords 1 (by decide))).trans hn
  have hsectors : sectors hdr = freeMap.free.take n := by
    rw [sectors, hcount, Int.toNat_natCast, hdata]
  refine ⟨fm, hdr, ?_, ⟨?_, ?_, ?_, ?_, ?_, hnum, ?_⟩⟩
  · rw [allocateInTable_eq, hn, if_neg (Int.not_lt.mpr hfree), Int.toNat_natCast,
      allocateInTableLoop_eq hdirect' hloop]
    rfl
  · rw [hcount]
    exact Int.natCast_nonneg n
  · rw [hcount]
    exact hdirect
  · rw [hcount]
    exact hcovers
  · rw [hsectors]
    exact freeMap.free_nodup.sublist (List.take_sublist n _)
  · intro s hs
    rw [hsectors] at hs
    have hmem := List.mem_of_mem_take hs
    exact ⟨(Bitmap.mem_free.mp hmem).1, Bitmap.mem_free_iff_notMem_bits.mp hmem |>.2⟩
  · rw [hsectors]
    exact hbits

/-- The sizes for which `Allocate` does what it should: those for which there is place in the table,
and those for which there are not enough sectors. -/
theorem allocate_inside_iff (h : FileHeader) (freeMap : Bitmap) (fileSize : BitVec 32) :
    StaysInside freeMap fileSize (allocateInTable h freeMap fileSize) ↔
      (-(sectorSize : Int) < fileSize.toInt ∧ fileSize.toInt ≤ numDirect * sectorSize) ∨
        (freeMap.free.length * sectorSize : Int) < fileSize.toInt := by
  obtain ⟨hlo, hhi⟩ := numSectors_sized_bounds h fileSize
  have heq := allocateInTable_eq h freeMap fileSize
  have hholds := @allocateInTable_holds h freeMap fileSize
  generalize hk : (numSectors (sized h fileSize)).toInt = k at hlo hhi heq hholds
  unfold sectorSize numDirect at *
  rcases lt_or_ge (freeMap.free.length : Int) k with hfull | hfree
  · -- there are not enough sectors
    rw [heq, if_pos hfull]
    exact iff_of_true rfl (Or.inr (by omega))
  · rw [if_neg (Int.not_lt.mpr hfree)] at heq
    rcases lt_or_ge k 0 with hneg | hnonneg
    · -- the loop does not run at all
      rw [heq, Int.toNat_of_nonpos hneg.le]
      refine iff_of_false (fun hin => ?_) (by omega)
      have hge : 0 ≤ k := hk ▸ Holds.nonneg hin
      omega
    · rcases lt_or_ge 30 k with hlong | hdirect
      · -- the loop writes behind the end of the table
        rw [heq, allocateInTableLoop_overrun _ (show 30 < k.toNat by omega) (by omega)]
        exact iff_of_false id (by omega)
      · obtain ⟨freeMap', h', hrun, hin⟩ := hholds hnonneg hdirect hfree
        rw [hrun]
        exact iff_of_true hin (Or.inl (by omega))

/-- A disk without files, and a file of one byte more than the table has sectors for. -/
theorem allocate_overruns_empty_disk :
    ¬ StaysInside (Bitmap.zero numDiskSectors (by decide)) 3841#32
      (allocateInTable (Bytes.ofBuffer (fun _ => 0) 0)
        (Bitmap.zero numDiskSectors (by decide)) 3841#32) := by
  have hcount : (numSectors (sized (Bytes.ofBuffer (fun _ => 0) 0) 3841#32)).toInt = 31 :=
    numSectors_sized _ (by decide)
  rw [allocateInTable_eq, hcount, Bitmap.free_zero, List.length_range, if_neg (by decide)]
  rw [allocateInTableLoop_overrun _ (by decide)
    (by rw [Bitmap.free_zero, List.length_range]; decide)]
  exact id

end FileHeader

end Nachos
