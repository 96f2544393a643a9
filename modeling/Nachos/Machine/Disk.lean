import Nachos.Base.Run
import Nachos.Filesys.FileHeader

/-!
# How long the disk takes (`machine/disk.cc`, `machine/disk.h`, `machine/stats.h`)

A request takes the time to seek, the time until the sector has come round to the head, and the
time in which it passes. The disk remembers the last sector that was asked for, and since when its
track is being read into the track buffer. What is on the disk is not part of this file, and the
clock is an integer that does not overflow.

* `Disk.computeLatency` — `Disk::ComputeLatency`
* `DiskClock.step` — requests, interrupts and time that passes
* `latency_exact` — the head has just passed the sector
-/

namespace Nachos

open Base

/-- `SectorsPerTrack`. -/
def sectorsPerTrack : Int := 32

/-- `NumTracks`. -/
def numTracks : Int := 32

theorem numDiskSectors_eq : (numDiskSectors : Int) = sectorsPerTrack * numTracks := rfl

/-- `RotationTime`. -/
def rotationTime : Int := 500

/-- `SeekTime`. -/
def seekTime : Int := 500

/-- The class `Disk`. -/
structure Disk where
  active : Bool
  lastSector : Int
  bufferInit : Int
deriving DecidableEq

namespace Disk

/-- `Disk::Disk`. -/
def new : Disk where
  active := false
  lastSector := 0
  bufferInit := 0

/-- `Disk::TimeToSeek`: the time to seek, and `*rotation`. -/
def timeToSeek (d : Disk) (totalTicks newSector : Int) : Int × Int :=
  let newTrack := newSector.tdiv sectorsPerTrack
  let oldTrack := d.lastSector.tdiv sectorsPerTrack
  let seek := ((newTrack - oldTrack).natAbs : Int) * seekTime
  let overshoot := (totalTicks + seek).tmod rotationTime
  (seek, if 0 < overshoot then rotationTime - overshoot else 0)

/-- `Disk::ModuloDiff`. -/
def moduloDiff (target origin : Int) : Int :=
  (target.tmod sectorsPerTrack - origin.tmod sectorsPerTrack + sectorsPerTrack).tmod sectorsPerTrack

/-- `timeAfter` in `ComputeLatency`. -/
def timeAfter (d : Disk) (totalTicks newSector : Int) : Int :=
  totalTicks + (d.timeToSeek totalTicks newSector).1 + (d.timeToSeek totalTicks newSector).2

/-- The request is satisfied from the track buffer. -/
def Buffered (d : Disk) (totalTicks newSector : Int) (writing : Bool) : Prop :=
  writing = false ∧ (d.timeToSeek totalTicks newSector).1 = 0 ∧
    moduloDiff newSector (d.bufferInit.tdiv rotationTime) <
      (d.timeAfter totalTicks newSector - d.bufferInit).tdiv rotationTime

instance (d : Disk) (totalTicks newSector : Int) (writing : Bool) :
    Decidable (d.Buffered totalTicks newSector writing) :=
  inferInstanceAs (Decidable (_ ∧ _ ∧ _))

/-- `Disk::ComputeLatency`. -/
def computeLatency (d : Disk) (totalTicks newSector : Int) (writing : Bool) : Int :=
  let (seek, rotation) := d.timeToSeek totalTicks newSector
  let timeAfter := totalTicks + seek + rotation
  if d.Buffered totalTicks newSector writing then rotationTime
  else
    let rotation :=
      rotation + moduloDiff newSector (timeAfter.tdiv rotationTime) * rotationTime
    seek + rotation + rotationTime

/-- `Disk::UpdateLast`. -/
def updateLast (d : Disk) (totalTicks newSector : Int) : Disk :=
  let (seek, rotate) := d.timeToSeek totalTicks newSector
  { d with
    bufferInit := if seek ≠ 0 then totalTicks + seek + rotate else d.bufferInit
    lastSector := newSector }

/-- The assertion on `sectorNumber`. -/
def InRange (sector : Int) : Prop := 0 ≤ sector ∧ sector < numDiskSectors

instance (sector : Int) : Decidable (InRange sector) := inferInstanceAs (Decidable (_ ∧ _))

/-- What the disk remembers makes sense. -/
structure Valid (d : Disk) : Prop where
  lastSector : InRange d.lastSector
  bufferInit : 0 ≤ d.bufferInit

end Disk

/-! ## Requests -/

/-- The disk and `kernel->stats->totalTicks`. -/
structure DiskClock where
  disk : Disk
  totalTicks : Int
deriving DecidableEq

inductive DiskEvent where
  /-- `ReadRequest` or `WriteRequest`. -/
  | request (writing : Bool) (sectorNumber : Int)
  /-- The disk interrupt. -/
  | callBack
  | pass (ticks : Nat)
deriving DecidableEq

namespace DiskClock

/-- `ReadRequest` and `WriteRequest`, up to the assertion of `Schedule`. -/
def request (s : DiskClock) (writing : Bool) (sectorNumber : Int) : Option DiskClock :=
  let ticks := s.disk.computeLatency s.totalTicks sectorNumber writing
  if s.disk.active then none
  else if ¬ Disk.InRange sectorNumber then none
  else
    let disk := { s.disk with active := true }.updateLast s.totalTicks sectorNumber
    if 0 < ticks then some { s with disk := disk } else none

/-- One step. `none`: an assertion fails. -/
def step (s : DiskClock) : DiskEvent → Option DiskClock
  | .request writing sectorNumber => s.request writing sectorNumber
  | .callBack => some { s with disk := { s.disk with active := false } }
  | .pass ticks => some { s with totalTicks := s.totalTicks + ticks }

end DiskClock

/-! ## Seeking and rotating -/

namespace Disk

variable {d : Disk} {totalTicks newSector : Int}

theorem timeToSeek_eq (d : Disk) (totalTicks newSector : Int) :
    (d.timeToSeek totalTicks newSector).1 =
      ((newSector.tdiv sectorsPerTrack - d.lastSector.tdiv sectorsPerTrack).natAbs : Int) *
        seekTime :=
  rfl

theorem track_range {sector : Int} (h : InRange sector) :
    0 ≤ sector.tdiv sectorsPerTrack ∧ sector.tdiv sectorsPerTrack < numTracks := by
  obtain ⟨h0, hlt⟩ := h
  rw [numDiskSectors_eq] at hlt
  unfold numTracks sectorsPerTrack at *
  rw [Int.tdiv_eq_ediv_of_nonneg h0]
  omega

/-- Seeking takes at most the time for all tracks. -/
theorem seek_range (totalTicks : Int) (hd : d.Valid) (hsector : InRange newSector) :
    0 ≤ (d.timeToSeek totalTicks newSector).1 ∧
      (d.timeToSeek totalTicks newSector).1 ≤ (numTracks - 1) * seekTime := by
  obtain ⟨hnew0, hnew⟩ := track_range hsector
  obtain ⟨hold0, hold⟩ := track_range hd.lastSector
  rw [timeToSeek_eq]
  generalize newSector.tdiv sectorsPerTrack = newTrack at *
  generalize d.lastSector.tdiv sectorsPerTrack = oldTrack at *
  unfold numTracks seekTime at *
  omega

/-- After the seek, and up to the next boundary between two sectors. -/
theorem timeAfter_eq (ht : 0 ≤ totalTicks) (hd : d.Valid) (hsector : InRange newSector) :
    0 ≤ (d.timeToSeek totalTicks newSector).2 ∧
      (d.timeToSeek totalTicks newSector).2 < rotationTime ∧
      d.timeAfter totalTicks newSector % rotationTime = 0 := by
  have hseek := (seek_range totalTicks hd hsector).1
  have hrot : (d.timeToSeek totalTicks newSector).2 =
      if 0 < (totalTicks + (d.timeToSeek totalTicks newSector).1) % rotationTime then
        rotationTime - (totalTicks + (d.timeToSeek totalTicks newSector).1) % rotationTime
      else 0 := by
    rw [← Int.tmod_eq_emod_of_nonneg (by omega)]
    rfl
  unfold timeAfter
  rw [hrot]
  generalize (d.timeToSeek totalTicks newSector).1 = seek at *
  unfold rotationTime
  split <;> omega

theorem moduloDiff_range {target origin : Int} (htarget : 0 ≤ target) (horigin : 0 ≤ origin) :
    0 ≤ moduloDiff target origin ∧ moduloDiff target origin < sectorsPerTrack := by
  unfold moduloDiff sectorsPerTrack
  rw [Int.tmod_eq_emod_of_nonneg htarget, Int.tmod_eq_emod_of_nonneg horigin,
    Int.tmod_eq_emod_of_nonneg (by omega)]
  omega

/-- So many sectors after `origin`, the head is at `target`. -/
theorem add_moduloDiff {target origin : Int} (htarget : 0 ≤ target) (horigin : 0 ≤ origin) :
    (origin + moduloDiff target origin) % sectorsPerTrack = target % sectorsPerTrack := by
  unfold moduloDiff sectorsPerTrack
  rw [Int.tmod_eq_emod_of_nonneg htarget, Int.tmod_eq_emod_of_nonneg horigin,
    Int.tmod_eq_emod_of_nonneg (by omega)]
  omega

/-- Without the track buffer: after the seek, the head waits for the sector and passes it. -/
theorem computeLatency_of_not_buffered {writing : Bool}
    (h : ¬ d.Buffered totalTicks newSector writing) :
    totalTicks + d.computeLatency totalTicks newSector writing =
      d.timeAfter totalTicks newSector +
        moduloDiff newSector ((d.timeAfter totalTicks newSector).tdiv rotationTime) *
          rotationTime + rotationTime := by
  have hlatency : d.computeLatency totalTicks newSector writing =
      (d.timeToSeek totalTicks newSector).1 + ((d.timeToSeek totalTicks newSector).2 +
        moduloDiff newSector ((d.timeAfter totalTicks newSector).tdiv rotationTime) *
          rotationTime) + rotationTime := if_neg h
  rw [hlatency]
  unfold timeAfter
  omega

/-- A latency is positive, and so small that the sums of `ComputeLatency` stay near the clock. -/
theorem computeLatency_range (ht : 0 ≤ totalTicks) (hd : d.Valid) (hsector : InRange newSector)
    (writing : Bool) :
    0 < d.computeLatency totalTicks newSector writing ∧
      d.computeLatency totalTicks newSector writing <
        (numTracks - 1) * seekTime + (sectorsPerTrack + 1) * rotationTime := by
  by_cases hbuf : d.Buffered totalTicks newSector writing
  · have hlatency : d.computeLatency totalTicks newSector writing = rotationTime := if_pos hbuf
    rw [hlatency]
    decide
  · have hlatency := computeLatency_of_not_buffered hbuf
    obtain ⟨hseek, hseek'⟩ := seek_range totalTicks hd hsector
    obtain ⟨hrot, hrot', -⟩ := timeAfter_eq ht hd hsector
    have hafter : d.timeAfter totalTicks newSector = totalTicks +
        (d.timeToSeek totalTicks newSector).1 + (d.timeToSeek totalTicks newSector).2 := rfl
    have hpos : 0 ≤ (d.timeAfter totalTicks newSector).tdiv rotationTime :=
      Int.tdiv_nonneg (by omega) (by decide)
    obtain ⟨hdiff, hdiff'⟩ := moduloDiff_range hsector.1 hpos
    unfold numTracks seekTime sectorsPerTrack rotationTime at *
    omega

/-- `UpdateLast` leaves the disk ready for the next request. -/
theorem valid_updateLast (ht : 0 ≤ totalTicks) (hd : d.Valid) (hsector : InRange newSector) :
    (d.updateLast totalTicks newSector).Valid := by
  have hseek := (seek_range totalTicks hd hsector).1
  have hrot := (timeAfter_eq ht hd hsector).1
  have hinit : (d.updateLast totalTicks newSector).bufferInit =
      if (d.timeToSeek totalTicks newSector).1 ≠ 0 then
        totalTicks + (d.timeToSeek totalTicks newSector).1 + (d.timeToSeek totalTicks newSector).2
      else d.bufferInit := rfl
  refine ⟨hsector, ?_⟩
  rw [hinit]
  split
  · omega
  · exact hd.bufferInit

end Disk

/-! ## Runs -/

namespace DiskClock

/-- What holds between requests. -/
structure Valid (s : DiskClock) : Prop where
  disk : s.disk.Valid
  totalTicks : 0 ≤ s.totalTicks

theorem Valid.step {s t : DiskClock} {e : DiskEvent} (hs : s.Valid) (h : s.step e = some t) :
    t.Valid := by
  cases e with
  | request writing sectorNumber =>
    simp only [DiskClock.step, request] at h
    split_ifs at h with hactive hrange hticks
    obtain rfl := Option.some.inj h
    have hactive : ({ s.disk with active := true } : Disk).Valid :=
      ⟨hs.disk.lastSector, hs.disk.bufferInit⟩
    exact ⟨Disk.valid_updateLast hs.totalTicks hactive hrange, hs.totalTicks⟩
  | callBack =>
    obtain rfl := Option.some.inj h
    exact ⟨⟨hs.disk.lastSector, hs.disk.bufferInit⟩, hs.totalTicks⟩
  | pass ticks =>
    obtain rfl := Option.some.inj h
    exact ⟨hs.disk, Int.add_nonneg hs.totalTicks (Int.natCast_nonneg ticks)⟩

/-- A request to a disk that is not busy passes its assertions. -/
theorem request_isSome {s : DiskClock} (hs : s.Valid) (hidle : s.disk.active = false)
    {sectorNumber : Int} (hsector : Disk.InRange sectorNumber) (writing : Bool) :
    (s.request writing sectorNumber).isSome = true := by
  have hticks := (Disk.computeLatency_range hs.totalTicks hs.disk hsector writing).1
  unfold request
  rw [hidle, if_neg Bool.false_ne_true, if_neg (not_not.mpr hsector), if_pos hticks]
  rfl

end DiskClock

/--
**The latency is that of the sector.**

In every state of the disk that is reached, for every time and every sector: the latency is
positive, and where the track buffer does not apply, the sector is the last one that has passed the
head when the latency is over.
-/
theorem latency_exact {s u : DiskClock} (hs : s.Valid) {es : List DiskEvent}
    (h : run DiskClock.step s es = some u) {totalTicks sector : Int} (ht : 0 ≤ totalTicks)
    (hsector : Disk.InRange sector) (writing : Bool) :
    u.disk.Valid ∧ 0 < u.disk.computeLatency totalTicks sector writing ∧
      (¬ u.disk.Buffered totalTicks sector writing →
        (totalTicks + u.disk.computeLatency totalTicks sector writing) % rotationTime = 0 ∧
        totalTicks + (u.disk.timeToSeek totalTicks sector).1 + rotationTime ≤
          totalTicks + u.disk.computeLatency totalTicks sector writing ∧
        ((totalTicks + u.disk.computeLatency totalTicks sector writing) / rotationTime - 1) %
          sectorsPerTrack = sector % sectorsPerTrack) := by
  have hu : u.Valid := run_invariant (fun _ _ _ hs' hstep => hs'.step hstep) hs h
  refine ⟨hu.disk, (Disk.computeLatency_range ht hu.disk hsector writing).1, fun hbuf => ?_⟩
  have hseek := (Disk.seek_range totalTicks hu.disk hsector).1
  obtain ⟨hrot, -, hboundary⟩ := Disk.timeAfter_eq ht hu.disk hsector
  have hafter : u.disk.timeAfter totalTicks sector = totalTicks +
      (u.disk.timeToSeek totalTicks sector).1 + (u.disk.timeToSeek totalTicks sector).2 := rfl
  have hnonneg : 0 ≤ u.disk.timeAfter totalTicks sector := by omega
  have hquot : 0 ≤ u.disk.timeAfter totalTicks sector / rotationTime :=
    Int.ediv_nonneg hnonneg (by decide)
  obtain ⟨hdiff, -⟩ := Disk.moduloDiff_range hsector.1 hquot
  have hplace := Disk.add_moduloDiff hsector.1 hquot
  rw [Disk.computeLatency_of_not_buffered hbuf, Int.tdiv_eq_ediv_of_nonneg hnonneg]
  generalize Disk.moduloDiff sector (u.disk.timeAfter totalTicks sector / rotationTime) = diff at *
  rw [← hplace]
  unfold rotationTime sectorsPerTrack at *
  refine ⟨by omega, by omega, ?_⟩
  congr 1
  omega

/-- A write to another track, and then sector 5 of the first one again. -/
theorem latency_exact_back :
    ∃ u, run DiskClock.step ⟨Disk.new, 0⟩ [.request true 70, .callBack, .pass 1234] = some u ∧
      0 < u.disk.computeLatency 1234 5 false ∧
      (1234 + u.disk.computeLatency 1234 5 false) / rotationTime - 1 = 5 := by
  have hnew : (⟨Disk.new, 0⟩ : DiskClock).Valid := ⟨⟨by decide, by decide⟩, by decide⟩
  have hrun : run DiskClock.step ⟨Disk.new, 0⟩ [.request true 70, .callBack, .pass 1234] =
      some ⟨⟨false, 70, 1000⟩, 1234⟩ := by decide
  obtain ⟨-, hpos, -⟩ :=
    latency_exact hnew hrun (by decide : (0 : Int) ≤ 1234) (by decide : Disk.InRange 5) false
  exact ⟨_, hrun, hpos, by decide⟩

end Nachos
