import Nachos.Base.Run
import Nachos.Base.CString
import Nachos.Base.KeyedSlots
import Nachos.Lib.Bitmap
import Nachos.Threads.Semaphore

/-!
# Named semaphores (`threads/stable.cc`, `threads/sem.cc`)

The table of the semaphores that user programs share. A bitmap says which slots are in use, the
slots point to the `Sem` objects, and each of these carries its name.

No routine of the table turns the interrupts on before it calls `P` or `V`, so the scan of the
slots together with the first pass through the test of `P`, or with the whole of `V`, is one step.
A thread that sleeps in `P` keeps the slot it found in its activation of `Wait` and comes back to
the test of that same semaphore.

* `STable` — the table with `create`, `wait` and `signal`
* `STable.named` — the map from names to semaphores that it stands for
* `SemCalls` — the table, the threads asleep in `Wait`, and the history of what was done
* `run_named_semaphores` — in every reachable state the table is that map, with names that fit
* `run_waits_permitted_iff` — which runs let no more waits through than permitted
-/

namespace Nachos

open Base

/-! ## Names -/

/-- `sizeof(Sem::name)`. -/
def semNameSize : Nat := 50

/--
A name that fits into `char name[50]` with its terminator. The system calls read at most
`MAX_FILE_LENGTH + 1` bytes of a name, that is 33.
-/
structure SemName extends CStr where
  fits : chars.length < semNameSize
deriving DecidableEq

instance : Coe SemName CStr := ⟨SemName.toCStr⟩

theorem SemName.toCStr_inj {m n : SemName} : m.toCStr = n.toCStr ↔ m = n := by
  cases m
  cases n
  simp

/--
What `new` gives to the constructor `Sem::Sem`: the address of the semaphore, and the bytes that
were in the memory of the `Sem` and behind it.
-/
structure SemRoom where
  sem : BitVec 32
  bytes : List (BitVec 8)

/-- The class `Sem`. `name` is the string that `GetName` points to. -/
structure Sem (τ : Type) where
  name : CStr
  sem : Semaphore τ
deriving DecidableEq

namespace Sem

variable {τ : Type}

/--
The memory from `name` on, behind `strcpy(this->name, na)` and the assignment to `sem`. In the
32-bit build `sem` is the word at 52, and goes over what a long name has left there.
-/
def nameBytes (na : CStr) (room : SemRoom) : List (BitVec 8) :=
  (na.overwrite room.bytes).take 52 ++
    (bytesOf room.sem ++ (na.overwrite room.bytes).drop 56)

/-- `Sem::Sem`. -/
def new (na : CStr) (i : BitVec 32) (room : SemRoom) : Sem τ :=
  { name := .ofBytes (nameBytes na room), sem := .new i }

/-- A name that fits is kept. -/
theorem new_name (na : SemName) (i : BitVec 32) (room : SemRoom) :
    (new na.toCStr i room : Sem τ).name = na.toCStr :=
  CStr.ofBytes_overwrite_of_lt (na.fits.trans (by decide)) room.bytes _

/-- `Sem::wait`: one pass of thread `t` through the test of `P`. -/
def wait (s : Sem τ) (t : τ) : Sem τ × Bool := ({ s with sem := (s.sem.p t).1 }, (s.sem.p t).2)

/-- `Sem::signal`. -/
def signal (s : Sem τ) : Sem τ := { s with sem := s.sem.v }

end Sem

/-! ## The table -/

/-- `MAX_SEMAPHORE`. -/
def maxSemaphore : Nat := 10

/-- The class `STable`; `none` is the `NULL` pointer. -/
structure STable (τ : Type) where
  bm : Bitmap
  semTab : Fin maxSemaphore → Option (Sem τ)

/-- What became of a call of `Wait`: it has returned, or its thread sleeps in slot `i`. -/
inductive WaitResult where
  | answered (r : Int)
  | asleep (i : Fin maxSemaphore)
deriving DecidableEq

namespace STable

variable {τ : Type}

/-- `STable::STable`. -/
def new : STable τ where
  bm := .zero maxSemaphore ⟨by decide, by decide⟩
  semTab := fun _ => none

/--
The loop that `Create`, `Wait` and `Signal` have in common: the slot in use that has this name.

`none` on the outside is a failed assertion of `Test` or a slot in use that points to nothing.
-/
def findLoop (tab : STable τ) (name : CStr) :
    List (Fin maxSemaphore) → Option (Option (Fin maxSemaphore))
  | [] => some none
  | i :: is => do
    if ← tab.bm.test i.val then
      let s ← tab.semTab i
      if strcmp name.chars s.name.chars = 0 then return some i else tab.findLoop name is
    else tab.findLoop name is

/-- The whole loop, `i = 0` to `MAX_SEMAPHORE - 1`. -/
def find (tab : STable τ) (name : CStr) : Option (Option (Fin maxSemaphore)) :=
  tab.findLoop name (List.finRange maxSemaphore)

/-- `STable::FindFreeSlot`. -/
def findFreeSlot (tab : STable τ) : Option (Bitmap × Int) := tab.bm.findAndSet

/-- `semTab[i] = s`. -/
def set (tab : STable τ) (i : Fin maxSemaphore) (s : Sem τ) : STable τ :=
  { tab with semTab := Function.update tab.semTab i (some s) }

/-- `STable::Create`. -/
def create (tab : STable τ) (name : CStr) (init : BitVec 32) (room : SemRoom) :
    Option (STable τ × Int) := do
  match ← tab.find name with
  | some _ => return (tab, -1)
  | none =>
    let (bm, id) ← tab.findFreeSlot
    let tab' := { tab with bm := bm }
    if id < 0 then return (tab', -1)
    else if h : id.toNat < maxSemaphore then
      return (tab'.set ⟨id.toNat, h⟩ (.new name init room), 0)
    else none

/-- The answer of a pass through the test of `P` in slot `i`. -/
def passed (i : Fin maxSemaphore) (done : Bool) : WaitResult :=
  if done then .answered 0 else .asleep i

/-- `semTab[i]->wait(); return 0;`, up to where the thread returns or goes to sleep. -/
def waitAt (tab : STable τ) (i : Fin maxSemaphore) (t : τ) : Option (STable τ × WaitResult) := do
  let s ← tab.semTab i
  return (tab.set i (s.wait t).1, passed i (s.wait t).2)

/-- `STable::Wait`, called by thread `t`. -/
def wait (tab : STable τ) (name : CStr) (t : τ) : Option (STable τ × WaitResult) := do
  match ← tab.find name with
  | some i => tab.waitAt i t
  | none => return (tab, .answered (-1))

/-- `STable::Signal`. -/
def signal (tab : STable τ) (name : CStr) : Option (STable τ × Int) := do
  match ← tab.find name with
  | some i =>
    let s ← tab.semTab i
    return (tab.set i s.signal, 0)
  | none => return (tab, -1)

/-! ## The map it stands for -/

/-- The semaphore created under a name. -/
noncomputable def named (tab : STable τ) (name : CStr) : Option (Semaphore τ) :=
  (KeyedSlots.toMap Sem.name tab.semTab name).map Sem.sem

/-- How many semaphores exist. -/
def count (tab : STable τ) : Nat := (KeyedSlots.occupied tab.semTab).card

/-- The bitmap says which slots are in use, and no two of these have the same name. -/
structure WellFormed (tab : STable τ) : Prop where
  numBits : tab.bm.numBits = maxSemaphore
  bits : ∀ i : Fin maxSemaphore, tab.bm.bit i = (tab.semTab i).isSome
  apart : KeyedSlots.Apart Sem.name tab.semTab

theorem wellFormed_new : (new : STable τ).WellFormed where
  numBits := rfl
  bits := fun i => Bitmap.bit_zero maxSemaphore _ i
  apart := fun i j a b ha => by simp [new] at ha

theorem test_eq {tab : STable τ} (hwf : tab.WellFormed) (i : Fin maxSemaphore) :
    tab.bm.test i.val = some (tab.semTab i).isSome := by
  rw [Bitmap.test_natCast (by rw [hwf.numBits]; exact i.isLt), hwf.bits i]

theorem named_of_slot {tab : STable τ} (hwf : tab.WellFormed) {i : Fin maxSemaphore} {a : Sem τ}
    (h : tab.semTab i = some a) : tab.named a.name = some a.sem := by
  rw [named, KeyedSlots.toMap_of_slot hwf.apart h, Option.map_some]

theorem named_eq_none {tab : STable τ} {name : CStr} :
    tab.named name = none ↔ KeyedSlots.Fresh Sem.name tab.semTab name := by
  rw [named, Option.map_eq_none_iff, KeyedSlots.toMap_eq_none]

theorem named_new : (new : STable τ).named = fun _ => none := by
  funext name
  exact named_eq_none.mpr fun i a ha => by simp [new] at ha

/-! ## The scan -/

theorem findLoop_spec {tab : STable τ} (hwf : tab.WellFormed) (name : CStr)
    (is : List (Fin maxSemaphore)) :
    (∃ i a, tab.findLoop name is = some (some i) ∧ tab.semTab i = some a ∧ a.name = name) ∨
      (tab.findLoop name is = some none ∧
        ∀ i ∈ is, ∀ a, tab.semTab i = some a → a.name ≠ name) := by
  induction is with
  | nil => exact .inr ⟨rfl, fun i hi => by simp at hi⟩
  | cons i is ih =>
    -- what follows slot `i` decides, and slot `i` itself is not the one
    have hnext : tab.findLoop name (i :: is) = tab.findLoop name is →
        (∀ a, tab.semTab i = some a → a.name ≠ name) →
        (∃ j a, tab.findLoop name (i :: is) = some (some j) ∧ tab.semTab j = some a ∧
          a.name = name) ∨
        (tab.findLoop name (i :: is) = some none ∧
          ∀ j ∈ i :: is, ∀ a, tab.semTab j = some a → a.name ≠ name) := by
      intro hloop hi
      rw [hloop]
      rcases ih with hfound | ⟨hnone, hrest⟩
      · exact .inl hfound
      · refine .inr ⟨hnone, ?_⟩
        intro j hj
        rcases List.mem_cons.mp hj with rfl | hj
        · exact hi
        · exact hrest j hj
    cases hs : tab.semTab i with
    | none =>
      refine hnext ?_ (fun a ha => by rw [hs] at ha; simp at ha)
      simp [findLoop, test_eq hwf, hs]
    | some a =>
      by_cases hname : name = a.name
      · refine .inl ⟨i, a, ?_, hs, hname.symm⟩
        simp [findLoop, test_eq hwf, hs, (CStr.strcmp_eq_zero_iff name a.name).mpr hname]
      · refine hnext ?_ ?_
        · have hcmp : strcmp name.chars a.name.chars ≠ 0 :=
            fun h => hname ((CStr.strcmp_eq_zero_iff name a.name).mp h)
          simp [findLoop, test_eq hwf, hs, hcmp]
        · intro b hb
          rw [hs] at hb
          rw [← Option.some.inj hb]
          exact fun h => hname h.symm

/-- The scan finds the slot that has the name, if there is one. -/
theorem find_spec {tab : STable τ} (hwf : tab.WellFormed) (name : CStr) :
    (∃ i a, tab.find name = some (some i) ∧ tab.semTab i = some a ∧ a.name = name) ∨
      (tab.find name = some none ∧ tab.named name = none) := by
  rcases findLoop_spec hwf name (List.finRange maxSemaphore) with hfound | ⟨hnone, hfresh⟩
  · exact .inl hfound
  · exact .inr ⟨hnone, named_eq_none.mpr fun i a ha => hfresh i (List.mem_finRange i) a ha⟩

/-! ## What each routine does to the map -/

/-- The semaphore of a slot is replaced, under its old name. -/
theorem WellFormed.set {tab : STable τ} (hwf : tab.WellFormed) {i : Fin maxSemaphore} {a b : Sem τ}
    (ha : tab.semTab i = some a) (hname : b.name = a.name) : (tab.set i b).WellFormed where
  numBits := hwf.numBits
  bits := by
    intro j
    by_cases hj : j = i
    · simp only [STable.set, hj, Function.update_self]
      rw [hwf.bits i, ha]
      rfl
    · simp only [STable.set, Function.update_of_ne hj]
      exact hwf.bits j
  apart := hwf.apart.modify ha hname

theorem named_set {tab : STable τ} (hwf : tab.WellFormed) {i : Fin maxSemaphore} {a b : Sem τ}
    (ha : tab.semTab i = some a) (hname : b.name = a.name) :
    (tab.set i b).named = Function.update tab.named a.name (some b.sem) := by
  funext name
  simp only [named, STable.set, KeyedSlots.toMap_modify hwf.apart ha hname]
  by_cases hn : name = a.name
  · rw [hn, Function.update_self, Function.update_self, Option.map_some]
  · rw [Function.update_of_ne hn, Function.update_of_ne hn]
    rfl

/-- The bitmap is full exactly when all semaphores exist. -/
theorem free_eq_nil_iff {tab : STable τ} (hwf : tab.WellFormed) :
    tab.bm.free = [] ↔ ¬ tab.count < maxSemaphore := by
  have hle : tab.count ≤ maxSemaphore := by
    have := Finset.card_le_univ (KeyedSlots.occupied tab.semTab)
    rwa [Fintype.card_fin] at this
  have hall : tab.count = maxSemaphore ↔ ∀ i, (tab.semTab i).isSome := by
    have hcard := Finset.card_eq_iff_eq_univ (KeyedSlots.occupied tab.semTab)
    rw [Fintype.card_fin] at hcard
    unfold count
    rw [hcard, Finset.eq_univ_iff_forall]
    simp [KeyedSlots.occupied]
  have hfree : tab.bm.free = [] ↔ ∀ i, (tab.semTab i).isSome := by
    rw [List.eq_nil_iff_forall_not_mem]
    constructor
    · intro h i
      have hi := h i
      rw [Bitmap.mem_free, hwf.numBits, hwf.bits i] at hi
      simpa [Option.isSome_iff_ne_none] using hi
    · intro h k hk
      rw [Bitmap.mem_free, hwf.numBits] at hk
      have := h ⟨k, hk.1⟩
      rw [← hwf.bits ⟨k, hk.1⟩] at this
      simp [hk.2] at this
  rw [hfree, ← hall]
  omega

/-- The table after a successful `Create`. -/
theorem wellFormed_create {tab : STable τ} (hwf : tab.WellFormed) {i : Fin maxSemaphore}
    {bm : Bitmap} {b : Sem τ} (hfree : tab.semTab i = none) (hnew : tab.named b.name = none)
    (hnum : bm.numBits = tab.bm.numBits) (hbits : bm.bits = insert i.val tab.bm.bits) :
    ({ tab with bm := bm }.set i b).WellFormed ∧
      ({ tab with bm := bm }.set i b).named = Function.update tab.named b.name (some b.sem) := by
  have hfresh := named_eq_none.mp hnew
  refine ⟨⟨hnum.trans hwf.numBits, ?_, hwf.apart.insert hfresh i⟩, ?_⟩
  · intro j
    have hmem : (j : Nat) ∈ bm.bits ↔ (j : Nat) = i ∨ (j : Nat) ∈ tab.bm.bits := by
      rw [hbits, Finset.mem_insert]
    rw [Bitmap.mem_bits, Bitmap.mem_bits, hnum, hwf.numBits, hwf.bits j] at hmem
    have hj : (j : Nat) < maxSemaphore := j.isLt
    by_cases hji : j = i
    · simp only [STable.set, hji, Function.update_self, Option.isSome_some]
      simpa [hji] using hmem
    · have hval : (j : Nat) ≠ i := fun h => hji (Fin.ext h)
      simp only [STable.set, Function.update_of_ne hji]
      rw [Bool.eq_iff_iff]
      simpa [hval, hj] using hmem
  · funext name
    simp only [named, STable.set, KeyedSlots.toMap_insert hwf.apart hfresh hfree]
    by_cases hn : name = b.name
    · rw [hn, Function.update_self, Function.update_self, Option.map_some]
    · rw [Function.update_of_ne hn, Function.update_of_ne hn]
      rfl

/-- `Create` of a new name while there is room. -/
theorem create_of_fresh {tab : STable τ} (hwf : tab.WellFormed) {name : SemName}
    (init : BitVec 32) (room : SemRoom) (hnew : tab.named name.toCStr = none)
    (hroom : tab.count < maxSemaphore) :
    ∃ tab', tab.create name.toCStr init room = some (tab', 0) ∧ tab'.WellFormed ∧
      tab'.named = Function.update tab.named name.toCStr (some (.new init)) ∧
      ∀ i a, tab.semTab i = some a → tab'.semTab i = some a := by
  have hfind : tab.find name.toCStr = some none := by
    rcases find_spec hwf name.toCStr with ⟨i, a, _, ha, hname⟩ | ⟨hnone, _⟩
    · rw [← hname, named_of_slot hwf ha] at hnew
      simp at hnew
    · exact hnone
  cases hf : tab.bm.free with
  | nil => exact absurd hroom ((free_eq_nil_iff hwf).mp hf)
  | cons k rest =>
    obtain ⟨bm, hset, hnum, hbits, _⟩ := Bitmap.findAndSet_of_free_cons hf
    have hk : k < tab.bm.numBits ∧ tab.bm.bit k = false :=
      Bitmap.mem_free.mp (by rw [hf]; simp)
    rw [hwf.numBits] at hk
    obtain ⟨hk, hbit⟩ := hk
    have hslot : tab.semTab ⟨k, hk⟩ = none := by
      have := hwf.bits ⟨k, hk⟩
      rw [hbit] at this
      simpa using this.symm
    have hname : (Sem.new name.toCStr init room : Sem τ).name = name.toCStr :=
      Sem.new_name name init room
    obtain ⟨hwf', hnamed⟩ := wellFormed_create (b := Sem.new name.toCStr init room) hwf hslot
      (by rw [hname]; exact hnew) hnum hbits
    rw [hname] at hnamed
    refine ⟨_, ?_, hwf', hnamed, ?_⟩
    · have hneg : ¬ ((k : Int) < 0) := by omega
      simp [create, hfind, findFreeSlot, hset, hneg, hk]
    · intro i a ha
      have hne : i ≠ ⟨k, hk⟩ := by
        rintro rfl
        rw [hslot] at ha
        simp at ha
      simp only [STable.set, Function.update_of_ne hne]
      exact ha

/-- `Create` of a name that exists, or with the table full. -/
theorem create_of_not_fresh {tab : STable τ} (hwf : tab.WellFormed) {name : CStr}
    (init : BitVec 32) (room : SemRoom)
    (h : ¬ (tab.named name = none ∧ tab.count < maxSemaphore)) :
    tab.create name init room = some (tab, -1) := by
  rcases find_spec hwf name with ⟨i, a, hfind, _, _⟩ | ⟨hfind, hnone⟩
  · simp [create, hfind]
  · have hfull : tab.bm.free = [] := (free_eq_nil_iff hwf).mpr fun hroom => h ⟨hnone, hroom⟩
    simp [create, hfind, findFreeSlot, Bitmap.findAndSet_of_free_nil hfull]

theorem waitAt_of_slot {tab : STable τ} {i : Fin maxSemaphore} {a : Sem τ}
    (ha : tab.semTab i = some a) (t : τ) :
    tab.waitAt i t = some (tab.set i (a.wait t).1, passed i (a.sem.p t).2) := by
  simp [waitAt, ha, Sem.wait]

theorem wait_of_none {tab : STable τ} (hwf : tab.WellFormed) {name : CStr}
    (h : tab.named name = none) (t : τ) : tab.wait name t = some (tab, .answered (-1)) := by
  rcases find_spec hwf name with ⟨i, a, hfind, ha, rfl⟩ | ⟨hfind, _⟩
  · rw [named_of_slot hwf ha] at h
    simp at h
  · simp [wait, hfind]

theorem signal_of_none {tab : STable τ} (hwf : tab.WellFormed) {name : CStr}
    (h : tab.named name = none) : tab.signal name = some (tab, -1) := by
  rcases find_spec hwf name with ⟨i, a, hfind, ha, rfl⟩ | ⟨hfind, _⟩
  · rw [named_of_slot hwf ha] at h
    simp at h
  · simp [signal, hfind]

/-- A name that exists has a slot, and `Wait` and `Signal` go to it. -/
theorem slot_of_named {tab : STable τ} (hwf : tab.WellFormed) {name : CStr} {sem : Semaphore τ}
    (h : tab.named name = some sem) :
    ∃ i a, tab.semTab i = some a ∧ a.name = name ∧ a.sem = sem ∧
      (∀ t, tab.wait name t = some (tab.set i (a.wait t).1, passed i (a.sem.p t).2)) ∧
      tab.signal name = some (tab.set i a.signal, 0) := by
  rcases find_spec hwf name with ⟨i, a, hfind, ha, rfl⟩ | ⟨_, hnone⟩
  · rw [named_of_slot hwf ha] at h
    refine ⟨i, a, ha, rfl, Option.some.inj h, ?_, ?_⟩
    · intro t
      simp [wait, hfind, waitAt_of_slot ha]
    · simp [signal, hfind, ha]
  · rw [hnone] at h
    simp at h

end STable

/-! ## The table in use -/

section Runs

variable {τ : Type} [DecidableEq τ]

/-- What was done to one semaphore. `p t done` is a pass of thread `t` through the test of `P`. -/
inductive SemOp (τ : Type) where
  | created (semval : BitVec 32)
  | p (t : τ) (done : Bool)
  | v
deriving DecidableEq

/-- Its effect, on the semaphore alone. -/
def SemOp.apply : SemOp τ → Option (Semaphore τ) → Option (Semaphore τ)
  | .created semval, _ => some (.new semval)
  | .p t _, sem => sem.map fun s => (s.p t).1
  | .v, sem => sem.map Semaphore.v

/-- The operations on the semaphore `name` in a log of all operations. -/
def history (name : SemName) (log : List (SemName × SemOp τ)) : List (SemOp τ) :=
  log.filterMap fun entry => if entry.1 = name then some entry.2 else none

/-- The semaphore that the operations on `name` alone lead to. -/
def replay (name : SemName) (log : List (SemName × SemOp τ)) : Option (Semaphore τ) :=
  (history name log).foldl (fun sem op => op.apply sem) none

/-- How many `Wait`s on `name` have completed. -/
def completedWaits (name : SemName) (log : List (SemName × SemOp τ)) : Nat :=
  (history name log).countP fun op => match op with
    | .p _ done => done
    | _ => false

/-- How many `Signal`s were executed on `name`. -/
def signals (name : SemName) (log : List (SemName × SemOp τ)) : Nat :=
  (history name log).countP fun op => match op with
    | .v => true
    | _ => false

/--
The table, the threads asleep in an activation of `Wait` (with its `name` and its `i`), and what
has been done so far.
-/
structure SemCalls (τ : Type) where
  table : STable τ
  waiting : τ → Option (SemName × Fin maxSemaphore)
  log : List (SemName × SemOp τ)

/-- A system call of thread `t`, or a thread that runs again after it was woken in `P`. -/
inductive SemCall (τ : Type) where
  | create (t : τ) (name : SemName) (semval : BitVec 32) (room : SemRoom)
  | wait (t : τ) (name : SemName)
  | signal (t : τ) (name : SemName)
  | resume (t : τ)

namespace SemCalls

/-- No semaphore yet. -/
def start : SemCalls τ := { table := .new, waiting := fun _ => none, log := [] }

/-- What thread `t` has done when its activation of `Wait` comes to a stop. -/
def afterWait (s : SemCalls τ) (t : τ) (name : SemName) (tab : STable τ) : WaitResult → SemCalls τ
  | .asleep i =>
    { table := tab
      waiting := Function.update s.waiting t (some (name, i))
      log := s.log ++ [(name, .p t false)] }
  | .answered r =>
    { table := tab
      waiting := Function.update s.waiting t none
      log := if r = 0 then s.log ++ [(name, .p t true)] else s.log }

/-- The thread has been appended to the queue of slot `i` and not been taken out since. -/
def Asleep (s : SemCalls τ) (t : τ) (i : Fin maxSemaphore) : Prop :=
  ∃ a ∈ s.table.semTab i, t ∈ a.sem.queue

instance (s : SemCalls τ) (t : τ) (i : Fin maxSemaphore) : Decidable (s.Asleep t i) :=
  match h : s.table.semTab i with
  | none => .isFalse (by rintro ⟨a, ha, _⟩; rw [h] at ha; simp at ha)
  | some a =>
    decidable_of_iff (t ∈ a.sem.queue) (by simp [Asleep, h])

/-- One step. A thread inside `Wait` calls nothing else. -/
def step (s : SemCalls τ) : SemCall τ → Option (SemCalls τ)
  | .create t name semval room =>
    if (s.waiting t).isSome then none
    else do
      let (tab, r) ← s.table.create name semval room
      return { s with
        table := tab
        log := if r = 0 then s.log ++ [(name, .created semval)] else s.log }
  | .wait t name =>
    if (s.waiting t).isSome then none
    else do
      let (tab, r) ← s.table.wait name t
      return s.afterWait t name tab r
  | .signal t name =>
    if (s.waiting t).isSome then none
    else do
      let (tab, r) ← s.table.signal name
      return { s with
        table := tab
        log := if r = 0 then s.log ++ [(name, .v)] else s.log }
  | .resume t => do
    let (name, i) ← s.waiting t
    if s.Asleep t i then none
    else do
      let (tab, r) ← s.table.waitAt i t
      return s.afterWait t name tab r

/-! ## The invariant -/

/-- Every sleeping thread holds the slot of the semaphore it asked for. -/
def FramesValid (s : SemCalls τ) : Prop :=
  ∀ t name i, s.waiting t = some (name, i) → ∃ a, s.table.semTab i = some a ∧ a.name = name

/-- The table is a map, and each semaphore is what the operations on its name made of it. -/
structure Inv (s : SemCalls τ) : Prop where
  table : s.table.WellFormed
  frames : s.FramesValid
  replay : ∀ name : SemName, s.table.named name = Nachos.replay name s.log

omit [DecidableEq τ] in
theorem history_append_self (name : SemName) (log : List (SemName × SemOp τ)) (op : SemOp τ) :
    history name (log ++ [(name, op)]) = history name log ++ [op] := by
  simp [history]

omit [DecidableEq τ] in
theorem history_append_of_ne {name n : SemName} (h : name ≠ n) (log : List (SemName × SemOp τ))
    (op : SemOp τ) : history n (log ++ [(name, op)]) = history n log := by
  simp [history, h]

omit [DecidableEq τ] in
theorem mem_history {name : SemName} {log : List (SemName × SemOp τ)} {op : SemOp τ} :
    op ∈ history name log ↔ (name, op) ∈ log := by
  simp only [history, List.mem_filterMap]
  constructor
  · rintro ⟨⟨n, op'⟩, hmem, heq⟩
    split at heq
    · next hn =>
      rw [← hn, ← Option.some.inj heq]
      exact hmem
    · simp at heq
  · intro h
    exact ⟨(name, op), h, by simp⟩

/-- The step did `op` to the semaphore `name`, and nothing to any other. -/
structure Did (s u : SemCalls τ) (name : SemName) (op : SemOp τ) : Prop where
  table : u.table.WellFormed
  named : u.table.named = Function.update s.table.named name (op.apply (s.table.named name))
  log : u.log = s.log ++ [(name, op)]
  frames : u.FramesValid

omit [DecidableEq τ] in
theorem inv_start : (start : SemCalls τ).Inv where
  table := STable.wellFormed_new
  frames := fun t name i h => by simp [start] at h
  replay := fun name => by simp [start, STable.named_new, Nachos.replay, history]

omit [DecidableEq τ] in
theorem Did.inv {s u : SemCalls τ} {name : SemName} {op : SemOp τ} (hdid : Did s u name op)
    (h : s.Inv) : u.Inv where
  table := hdid.table
  frames := hdid.frames
  replay := by
    intro n
    rw [hdid.named, hdid.log, Nachos.replay]
    by_cases hn : name = n
    · rw [← hn, Function.update_self, history_append_self, h.replay name, List.foldl_append]
      rfl
    · have hne : n.toCStr ≠ name.toCStr := fun he => hn (SemName.toCStr_inj.mp he).symm
      rw [Function.update_of_ne hne, history_append_of_ne hn, h.replay n]
      rfl

omit [DecidableEq τ] in
/-- Sleeping threads keep their slots when the semaphores only change in place. -/
theorem framesValid_set {s : SemCalls τ} (hf : s.FramesValid) {i : Fin maxSemaphore} {a b : Sem τ}
    (ha : s.table.semTab i = some a) (hname : b.name = a.name) :
    ∀ t (name : SemName) j, s.waiting t = some (name, j) →
      ∃ c, (s.table.set i b).semTab j = some c ∧ c.name = name := by
  intro t name j hj
  obtain ⟨c, hc, hcn⟩ := hf t name j hj
  by_cases hji : j = i
  · rw [hji, ha] at hc
    refine ⟨b, ?_, by rw [hname, Option.some.inj hc, hcn]⟩
    simp only [STable.set, hji, Function.update_self]
  · exact ⟨c, by simp only [STable.set, Function.update_of_ne hji]; exact hc, hcn⟩

/-- A pass through the test of `P` in the slot of `name`. -/
theorem did_waitAt {s : SemCalls τ} (h : s.Inv) {t : τ} {i : Fin maxSemaphore} {a : Sem τ}
    {name : SemName} (ha : s.table.semTab i = some a) (hn : a.name = name) :
    Did s (s.afterWait t name (s.table.set i (a.wait t).1) (STable.passed i (a.sem.p t).2))
      name (.p t (a.sem.p t).2) := by
  have hname : (a.wait t).1.name = a.name := rfl
  have hframes := framesValid_set h.frames ha hname
  have hslot : (s.table.set i (a.wait t).1).semTab i = some (a.wait t).1 :=
    Function.update_self i _ _
  have hnamed := STable.named_set h.table ha hname
  cases hdone : (a.sem.p t).2 with
  | true =>
    refine ⟨h.table.set ha hname, ?_, rfl, ?_⟩
    · simp only [afterWait, STable.passed, if_true]
      rw [hnamed, ← hn, STable.named_of_slot h.table ha]
      rfl
    · intro t' n j hj
      by_cases ht : t' = t
      · simp [afterWait, STable.passed, ht] at hj
      · refine hframes t' n j ?_
        simpa [afterWait, STable.passed, ht] using hj
  | false =>
    refine ⟨h.table.set ha hname, ?_, rfl, ?_⟩
    · simp only [afterWait, STable.passed, Bool.false_eq_true, if_false]
      rw [hnamed, ← hn, STable.named_of_slot h.table ha]
      rfl
    · intro t' n j hj
      by_cases ht : t' = t
      · -- the thread that has just gone to sleep holds slot `i`
        have hji : (name, i) = (n, j) := by
          simpa [afterWait, STable.passed, ht] using hj
        obtain ⟨rfl, rfl⟩ := Prod.mk.inj hji
        exact ⟨(a.wait t).1, hslot, hname.trans hn⟩
      · refine hframes t' n j ?_
        simpa [afterWait, STable.passed, ht] using hj

omit [DecidableEq τ] in
/-- `V` in the slot of `name`. -/
theorem did_signal {s : SemCalls τ} (h : s.Inv) {i : Fin maxSemaphore} {a : Sem τ} {name : SemName}
    (ha : s.table.semTab i = some a) (hn : a.name = name) :
    Did s { s with table := s.table.set i a.signal, log := s.log ++ [(name, .v)] } name .v := by
  have hname : a.signal.name = a.name := rfl
  refine ⟨h.table.set ha hname, ?_, rfl, framesValid_set h.frames ha hname⟩
  rw [STable.named_set h.table ha hname, ← hn, STable.named_of_slot h.table ha]
  rfl

/-- The step changed neither the table nor the log, and put no thread to sleep. -/
structure DidNothing (s u : SemCalls τ) : Prop where
  table : u.table = s.table
  log : u.log = s.log
  waiting : ∀ t fr, u.waiting t = some fr → s.waiting t = some fr

omit [DecidableEq τ] in
theorem DidNothing.inv {s u : SemCalls τ} (hdid : DidNothing s u) (h : s.Inv) : u.Inv where
  table := by rw [hdid.table]; exact h.table
  frames := by
    intro t name i hi
    rw [hdid.table]
    exact h.frames t name i (hdid.waiting t _ hi)
  replay := by
    intro name
    rw [hdid.table, hdid.log]
    exact h.replay name

theorem step_create {s u : SemCalls τ} {t : τ} {name : SemName} {semval : BitVec 32}
    {room : SemRoom} (h : s.Inv) (hs : s.step (.create t name semval room) = some u) :
    (¬ (s.table.named name = none ∧ s.table.count < maxSemaphore) ∧ DidNothing s u) ∨
      s.table.named name = none ∧ s.table.count < maxSemaphore ∧
        Did s u name (.created semval) := by
  simp only [step] at hs
  split at hs
  · simp at hs
  · by_cases hfresh : s.table.named name = none ∧ s.table.count < maxSemaphore
    · obtain ⟨tab, hcreate, hwf, hnamed, hkept⟩ :=
        STable.create_of_fresh h.table semval room hfresh.1 hfresh.2
      rw [hcreate] at hs
      rw [← Option.some.inj hs]
      refine .inr ⟨hfresh.1, hfresh.2, hwf, hnamed, rfl, ?_⟩
      intro t' n i hi
      obtain ⟨a, ha, hn⟩ := h.frames t' n i hi
      exact ⟨a, hkept i a ha, hn⟩
    · rw [STable.create_of_not_fresh h.table semval room hfresh] at hs
      rw [← Option.some.inj hs]
      exact .inl ⟨hfresh, rfl, rfl, fun _ _ hw => hw⟩

theorem step_wait {s u : SemCalls τ} {t : τ} {name : SemName} (h : s.Inv)
    (hs : s.step (.wait t name) = some u) :
    DidNothing s u ∨
      ∃ sem, s.table.named name = some sem ∧ Did s u name (.p t (sem.p t).2) := by
  simp only [step] at hs
  split at hs
  · simp at hs
  · cases hn : s.table.named name with
    | none =>
      rw [STable.wait_of_none h.table hn] at hs
      rw [← Option.some.inj hs]
      refine .inl ⟨rfl, rfl, ?_⟩
      intro t' fr hw
      by_cases ht : t' = t
      · simp [afterWait, ht] at hw
      · simpa [afterWait, ht] using hw
    | some sem =>
      obtain ⟨i, a, ha, hname, rfl, hwait, _⟩ := STable.slot_of_named h.table hn
      rw [hwait t] at hs
      rw [← Option.some.inj hs]
      exact .inr ⟨a.sem, rfl, did_waitAt h ha hname⟩

theorem step_signal {s u : SemCalls τ} {t : τ} {name : SemName} (h : s.Inv)
    (hs : s.step (.signal t name) = some u) :
    (s.table.named name = none ∧ DidNothing s u) ∨
      ∃ sem, s.table.named name = some sem ∧ Did s u name .v := by
  simp only [step] at hs
  split at hs
  · simp at hs
  · cases hn : s.table.named name with
    | none =>
      rw [STable.signal_of_none h.table hn] at hs
      rw [← Option.some.inj hs]
      exact .inl ⟨rfl, rfl, rfl, fun _ _ hw => hw⟩
    | some sem =>
      obtain ⟨i, a, ha, hname, rfl, _, hsignal⟩ := STable.slot_of_named h.table hn
      rw [hsignal] at hs
      rw [← Option.some.inj hs]
      exact .inr ⟨a.sem, rfl, did_signal h ha hname⟩

theorem step_resume {s u : SemCalls τ} {t : τ} (h : s.Inv) (hs : s.step (.resume t) = some u) :
    ∃ (name : SemName) (sem : Semaphore τ), s.table.named name = some sem ∧
      Did s u name (.p t (sem.p t).2) := by
  simp only [step] at hs
  cases hw : s.waiting t with
  | none => simp [hw] at hs
  | some fr =>
    obtain ⟨name, i⟩ := fr
    obtain ⟨a, ha, hname⟩ := h.frames t name i hw
    simp only [hw, Option.bind_eq_bind, Option.bind_some] at hs
    split at hs
    · simp at hs
    · rw [STable.waitAt_of_slot ha t] at hs
      rw [← Option.some.inj hs]
      exact ⟨name, a.sem, hname ▸ STable.named_of_slot h.table ha, did_waitAt h ha hname⟩

/-- Everything a step can do. -/
theorem step_cases {s u : SemCalls τ} {e : SemCall τ} (h : s.Inv) (hs : s.step e = some u) :
    DidNothing s u ∨
    (∃ t name semval room, e = .create t name semval room ∧ s.table.named name = none ∧
      s.table.count < maxSemaphore ∧ Did s u name (.created semval)) ∨
    (∃ t name sem, (e = .wait t name ∨ e = .resume t) ∧ s.table.named name = some sem ∧
      Did s u name (.p t (sem.p t).2)) ∨
    (∃ t name sem, e = .signal t name ∧ s.table.named name = some sem ∧ Did s u name .v) := by
  cases e with
  | create t name semval room =>
    rcases step_create h hs with ⟨_, hdid⟩ | ⟨hnew, hroom, hdid⟩
    · exact .inl hdid
    · exact .inr (.inl ⟨t, name, semval, room, rfl, hnew, hroom, hdid⟩)
  | wait t name =>
    rcases step_wait h hs with hdid | ⟨sem, hsem, hdid⟩
    · exact .inl hdid
    · exact .inr (.inr (.inl ⟨t, name, sem, .inl rfl, hsem, hdid⟩))
  | signal t name =>
    rcases step_signal h hs with ⟨_, hdid⟩ | ⟨sem, hsem, hdid⟩
    · exact .inl hdid
    · exact .inr (.inr (.inr ⟨t, name, sem, rfl, hsem, hdid⟩))
  | resume t =>
    obtain ⟨name, sem, hsem, hdid⟩ := step_resume h hs
    exact .inr (.inr (.inl ⟨t, name, sem, .inr rfl, hsem, hdid⟩))

theorem inv_step (s : SemCalls τ) (e : SemCall τ) (u : SemCalls τ) (h : s.Inv)
    (hs : s.step e = some u) : u.Inv := by
  rcases step_cases h hs with hdid | ⟨_, _, _, _, _, _, _, hdid⟩ | ⟨_, _, _, _, _, hdid⟩ |
    ⟨_, _, _, _, _, hdid⟩
  · exact hdid.inv h
  · exact hdid.inv h
  · exact hdid.inv h
  · exact hdid.inv h

/-! ## Whole runs -/

/--
**The table is a map from names to semaphores.**

Whatever calls the threads make and in whatever order they run: the bitmap says which slots are in
use, no two of these have the same name, and the routines act on the map. `Create` adds a semaphore
when the name is new and there is room, and otherwise changes nothing. `Wait` and `Signal` do `P`
and `V` to the semaphore of that name only, also when the thread comes back from its sleep. So each
semaphore is what the operations on its own name have made of it since it was created. The names are
those that fit into `name[50]`.
-/
theorem run_named_semaphores {es : List (SemCall τ)} {s : SemCalls τ}
    (h : run step start es = some s) :
    (∀ i : Fin maxSemaphore, s.table.bm.test i.val = some (s.table.semTab i).isSome) ∧
    (∀ i j a b, s.table.semTab i = some a → s.table.semTab j = some b → i ≠ j → a.name ≠ b.name) ∧
    (∀ (name : SemName) semval room,
      (s.table.named name = none ∧ s.table.count < maxSemaphore → ∃ tab,
        s.table.create name semval room = some (tab, 0) ∧
        tab.named = Function.update s.table.named name (some (.new semval))) ∧
      (¬ (s.table.named name = none ∧ s.table.count < maxSemaphore) →
        s.table.create name semval room = some (s.table, -1))) ∧
    (∀ (name : SemName) t,
      (s.table.named name = none → s.table.wait name t = some (s.table, .answered (-1))) ∧
      (∀ sem, s.table.named name = some sem → ∃ tab i,
        s.table.wait name t = some (tab, STable.passed i (sem.p t).2) ∧
        tab.named = Function.update s.table.named name (some (sem.p t).1))) ∧
    (∀ t name i, s.waiting t = some (name, i) → ∃ sem tab, s.table.named name = some sem ∧
      s.table.waitAt i t = some (tab, STable.passed i (sem.p t).2) ∧
      tab.named = Function.update s.table.named name (some (sem.p t).1)) ∧
    (∀ name : SemName,
      (s.table.named name = none → s.table.signal name = some (s.table, -1)) ∧
      (∀ sem, s.table.named name = some sem → ∃ tab, s.table.signal name = some (tab, 0) ∧
        tab.named = Function.update s.table.named name (some sem.v))) ∧
    (∀ name : SemName, s.table.named name = replay name s.log) := by
  have hinv : s.Inv := run_invariant inv_step inv_start h
  have hwf := hinv.table
  refine ⟨STable.test_eq hwf, ?_, ?_, ?_, ?_, ?_, hinv.replay⟩
  · intro i j a b ha hb hij hname
    exact hij (hwf.apart i j a b ha hb hname)
  · intro name semval room
    refine ⟨?_, STable.create_of_not_fresh hwf semval room⟩
    rintro ⟨hnew, hroom⟩
    obtain ⟨tab, hcreate, _, hnamed, _⟩ := STable.create_of_fresh hwf semval room hnew hroom
    exact ⟨tab, hcreate, hnamed⟩
  · intro name t
    refine ⟨fun hnone => STable.wait_of_none hwf hnone t, ?_⟩
    intro sem hsem
    obtain ⟨i, a, ha, hname, rfl, hwait, _⟩ := STable.slot_of_named hwf hsem
    exact ⟨_, i, hwait t, hname ▸ STable.named_set hwf ha rfl⟩
  · intro t name i hw
    obtain ⟨a, ha, hname⟩ := hinv.frames t name i hw
    rw [← hname]
    exact ⟨a.sem, _, STable.named_of_slot hwf ha, STable.waitAt_of_slot ha t,
      STable.named_set hwf ha rfl⟩
  · intro name
    refine ⟨STable.signal_of_none hwf, ?_⟩
    intro sem hsem
    obtain ⟨i, a, ha, hname, rfl, _, hsignal⟩ := STable.slot_of_named hwf hsem
    exact ⟨_, hsignal, hname ▸ STable.named_set hwf ha rfl⟩

/-- The names `a` and `b`. -/
def semA : SemName := { toCStr := .ofBytes [97], fits := by decide }
def semB : SemName := { toCStr := .ofBytes [98], fits := by decide }

/-- Memory that holds nothing yet, and an address. -/
def someRoom : SemRoom := { sem := 0x0804c0a8, bytes := [] }

/-- Thread 1 sleeps in `Wait("a")` while thread 2 creates `"b"` and signals `"a"`. -/
theorem run_named_semaphores_sleep :
    ∃ s : SemCalls Nat,
      run step start [.create 2 semA 0 someRoom, .wait 1 semA, .create 2 semB 5 someRoom,
        .signal 2 semA, .resume 1] = some s ∧
      s.table.named semA = some { value := 0, queue := [] } ∧
      s.table.named semB = some { value := 5, queue := [] } := by
  refine ⟨_, rfl, ?_⟩
  have hmap := (@run_named_semaphores Nat _ [.create 2 semA 0 someRoom, .wait 1 semA,
    .create 2 semB 5 someRoom, .signal 2 semA, .resume 1] _ rfl).2.2.2.2.2.2
  exact ⟨(hmap semA).trans rfl, (hmap semB).trans rfl⟩

/-- The name `aa..a` of 53 characters. -/
def semLong : CStr := { chars := List.replicate 53 97, nonzero := by decide }

/--
The address of the semaphore goes over the last character of a name that is too long: the name is
not found again.
-/
theorem create_long_name_not_found :
    ∃ tab tab' : STable Nat, STable.new.create semLong 1 someRoom = some (tab, 0) ∧
      tab.wait semLong 0 = some (tab, .answered (-1)) ∧
      tab.create semLong 5 someRoom = some (tab', 0) :=
  ⟨_, _, rfl, rfl, rfl⟩

/-! ## How many waits get through -/

/-- The value under `name` is not negative, and no more waits have completed than were permitted. -/
def Permitted (name : SemName) (s : SemCalls τ) : Prop :=
  ∀ sem semval, s.table.named name = some sem → (name, .created semval) ∈ s.log →
    0 ≤ sem.value ∧ (completedWaits name s.log : Int) ≤ max semval.toInt 0 + signals name s.log

/--
The call does not break the semaphore `name`: it does not create it with a negative value, and it
does not signal it at the largest `int`.
-/
def Safe (name : SemName) (s : SemCalls τ) : SemCall τ → Prop
  | .create _ n semval _ =>
    n = name → s.table.named name = none → s.table.count < maxSemaphore → 0 ≤ semval.toInt
  | .signal _ n => n = name → ∀ sem, s.table.named name = some sem → sem.value ≠ 2 ^ 31 - 1
  | _ => True

/-- The value under `name` is exactly what was put in minus what was taken. -/
def Exact (name : SemName) (semval : BitVec 32) (sem : Semaphore τ) (s : SemCalls τ) : Prop :=
  s.table.named name = some sem ∧ (∀ w, (name, .created w) ∈ s.log ↔ w = semval) ∧
    0 ≤ semval.toInt ∧ sem.value = semval.toInt + signals name s.log - completedWaits name s.log ∧
    0 ≤ sem.value ∧ sem.value < 2 ^ 31

/-- What holds of the semaphore `name` for as long as every call is `Safe`. -/
structure Counted (name : SemName) (s : SemCalls τ) : Prop where
  inv : s.Inv
  exact : (s.table.named name = none ∧ history name s.log = []) ∨
    ∃ semval sem, Exact name semval sem s

omit [DecidableEq τ] in
theorem counted_start (name : SemName) : Counted name (start : SemCalls τ) :=
  ⟨inv_start, .inl ⟨congrFun STable.named_new name, rfl⟩⟩

omit [DecidableEq τ] in
theorem Counted.permitted {name : SemName} {s : SemCalls τ} (h : Counted name s) :
    Permitted name s := by
  intro sem semval hsem hcreated
  rcases h.exact with ⟨hnone, _⟩ | ⟨semval', sem', hsem', hlog, hpos, hvalue, hnn, _⟩
  · rw [hsem] at hnone
    simp at hnone
  · obtain rfl := (hlog semval).mp hcreated
    rw [hsem] at hsem'
    obtain rfl := Option.some.inj hsem'
    exact ⟨hnn, by omega⟩

omit [DecidableEq τ] in
/-- What is done to another name is not seen. -/
theorem Counted.of_other {name n : SemName} {op : SemOp τ} {s u : SemCalls τ} (h : Counted name s)
    (hn : n ≠ name) (hdid : Did s u n op) : Counted name u := by
  have hhist : history name u.log = history name s.log := by
    rw [hdid.log, history_append_of_ne hn]
  have hnamed : u.table.named name = s.table.named name := by
    have hne : name.toCStr ≠ n.toCStr := fun he => hn (SemName.toCStr_inj.mp he).symm
    rw [hdid.named, Function.update_of_ne hne]
  refine ⟨hdid.inv h.inv, ?_⟩
  simp only [Exact, ← mem_history, signals, completedWaits, hhist, hnamed]
  have hexact := h.exact
  simp only [Exact, ← mem_history, signals, completedWaits] at hexact
  exact hexact

omit [DecidableEq τ] in
theorem Counted.of_nothing {name : SemName} {s u : SemCalls τ} (h : Counted name s)
    (hdid : DidNothing s u) : Counted name u := by
  refine ⟨hdid.inv h.inv, ?_⟩
  have hexact := h.exact
  simp only [Exact] at hexact ⊢
  rw [hdid.table, hdid.log]
  exact hexact

omit [DecidableEq τ] in
/-- The log of `name` after one more operation on it. -/
theorem Did.history {name : SemName} {op : SemOp τ} {s u : SemCalls τ} (hdid : Did s u name op) :
    history name u.log = Nachos.history name s.log ++ [op] := by
  rw [hdid.log, history_append_self]

omit [DecidableEq τ] in
theorem Counted.of_created {name : SemName} {semval : BitVec 32} {s u : SemCalls τ}
    (h : Counted name s) (hnew : s.table.named name = none) (hpos : 0 ≤ semval.toInt)
    (hdid : Did s u name (.created semval)) : Counted name u := by
  have hempty : history name s.log = [] := by
    rcases h.exact with ⟨_, hempty⟩ | ⟨_, sem, hsem, _⟩
    · exact hempty
    · rw [hnew] at hsem
      simp at hsem
  have hhist := hdid.history
  rw [hempty, List.nil_append] at hhist
  have hlt := BitVec.toInt_lt (x := semval)
  refine ⟨hdid.inv h.inv, .inr ⟨semval, .new semval, ?_, ?_, hpos, ?_, hpos, hlt⟩⟩
  · rw [hdid.named, Function.update_self]
    rfl
  · intro w
    rw [← mem_history, hhist]
    simp
  · simp [signals, completedWaits, hhist, Semaphore.new]

omit [DecidableEq τ] in
theorem Counted.of_p {name : SemName} {t : τ} {sem : Semaphore τ} {s u : SemCalls τ}
    (h : Counted name s) (hsem : s.table.named name = some sem)
    (hdid : Did s u name (.p t (sem.p t).2)) : Counted name u := by
  have hhist := hdid.history
  rcases h.exact with ⟨hnone, _⟩ | ⟨semval, sem', hsem', hlog, hpos, hvalue, hnn, hlt⟩
  · rw [hsem] at hnone
    simp at hnone
  rw [hsem] at hsem'
  obtain rfl := Option.some.inj hsem'
  have hnamed : u.table.named name = some (sem.p t).1 := by
    rw [hdid.named, Function.update_self, hsem]
    rfl
  refine ⟨hdid.inv h.inv, .inr ⟨semval, (sem.p t).1, hnamed, ?_, hpos, ?_⟩⟩
  · intro w
    rw [← mem_history, hhist, ← hlog w, ← mem_history]
    simp
  · simp only [signals, completedWaits, hhist, List.countP_append] at hvalue ⊢
    by_cases hv : sem.value = 0
    · simp only [Semaphore.p_of_zero hv, List.countP_singleton, Bool.false_eq_true, if_false]
      omega
    · simp only [Semaphore.p_of_pos (t := t) (by omega) hlt, List.countP_singleton,
        Bool.false_eq_true, if_false, if_true]
      push_cast
      omega

omit [DecidableEq τ] in
theorem Counted.of_v {name : SemName} {sem : Semaphore τ} {s u : SemCalls τ}
    (h : Counted name s) (hsem : s.table.named name = some sem) (hmax : sem.value ≠ 2 ^ 31 - 1)
    (hdid : Did s u name .v) : Counted name u := by
  have hhist := hdid.history
  rcases h.exact with ⟨hnone, _⟩ | ⟨semval, sem', hsem', hlog, hpos, hvalue, hnn, hlt⟩
  · rw [hsem] at hnone
    simp at hnone
  rw [hsem] at hsem'
  obtain rfl := Option.some.inj hsem'
  have hnamed : u.table.named name = some sem.v := by
    rw [hdid.named, Function.update_self, hsem]
    rfl
  have hv : sem.v.value = sem.value + 1 := Semaphore.v_value hnn (by omega)
  refine ⟨hdid.inv h.inv, .inr ⟨semval, sem.v, hnamed, ?_, hpos, ?_⟩⟩
  · intro w
    rw [← mem_history, hhist, ← hlog w, ← mem_history]
    simp
  · simp only [signals, completedWaits, hhist, List.countP_append] at hvalue ⊢
    simp only [hv, List.countP_singleton, Bool.false_eq_true, if_false, if_true]
    push_cast
    omega

theorem counted_step {name : SemName} (s : SemCalls τ) (e : SemCall τ) (u : SemCalls τ)
    (h : Counted name s) (hs : s.step e = some u) (hsafe : Safe name s e) : Counted name u := by
  rcases step_cases h.inv hs with hdid | ⟨t, n, semval, room, rfl, hnew, hroom, hdid⟩ |
    ⟨t, n, sem, _, hsem, hdid⟩ | ⟨t, n, sem, rfl, hsem, hdid⟩
  · exact h.of_nothing hdid
  · by_cases hn : n = name
    · obtain rfl := hn
      exact h.of_created hnew (hsafe rfl hnew hroom) hdid
    · exact h.of_other hn hdid
  · by_cases hn : n = name
    · obtain rfl := hn
      exact h.of_p hsem hdid
    · exact h.of_other hn hdid
  · by_cases hn : n = name
    · obtain rfl := hn
      exact h.of_v hsem (hsafe rfl sem hsem) hdid
    · exact h.of_other hn hdid

/-- A call that is not `Safe` shows at once. -/
theorem safe_of_permitted {name : SemName} (s : SemCalls τ) (e : SemCall τ) (u : SemCalls τ)
    (h : Counted name s) (hs : s.step e = some u) (hp : Permitted name u) : Safe name s e := by
  cases e with
  | wait t n => exact trivial
  | resume t => exact trivial
  | create t n semval room =>
    rintro rfl hnew hroom
    rcases step_create h.inv hs with ⟨hnot, _⟩ | ⟨_, _, hdid⟩
    · exact absurd ⟨hnew, hroom⟩ hnot
    · have hnamed : u.table.named n = some (.new semval) := by
        rw [hdid.named, Function.update_self]
        rfl
      exact (hp _ semval hnamed (by rw [hdid.log]; simp)).1
  | signal t n =>
    rintro rfl sem hsem hmax
    rcases step_signal h.inv hs with ⟨hnone, _⟩ | ⟨_, _, hdid⟩
    · rw [hsem] at hnone
      simp at hnone
    rcases h.exact with ⟨hnone, _⟩ | ⟨semval, _, _, hlog, _⟩
    · rw [hsem] at hnone
      simp at hnone
    have hnamed : u.table.named n = some sem.v := by
      rw [hdid.named, Function.update_self, hsem]
      rfl
    have hcreated : (n, SemOp.created semval) ∈ u.log := by
      rw [hdid.log]
      exact List.mem_append_left _ ((hlog semval).mpr rfl)
    have hnn := (hp sem.v semval hnamed hcreated).1
    rw [Semaphore.v_value_of_max hmax] at hnn
    omega

/--
**When no more waits get through than permitted.**

A `Create` that makes a semaphore with a negative value breaks it: `P` blocks at the value 0 only,
so it lets every wait through. A `Signal` at the largest `int` has the same effect. In runs without
such a call on `name`, and in no others, the value is never negative and the completed waits never
exceed the initial value plus the signals.
-/
theorem run_waits_permitted_iff (name : SemName) {es : List (SemCall τ)} {s : SemCalls τ}
    (h : run step start es = some s) :
    AllStates step (Permitted name) start es ↔ AllSteps step (Safe name) start es :=
  allStates_iff_allSteps_of (fun _ hc => hc.permitted) counted_step safe_of_permitted
    (counted_start name) h

/-- A semaphore of value 1 that is taken, waited for, signalled and taken again. -/
theorem run_waits_permitted_one :
    AllStates step (Permitted semA) (start : SemCalls Nat)
      [.create 0 semA 1 someRoom, .wait 0 semA, .wait 1 semA, .signal 0 semA, .resume 1] := by
  refine (run_waits_permitted_iff _ rfl).mpr ?_
  refine ⟨fun _ _ _ => by decide, fun s₁ h₁ => ⟨trivial, fun s₂ h₂ => ⟨trivial, fun s₃ h₃ =>
    ⟨?_, fun _ _ => ⟨trivial, fun _ _ => trivial⟩⟩⟩⟩⟩
  intro _ sem hsem
  have hinv : s₃.Inv := inv_step _ _ _ (inv_step _ _ _ (inv_step _ _ _ inv_start h₁) h₂) h₃
  rw [hinv.replay] at hsem
  obtain rfl := Option.some.inj h₁
  obtain rfl := Option.some.inj h₂
  obtain rfl := Option.some.inj h₃
  have hvalue : sem = { value := 0, queue := [1] } := Option.some.inj (hsem.symm.trans rfl)
  rw [hvalue]
  decide

/-- `CreateSemaphore("a", -1)` and then `Wait("a")`: the wait completes, and the value is -2. -/
theorem negative_semval_not_permitted :
    ∃ s : SemCalls Nat,
      run step start [.create 0 semA (-1) someRoom, .wait 0 semA] = some s ∧
      s.table.named semA = some { value := -2, queue := [] } ∧
      completedWaits semA s.log = 1 ∧ signals semA s.log = 0 ∧ ¬ Permitted semA s := by
  obtain ⟨s, hs, hlog⟩ : ∃ s : SemCalls Nat,
      run step start [.create 0 semA (-1) someRoom, .wait 0 semA] = some s ∧
      s.log = [(semA, .created (-1)), (semA, .p 0 true)] := ⟨_, rfl, rfl⟩
  have hinv : s.Inv := run_invariant inv_step inv_start hs
  have hnamed : s.table.named semA = some { value := -2, queue := [] } := by
    rw [hinv.replay, hlog]
    rfl
  refine ⟨s, hs, hnamed, by rw [hlog]; rfl, by rw [hlog]; rfl, ?_⟩
  intro hp
  have hnn := (hp _ (-1) hnamed (by rw [hlog]; exact List.mem_cons_self)).1
  simp at hnn

end SemCalls

end Runs

end Nachos
