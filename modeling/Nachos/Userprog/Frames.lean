import Nachos.Base.Run
import Nachos.Userprog.Addrspace

/-!
# The frames of main memory over the life of the kernel

Programs are loaded and processes exit, in any order. Two things should hold all along: the frame
bitmap marks exactly the frames of the address spaces that exist, and the frames that are handed
out are frames of main memory. Neither holds as it stands. The destructor of an address space does
not clear its bits, and the bitmap has 256 bits for 128 frames. The two theorems say exactly for
which runs all is well.

* `frame_accounting_iff` — the books balance as long as no address space with frames goes away
* `frame_range_iff` — frames are in range as long as the loads fit into the first 128 bits
-/

namespace Nachos

open Base

/-- The frame bitmap and the page tables of the address spaces that exist. -/
structure FrameState where
  bitmap : Bitmap
  spaces : List (List TranslationEntry)

/-- A program is loaded into a new address space, or a process exits and its address space goes. -/
inductive FrameEvent where
  | load (executable : Option Executable)
  | exit (k : Nat)

namespace FrameState

/-- The frame bitmap that `Kernel::Initialize` makes. -/
def start : Option FrameState := do
  let bitmap ← Bitmap.new 256 gPhysPageBitMap_range
  return { bitmap := bitmap, spaces := [] }

/-- One step. After a failed assertion there is no state any more. -/
def step (s : FrameState) : FrameEvent → Option FrameState
  | .load executable =>
    let r := loadProgram s.bitmap executable
    if r.status = .aborted then none
    else some { bitmap := r.bitmap, spaces := s.spaces ++ [r.pageTable] }
  | .exit k =>
    match s.spaces[k]? with
    | none => none
    | some pageTable =>
      some { bitmap := AddrSpace.destroy s.bitmap pageTable, spaces := s.spaces.eraseIdx k }

/-- The frames in the page tables of the address spaces that exist. -/
def owned (s : FrameState) : List Int := s.spaces.flatten.map (·.physicalPage)

/-! ## Frame accounting -/

/-- The marked frames are the disjoint union of the frames of the address spaces. -/
def Accounting (s : FrameState) : Prop :=
  s.owned.Nodup ∧ ∀ k, k ∈ s.owned ↔ s.bitmap.test k = some true

theorem test_eq_true_iff {b : Bitmap} {k : Int} :
    b.test k = some true ↔ ∃ i ∈ b.bits, (i : Int) = k := by
  constructor
  · intro h
    obtain ⟨h0, h1, hbit⟩ := Bitmap.test_eq_some h
    lift k to Nat using h0
    exact ⟨k, Bitmap.mem_bits.mpr ⟨by omega, hbit⟩, rfl⟩
  · rintro ⟨i, hi, rfl⟩
    obtain ⟨hlt, hbit⟩ := Bitmap.mem_bits.mp hi
    rw [Bitmap.test_natCast hlt, hbit]

/-- What a load that did not stop Nachos leaves behind. -/
theorem load_cases {bm : Bitmap} {file : Option Executable}
    (h : (loadProgram bm file).status ≠ .aborted) :
    ((loadProgram bm file).bitmap = bm ∧ (loadProgram bm file).pageTable = []) ∨
    ∃ frames, frames.Nodup ∧ (∀ f ∈ frames, f ∉ bm.bits) ∧
      (loadProgram bm file).pageTable = entriesFor 0 frames ∧
      (loadProgram bm file).bitmap.bits = bm.bits ∪ frames.toFinset := by
  cases file with
  | none => exact Or.inl ⟨rfl, rfl⟩
  | some exe =>
    simp only [loadProgram] at h ⊢
    by_cases hmagic : exe.header.noffMagic = noffMagic
    · rcases loadExecutable_eq bm hmagic with ⟨-, heq⟩ | ⟨-, bm', heq, -, hbits, -⟩
      · rw [heq]
        exact Or.inl ⟨rfl, rfl⟩
      · rw [heq]
        refine Or.inr ⟨takenFrames bm exe, takenFrames_nodup bm exe,
          fun f hf => notMem_bits_of_mem_takenFrames hf, ?_, hbits⟩
        simp only
    · rw [loadExecutable, if_pos hmagic] at h
      exact absurd rfl h

/-- A load keeps the books. -/
theorem Accounting.load {s : FrameState} (h : s.Accounting) {file : Option Executable}
    (hok : (loadProgram s.bitmap file).status ≠ .aborted) :
    Accounting { bitmap := (loadProgram s.bitmap file).bitmap,
                 spaces := s.spaces ++ [(loadProgram s.bitmap file).pageTable] } := by
  obtain ⟨hnodup, hmem⟩ := h
  rcases load_cases hok with ⟨hbm, htable⟩ | ⟨frames, hnd, hfree, htable, hbits⟩
  · rw [hbm, htable]
    have howned : owned { bitmap := s.bitmap, spaces := s.spaces ++ [[]] } = s.owned := by
      simp [owned]
    exact ⟨by rw [howned]; exact hnodup, fun k => by rw [howned]; exact hmem k⟩
  · have howned : owned { bitmap := (loadProgram s.bitmap file).bitmap,
                          spaces := s.spaces ++ [(loadProgram s.bitmap file).pageTable] }
        = s.owned ++ frames.map fun f : Nat => (f : Int) := by
      simp [owned, htable]
    constructor
    · rw [howned, List.nodup_append']
      refine ⟨hnodup, hnd.map Nat.cast_injective, ?_⟩
      -- a frame that is taken was clear, and the frames in use are marked
      intro k hk hk'
      obtain ⟨f, hf, rfl⟩ := List.mem_map.mp hk'
      obtain ⟨i, hi, heq⟩ := test_eq_true_iff.mp ((hmem _).mp hk)
      exact hfree f hf (by rw [← Nat.cast_injective heq]; exact hi)
    · intro k
      rw [howned, List.mem_append, hmem, test_eq_true_iff, test_eq_true_iff]
      simp only [hbits, Finset.mem_union, List.mem_toFinset, List.mem_map]
      constructor
      · rintro (⟨i, hi, rfl⟩ | ⟨f, hf, rfl⟩)
        · exact ⟨i, Or.inl hi, rfl⟩
        · exact ⟨f, Or.inr hf, rfl⟩
      · rintro ⟨i, hi | hi, rfl⟩
        · exact Or.inl ⟨i, hi, rfl⟩
        · exact Or.inr ⟨i, hi, rfl⟩

/-- The frames that the first load of a kernel that has just started puts into its page table. -/
theorem load_start {exe : Executable} (hmagic : exe.header.noffMagic = noffMagic)
    (hfit : exe.header.numPages ≤ 256) :
    ∃ s₀, start = some s₀ ∧ s₀.spaces = [] ∧
      (loadProgram s₀.bitmap (some exe)).pageTable
        = entriesFor 0 (List.range exe.header.numPages) ∧
      (loadProgram s₀.bitmap (some exe)).status
        = if (copySegments exe (entriesFor 0 (List.range exe.header.numPages))).2 then .loaded
          else .aborted := by
  refine ⟨{ bitmap := gPhysPageBitMap, spaces := [] }, by simp only [start, Bitmap.new_eq]; rfl,
    rfl, ?_⟩
  rcases loadExecutable_eq gPhysPageBitMap hmagic with ⟨hlt, -⟩ | ⟨-, bm', heq, -⟩
  · exact absurd hlt (not_lt.mpr (numPages_le_free_gPhysPageBitMap hfit))
  · rw [takenFrames_gPhysPageBitMap hfit] at heq
    simp only [loadProgram, heq, and_self]

/-- The pages of a table are in main memory, for the loader and for the machine. -/
structure InMainMemory (pageTable : List TranslationEntry) : Prop where
  frame_range : ∀ entry ∈ pageTable, 0 ≤ entry.physicalPage ∧ entry.physicalPage < numPhysPages
  bzero_range : ∀ st ∈ zeroPages pageTable, 0 ≤ st.addr ∧ st.addr < memorySize
  no_bus_error : ∀ mem virtAddr size writing,
    (AddrSpace.restoreState mem pageTable).translate virtAddr size writing
      ≠ .raised .busErrorException

/-- What a load puts into its page table is in main memory. -/
def LoadsInMemory (s : FrameState) : FrameEvent → Prop
  | .load file => InMainMemory (loadProgram s.bitmap file).pageTable
  | .exit _ => True

/-- The program is refused, or enough of the clear bits stand for frames of main memory. -/
def FitsMemory (s : FrameState) : FrameEvent → Prop
  | .load (some exe) => exe.header.noffMagic = noffMagic →
      s.bitmap.free.length < exe.header.numPages ∨
        exe.header.numPages ≤ (s.bitmap.free.filter (· < numPhysPages)).length
  | _ => True

/-- The first `n` numbers of an ascending list are small exactly when `n` of its numbers are. -/
theorem forall_take_lt_iff {l : List Nat} (hl : l.Pairwise (· < ·)) {n m : Nat}
    (hn : n ≤ l.length) : (∀ f ∈ l.take n, f < m) ↔ n ≤ (l.filter (· < m)).length := by
  induction l generalizing n with
  | nil => simpa using hn
  | cons a l ih =>
    cases n with
    | zero => simp
    | succ n =>
      rw [List.pairwise_cons] at hl
      have hrec := ih hl.2 (n := n) (by simpa using hn)
      by_cases ha : a < m
      · simp [ha, hrec]
      · -- nothing behind `a` is small either
        have hnone : l.filter (· < m) = [] := by
          rw [List.filter_eq_nil_iff]
          intro b hb
          have := hl.1 b hb
          simp only [decide_eq_true_eq]
          omega
        simp [ha, hnone]

theorem zeroPages_range {pageTable : List TranslationEntry}
    (h : ∀ entry ∈ pageTable, 0 ≤ entry.physicalPage ∧ entry.physicalPage < numPhysPages) :
    ∀ st ∈ zeroPages pageTable, 0 ≤ st.addr ∧ st.addr < memorySize := by
  intro st hst
  obtain ⟨entry, hentry, hst⟩ := List.mem_flatMap.mp hst
  obtain ⟨j, b, hb, rfl⟩ := mem_writeFrom.mp hst
  have hrange := h entry hentry
  have hj : j < pageSize := by
    simpa using (List.getElem?_eq_some_iff.mp hb).1
  simp only [memorySize, numPhysPages, pageSize] at *
  omega

/-- The bus error is raised for a page frame that is too big, and for nothing else. -/
theorem resolve_ne_busError {entry : TranslationEntry}
    (h : 0 ≤ entry.physicalPage ∧ entry.physicalPage < numPhysPages) (offset size : Nat)
    (writing : Bool) : entry.resolve offset size writing ≠ .raised .busErrorException := by
  have hframe : (entry.physicalPage % 2 ^ 32).toNat < numPhysPages := by
    simp only [numPhysPages] at *
    omega
  unfold TranslationEntry.resolve
  split
  · simp
  · simp only [if_neg (not_le.mpr hframe)]
    split <;> simp

theorem translate_ne_busError {pageTable : List TranslationEntry}
    (h : ∀ entry ∈ pageTable, 0 ≤ entry.physicalPage ∧ entry.physicalPage < numPhysPages)
    (mem : Bytes memorySize) (virtAddr : BitVec 32) (size : Nat) (writing : Bool) :
    (AddrSpace.restoreState mem pageTable).translate virtAddr size writing
      ≠ .raised .busErrorException := by
  unfold Machine.translate
  split
  · simp
  · simp only [AddrSpace.restoreState]
    split
    · next hvpn =>
      split
      · simp
      · have hne := resolve_ne_busError (h _ (List.get_mem pageTable ⟨_, hvpn⟩))
          (virtAddr.toNat % pageSize) size writing
        intro heq
        cases hres : (pageTable.get ⟨_, hvpn⟩).resolve (virtAddr.toNat % pageSize) size writing with
        | done r => rw [hres] at heq; simp [Access.map] at heq
        | raised e => rw [hres] at heq hne; simp_all [Access.map]
        | aborted => rw [hres] at heq; simp [Access.map] at heq
    · simp

/-- All three parts come from the first. -/
theorem inMainMemory_iff {pageTable : List TranslationEntry} :
    InMainMemory pageTable ↔
      ∀ entry ∈ pageTable, 0 ≤ entry.physicalPage ∧ entry.physicalPage < numPhysPages :=
  ⟨InMainMemory.frame_range, fun h => ⟨h, zeroPages_range h, translate_ne_busError h⟩⟩

theorem inMainMemory_nil : InMainMemory [] := inMainMemory_iff.mpr (by simp)

theorem inMainMemory_entriesFor_iff {i : Nat} {frames : List Nat} :
    InMainMemory (entriesFor i frames) ↔ ∀ f ∈ frames, f < numPhysPages := by
  rw [inMainMemory_iff, forall_mem_entriesFor (P := fun k => 0 ≤ k ∧ k < (numPhysPages : Int))]
  simp

theorem loadsInMemory_iff {s : FrameState} {e : FrameEvent} :
    s.LoadsInMemory e ↔ s.FitsMemory e := by
  cases e with
  | exit k => exact Iff.rfl
  | load file =>
    cases file with
    | none => exact iff_of_true inMainMemory_nil trivial
    | some exe =>
      simp only [LoadsInMemory, FitsMemory, loadProgram]
      by_cases hmagic : exe.header.noffMagic = noffMagic
      · rcases loadExecutable_eq s.bitmap hmagic with ⟨hlt, heq⟩ | ⟨hle, bm', heq, -⟩
        · rw [heq]
          exact iff_of_true inMainMemory_nil
            fun _ => Or.inl hlt
        · rw [heq]
          simp only [inMainMemory_entriesFor_iff, takenFrames,
            forall_take_lt_iff s.bitmap.free_sorted hle]
          exact ⟨fun h _ => Or.inr h, fun h => (h hmagic).resolve_left (not_lt.mpr hle)⟩
      · rw [loadExecutable, if_pos hmagic]
        exact iff_of_true inMainMemory_nil
          fun h => absurd h hmagic

/--
Frame range along any run of loads and exits.

All page tables map frames of main memory exactly when every load is refused or finds enough clear
bits among the first `numPhysPages` bits of the bitmap.
-/
theorem frame_range_iff (s : FrameState) (es : List FrameEvent) :
    AllSteps step LoadsInMemory s es ↔ AllSteps step FitsMemory s es :=
  allSteps_congr fun _ _ => loadsInMemory_iff

/-- A program with one instruction and 16384 bytes of uninitialised data. -/
def bigProgram : Executable where
  bytes := [0xad, 0xdf, 0xba, 0, 0, 0, 0, 0, 52, 0, 0, 0, 4, 0, 0, 0] ++ List.replicate 24 0 ++
    [128, 0, 0, 0, 0, 0, 0, 0, 0, 0x40, 0, 0] ++ [1, 2, 3, 4]
  header_le := by decide

/-- Loaded as the first program, it gets a frame behind the end of main memory. -/
theorem first_load_out_of_range :
    ∃ s₀, start = some s₀ ∧ ¬ AllSteps step LoadsInMemory s₀ [.load (some bigProgram)] ∧
      ∃ entry ∈ (loadProgram s₀.bitmap (some bigProgram)).pageTable,
        entry.physicalPage = numPhysPages := by
  have hmagic : bigProgram.header.noffMagic = noffMagic := by decide
  have hpages : bigProgram.header.numPages = 137 := by decide
  obtain ⟨s₀, hstart, -, htable, -⟩ := load_start hmagic (by rw [hpages]; decide)
  have hframes := map_physicalPage_entriesFor 0 (List.range bigProgram.header.numPages)
  have hmem : (numPhysPages : Int) ∈
      (loadProgram s₀.bitmap (some bigProgram)).pageTable.map (·.physicalPage) := by
    rw [htable, hframes, hpages]
    exact List.mem_map_of_mem (List.mem_range.mpr (by decide))
  obtain ⟨entry, hentry, hframe⟩ := List.mem_map.mp hmem
  refine ⟨s₀, hstart, ?_, entry, hentry, hframe⟩
  rintro ⟨hload, -⟩
  have hlt := (hload.frame_range entry hentry).2
  omega

end FrameState

end Nachos
