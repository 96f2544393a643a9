import Nachos.Userprog.Addrspace

/-!
# The translator of the kernel (`userprog/addrspace.cc`)

`AddrSpace::Translate` is a second translator beside `Machine::Translate`. Its page frame is an
`int`, and it does not look at the valid bit. For the entries that the loader makes the two do
the same.

* `AddrSpace.translate_agree` — the same exceptions, addresses and bits
* `AddrSpace.translate_agree_loaded` — the page tables of loaded programs
-/

namespace Nachos

open Base

/-- The entry is valid, and its frame number is an `int` that is not negative. -/
structure TranslationEntry.Mapped (entry : TranslationEntry) : Prop where
  valid : entry.valid = true
  nonneg : 0 ≤ entry.physicalPage
  isInt : entry.physicalPage < 2 ^ 31

namespace AddrSpace

variable {n : Nat}

/-- `AddrSpace::Translate`, with `n` for `numPages`. -/
def translate (pageTable : Fin n → TranslationEntry) (vaddr : BitVec 32) (isReadWrite : Bool) :
    Access ((Fin n → TranslationEntry) × BitVec 32) :=
  let vpn := vaddr.toNat / pageSize
  let offset := vaddr.toNat % pageSize
  if h : vpn < n then
    let pte := pageTable ⟨vpn, h⟩
    if isReadWrite && pte.readOnly then .raised .readOnlyException
    else
      let pfn := pte.physicalPage
      -- Both sides are `int`s.
      if numPhysPages ≤ pfn then .raised .busErrorException
      else
        let pte := { pte with use := true }
        let pte := if isReadWrite then { pte with dirty := true } else pte
        let paddr := BitVec.ofInt 32 (pfn * pageSize) + BitVec.ofNat 32 offset
        if paddr.toNat < memorySize then .done (Function.update pageTable ⟨vpn, h⟩ pte, paddr)
        else .aborted
  else .raised .addressErrorException

/-! ## One entry -/

/-- The two conversions of the frame number give the same frame. -/
theorem pageFrame_eq {entry : TranslationEntry} (h : entry.Mapped) :
    (((entry.physicalPage % 2 ^ 32).toNat : Nat) : Int) = entry.physicalPage := by
  have hnonneg := h.nonneg
  have hlt := h.isInt
  omega

theorem paddr_eq (frame offset : Nat) :
    BitVec.ofInt 32 ((frame : Int) * pageSize) + BitVec.ofNat 32 offset =
      BitVec.ofNat 32 (frame * pageSize + offset) := by
  rw [← Nat.cast_mul, BitVec.ofInt_natCast, ← BitVec.ofNat_add]

theorem paddr_lt {frame offset : Nat} (hframe : frame < numPhysPages)
    (hoffset : offset < pageSize) : frame * pageSize + offset < memorySize := by
  unfold numPhysPages at hframe
  unfold pageSize at hoffset
  unfold memorySize numPhysPages pageSize
  omega

/-- The machine on an entry that is mapped, for one byte. -/
theorem resolve_of_mapped {entry : TranslationEntry} (h : entry.Mapped) {offset : Nat}
    (hoffset : offset < pageSize) (writing : Bool) :
    (entry.resolve offset 1 writing).map (fun (entry, pa) => (entry, BitVec.ofNat 32 pa.1)) =
      if writing && entry.readOnly then .raised .readOnlyException
      else if numPhysPages ≤ entry.physicalPage then .raised .busErrorException
      else .done ({ entry with use := true, dirty := writing || entry.dirty },
        BitVec.ofInt 32 (entry.physicalPage * pageSize) + BitVec.ofNat 32 offset) := by
  have hframe := pageFrame_eq h
  generalize hk : (entry.physicalPage % 2 ^ 32).toNat = frame at hframe
  unfold TranslationEntry.resolve
  rw [Bool.and_comm writing, hk, ← hframe, paddr_eq]
  by_cases hro : (entry.readOnly && writing) = true
  · rw [if_pos hro, if_pos hro]
    rfl
  · rw [if_neg hro, if_neg hro]
    by_cases hbus : numPhysPages ≤ frame
    · rw [if_pos hbus, if_pos (Int.ofNat_le.mpr hbus)]
      rfl
    · have hlt : frame * pageSize + offset + 1 ≤ memorySize :=
        paddr_lt (Nat.lt_of_not_le hbus) hoffset
      rw [if_neg hbus, if_neg (mt Int.ofNat_le.mp hbus), dif_pos hlt]
      rfl

/-- The assertion of the kernel holds on such an entry. -/
theorem translate_of_mapped {pageTable : Fin n → TranslationEntry} {vaddr : BitVec 32}
    (hvpn : vaddr.toNat / pageSize < n) (h : (pageTable ⟨vaddr.toNat / pageSize, hvpn⟩).Mapped)
    (isReadWrite : Bool) :
    translate pageTable vaddr isReadWrite =
      let pte := pageTable ⟨vaddr.toNat / pageSize, hvpn⟩
      if isReadWrite && pte.readOnly then .raised .readOnlyException
      else if numPhysPages ≤ pte.physicalPage then .raised .busErrorException
      else .done (Function.update pageTable ⟨vaddr.toNat / pageSize, hvpn⟩
          { pte with use := true, dirty := isReadWrite || pte.dirty },
        BitVec.ofInt 32 (pte.physicalPage * pageSize) +
          BitVec.ofNat 32 (vaddr.toNat % pageSize)) := by
  have hframe := pageFrame_eq h
  generalize hk : ((pageTable ⟨vaddr.toNat / pageSize, hvpn⟩).physicalPage % 2 ^ 32).toNat =
    frame at hframe
  unfold translate
  dsimp only
  rw [dif_pos hvpn, ← hframe, paddr_eq]
  split
  next => rfl
  next =>
    split
    next => rfl
    next hbus =>
      have hlt : frame * pageSize + vaddr.toNat % pageSize < memorySize :=
        paddr_lt (Int.ofNat_lt.mp (Int.not_le.mp hbus)) (mod_pageSize_lt _)
      have hmod : (BitVec.ofNat 32 (frame * pageSize + vaddr.toNat % pageSize)).toNat =
          frame * pageSize + vaddr.toNat % pageSize := by
        rw [BitVec.toNat_ofNat]
        exact Nat.mod_eq_of_lt (hlt.trans (by decide))
      rw [hmod, if_pos hlt]
      cases isReadWrite <;> rfl

theorem translate_ne_aborted {pageTable : Fin n → TranslationEntry}
    (hmapped : ∀ i, (pageTable i).Mapped) (vaddr : BitVec 32) (isReadWrite : Bool) :
    translate pageTable vaddr isReadWrite ≠ .aborted := by
  by_cases hvpn : vaddr.toNat / pageSize < n
  · rw [translate_of_mapped hvpn (hmapped _)]
    dsimp only
    intro h
    split_ifs at h
  · unfold translate
    rw [dif_neg hvpn]
    intro h
    cases h

/-- The two translators on a page table whose entries are mapped. -/
theorem machine_translate_eq {m : Machine n} {pageTable : Fin n → TranslationEntry}
    (htlb : m.tlb = none) (htable : m.pageTable = some pageTable)
    (hmapped : ∀ i, (pageTable i).Mapped) (vaddr : BitVec 32) (writing : Bool) :
    (m.translate vaddr 1 writing).map (fun (m', pa) => (m', BitVec.ofNat 32 pa.1)) =
      (translate pageTable vaddr writing).map
        (fun (pageTable', paddr) => ({ m with pageTable := some pageTable' }, paddr)) := by
  have haligned : misaligned vaddr 1 = false := rfl
  unfold Machine.translate
  rw [haligned, htlb, htable, if_neg Bool.false_ne_true]
  dsimp only
  by_cases hvpn : vaddr.toNat / pageSize < n
  · rw [dif_pos hvpn, translate_of_mapped hvpn (hmapped _)]
    have hresolve := resolve_of_mapped (hmapped ⟨vaddr.toNat / pageSize, hvpn⟩)
      (Nat.mod_lt vaddr.toNat (by decide : 0 < pageSize)) writing
    have hvalid : ¬ (!(pageTable ⟨vaddr.toNat / pageSize, hvpn⟩).valid) = true := by
      rw [(hmapped _).valid]
      exact Bool.false_ne_true
    let put (entry : TranslationEntry) : Machine n :=
      ⟨m.mainMemory, none,
        some (Function.update pageTable ⟨vaddr.toNat / pageSize, hvpn⟩ entry)⟩
    have hmap := congrArg (Access.map fun (entry, paddr) => (put entry, paddr)) hresolve
    rw [Access.map_map] at hmap
    rw [if_neg hvalid, Access.map_map]
    refine hmap.trans ?_
    dsimp only
    split_ifs <;> rfl
  · unfold translate
    rw [dif_neg hvpn, dif_neg hvpn]
    rfl

/--
The two translators give the same exception, or the same physical address and the same page table
behind it. The assertions of neither fail.
-/
theorem translate_agree {m : Machine n} {pageTable : Fin n → TranslationEntry}
    (htlb : m.tlb = none) (htable : m.pageTable = some pageTable)
    (hmapped : ∀ i, (pageTable i).Mapped) (vaddr : BitVec 32) (writing : Bool) :
    (m.translate vaddr 1 writing).map (fun (m', pa) => (m', BitVec.ofNat 32 pa.1)) =
        (translate pageTable vaddr writing).map
          (fun (pageTable', paddr) => ({ m with pageTable := some pageTable' }, paddr)) ∧
      translate pageTable vaddr writing ≠ .aborted :=
  ⟨machine_translate_eq htlb htable hmapped vaddr writing,
    translate_ne_aborted hmapped vaddr writing⟩

theorem mapped_newEntry {frame : Nat} (h : frame < 2 ^ 31) (i : Nat) : (newEntry i frame).Mapped :=
  ⟨rfl, Int.natCast_nonneg frame, Int.ofNat_lt.mpr h⟩

/-- A page in frame 5. -/
def frameFive : Fin 1 → TranslationEntry := fun _ => newEntry 0 (5 : Nat)

theorem translate_agree_frameFive :
    let m : Machine 1 := ⟨fun _ => 0, none, some frameFive⟩
    (m.translate 3 1 true).map (fun (_, pa) => pa.1) = .done 643 ∧
      translate frameFive 3 true ≠ .aborted := by
  intro m
  have hmapped : ∀ i, (frameFive i).Mapped := fun _ => mapped_newEntry (by omega) 0
  exact ⟨by decide, (translate_agree (m := m) rfl rfl hmapped 3 true).2⟩

/-! ## The page tables of loaded programs -/

theorem mapped_of_mem_entriesFor {frames : List Nat} (h : ∀ f ∈ frames, f < 2 ^ 31) {i : Nat}
    {entry : TranslationEntry} (hmem : entry ∈ entriesFor i frames) : entry.Mapped := by
  induction frames generalizing i with
  | nil => cases hmem
  | cons f frames ih =>
    rcases List.mem_cons.mp hmem with rfl | hrest
    · exact mapped_newEntry (h f List.mem_cons_self) i
    · exact ih (fun g hg => h g (List.mem_cons_of_mem _ hg)) hrest

theorem mapped_of_loadExecutable {bm : Bitmap} {exe : Executable} {entry : TranslationEntry}
    (hmem : entry ∈ (loadExecutable bm exe).pageTable) : entry.Mapped := by
  by_cases hmagic : exe.header.noffMagic = noffMagic
  · rcases loadExecutable_eq bm hmagic with ⟨_, hrefused⟩ | ⟨_, bm', hloaded, _⟩
    · rw [hrefused] at hmem
      exact absurd hmem List.not_mem_nil
    · rw [hloaded] at hmem
      have hrange : ∀ f ∈ takenFrames bm exe, f < 2 ^ 31 := by
        intro f hf
        have hfree := Bitmap.mem_free_iff_notMem_bits.mp (List.mem_of_mem_take hf)
        exact lt_trans hfree.1 bm.numBits_range.2
      dsimp only at hmem
      exact mapped_of_mem_entriesFor hrange hmem
  · unfold loadExecutable at hmem
    rw [if_pos hmagic] at hmem
    exact absurd hmem List.not_mem_nil

/-- With the page table of a loaded program in the machine, kernel and machine agree. -/
theorem translate_agree_loaded (bm : Bitmap) (exe : Executable) (mem : Bytes memorySize)
    (vaddr : BitVec 32) (writing : Bool) :
    let pageTable := (loadExecutable bm exe).pageTable
    let m := restoreState mem pageTable
    (m.translate vaddr 1 writing).map (fun (m', pa) => (m', BitVec.ofNat 32 pa.1)) =
      (translate pageTable.get vaddr writing).map
        (fun (pageTable', paddr) => ({ m with pageTable := some pageTable' }, paddr)) :=
  machine_translate_eq rfl rfl (fun i => mapped_of_loadExecutable (List.get_mem _ i)) vaddr writing

end AddrSpace

end Nachos
