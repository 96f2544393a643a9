import Nachos.Machine.Translate
import Mathlib.Data.BitVec

/-!
# `Machine::Translate` step by step (`machine/translate.cc`)

`Translate` writes through two pointers: the bits of the entry that it uses, and `*physAddr`. Here
both are kept as they are at the point where it returns, so an exception that came after one of the
writes would be seen.

* `translateInPlace_eq` — `Machine.translate` is the same function
* `translate_safe` — what each answer means, and what has been written by then
-/

namespace Nachos

open Base

/-- What is there when `Translate` returns; `answer` is `none` for `NoException`. -/
structure Translated (n : Nat) where
  answer : Option ExceptionType
  physAddr : BitVec 32
  machine : Machine n

/-- `entry->use = TRUE`, and `entry->dirty = TRUE` if it is a write. -/
def markEntry {ι : Type} [DecidableEq ι] (table : ι → TranslationEntry) (entry : ι)
    (writing : Bool) : ι → TranslationEntry :=
  let table := Function.update table entry { table entry with use := true }
  if writing then Function.update table entry { table entry with dirty := true } else table

/--
`Translate` from the point where `entry` is known, in the page table or in the TLB. `returned` puts
the table into the machine. `none`: the assertion at the end fails.
-/
def useEntry {n : Nat} {ι : Type} [DecidableEq ι] (returned : (ι → TranslationEntry) → Machine n)
    (table : ι → TranslationEntry) (entry : ι) (physAddr : BitVec 32) (offset : BitVec 32)
    (size : Nat) (writing : Bool) : Option (Translated n) :=
  if (table entry).readOnly && writing then
    some ⟨some .readOnlyException, physAddr, returned table⟩
  else
    let pageFrame := BitVec.ofInt 32 (table entry).physicalPage
    if numPhysPages ≤ pageFrame.toNat then
      some ⟨some .busErrorException, physAddr, returned table⟩
    else
      let table := markEntry table entry writing
      let physAddr := pageFrame * BitVec.ofNat 32 pageSize + offset
      if 0 ≤ physAddr.toInt ∧ physAddr.toInt + size ≤ memorySize then
        some ⟨none, physAddr, returned table⟩
      else none

namespace Machine

variable {n : Nat}

/-- `Machine::Translate`, with what `*physAddr` holds before. -/
def translateInPlace (m : Machine n) (virtAddr physAddr : BitVec 32) (size : Nat)
    (writing : Bool) : Option (Translated n) :=
  if misaligned virtAddr size then some ⟨some .addressErrorException, physAddr, m⟩
  else
    let vpn := virtAddr / BitVec.ofNat 32 pageSize
    let offset := virtAddr % BitVec.ofNat 32 pageSize
    match m.tlb, m.pageTable with
    | none, some pageTable =>
      if h : vpn.toNat < n then
        if !(pageTable ⟨vpn.toNat, h⟩).valid then
          some ⟨some .pageFaultException, physAddr, m⟩
        else
          useEntry (fun table => { m with pageTable := some table }) pageTable ⟨vpn.toNat, h⟩
            physAddr offset size writing
      else some ⟨some .addressErrorException, physAddr, m⟩
    | some tlb, none =>
      match (List.finRange tlbSize).find? fun i =>
          (tlb i).valid && (tlb i).virtualPage == vpn.toInt with
      | none => some ⟨some .pageFaultException, physAddr, m⟩
      | some i =>
        useEntry (fun table => { m with tlb := some table }) tlb i physAddr offset size writing
    | none, none | some _, some _ => none

end Machine

/-- What `Machine.translate` says, with the machine that it started from. -/
def Access.translated {n size : Nat} (m : Machine n) (physAddr : BitVec 32) :
    Access (Machine n × PhysAddr size) → Option (Translated n)
  | .done (m', pa) => some ⟨none, BitVec.ofNat 32 pa.1, m'⟩
  | .raised e => some ⟨some e, physAddr, m⟩
  | .aborted => none

/-! ## The two forms -/

section

variable {n : Nat}

theorem markEntry_eq {ι : Type} [DecidableEq ι] (table : ι → TranslationEntry) (entry : ι)
    (writing : Bool) :
    markEntry table entry writing = Function.update table entry
      { table entry with use := true, dirty := writing || (table entry).dirty } := by
  unfold markEntry
  cases writing with
  | true =>
    dsimp only
    rw [if_pos rfl, Function.update_idem, Function.update_self]
    rfl
  | false => rfl

theorem toNat_pageFrame (page : Int) : (BitVec.ofInt 32 page).toNat = (page % 2 ^ 32).toNat := by
  rw [BitVec.toNat_ofInt]
  rfl

/-- The address in a frame of main memory. -/
theorem toNat_frameAddr {frame offset : BitVec 32} (hframe : frame.toNat < numPhysPages)
    (hoffset : offset.toNat < pageSize) :
    (frame * BitVec.ofNat 32 pageSize + offset).toNat =
      frame.toNat * pageSize + offset.toNat := by
  unfold numPhysPages at hframe
  unfold pageSize at hoffset ⊢
  rw [BitVec.toNat_add, BitVec.toNat_mul, BitVec.toNat_ofNat]
  omega

theorem eq_ofNat_of_toNat {w k : Nat} {x : BitVec w} (h : x.toNat = k) :
    x = BitVec.ofNat w k := by
  rw [← h, BitVec.ofNat_toNat, BitVec.setWidth_eq]

theorem toInt_frameAddr {frame offset : BitVec 32} (hframe : frame.toNat < numPhysPages)
    (hoffset : offset.toNat < pageSize) :
    (frame * BitVec.ofNat 32 pageSize + offset).toInt =
      (frame.toNat * pageSize + offset.toNat : Nat) := by
  have hnat := toNat_frameAddr hframe hoffset
  have hlt : frame.toNat * pageSize + offset.toNat < memorySize := by
    unfold memorySize numPhysPages pageSize at *
    omega
  unfold memorySize numPhysPages pageSize at hlt
  rw [BitVec.toInt_eq_toNat_of_lt (by rw [hnat]; unfold pageSize; omega), hnat]

theorem useEntry_eq {ι : Type} [DecidableEq ι] {returned : (ι → TranslationEntry) → Machine n}
    {table : ι → TranslationEntry} {entry : ι} {m : Machine n} (hm : returned table = m)
    {physAddr offset : BitVec 32} (hoffset : offset.toNat < pageSize) (size : Nat)
    (writing : Bool) :
    useEntry returned table entry physAddr offset size writing =
      (((table entry).resolve offset.toNat size writing).map fun (e, pa) =>
        (returned (Function.update table entry e), pa)).translated m physAddr := by
  unfold useEntry TranslationEntry.resolve
  rw [hm, ← toNat_pageFrame]
  generalize BitVec.ofInt 32 (table entry).physicalPage = frame
  dsimp only
  by_cases hro : ((table entry).readOnly && writing) = true
  · rw [if_pos hro, if_pos hro]
    rfl
  · rw [if_neg hro, if_neg hro]
    by_cases hbus : numPhysPages ≤ frame.toNat
    · rw [if_pos hbus, if_pos hbus]
      rfl
    · have hint := toInt_frameAddr (Nat.lt_of_not_le hbus) hoffset
      rw [if_neg hbus, if_neg hbus, hint, markEntry_eq]
      by_cases hlt : frame.toNat * pageSize + offset.toNat + size ≤ memorySize
      · have haddr := toNat_frameAddr (Nat.lt_of_not_le hbus) hoffset
        rw [if_pos (by omega), dif_pos hlt, eq_ofNat_of_toNat haddr]
        rfl
      · rw [if_neg (by omega), dif_neg hlt]
        rfl

/-- `Machine::Translate` in its two forms. -/
theorem translateInPlace_eq (m : Machine n) (virtAddr physAddr : BitVec 32) (size : Nat)
    (writing : Bool) :
    m.translateInPlace virtAddr physAddr size writing =
      (m.translate virtAddr size writing).translated m physAddr := by
  have hvpn : (virtAddr / BitVec.ofNat 32 pageSize).toNat = virtAddr.toNat / pageSize :=
    BitVec.toNat_udiv
  have hoff : (virtAddr % BitVec.ofNat 32 pageSize).toNat = virtAddr.toNat % pageSize :=
    BitVec.toNat_umod
  have hlt : (virtAddr % BitVec.ofNat 32 pageSize).toNat < pageSize := by
    rw [hoff]
    exact mod_pageSize_lt _
  have hint : (virtAddr / BitVec.ofNat 32 pageSize).toInt = (virtAddr.toNat / pageSize : Nat) := by
    have hsmall : 2 * (virtAddr / BitVec.ofNat 32 pageSize).toNat < 2 ^ 32 := by
      have := virtAddr.isLt
      rw [hvpn]
      unfold pageSize
      omega
    rw [BitVec.toInt_eq_toNat_of_lt hsmall, hvpn]
  unfold Machine.translateInPlace Machine.translate
  by_cases halign : misaligned virtAddr size = true
  · rw [if_pos halign, if_pos halign]
    rfl
  · rw [if_neg halign, if_neg halign]
    dsimp only
    simp only [hvpn, hint]
    obtain ⟨mainMemory, tlb, pageTable⟩ := m
    cases tlb with
    | none =>
      cases pageTable with
      | none => rfl
      | some pageTable =>
        dsimp only
        split
        next hn =>
          split
          next => rfl
          next =>
            rw [← hoff]
            exact useEntry_eq rfl hlt size writing
        next => rfl
    | some tlb =>
      cases pageTable with
      | some pageTable => rfl
      | none =>
        dsimp only
        generalize (List.finRange tlbSize).find? _ = found
        cases found with
        | none => rfl
        | some i =>
          dsimp only
          rw [← hoff]
          exact useEntry_eq rfl hlt size writing

/-! ## What the answers mean -/

/-- The alignment test, for the sizes of `ReadMem` and `WriteMem`. -/
theorem dvd_of_not_misaligned {virtAddr : BitVec 32} {size : Nat}
    (hsize : size = 1 ∨ size = 2 ∨ size = 4) (h : misaligned virtAddr size = false) :
    size ∣ virtAddr.toNat := by
  have hmask : ∀ k, virtAddr &&& BitVec.ofNat 32 (2 ^ k - 1) = 0 → k < 32 →
      2 ^ k ∣ virtAddr.toNat := by
    intro k hk hlt
    have hnat := congrArg BitVec.toNat hk
    rw [BitVec.toNat_and, BitVec.toNat_ofNat, Nat.mod_eq_of_lt, Nat.and_two_pow_sub_one_eq_mod]
      at hnat
    · exact Nat.dvd_of_mod_eq_zero hnat
    · exact (Nat.sub_lt (Nat.two_pow_pos k) Nat.one_pos).trans
        (Nat.pow_lt_pow_right Nat.one_lt_two hlt)
  unfold misaligned at h
  rcases hsize with rfl | rfl | rfl
  · exact Nat.one_dvd _
  · exact hmask 1 (by simpa using h) (by decide)
  · exact hmask 2 (by simpa using h) (by decide)

/--
What `Translate` has done when it returns: on `NoException` the access is allowed and lies in main
memory, and only the bits of its entry have changed; on an exception nothing has.
-/
structure SafeTranslation (m : Machine n) (pageTable : Fin n → TranslationEntry)
    (virtAddr physAddr : BitVec 32) (size : Nat) (writing : Bool) (r : Translated n) : Prop where
  aligned : r.answer = none → size ∣ virtAddr.toNat
  entry : r.answer = none → ∃ h : virtAddr.toNat / pageSize < n,
    (pageTable ⟨_, h⟩).valid = true ∧ (writing = true → (pageTable ⟨_, h⟩).readOnly = false) ∧
      r.machine = { m with
        pageTable := some (Function.update pageTable ⟨_, h⟩
          { pageTable ⟨_, h⟩ with
            use := true
            dirty := writing || (pageTable ⟨_, h⟩).dirty }) }
  inside : r.answer = none → 0 ≤ r.physAddr.toInt ∧ r.physAddr.toInt + size ≤ memorySize
  offset : r.answer = none → r.physAddr.toInt % pageSize = virtAddr.toInt % pageSize
  unchanged : r.answer ≠ none → r.machine = m ∧ r.physAddr = physAddr

variable {m : Machine n} {pageTable : Fin n → TranslationEntry} {virtAddr physAddr : BitVec 32}
  {size : Nat} {writing : Bool}

theorem SafeTranslation.of_raised (e : ExceptionType) :
    SafeTranslation m pageTable virtAddr physAddr size writing ⟨some e, physAddr, m⟩ where
  aligned := by simp
  entry := by simp
  inside := by simp
  offset := by simp
  unchanged := fun _ => ⟨rfl, rfl⟩

/-- An aligned access does not reach into the next page. -/
theorem offset_add_le (hsize : size = 1 ∨ size = 2 ∨ size = 4) {a : Nat} (h : size ∣ a) :
    a % pageSize + size ≤ pageSize := by
  unfold pageSize
  rcases hsize with rfl | rfl | rfl <;> omega

/-- What becomes of an entry that is there, for an access inside the page. -/
theorem resolve_cases (entry : TranslationEntry) {offset : Nat} (hoff : offset + size ≤ pageSize)
    (writing : Bool) :
    (∃ e, entry.resolve offset size writing = .raised e) ∨
    ∃ frame pa, entry.resolve offset size writing =
        .done ({ entry with use := true, dirty := writing || entry.dirty }, pa) ∧
      pa.1 = frame * pageSize + offset ∧ (writing = true → entry.readOnly = false) := by
  unfold TranslationEntry.resolve
  by_cases hro : (entry.readOnly && writing) = true
  · exact .inl ⟨_, if_pos hro⟩
  · rw [if_neg hro]
    dsimp only
    by_cases hbus : numPhysPages ≤ (entry.physicalPage % 2 ^ 32).toNat
    · exact .inl ⟨_, if_pos hbus⟩
    · have hlt : (entry.physicalPage % 2 ^ 32).toNat * pageSize + offset + size ≤ memorySize := by
        unfold memorySize numPhysPages pageSize at *
        omega
      rw [if_neg hbus, dif_pos hlt]
      refine .inr ⟨_, _, rfl, rfl, fun hw => ?_⟩
      rw [hw, Bool.and_true] at hro
      exact Bool.eq_false_iff.mpr hro

theorem toInt_physAddr {pa : Nat} (h : pa + size ≤ memorySize) :
    (BitVec.ofNat 32 pa).toInt = pa := by
  unfold memorySize numPhysPages pageSize at h
  have hnat : (BitVec.ofNat 32 pa).toNat = pa := by
    rw [BitVec.toNat_ofNat]
    exact Nat.mod_eq_of_lt (by omega)
  rw [BitVec.toInt_eq_toNat_of_lt (by omega), hnat]

/-- The place in the page does not depend on the sign. -/
theorem toInt_mod_pageSize (x : BitVec 32) : x.toInt % pageSize = (x.toNat % pageSize : Nat) := by
  unfold pageSize
  rw [BitVec.toInt_eq_toNat_cond]
  split <;> omega

/--
**Translation through a page table is safe.**

For any entries and any `pageTableSize`, any address and both modes: the assertion at the end holds,
`NoException` is the answer to allowed accesses only, and an exception leaves everything as it is.
-/
theorem translate_safe (htlb : m.tlb = none) (htable : m.pageTable = some pageTable)
    (virtAddr physAddr : BitVec 32) (hsize : size = 1 ∨ size = 2 ∨ size = 4) (writing : Bool) :
    ∃ r, m.translateInPlace virtAddr physAddr size writing = some r ∧
      SafeTranslation m pageTable virtAddr physAddr size writing r := by
  obtain ⟨mainMemory, _, _⟩ := m
  obtain rfl := htlb
  obtain rfl := htable
  rw [translateInPlace_eq]
  unfold Machine.translate
  by_cases halign : misaligned virtAddr size = true
  · rw [if_pos halign]
    exact ⟨_, rfl, .of_raised _⟩
  · rw [if_neg halign]
    dsimp only
    have hdvd := dvd_of_not_misaligned hsize (Bool.eq_false_iff.mpr halign)
    by_cases hvpn : virtAddr.toNat / pageSize < n
    · rw [dif_pos hvpn]
      cases hvalid : (pageTable ⟨_, hvpn⟩).valid with
      | false => exact ⟨_, rfl, .of_raised _⟩
      | true =>
        rw [if_neg (by decide)]
        obtain ⟨e, hraised⟩ | ⟨frame, ⟨pa, hpa⟩, hdone, haddr, hro⟩ :=
          resolve_cases (pageTable ⟨_, hvpn⟩) (offset_add_le hsize hdvd) writing
        · rw [hraised]
          exact ⟨_, rfl, .of_raised e⟩
        · rw [hdone]
          refine ⟨_, rfl, fun _ => hdvd, fun _ => ⟨hvpn, hvalid, hro, rfl⟩, fun _ => ?_,
            fun _ => ?_, fun h => absurd rfl h⟩
          · dsimp only
            rw [toInt_physAddr hpa]
            omega
          · dsimp only at haddr ⊢
            rw [toInt_physAddr hpa, haddr, toInt_mod_pageSize]
            unfold pageSize
            omega
    · rw [dif_neg hvpn]
      exact ⟨_, rfl, .of_raised _⟩

/-- The page 1 is in frame 5: a write to its last word. -/
theorem translate_safe_frameFive :
    ∃ (m : Machine 2) (pageTable : Fin 2 → TranslationEntry) (r : Translated 2),
      m.translateInPlace 252 0 4 true = some r ∧ r.answer = none ∧ r.physAddr = 764 ∧
        SafeTranslation m pageTable 252 0 4 true r := by
  let pageTable : Fin 2 → TranslationEntry := fun i => ⟨i.val, 4 + i.val, true, false, false, false⟩
  let m : Machine 2 := ⟨fun _ => 0, none, some pageTable⟩
  have htlb : m.tlb = none := rfl
  have htable : m.pageTable = some pageTable := rfl
  obtain ⟨r, hr, hsafe⟩ := translate_safe htlb htable 252 0 (.inr (.inr rfl)) true
  have hanswer : (m.translateInPlace 252 0 4 true).map (fun r => (r.answer, r.physAddr)) =
      some (none, 764) := by decide +kernel
  rw [hr, Option.map_some, Option.some.injEq, Prod.mk.injEq] at hanswer
  exact ⟨m, pageTable, r, hr, hanswer.1, hanswer.2, hsafe⟩

end

end Nachos
