import Nachos.Machine.Translate
import Nachos.Base.Run
import Mathlib.Logic.Equiv.Fin.Basic

/-!
# Virtual memory is a private flat byte store

A process that reads and writes through `Machine::ReadMem` and `Machine::WriteMem` should see a
plain array of `pageTableSize * PageSize` bytes of its own. `FlatStore` is that array, with the
protection bits of its pages. The file shows that several address spaces over one main memory
behave like as many separate flat stores, in any order of accesses, as long as no frame is mapped
twice.

* `run_refines_flat` — the same answers, and the same bytes behind them
-/

namespace Nachos

open Base

/-! ## The flat store -/

/-- The sizes that `ReadMem` and `WriteMem` know. -/
inductive Width where
  | byte
  | half
  | word
deriving DecidableEq

def Width.size : Width → Nat
  | .byte => 1
  | .half => 2
  | .word => 4

/-- A flat array of bytes, with the protection of its pages. -/
structure FlatStore (n : Nat) where
  valid : Fin n → Bool
  readOnly : Fin n → Bool
  bytes : Bytes (n * pageSize)

theorem Width.size_dvd_pageSize (w : Width) : w.size ∣ pageSize := by cases w <;> decide

/-- An aligned access that begins inside the array ends inside it. -/
theorem add_size_le {n v : Nat} {w : Width} (hw : v % w.size = 0) (hv : v < n * pageSize) :
    v + w.size ≤ n * pageSize := by
  obtain ⟨a, ha⟩ := Nat.dvd_of_mod_eq_zero hw
  obtain ⟨b, hb⟩ := (w.size_dvd_pageSize).mul_left n
  rw [ha, hb] at hv ⊢
  have hab : a < b := Nat.lt_of_mul_lt_mul_left hv
  calc w.size * a + w.size = w.size * (a + 1) := (Nat.mul_succ _ _).symm
    _ ≤ w.size * b := Nat.mul_le_mul_left _ hab

namespace FlatStore

variable {n : Nat}

/-- Is the access allowed, and at which index? -/
def check (f : FlatStore n) (addr : BitVec 32) (w : Width) (writing : Bool) :
    Access { v : Nat // v + w.size ≤ n * pageSize } :=
  if hw : addr.toNat % w.size = 0 then
    if hv : addr.toNat < n * pageSize then
      let page : Fin n := Fin.divNat ⟨addr.toNat, hv⟩
      if !f.valid page then .raised .pageFaultException
      else if f.readOnly page && writing then .raised .readOnlyException
      else .done ⟨addr.toNat, add_size_le hw hv⟩
    else .raised .addressErrorException
  else .raised .addressErrorException

/-- A byte is sign-extended, a half word is zero-extended. -/
def extend (w : Width) (x : Nat) : BitVec 32 :=
  match w with
  | .byte => (BitVec.ofNat 8 x).signExtend 32
  | .half => BitVec.ofNat 32 x
  | .word => BitVec.ofNat 32 x

/-- A little-endian read. -/
def read (f : FlatStore n) (addr : BitVec 32) (w : Width) : Access (BitVec 32) :=
  (f.check addr w false).map fun v => extend w (f.bytes.load v.1 w.size v.2)

/-- A little-endian write. -/
def write (f : FlatStore n) (addr : BitVec 32) (w : Width) (value : BitVec 32) :
    Access (FlatStore n) :=
  (f.check addr w true).map fun v => { f with bytes := f.bytes.store v.1 value w.size v.2 }

end FlatStore

/-! ## Several address spaces over one main memory -/

section Spaces

variable {ι : Type} [DecidableEq ι] {len : ι → Nat}

/-- The main memory and the page tables of the address spaces `i : ι`, of `len i` pages each. -/
structure Spaces (len : ι → Nat) where
  mainMemory : Bytes memorySize
  pageTable : (i : ι) → Fin (len i) → TranslationEntry

/-- An access under the page table of `i`. -/
inductive MemOp (ι : Type) where
  | read (i : ι) (addr : BitVec 32) (w : Width)
  | write (i : ι) (addr : BitVec 32) (w : Width) (value : BitVec 32)

namespace Spaces

/-- The machine with the page table of `i` loaded, as `AddrSpace::RestoreState` does it. -/
def machine (σ : Spaces len) (i : ι) : Machine (len i) where
  mainMemory := σ.mainMemory
  tlb := none
  pageTable := some (σ.pageTable i)

/-- The page table is in the memory of the kernel, so what the machine wrote to it stays. -/
def put (σ : Spaces len) (i : ι) (m : Machine (len i)) : Spaces len where
  mainMemory := m.mainMemory
  pageTable := match m.pageTable with
    | none => σ.pageTable
    | some pageTable => Function.update σ.pageTable i pageTable

/-- One access, and its answer. -/
def step (σ : Spaces len) : MemOp ι → Spaces len × Access (Option (BitVec 32))
  | .read i addr w =>
    match (σ.machine i).readMem addr w.size with
    | .done (m, value) => (σ.put i m, .done (some value))
    | .raised e => (σ, .raised e)
    | .aborted => (σ, .aborted)
  | .write i addr w value =>
    match (σ.machine i).writeMem addr w.size value with
    | .done m => (σ.put i m, .done none)
    | .raised e => (σ, .raised e)
    | .aborted => (σ, .aborted)

end Spaces

/-- The same access to flat stores. -/
def flatStep (φ : (i : ι) → FlatStore (len i)) :
    MemOp ι → ((i : ι) → FlatStore (len i)) × Access (Option (BitVec 32))
  | .read i addr w => (φ, ((φ i).read addr w).map some)
  | .write i addr w value =>
    match (φ i).write addr w value with
    | .done f => (Function.update φ i f, .done none)
    | .raised e => (φ, .raised e)
    | .aborted => (φ, .aborted)

/-! ## The flat store behind a page table -/

/-- The physical address behind index `v` when page `p` is in frame `frame p`. -/
def phys {n : Nat} (frame : Fin n → Fin numPhysPages) (v : Fin (n * pageSize)) : Fin memorySize :=
  finProdFinEquiv (frame v.divNat, v.modNat)

/-- The page table puts page `p` into frame `frame p`. -/
def Maps {n : Nat} (pageTable : Fin n → TranslationEntry) (frame : Fin n → Fin numPhysPages) :
    Prop :=
  ∀ p, (pageTable p).physicalPage = (frame p : Nat)

/-- What a process sees of main memory through its page table. -/
def flat {n : Nat} (mainMemory : Bytes memorySize) (pageTable : Fin n → TranslationEntry)
    (frame : Fin n → Fin numPhysPages) : FlatStore n where
  valid := fun p => (pageTable p).valid
  readOnly := fun p => (pageTable p).readOnly
  bytes := mainMemory ∘ phys frame

/-- What all processes see of main memory. -/
def Spaces.flat (σ : Spaces len) (frame : (i : ι) → Fin (len i) → Fin numPhysPages) (i : ι) :
    FlatStore (len i) :=
  Nachos.flat σ.mainMemory (σ.pageTable i) (frame i)

theorem phys_val {n : Nat} (frame : Fin n → Fin numPhysPages) (v : Fin (n * pageSize)) :
    (phys frame v : Nat) = frame v.divNat * pageSize + v % pageSize := by
  simp [phys, Nat.mul_comm, Nat.add_comm]

theorem phys_injective {n : Nat} {frame : Fin n → Fin numPhysPages}
    (h : Function.Injective frame) : Function.Injective (phys frame) := by
  intro u v huv
  have hpair := finProdFinEquiv.injective huv
  simp only [Prod.mk.injEq] at hpair
  refine finProdFinEquiv.symm.injective (Prod.ext ?_ ?_)
  · exact h hpair.1
  · exact hpair.2

/-- Different frames have no byte in common. -/
theorem phys_ne {n m : Nat} {frame : Fin n → Fin numPhysPages} {frame' : Fin m → Fin numPhysPages}
    (h : ∀ p q, frame p ≠ frame' q) (u : Fin (n * pageSize)) (v : Fin (m * pageSize)) :
    phys frame u ≠ phys frame' v := by
  intro huv
  have hpair := finProdFinEquiv.injective huv
  simp only [Prod.mk.injEq] at hpair
  exact h _ _ hpair.1

/-! ## Translate -/

/-- The tables differ at most in their use and dirty bits. -/
def SameMapping {n : Nat} (pageTable pageTable' : Fin n → TranslationEntry) : Prop :=
  ∀ p, (pageTable' p).physicalPage = (pageTable p).physicalPage ∧
    (pageTable' p).valid = (pageTable p).valid ∧ (pageTable' p).readOnly = (pageTable p).readOnly

theorem and_eq_zero_iff {addr mask : BitVec 32} {k : Nat} (hk : mask.toNat = 2 ^ k - 1) :
    addr &&& mask = 0 ↔ addr.toNat % 2 ^ k = 0 := by
  rw [← BitVec.toNat_inj, BitVec.toNat_and, hk, Nat.and_two_pow_sub_one_eq_mod]
  rfl

theorem misaligned_eq (addr : BitVec 32) (w : Width) :
    misaligned addr w.size = !decide (addr.toNat % w.size = 0) := by
  cases w with
  | byte => simp [misaligned, Width.size, Nat.mod_one]
  | half =>
    have h : addr &&& 1#32 = 0#32 ↔ addr.toNat % 2 = 0 := and_eq_zero_iff (k := 1) rfl
    have heq : misaligned addr 2 = !(addr &&& 1#32 == 0#32) := by simp [misaligned, bne]
    rw [Width.size, heq, Bool.not_inj_iff, Bool.eq_iff_iff, beq_iff_eq, decide_eq_true_iff]
    exact h
  | word =>
    have h : addr &&& 3#32 = 0#32 ↔ addr.toNat % 4 = 0 := and_eq_zero_iff (k := 2) rfl
    have heq : misaligned addr 4 = !(addr &&& 3#32 == 0#32) := by simp [misaligned, bne]
    rw [Width.size, heq, Bool.not_inj_iff, Bool.eq_iff_iff, beq_iff_eq, decide_eq_true_iff]
    exact h

/-- The bytes of an aligned access are next to each other in main memory too. -/
theorem phys_add {n : Nat} (frame : Fin n → Fin numPhysPages) {v l : Nat} {w : Width}
    (hw : v % w.size = 0) (hv : v < n * pageSize) (hl : l < w.size) :
    (phys frame ⟨v + l, by have := add_size_le hw hv; omega⟩ : Nat) = phys frame ⟨v, hv⟩ + l := by
  have hmod : v % pageSize + w.size ≤ pageSize := by
    have hlt : v % pageSize < 1 * pageSize := by
      rw [Nat.one_mul]
      exact mod_pageSize_lt v
    have hdvd : v % pageSize % w.size = 0 := by
      rw [Nat.mod_mod_of_dvd _ w.size_dvd_pageSize]
      exact hw
    simpa using add_size_le hdvd hlt
  have hdiv : (v + l) / pageSize = v / pageSize := by
    unfold pageSize at hmod ⊢
    omega
  have hadd : (v + l) % pageSize = v % pageSize + l := by
    unfold pageSize at hmod ⊢
    omega
  have hpage : Fin.divNat (⟨v + l, by have := add_size_le hw hv; omega⟩ : Fin (n * pageSize))
      = Fin.divNat ⟨v, hv⟩ := Fin.ext hdiv
  rw [phys_val, phys_val, hpage]
  simp only [hadd]
  omega

theorem sameMapping_update {n : Nat} {pageTable : Fin n → TranslationEntry} {p : Fin n}
    {entry : TranslationEntry} (hframe : entry.physicalPage = (pageTable p).physicalPage)
    (hvalid : entry.valid = (pageTable p).valid)
    (hreadOnly : entry.readOnly = (pageTable p).readOnly) :
    SameMapping pageTable (Function.update pageTable p entry) := by
  intro q
  by_cases hq : q = p
  · subst hq
    simp [hframe, hvalid, hreadOnly]
  · simp [hq]

/-- `resolve` on an entry whose frame is in range. -/
theorem resolve_eq {entry : TranslationEntry} {pf : Fin numPhysPages} {offset size : Nat}
    (hframe : entry.physicalPage = (pf : Nat))
    (hsize : pf * pageSize + offset + size ≤ memorySize) (writing : Bool) :
    entry.resolve offset size writing
      = if entry.readOnly && writing then .raised .readOnlyException
        else .done ({ entry with use := true, dirty := writing || entry.dirty },
          ⟨pf * pageSize + offset, hsize⟩) := by
  have hpf := pf.isLt
  have hnat : (entry.physicalPage % 2 ^ 32).toNat = (pf : Nat) := by
    rw [hframe]
    unfold numPhysPages at hpf
    omega
  unfold TranslationEntry.resolve
  split
  · rfl
  · simp only [hnat]
    rw [if_neg (by omega), dif_pos hsize]

/-- `Translate` finds what the flat store would find. -/
theorem translate_flat {n : Nat} {m : Machine n} {pageTable : Fin n → TranslationEntry}
    {frame : Fin n → Fin numPhysPages} (htlb : m.tlb = none) (htable : m.pageTable = some pageTable)
    (hmaps : Maps pageTable frame) (addr : BitVec 32) (w : Width) (writing : Bool) :
    match (flat m.mainMemory pageTable frame).check addr w writing with
    | .done v => ∃ pageTable' pa,
        m.translate addr w.size writing = .done ({ m with pageTable := some pageTable' }, pa) ∧
          SameMapping pageTable pageTable' ∧
          ∀ l (hl : l < w.size), phys frame ⟨v.1 + l, by have := v.2; omega⟩
            = ⟨pa.1 + l, by have := pa.2; omega⟩
    | .raised e => m.translate addr w.size writing = .raised e
    | .aborted => False := by
  unfold FlatStore.check
  by_cases hw : addr.toNat % w.size = 0
  · have hal : misaligned addr w.size = false := by simp [misaligned_eq, hw]
    rw [dif_pos hw]
    by_cases hv : addr.toNat < n * pageSize
    · have hpage : addr.toNat / pageSize < n := Nat.div_lt_of_lt_mul (by rwa [Nat.mul_comm])
      rw [dif_pos hv]
      let p : Fin n := ⟨addr.toNat / pageSize, hpage⟩
      -- the bytes behind the address, and that they are inside main memory
      have hphys : (phys frame ⟨addr.toNat, hv⟩ : Nat)
          = frame p * pageSize + addr.toNat % pageSize := phys_val frame _
      have hnext : ∀ l (hl : l < w.size), (phys frame ⟨addr.toNat + l, by
          have := add_size_le hw hv; omega⟩ : Nat)
          = frame p * pageSize + addr.toNat % pageSize + l := by
        intro l hl
        rw [phys_add frame hw hv hl, hphys]
      have hsize : frame p * pageSize + addr.toNat % pageSize + w.size ≤ memorySize := by
        have hpos : 0 < w.size := by cases w <;> decide
        have hlast := hnext (w.size - 1) (by omega)
        have hlt := (phys frame ⟨addr.toNat + (w.size - 1), by
          have := add_size_le hw hv; omega⟩).isLt
        omega
      have hresolve := resolve_eq (hmaps p) hsize writing
      have htrans : m.translate addr w.size writing =
          if (pageTable p).valid then
            ((pageTable p).resolve (addr.toNat % pageSize) w.size writing).map fun (entry, pa) =>
              ({ m with pageTable := some (Function.update pageTable p entry) }, pa)
          else .raised .pageFaultException := by
        simp only [Machine.translate, hal, htlb, htable, dif_pos hpage, Bool.false_eq_true,
          if_false]
        cases hval : (pageTable ⟨addr.toNat / pageSize, hpage⟩).valid <;> simp [p]
      have hdiv : Fin.divNat (⟨addr.toNat, hv⟩ : Fin (n * pageSize)) = p := rfl
      simp only [hdiv, flat]
      rw [htrans, hresolve]
      cases hval : (pageTable p).valid with
      | false => simp
      | true =>
        cases hro : (pageTable p).readOnly && writing with
        | true => simp [Access.map]
        | false =>
          simp only [Bool.not_true, Bool.false_eq_true, if_false, if_true, Access.map]
          exact ⟨_, _, rfl, sameMapping_update rfl hval.symm rfl, fun l hl => Fin.ext (hnext l hl)⟩
    · have hpage : ¬ addr.toNat / pageSize < n := by
        rw [Nat.div_lt_iff_lt_mul (by decide)]
        exact hv
      rw [dif_neg hv]
      simp [Machine.translate, hal, htlb, htable, hpage]
  · have hal : misaligned addr w.size = true := by simp [misaligned_eq, hw]
    rw [dif_neg hw]
    simp [Machine.translate, hal]

/-! ## ReadMem and WriteMem -/

theorem flat_sameMapping {n : Nat} {pageTable pageTable' : Fin n → TranslationEntry}
    (h : SameMapping pageTable pageTable') (mainMemory : Bytes memorySize)
    (frame : Fin n → Fin numPhysPages) :
    flat mainMemory pageTable' frame = flat mainMemory pageTable frame := by
  unfold flat
  congr 1
  · exact funext fun p => (h p).2.1
  · exact funext fun p => (h p).2.2

theorem Maps.sameMapping {n : Nat} {pageTable pageTable' : Fin n → TranslationEntry}
    {frame : Fin n → Fin numPhysPages} (hmaps : Maps pageTable frame)
    (h : SameMapping pageTable pageTable') : Maps pageTable' frame := by
  intro p
  rw [(h p).1]
  exact hmaps p

/-- `ReadMem` answers what the flat store answers, and leaves main memory alone. -/
theorem readMem_flat {n : Nat} {m : Machine n} {pageTable : Fin n → TranslationEntry}
    {frame : Fin n → Fin numPhysPages} (htlb : m.tlb = none) (htable : m.pageTable = some pageTable)
    (hmaps : Maps pageTable frame) (addr : BitVec 32) (w : Width) :
    match (flat m.mainMemory pageTable frame).read addr w with
    | .done value => ∃ pageTable', SameMapping pageTable pageTable' ∧
        m.readMem addr w.size = .done ({ m with pageTable := some pageTable' }, value)
    | .raised e => m.readMem addr w.size = .raised e
    | .aborted => False := by
  have htrans := translate_flat htlb htable hmaps addr w false
  unfold FlatStore.read Machine.readMem
  cases hcheck : (flat m.mainMemory pageTable frame).check addr w false with
  | raised e =>
    rw [hcheck] at htrans
    simp only [Access.map, htrans, Access.bind]
  | aborted =>
    rw [hcheck] at htrans
    exact htrans
  | done v =>
    rw [hcheck] at htrans
    obtain ⟨pageTable', pa, htrans, hsame, hpa⟩ := htrans
    have hload : m.mainMemory.load pa.1 w.size pa.2
        = (flat m.mainMemory pageTable frame).bytes.load v.1 w.size v.2 := by
      refine Bytes.load_congr _ _ ?_
      intro l hl
      show _ = m.mainMemory (phys frame _)
      rw [hpa l hl]
    simp only [Access.map, htrans, Access.bind, ← hload]
    refine ⟨pageTable', hsame, ?_⟩
    cases w with
    | byte =>
      have hbyte : FlatStore.extend .byte (m.mainMemory.load pa.1 1 pa.2)
          = (m.mainMemory ⟨pa.1, pa.2⟩).signExtend 32 := by
        simp [FlatStore.extend, Bytes.load]
      exact congrArg (fun x => Access.done ({ m with pageTable := some pageTable' }, x)) hbyte.symm
    | half => rfl
    | word => rfl

/-- The masks of `WriteMem` leave the bytes that are written. -/
theorem byteOf_and_mask {value mask : BitVec 32} {k l : Nat} (hmask : mask.toNat = 2 ^ (8 * k) - 1)
    (hl : l < k) : byteOf (value &&& mask) l = byteOf value l :=
  (byteOf_and_low value hmask).trans (if_pos hl)

/-- `WriteMem` does to main memory what a store to the flat array does. -/
theorem writeMem_flat {n : Nat} {m : Machine n} {pageTable : Fin n → TranslationEntry}
    {frame : Fin n → Fin numPhysPages} (htlb : m.tlb = none) (htable : m.pageTable = some pageTable)
    (hmaps : Maps pageTable frame) (addr : BitVec 32) (w : Width) (value : BitVec 32) :
    match (flat m.mainMemory pageTable frame).check addr w true with
    | .done v => ∃ (pageTable' : _) (pa : PhysAddr w.size), SameMapping pageTable pageTable' ∧
        m.writeMem addr w.size value = .done { m with
          pageTable := some pageTable'
          mainMemory := m.mainMemory.store pa.1 value w.size pa.2 } ∧
        ∀ l (hl : l < w.size), phys frame ⟨v.1 + l, by have := v.2; omega⟩
          = ⟨pa.1 + l, by have := pa.2; omega⟩
    | .raised e => m.writeMem addr w.size value = .raised e
    | .aborted => False := by
  have htrans := translate_flat htlb htable hmaps addr w true
  unfold Machine.writeMem
  cases hcheck : (flat m.mainMemory pageTable frame).check addr w true with
  | raised e =>
    rw [hcheck] at htrans
    simp only [htrans, Access.bind]
  | aborted =>
    rw [hcheck] at htrans
    exact htrans
  | done v =>
    rw [hcheck] at htrans
    obtain ⟨pageTable', pa, htrans, hsame, hpa⟩ := htrans
    refine ⟨pageTable', pa, hsame, ?_, hpa⟩
    simp only [htrans, Access.bind]
    cases w with
    | byte =>
      have hbyte : m.mainMemory.store pa.1 (value &&& 0xff) 1 pa.2
          = m.mainMemory.store pa.1 value 1 pa.2 :=
        Bytes.store_congr _ fun l hl => byteOf_and_mask (k := 1) rfl hl
      exact congrArg (fun x => Access.done { m with pageTable := some pageTable', mainMemory := x })
        hbyte
    | half =>
      have hhalf : m.mainMemory.store pa.1 (value &&& 0xffff) 2 pa.2
          = m.mainMemory.store pa.1 value 2 pa.2 :=
        Bytes.store_congr _ fun l hl => byteOf_and_mask (k := 2) rfl hl
      exact congrArg (fun x => Access.done { m with pageTable := some pageTable', mainMemory := x })
        hhalf
    | word => rfl

/-! ## One access -/

/-- No frame is used twice: neither inside one address space nor by two of them. -/
structure Separate (frame : (i : ι) → Fin (len i) → Fin numPhysPages) : Prop where
  injective : ∀ i, Function.Injective (frame i)
  disjoint : ∀ i j, i ≠ j → ∀ p q, frame i p ≠ frame j q

/-- Every page table maps its pages to the frames given for it. -/
def Spaces.Mapped (σ : Spaces len) (frame : (i : ι) → Fin (len i) → Fin numPhysPages) : Prop :=
  ∀ i, Maps (σ.pageTable i) (frame i)

variable {frame : (i : ι) → Fin (len i) → Fin numPhysPages} {σ : Spaces len}

theorem Spaces.Mapped.put (hmap : σ.Mapped frame) {i : ι} {m : Machine (len i)}
    {pageTable : Fin (len i) → TranslationEntry} (htable : m.pageTable = some pageTable)
    (hsame : SameMapping (σ.pageTable i) pageTable) : (σ.put i m).Mapped frame := by
  intro j
  simp only [Spaces.put, htable]
  by_cases hj : j = i
  · subst hj
    rw [Function.update_self]
    exact (hmap j).sameMapping hsame
  · rw [Function.update_of_ne hj]
    exact hmap j

theorem Spaces.flat_put_self {i : ι} {m : Machine (len i)}
    {pageTable : Fin (len i) → TranslationEntry} (htable : m.pageTable = some pageTable)
    (hsame : SameMapping (σ.pageTable i) pageTable) :
    (σ.put i m).flat frame i = Nachos.flat m.mainMemory (σ.pageTable i) (frame i) := by
  simp only [Spaces.flat, Spaces.put, htable, Function.update_self]
  exact flat_sameMapping hsame _ _

theorem Spaces.flat_put_of_ne {i j : ι} (hj : j ≠ i) {m : Machine (len i)}
    {pageTable : Fin (len i) → TranslationEntry} (htable : m.pageTable = some pageTable) :
    (σ.put i m).flat frame j = Nachos.flat m.mainMemory (σ.pageTable j) (frame j) := by
  simp only [Spaces.flat, Spaces.put, htable, Function.update_of_ne hj]

/-- A read is a read of the flat store of its address space. -/
theorem read_refines (hmap : σ.Mapped frame) (i : ι) (addr : BitVec 32) (w : Width) :
    (σ.step (.read i addr w)).1.Mapped frame ∧
      flatStep (σ.flat frame) (.read i addr w)
        = ((σ.step (.read i addr w)).1.flat frame, (σ.step (.read i addr w)).2) := by
  have hread := readMem_flat (m := σ.machine i) rfl rfl (hmap i) addr w
  have hflat : Nachos.flat (σ.machine i).mainMemory (σ.pageTable i) (frame i)
      = σ.flat frame i := rfl
  rw [hflat] at hread
  simp only [Spaces.step, flatStep]
  cases h : (σ.flat frame i).read addr w with
  | done value =>
    rw [h] at hread
    obtain ⟨pageTable', hsame, hread⟩ := hread
    rw [hread]
    refine ⟨hmap.put rfl hsame, Prod.ext (funext fun j => ?_) rfl⟩
    by_cases hj : j = i
    · subst hj
      show σ.flat frame j = (σ.put j _).flat frame j
      rw [Spaces.flat_put_self rfl hsame]
      rfl
    · show σ.flat frame j = (σ.put i _).flat frame j
      rw [Spaces.flat_put_of_ne hj rfl]
      rfl
  | raised e =>
    rw [h] at hread
    rw [hread]
    exact ⟨hmap, rfl⟩
  | aborted =>
    rw [h] at hread
    exact hread.elim

theorem read_answer (hmap : σ.Mapped frame) (i : ι) (addr : BitVec 32) (w : Width) :
    (σ.step (.read i addr w)).2 = ((σ.flat frame i).read addr w).map some := by
  obtain ⟨-, h⟩ := read_refines hmap i addr w
  exact (Prod.ext_iff.mp h).2.symm

/-- A write is a write to the flat store of its address space, and to no other. -/
theorem write_refines (hsep : Separate frame) (hmap : σ.Mapped frame) (i : ι) (addr : BitVec 32)
    (w : Width) (value : BitVec 32) :
    (σ.step (.write i addr w value)).1.Mapped frame ∧
      flatStep (σ.flat frame) (.write i addr w value)
        = ((σ.step (.write i addr w value)).1.flat frame, (σ.step (.write i addr w value)).2) := by
  have hwrite := writeMem_flat (m := σ.machine i) rfl rfl (hmap i) addr w value
  have hflat : Nachos.flat (σ.machine i).mainMemory (σ.pageTable i) (frame i)
      = σ.flat frame i := rfl
  rw [hflat] at hwrite
  simp only [Spaces.step, flatStep, FlatStore.write]
  cases h : (σ.flat frame i).check addr w true with
  | done v =>
    rw [h] at hwrite
    obtain ⟨pageTable', pa, hsame, hwrite, hpa⟩ := hwrite
    rw [hwrite]
    refine ⟨hmap.put rfl hsame, Prod.ext (funext fun j => ?_) rfl⟩
    by_cases hj : j = i
    · subst hj
      simp only [Access.map, Function.update_self]
      rw [Spaces.flat_put_self rfl hsame]
      simp only [Nachos.flat, Spaces.flat]
      congr 1
      exact (Bytes.store_comp (phys_injective (hsep.injective j)) pa.2 v.2 hpa).symm
    · simp only [Access.map, Function.update_of_ne hj]
      rw [Spaces.flat_put_of_ne hj rfl]
      simp only [Nachos.flat, Spaces.flat]
      congr 1
      refine (Bytes.store_comp_of_forall_ne pa.2 fun l hl u => ?_).symm
      rw [← hpa l hl]
      exact phys_ne (hsep.disjoint j i hj) u _
  | raised e =>
    rw [h] at hwrite
    rw [hwrite]
    exact ⟨hmap, rfl⟩
  | aborted =>
    rw [h] at hwrite
    exact hwrite.elim

theorem step_refines (hsep : Separate frame) (σ : Spaces len) (op : MemOp ι)
    (hmap : σ.Mapped frame) :
    (σ.step op).1.Mapped frame ∧
      flatStep (σ.flat frame) op = ((σ.step op).1.flat frame, (σ.step op).2) := by
  cases op with
  | read i addr w => exact read_refines hmap i addr w
  | write i addr w value => exact write_refines hsep hmap i addr w value

/-! ## Whole runs -/

/-- The flat store lets a write through. -/
def FlatStore.Permits {n : Nat} (f : FlatStore n) (addr : BitVec 32) (w : Width) : Prop :=
  addr.toNat % w.size = 0 ∧ ∃ hv : addr.toNat < n * pageSize,
    f.valid (Fin.divNat ⟨addr.toNat, hv⟩) = true ∧ f.readOnly (Fin.divNat ⟨addr.toNat, hv⟩) = false

instance {n : Nat} (f : FlatStore n) (addr : BitVec 32) (w : Width) :
    Decidable (f.Permits addr w) :=
  inferInstanceAs (Decidable (_ ∧ _))

theorem FlatStore.permits_congr {n : Nat} {f g : FlatStore n} (hvalid : f.valid = g.valid)
    (hro : f.readOnly = g.readOnly) {addr : BitVec 32} {w : Width} :
    f.Permits addr w ↔ g.Permits addr w := by
  unfold FlatStore.Permits
  rw [hvalid, hro]

/-- What an access leaves of byte `b` at index `v` of the flat store of `i`. -/
def overwrite (φ : (i : ι) → FlatStore (len i)) (i : ι) (v : Fin (len i * pageSize))
    (b : BitVec 8) : MemOp ι → BitVec 8
  | .read _ _ _ => b
  | .write j addr w value =>
    if j = i ∧ (φ j).Permits addr w ∧ addr.toNat ≤ v ∧ v < addr.toNat + w.size then
      byteOf value (v - addr.toNat)
    else b

/-- The byte that was last written at index `v` of the flat store of `i`. -/
def lastByte (φ : (i : ι) → FlatStore (len i)) (i : ι) (v : Fin (len i * pageSize))
    (ops : List (MemOp ι)) : BitVec 8 :=
  ops.foldl (overwrite φ i v) ((φ i).bytes v)

theorem FlatStore.write_eq {n : Nat} (f : FlatStore n) (addr : BitVec 32) (w : Width)
    (value : BitVec 32) :
    (∃ hv, f.Permits addr w ∧
      f.write addr w value = .done { f with bytes := f.bytes.store addr.toNat value w.size hv }) ∨
    (¬ f.Permits addr w ∧ ∃ e, f.write addr w value = .raised e) := by
  unfold FlatStore.write FlatStore.check FlatStore.Permits
  by_cases hw : addr.toNat % w.size = 0
  · by_cases hv : addr.toNat < n * pageSize
    · cases hval : f.valid (Fin.divNat ⟨addr.toNat, hv⟩) with
      | false => exact Or.inr ⟨by simp [hv, hval], _, by simp [hw, hv, hval, Access.map]; rfl⟩
      | true =>
        cases hro : f.readOnly (Fin.divNat ⟨addr.toNat, hv⟩) with
        | true => exact Or.inr ⟨by simp [hv, hro], _, by simp [hw, hv, hval, hro, Access.map]; rfl⟩
        | false =>
          exact Or.inl ⟨add_size_le hw hv, ⟨hw, hv, hval, hro⟩,
            by simp [hw, hv, hval, hro, Access.map]⟩
    · exact Or.inr ⟨fun h => hv h.2.1, _, by simp [hw, hv, Access.map]; rfl⟩
  · exact Or.inr ⟨fun h => hw h.1, _, by simp [hw, Access.map]; rfl⟩

/-- An access writes the byte that `overwrite` says, and keeps the protection bits. -/
theorem flatStep_bytes (φ : (i : ι) → FlatStore (len i)) (op : MemOp ι) (i : ι) :
    ((flatStep φ op).1 i).valid = (φ i).valid ∧ ((flatStep φ op).1 i).readOnly = (φ i).readOnly ∧
      ∀ v, ((flatStep φ op).1 i).bytes v = overwrite φ i v ((φ i).bytes v) op := by
  cases op with
  | read j addr w => exact ⟨rfl, rfl, fun v => rfl⟩
  | write j addr w value =>
    simp only [flatStep, overwrite]
    rcases (φ j).write_eq addr w value with ⟨hv, hperm, hwrite⟩ | ⟨hperm, e, hwrite⟩
    · rw [hwrite]
      by_cases hi : i = j
      · subst hi
        simp [hperm, Bytes.store_apply]
      · have hj : ¬ j = i := fun h => hi h.symm
        simp [hi, hj]
    · rw [hwrite]
      simp only [true_and]
      intro v
      rw [if_neg]
      rintro ⟨rfl, hp, -⟩
      exact hperm hp

theorem runAnswers_flatStep_bytes (φ : (i : ι) → FlatStore (len i)) (ops : List (MemOp ι)) (i : ι)
    (v : Fin (len i * pageSize)) :
    ((runAnswers flatStep φ ops).1 i).bytes v = lastByte φ i v ops := by
  induction ops generalizing φ with
  | nil => rfl
  | cons op ops ih =>
    -- the protection bits stay, so the same writes are let through later
    have hsame : overwrite (flatStep φ op).1 i v = overwrite φ i v := by
      funext b op'
      cases op' with
      | read j addr w => rfl
      | write j addr w value =>
        obtain ⟨hvalid, hro, -⟩ := flatStep_bytes φ op j
        simp only [overwrite, FlatStore.permits_congr hvalid hro]
    simp only [runAnswers]
    rw [ih, lastByte, lastByte, hsame, (flatStep_bytes φ op i).2.2 v, List.foldl_cons]

/-- A write under one page table changes no answer under another. -/
theorem write_private (hsep : Separate frame) (hmap : σ.Mapped frame) {i j : ι} (hij : i ≠ j)
    (addr : BitVec 32) (w : Width) (value addr' : BitVec 32) (w' : Width) :
    ((σ.step (.write i addr w value)).1.step (.read j addr' w')).2
      = (σ.step (.read j addr' w')).2 := by
  obtain ⟨hmap₁, hwrite⟩ := step_refines hsep σ (.write i addr w value) hmap
  -- both reads look at the flat store of `j`, which the write has not touched
  have hstore : (σ.step (.write i addr w value)).1.flat frame j = σ.flat frame j := by
    have hfst : (flatStep (σ.flat frame) (.write i addr w value)).1
        = (σ.step (.write i addr w value)).1.flat frame := by rw [hwrite]
    rw [← hfst]
    simp only [flatStep]
    split
    · exact Function.update_of_ne (fun h => hij h.symm) _ _
    · rfl
    · rfl
  rw [read_answer hmap₁, read_answer hmap, hstore]

/--
Virtual memory is a private flat byte store.

For address spaces whose page tables map into main memory and never use a frame twice, any sequence
of accesses gets the answers that separate flat stores would give, and leaves behind the bytes that
were written last. A write under one page table changes no answer under another.
-/
theorem run_refines_flat (hsep : Separate frame) (hmap : σ.Mapped frame) (ops : List (MemOp ι)) :
    (runAnswers Spaces.step σ ops).2 = (runAnswers flatStep (σ.flat frame) ops).2 ∧
    (runAnswers Spaces.step σ ops).1.flat frame = (runAnswers flatStep (σ.flat frame) ops).1 ∧
    (∀ i v, ((runAnswers Spaces.step σ ops).1.flat frame i).bytes v
      = lastByte (σ.flat frame) i v ops) ∧
    ∀ i j, i ≠ j → ∀ addr w value addr' w',
      (((runAnswers Spaces.step σ ops).1.step (.write i addr w value)).1.step
        (.read j addr' w')).2 = ((runAnswers Spaces.step σ ops).1.step (.read j addr' w')).2 := by
  obtain ⟨hmap', hrun⟩ := runAnswers_simulation (step_refines hsep) hmap ops
  refine ⟨by rw [hrun], by rw [hrun], fun i v => ?_, ?_⟩
  · rw [← runAnswers_flatStep_bytes, hrun]
  · exact fun i j hij => write_private hsep hmap' hij

end Spaces

/-! ## Two address spaces -/

/-- Two address spaces of one page, in the frames 3 and 5 of an empty memory. -/
def twoSpaces : Spaces (ι := Bool) fun _ => 1 where
  mainMemory := fun _ => 0
  pageTable := fun i _ =>
    { virtualPage := 0, physicalPage := if i then 3 else 5, valid := true, readOnly := false,
      use := false, dirty := false }

def twoFrames (i : Bool) (_ : Fin 1) : Fin numPhysPages :=
  if i then ⟨3, by decide⟩ else ⟨5, by decide⟩

/-- A word is written in one of them, bytes and a half word are read in both. -/
def twoSpacesOps : List (MemOp Bool) :=
  [.write true 4 .word 0x01ff8001, .read true 5 .byte, .read true 4 .half, .read false 4 .word,
    .read true 6 .word]

theorem run_refines_flat_two_spaces :
    (runAnswers Spaces.step twoSpaces twoSpacesOps).2
      = [.done none, .done (some 0xffffff80), .done (some 0x8001), .done (some 0),
        .raised .addressErrorException] := by
  have hsep : Separate twoFrames := ⟨fun i p q _ => Subsingleton.elim p q, by decide⟩
  have hmap : twoSpaces.Mapped twoFrames := by
    intro i p
    cases i <;> rfl
  rw [(run_refines_flat hsep hmap twoSpacesOps).1]
  rfl

end Nachos
