import Nachos.Base.Bytes
import Mathlib.Data.List.FinRange

/-!
# Address translation (`machine/translate.cc`, `machine/translate.h`, `machine/machine.h`)

`Machine::Translate` maps a virtual address to a physical one, through the page table or through
the TLB, and `ReadMem` and `WriteMem` access main memory there. Addresses and values are words of
32 bits; the page numbers of an entry are signed and are converted to `unsigned` where they are
used. The host is little-endian, so `WordToHost` and its three companions return their argument.

* `Machine.translate`, `Machine.readMem`, `Machine.writeMem`
-/

namespace Nachos

open Base

/-- `PageSize`. -/
def pageSize : Nat := 128

/-- An offset is in the page. -/
theorem mod_pageSize_lt (v : Nat) : v % pageSize < pageSize := Nat.mod_lt v (by decide)

/-- `NumPhysPages`. -/
def numPhysPages : Nat := 128

/-- `MemorySize`. -/
def memorySize : Nat := numPhysPages * pageSize

/-- `TLBSize`. -/
def tlbSize : Nat := 4

/-- The exceptions that a memory access can raise. -/
inductive ExceptionType where
  | pageFaultException
  | readOnlyException
  | busErrorException
  | addressErrorException
deriving DecidableEq

/-- What comes out of a memory access: a value, an exception, or a failed assertion. -/
inductive Access (α : Type) where
  | done (a : α)
  | raised (e : ExceptionType)
  | aborted
deriving DecidableEq

namespace Access

variable {α β : Type}

def bind : Access α → (α → Access β) → Access β
  | done a, f => f a
  | raised e, _ => raised e
  | aborted, _ => aborted

def map (f : α → β) : Access α → Access β
  | done a => done (f a)
  | raised e => raised e
  | aborted => aborted

theorem bind_eq_done {a : Access α} {f : α → Access β} {b : β} :
    a.bind f = done b ↔ ∃ x, a = done x ∧ f x = done b := by
  cases a <;> simp [bind]

theorem map_eq_done {a : Access α} {f : α → β} {b : β} :
    a.map f = done b ↔ ∃ x, a = done x ∧ f x = b := by
  cases a <;> simp [map]

theorem map_map {γ : Type} (a : Access α) (f : α → β) (g : β → γ) :
    (a.map f).map g = a.map fun x => g (f x) := by
  cases a <;> rfl

end Access

/-- The class `TranslationEntry`. -/
structure TranslationEntry where
  virtualPage : Int
  physicalPage : Int
  valid : Bool
  readOnly : Bool
  use : Bool
  dirty : Bool
deriving DecidableEq

/-- A physical address with `size` bytes of main memory behind it. -/
abbrev PhysAddr (size : Nat) := { pa : Nat // pa + size ≤ memorySize }

/-- `Translate` from the point where the entry is known. -/
def TranslationEntry.resolve (entry : TranslationEntry) (offset size : Nat) (writing : Bool) :
    Access (TranslationEntry × PhysAddr size) :=
  if entry.readOnly && writing then .raised .readOnlyException
  else
    let pageFrame := (entry.physicalPage % 2 ^ 32).toNat
    if numPhysPages ≤ pageFrame then .raised .busErrorException
    else if h : pageFrame * pageSize + offset + size ≤ memorySize then
      .done ({ entry with use := true, dirty := writing || entry.dirty },
        ⟨pageFrame * pageSize + offset, h⟩)
    else .aborted

/-- The part of the class `Machine` that memory accesses use, with `n` for `pageTableSize`. -/
structure Machine (n : Nat) where
  mainMemory : Bytes memorySize
  tlb : Option (Fin tlbSize → TranslationEntry)
  pageTable : Option (Fin n → TranslationEntry)

/-- The alignment check of `Translate`. -/
def misaligned (virtAddr : BitVec 32) (size : Nat) : Bool :=
  (size == 4 && virtAddr &&& 0x3 != 0) || (size == 2 && virtAddr &&& 0x1 != 0)

namespace Machine

variable {n : Nat}

/-- `Machine::Translate`. -/
def translate (m : Machine n) (virtAddr : BitVec 32) (size : Nat) (writing : Bool) :
    Access (Machine n × PhysAddr size) :=
  if misaligned virtAddr size then .raised .addressErrorException
  else
    let vpn := virtAddr.toNat / pageSize
    let offset := virtAddr.toNat % pageSize
    match m.tlb, m.pageTable with
    | none, some pageTable =>
      if h : vpn < n then
        if !(pageTable ⟨vpn, h⟩).valid then .raised .pageFaultException
        else ((pageTable ⟨vpn, h⟩).resolve offset size writing).map fun (entry, pa) =>
          ({ m with pageTable := some (Function.update pageTable ⟨vpn, h⟩ entry) }, pa)
      else .raised .addressErrorException
    | some tlb, none =>
      match (List.finRange tlbSize).find? fun i =>
          (tlb i).valid && (tlb i).virtualPage == vpn with
      | none => .raised .pageFaultException
      | some i => ((tlb i).resolve offset size writing).map fun (entry, pa) =>
          ({ m with tlb := some (Function.update tlb i entry) }, pa)
    -- a machine has a TLB or a page table, and not both
    | none, none | some _, some _ => .aborted

/-- `Machine::ReadMem`. A `char` of main memory is signed. -/
def readMem (m : Machine n) (addr : BitVec 32) (size : Nat) : Access (Machine n × BitVec 32) :=
  (m.translate addr size false).bind fun (m, pa) =>
    match size, pa with
    | 1, pa => .done (m, (m.mainMemory ⟨pa.1, by have := pa.2; omega⟩).signExtend 32)
    | 2, pa => .done (m, BitVec.ofNat 32 (m.mainMemory.load pa.1 2 pa.2))
    | 4, pa => .done (m, BitVec.ofNat 32 (m.mainMemory.load pa.1 4 pa.2))
    | _, _ => .aborted

/-- `Machine::WriteMem`. -/
def writeMem (m : Machine n) (addr : BitVec 32) (size : Nat) (value : BitVec 32) :
    Access (Machine n) :=
  (m.translate addr size true).bind fun (m, pa) =>
    match size, pa with
    | 1, pa => .done { m with mainMemory := m.mainMemory.store pa.1 (value &&& 0xff) 1 pa.2 }
    | 2, pa => .done { m with mainMemory := m.mainMemory.store pa.1 (value &&& 0xffff) 2 pa.2 }
    | 4, pa => .done { m with mainMemory := m.mainMemory.store pa.1 value 4 pa.2 }
    | _, _ => .aborted

end Machine

end Nachos
