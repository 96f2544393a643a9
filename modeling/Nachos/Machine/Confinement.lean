import Nachos.Machine.OneInstruction
import Nachos.Machine.UserMemory

/-!
# What an instruction sees and touches

An instruction gets at main memory through its page table only. So it takes the same course on two
machines that show the same bytes, whatever else is in their memories, and it changes nothing
behind frames that the page table does not name.

* `Alike` — a process cannot tell the two machines apart
* `Twins` — the same for what becomes of them, with the other frames left alone
* `oneInstruction_twins` — an instruction
-/

namespace Nachos

open Base

variable {n : Nat} {frame : Fin n → Fin numPhysPages}

/-- The two machines show a process in these frames the same bytes. -/
def Alike (frame : Fin n → Fin numPhysPages) (m₁ m₂ : Machine n) : Prop :=
  ∃ f, Shows m₁ frame f ∧ Shows m₂ frame f

/-- Behind other frames main memory is as it was. -/
def Elsewhere (frame : Fin n → Fin numPhysPages) (m m' : Machine n) : Prop :=
  ∀ p, (∀ v, phys frame v ≠ p) → m'.mainMemory p = m.mainMemory p

/-- `m₁` has become `m₁'` and `m₂` has become `m₂'`: still alike, and nowhere else changed. -/
structure Twins (frame : Fin n → Fin numPhysPages) (m₁ m₂ m₁' m₂' : Machine n) : Prop where
  alike : Alike frame m₁' m₂'
  left : Elsewhere frame m₁ m₁'
  right : Elsewhere frame m₂ m₂'

theorem Elsewhere.refl (frame : Fin n → Fin numPhysPages) (m : Machine n) :
    Elsewhere frame m m := fun _ _ => rfl

theorem Elsewhere.trans {m m' m'' : Machine n} (h : Elsewhere frame m m')
    (h' : Elsewhere frame m' m'') : Elsewhere frame m m'' :=
  fun p hp => (h' p hp).trans (h p hp)

theorem Elsewhere.of_mainMemory {m m' : Machine n} (h : m'.mainMemory = m.mainMemory) :
    Elsewhere frame m m' := fun p _ => congrFun h p

section

variable {m₁ m₂ m₁' m₂' m₁'' m₂'' : Machine n}

theorem Alike.twins (h : Alike frame m₁ m₂) : Twins frame m₁ m₂ m₁ m₂ :=
  ⟨h, .refl frame m₁, .refl frame m₂⟩

theorem Twins.trans (h : Twins frame m₁ m₂ m₁' m₂') (h' : Twins frame m₁' m₂' m₁'' m₂'') :
    Twins frame m₁ m₂ m₁'' m₂'' :=
  ⟨h'.alike, h.left.trans h'.left, h.right.trans h'.right⟩

/-- `ReadMem` answers the same. -/
theorem Alike.readMem (h : Alike frame m₁ m₂) (addr : BitVec 32) (w : Width) :
    (∃ m₁' m₂' value, m₁.readMem addr w.size = .done (m₁', value) ∧
      m₂.readMem addr w.size = .done (m₂', value) ∧ Twins frame m₁ m₂ m₁' m₂') ∨
    ∃ e, m₁.readMem addr w.size = .raised e ∧ m₂.readMem addr w.size = .raised e := by
  obtain ⟨f, h₁, h₂⟩ := h
  rcases h₁.readMem addr w with ⟨m₁', value, hread, hm₁, hsame₁, hshows₁⟩ | ⟨e, hread, hm₁⟩
  · obtain ⟨m₂', hm₂, hsame₂, hshows₂⟩ := h₂.exists_readMem hread
    exact .inl ⟨m₁', m₂', value, hm₁, hm₂, ⟨f, hshows₁, hshows₂⟩, .of_mainMemory hsame₁,
      .of_mainMemory hsame₂⟩
  · rcases h₂.readMem addr w with ⟨_, _, hread₂, _⟩ | ⟨e₂, hread₂, hm₂⟩
    · cases hread.symm.trans hread₂
    · obtain rfl := Access.raised.inj (hread.symm.trans hread₂)
      exact .inr ⟨e, hm₁, hm₂⟩

/-- `WriteMem` does the same. -/
theorem Alike.writeMem (hinj : Function.Injective frame) (h : Alike frame m₁ m₂)
    (addr : BitVec 32) (w : Width) (value : BitVec 32) :
    (∃ m₁' m₂', m₁.writeMem addr w.size value = .done m₁' ∧
      m₂.writeMem addr w.size value = .done m₂' ∧ Twins frame m₁ m₂ m₁' m₂') ∨
    ∃ e, m₁.writeMem addr w.size value = .raised e ∧ m₂.writeMem addr w.size value = .raised e := by
  obtain ⟨f, h₁, h₂⟩ := h
  rcases h₁.writeMem hinj addr w value with
    ⟨m₁', f', hwrite, hm₁, hshows₁, hkeep₁⟩ | ⟨e, hwrite, hm₁⟩
  · obtain ⟨m₂', hm₂, hshows₂, hkeep₂⟩ := h₂.exists_writeMem hinj hwrite
    exact .inl ⟨m₁', m₂', hm₁, hm₂, ⟨f', hshows₁, hshows₂⟩, hkeep₁, hkeep₂⟩
  · rcases h₂.writeMem hinj addr w value with ⟨_, _, hwrite₂, _⟩ | ⟨e₂, hwrite₂, hm₂⟩
    · cases hwrite.symm.trans hwrite₂
    · obtain rfl := Access.raised.inj (hwrite.symm.trans hwrite₂)
      exact .inr ⟨e, hm₁, hm₂⟩

end

/-! ## The cases of the `switch` -/

/-- A case takes the same course on both machines. -/
inductive Executed.Twins (frame : Fin n → Fin numPhysPages) (m₁ m₂ : Machine n) :
    Executed n → Executed n → Prop
  | next {m₁' m₂' : Machine n} (h : Nachos.Twins frame m₁ m₂ m₁' m₂') (regs : Registers)
      (pcAfter : BitVec 32) (nextLoadReg : BitVec 5) (nextLoadValue : BitVec 32) :
      Twins frame m₁ m₂ (.next regs m₁' pcAfter nextLoadReg nextLoadValue)
        (.next regs m₂' pcAfter nextLoadReg nextLoadValue)
  | raised {m₁' m₂' : Machine n} (h : Nachos.Twins frame m₁ m₂ m₁' m₂') (which : Trap)
      (badVAddr : BitVec 32) (regs : Registers) :
      Twins frame m₁ m₂ (.raised which badVAddr regs m₁') (.raised which badVAddr regs m₂')
  | defaultCase : Twins frame m₁ m₂ .defaultCase .defaultCase
  | aborted : Twins frame m₁ m₂ .aborted .aborted
  | hostFault : Twins frame m₁ m₂ .hostFault .hostFault

/-- The same for an instruction. -/
inductive Instructed.Twins (frame : Fin n → Fin numPhysPages) (m₁ m₂ : Machine n) :
    Instructed n → Instructed n → Prop
  | finished {m₁' m₂' : Machine n} (h : Nachos.Twins frame m₁ m₂ m₁' m₂') (regs : Registers) :
      Twins frame m₁ m₂ (.finished regs m₁') (.finished regs m₂')
  | trapped {m₁' m₂' : Machine n} (h : Nachos.Twins frame m₁ m₂ m₁' m₂') (which : Trap)
      (regs : Registers) :
      Twins frame m₁ m₂ (.trapped which regs m₁') (.trapped which regs m₂')
  | aborted : Twins frame m₁ m₂ .aborted .aborted
  | hostFault : Twins frame m₁ m₂ .hostFault .hostFault

namespace Executed

variable {m₁ m₂ m₁' m₂' : Machine n} {e₁ e₂ : Executed n}

theorem Twins.of_twins (h : Nachos.Twins frame m₁ m₂ m₁' m₂')
    (h' : Executed.Twins frame m₁' m₂' e₁ e₂) : Executed.Twins frame m₁ m₂ e₁ e₂ := by
  cases h' with
  | next h' regs pcAfter r v => exact .next (h.trans h') regs pcAfter r v
  | raised h' which badVAddr regs => exact .raised (h.trans h') which badVAddr regs
  | defaultCase => exact .defaultCase
  | aborted => exact .aborted
  | hostFault => exact .hostFault

theorem twins_ite {c : Prop} [Decidable c] {a₁ a₂ b₁ b₂ : Executed n}
    (ha : Executed.Twins frame m₁ m₂ a₁ a₂) (hb : Executed.Twins frame m₁ m₂ b₁ b₂) :
    Executed.Twins frame m₁ m₂ (if c then a₁ else b₁) (if c then a₂ else b₂) := by
  split
  · exact ha
  · exact hb

theorem twins_load (h : Alike frame m₁ m₂) (regs : Registers) (rt : BitVec 5) (addr : BitVec 32)
    (w : Width) (f : BitVec 32 → BitVec 32) :
    Executed.Twins frame m₁ m₂ (load regs m₁ rt addr w.size f) (load regs m₂ rt addr w.size f) := by
  unfold load
  rcases h.readMem addr w with ⟨m₁', m₂', value, hm₁, hm₂, htwins⟩ | ⟨e, hm₁, hm₂⟩
  · rw [hm₁, hm₂]
    exact .next htwins _ _ _ _
  · rw [hm₁, hm₂]
    exact .raised h.twins _ _ _

theorem twins_loadAligned (h : Alike frame m₁ m₂) (regs : Registers) (rt : BitVec 5)
    (addr : BitVec 32) (w : Width) (mask : BitVec 32) (f : BitVec 32 → BitVec 32) :
    Executed.Twins frame m₁ m₂ (loadAligned regs m₁ rt addr w.size mask f)
      (loadAligned regs m₂ rt addr w.size mask f) :=
  twins_ite (.raised h.twins _ _ _) (twins_load h regs rt addr w f)

theorem twins_store (hinj : Function.Injective frame) (h : Alike frame m₁ m₂) (regs : Registers)
    (addr : BitVec 32) (w : Width) (value : BitVec 32) :
    Executed.Twins frame m₁ m₂ (store regs m₁ addr w.size value)
      (store regs m₂ addr w.size value) := by
  unfold store
  rcases h.writeMem hinj addr w value with ⟨m₁', m₂', hm₁, hm₂, htwins⟩ | ⟨e, hm₁, hm₂⟩
  · rw [hm₁, hm₂]
    exact .next htwins _ _ _ _
  · rw [hm₁, hm₂]
    exact .raised h.twins _ _ _

theorem twins_storePart (hinj : Function.Injective frame) (h : Alike frame m₁ m₂)
    (regs : Registers) (addr : BitVec 32) (f : BitVec 32 → BitVec 32 → BitVec 32) :
    Executed.Twins frame m₁ m₂ (storePart regs m₁ addr f) (storePart regs m₂ addr f) := by
  unfold storePart
  dsimp only
  rcases h.readMem (addr - (addr &&& 0x3)) .word with
    ⟨m₁', m₂', value, hm₁, hm₂, htwins⟩ | ⟨e, hm₁, hm₂⟩
  · rw [show (4 : Nat) = Width.word.size from rfl, hm₁, hm₂]
    exact .of_twins htwins (twins_store hinj htwins.alike regs _ .word _)
  · rw [show (4 : Nat) = Width.word.size from rfl, hm₁, hm₂]
    exact .raised h.twins _ _ _

end Executed

variable {m₁ m₂ : Machine n}

open Executed in
/-- Every case takes the same course on both machines. -/
theorem Instruction.execute_twins (hinj : Function.Injective frame) (h : Alike frame m₁ m₂)
    (instr : Instruction) (regs : Registers) :
    Executed.Twins frame m₁ m₂ (instr.execute regs m₁) (instr.execute regs m₂) := by
  obtain ⟨opCode, rs, rt, rd, extra⟩ := instr
  cases opCode with
  | add | addi | sub => exact twins_ite (.raised h.twins _ _ _) (.next h.twins _ _ _ _)
  | div =>
    exact twins_ite (.next h.twins _ _ _ _) (twins_ite .hostFault (.next h.twins _ _ _ _))
  | divu => exact twins_ite (.next h.twins _ _ _ _) (.next h.twins _ _ _ _)
  | lb | lbu => exact twins_load h _ _ _ .byte _
  | lwl | lwr => exact twins_load h _ _ _ .word _
  | lh | lhu => exact twins_loadAligned h _ _ _ .half _ _
  | lw => exact twins_loadAligned h _ _ _ .word _ _
  | sb => exact twins_store hinj h _ _ .byte _
  | sh => exact twins_store hinj h _ _ .half _
  | sw => exact twins_store hinj h _ _ .word _
  | swl | swr => exact twins_storePart hinj h _ _ _
  | syscall | res | unimp => exact .raised h.twins _ _ _
  | rfe | special | bcond => exact .defaultCase
  | _ => exact .next h.twins _ _ _ _

/-! ## The interpreter -/

theorem raiseException_twins {m₁' m₂' : Machine n} (h : Twins frame m₁ m₂ m₁' m₂') (which : Trap)
    (badVAddr : BitVec 32) (regs : Registers) :
    Instructed.Twins frame m₁ m₂ (raiseException which badVAddr regs m₁')
      (raiseException which badVAddr regs m₂') := by
  unfold raiseException
  split
  · exact .aborted
  · exact .trapped h which _

theorem Executed.Twins.finish {e₁ e₂ : Executed n} (h : Executed.Twins frame m₁ m₂ e₁ e₂) :
    Instructed.Twins frame m₁ m₂ e₁.finish e₂.finish := by
  cases h with
  | next h regs pcAfter r v =>
    unfold Executed.finish
    dsimp only
    split
    · exact .aborted
    · exact .finished h _
  | raised h which badVAddr regs => exact raiseException_twins h which badVAddr regs
  | defaultCase => exact .aborted
  | aborted => exact .aborted
  | hostFault => exact .hostFault

/-- An instruction takes the same course on both machines, and touches nothing elsewhere. -/
theorem oneInstruction_twins (hinj : Function.Injective frame) (h : Alike frame m₁ m₂)
    (regs : Registers) :
    Instructed.Twins frame m₁ m₂ (oneInstruction regs m₁) (oneInstruction regs m₂) := by
  unfold oneInstruction
  rcases h.readMem (regs pcReg) .word with ⟨m₁', m₂', value, hm₁, hm₂, htwins⟩ | ⟨e, hm₁, hm₂⟩
  · rw [show (4 : Nat) = Width.word.size from rfl, hm₁, hm₂]
    exact (Executed.Twins.of_twins htwins
      (Instruction.execute_twins hinj htwins.alike _ regs)).finish
  · rw [show (4 : Nat) = Width.word.size from rfl, hm₁, hm₂]
    exact raiseException_twins h.twins _ _ regs

end Nachos
