import Nachos.Machine.Confinement
import Nachos.Userprog.SystemCalls

/-!
# Processes are isolated

The processes share the registers of the machine, its page-table register and main memory. Still
each of them computes as if it were alone: whatever the scheduler does, and whatever the others do
in user mode and in their system calls, a process has the registers and the bytes, and asks the
kernel the questions, that it would have and ask on a machine of its own that gives it the same
answers. That holds as long as no frame is in two page tables. Loading a program is not part of the
runs here.

* `System.step` — the processes, one at a time
* `run_isolated` — every process is alone
-/

namespace Nachos

open Base

/-! ## One process -/

section Process

variable {n : Nat} {frame : Fin n → Fin numPhysPages}

/-- The same registers, the same bytes, and the same way to go. -/
structure Process.Alike (frame : Fin n → Fin numPhysPages) (p q : Process n) : Prop where
  registers : p.registers = q.registers
  phase : p.phase = q.phase
  machine : Nachos.Alike frame p.machine q.machine

/-- The loop of `User2System` copies the same bytes. -/
theorem Alike.user2SystemLoop {m₁ m₂ : Machine n} (h : Alike frame m₁ m₂) (virtAddr : BitVec 32)
    (kernelBuf : KernelBuf) (i k : Nat) :
    (∃ m₁' m₂' b, Nachos.user2SystemLoop virtAddr m₁ kernelBuf i k = .done (m₁', b) ∧
      Nachos.user2SystemLoop virtAddr m₂ kernelBuf i k = .done (m₂', b) ∧
      Twins frame m₁ m₂ m₁' m₂') ∨
    ∃ e, Nachos.user2SystemLoop virtAddr m₁ kernelBuf i k = .raised e ∧
      Nachos.user2SystemLoop virtAddr m₂ kernelBuf i k = .raised e := by
  induction k generalizing m₁ m₂ kernelBuf i with
  | zero => exact .inl ⟨m₁, m₂, kernelBuf, rfl, rfl, h.twins⟩
  | succ k ih =>
    unfold Nachos.user2SystemLoop
    rcases h.readMem (virtAddr + BitVec.ofNat 32 i) .byte with
      ⟨m₁', m₂', oneChar, hm₁, hm₂, htwins⟩ | ⟨e, hm₁, hm₂⟩
    · rw [show (1 : Nat) = Width.byte.size from rfl, hm₁, hm₂]
      simp only [Access.bind]
      split
      · exact .inl ⟨m₁', m₂', _, rfl, rfl, htwins⟩
      · rcases ih htwins.alike (Function.update kernelBuf i (oneChar.setWidth 8)) (i + 1) with
          ⟨m₁'', m₂'', b, hr₁, hr₂, htwins'⟩ | hraised
        · exact .inl ⟨m₁'', m₂'', b, hr₁, hr₂, htwins.trans htwins'⟩
        · exact .inr hraised
    · rw [show (1 : Nat) = Width.byte.size from rfl, hm₁, hm₂]
      exact .inr ⟨e, rfl, rfl⟩

/-- The loop of `System2User` writes the same bytes. -/
theorem Alike.system2UserLoop {m₁ m₂ : Machine n} (hinj : Function.Injective frame)
    (h : Alike frame m₁ m₂) (virtAddr : BitVec 32) (buffer : KernelBuf) (i k : Nat) :
    (∃ m₁' m₂', Nachos.system2UserLoop virtAddr buffer m₁ i k = .done m₁' ∧
      Nachos.system2UserLoop virtAddr buffer m₂ i k = .done m₂' ∧ Twins frame m₁ m₂ m₁' m₂') ∨
    ∃ e, Nachos.system2UserLoop virtAddr buffer m₁ i k = .raised e ∧
      Nachos.system2UserLoop virtAddr buffer m₂ i k = .raised e := by
  induction k generalizing m₁ m₂ i with
  | zero => exact .inl ⟨m₁, m₂, rfl, rfl, h.twins⟩
  | succ k ih =>
    unfold Nachos.system2UserLoop
    dsimp only
    rcases h.writeMem hinj (virtAddr + BitVec.ofNat 32 i) .byte ((buffer i).signExtend 32) with
      ⟨m₁', m₂', hm₁, hm₂, htwins⟩ | ⟨e, hm₁, hm₂⟩
    · rw [show (1 : Nat) = Width.byte.size from rfl, hm₁, hm₂]
      simp only [Access.bind]
      split
      · exact .inl ⟨m₁', m₂', rfl, rfl, htwins⟩
      · rcases ih htwins.alike (i + 1) with ⟨m₁'', m₂'', hr₁, hr₂, htwins'⟩ | hraised
        · exact .inl ⟨m₁'', m₂'', hr₁, hr₂, htwins.trans htwins'⟩
        · exact .inr hraised
    · rw [show (1 : Nat) = Width.byte.size from rfl, hm₁, hm₂]
      exact .inr ⟨e, rfl, rfl⟩

namespace Process

variable {p q : Process n}

/-- Both processes can make the step and are alike behind it, or neither can make it. -/
def Twins (frame : Fin n → Fin numPhysPages) (p q : Process n) (p' q' : Option (Process n)) :
    Prop :=
  (∃ p₁ q₁, p' = some p₁ ∧ q' = some q₁ ∧ p₁.Alike frame q₁ ∧
    Elsewhere frame p.machine p₁.machine ∧ Elsewhere frame q.machine q₁.machine) ∨
  (p' = none ∧ q' = none)

/-- A step that both can make. -/
theorem twins_some {m₁ m₂ : Machine n} (h : Nachos.Twins frame p.machine q.machine m₁ m₂)
    {regs : Registers} {phase : UserPhase} :
    Twins frame p q (some ⟨regs, m₁, phase⟩) (some ⟨regs, m₂, phase⟩) :=
  .inl ⟨_, _, rfl, rfl, ⟨rfl, rfl, h.alike⟩, h.left, h.right⟩

namespace Alike

variable (h : p.Alike frame q)

include h

/-- A copy from user space. -/
theorem twins_copyIn (code : SyscallCode) (next : KernelBuf → CallBody)
    (virtAddr limit : BitVec 32) (junk : KernelBuf) :
    Twins frame p q (p.ofAccess code next (user2System p.machine virtAddr limit junk))
      (q.ofAccess code next (user2System q.machine virtAddr limit junk)) := by
  unfold user2System
  split
  · exact .inr ⟨rfl, rfl⟩
  · rcases h.machine.user2SystemLoop virtAddr junk 0 limit.toInt.toNat with
      ⟨m₁, m₂, b, hm₁, hm₂, htwins⟩ | ⟨e, hm₁, hm₂⟩
    · rw [hm₁, hm₂]
      unfold ofAccess
      rw [h.registers]
      exact twins_some htwins
    · rw [hm₁, hm₂]
      exact .inr ⟨rfl, rfl⟩

/-- A copy to user space. -/
theorem twins_copyOut (hinj : Function.Injective frame) (code : SyscallCode) (next : CallBody)
    (virtAddr : BitVec 32) (len : Int) (buffer : KernelBuf) :
    Twins frame p q
      (p.ofAccess code (fun _ => next)
        ((system2User p.machine virtAddr len buffer).map fun m => (m, ())))
      (q.ofAccess code (fun _ => next)
        ((system2User q.machine virtAddr len buffer).map fun m => (m, ()))) := by
  unfold system2User
  split
  · simp only [Access.map, ofAccess]
    rw [h.registers]
    exact twins_some h.machine.twins
  · rcases h.machine.system2UserLoop hinj virtAddr buffer 0 len.toNat with
      ⟨m₁, m₂, hm₁, hm₂, htwins⟩ | ⟨e, hm₁, hm₂⟩
    · rw [hm₁, hm₂]
      simp only [Access.map, ofAccess]
      rw [h.registers]
      exact twins_some htwins
    · rw [hm₁, hm₂]
      exact .inr ⟨rfl, rfl⟩

/-- A step in a system call. -/
theorem twins_serve (hinj : Function.Injective frame) (code : SyscallCode) (answer : KernelAnswer)
    (junk : KernelBuf) (body : CallBody) :
    Twins frame p q (p.serve code answer junk body) (q.serve code answer junk body) := by
  cases body with
  | result value =>
    simp only [serve, h.registers]
    exact twins_some h.machine.twins
  | halted => exact .inr ⟨rfl, rfl⟩
  | finished => exact .inr ⟨rfl, rfl⟩
  | request r next =>
    simp only [serve, h.registers]
    exact twins_some h.machine.twins
  | allocate size next =>
    simp only [serve]
    split
    · exact .inr ⟨rfl, rfl⟩
    · rw [h.registers]
      exact twins_some h.machine.twins
  | copyIn virtAddr limit next => exact h.twins_copyIn code next virtAddr limit junk
  | copyOut virtAddr len buffer next => exact h.twins_copyOut hinj code next virtAddr len buffer

/-- A step in user mode. -/
theorem twins_instruct (hinj : Function.Injective frame) :
    Twins frame p q p.instruct q.instruct := by
  have htwins := oneInstruction_twins hinj h.machine p.registers
  unfold instruct
  rw [← h.registers, ← h.phase]
  generalize oneInstruction p.registers p.machine = x₁ at htwins ⊢
  generalize oneInstruction p.registers q.machine = x₂ at htwins ⊢
  cases htwins with
  | finished htwins regs => exact twins_some htwins
  | trapped htwins which regs =>
    cases which with
    | syscallException =>
      dsimp only
      cases SyscallCode.ofType (regs.gp 2) with
      | none => exact .inr ⟨rfl, rfl⟩
      | some code => exact twins_some htwins
    | memory e => exact .inr ⟨rfl, rfl⟩
    | overflowException => exact .inr ⟨rfl, rfl⟩
    | illegalInstrException => exact .inr ⟨rfl, rfl⟩
  | aborted => exact .inr ⟨rfl, rfl⟩
  | hostFault => exact .inr ⟨rfl, rfl⟩

/-- Processes that are alike stay so, and neither touches memory that is not its own. -/
theorem twins_step (hinj : Function.Injective frame) (e : ProcessEvent) :
    Twins frame p q (p.step e) (q.step e) := by
  cases e with
  | go answer junk =>
    unfold step
    dsimp only
    rw [← h.phase]
    cases p.phase with
    | user => exact h.twins_instruct hinj
    | call code body => exact h.twins_serve hinj code answer junk body
  | interrupt =>
    unfold step
    dsimp only
    rw [h.registers, ← h.phase]
    cases q.registers.delayedLoad 0 0 with
    | none => exact .inr ⟨rfl, rfl⟩
    | some regs => exact twins_some h.machine.twins

end Alike

end Process

end Process

/-! ## All processes -/

section System

variable {ι : Type} [DecidableEq ι] {len : ι → Nat}

/-- The machine with its registers, and the processes `i : ι`, of `len i` pages each. -/
structure System (len : ι → Nat) where
  spaces : Spaces len
  registers : Registers
  currentThread : ι
  userRegisters : ι → Registers
  phase : ι → UserPhase

/-- What happens to the processes. -/
inductive Move (ι : Type) where
  /-- To the one that runs. -/
  | process (e : ProcessEvent)
  /-- `Scheduler::Run`. -/
  | run (nextThread : ι)

namespace System

/-- The process `i`: the registers of the one that runs are those of the machine. -/
def process (σ : System len) (i : ι) : Process (len i) where
  registers := if i = σ.currentThread then σ.registers else σ.userRegisters i
  machine := σ.spaces.machine i
  phase := σ.phase i

/-- The process that runs has become `p`. -/
def put (σ : System len) (p : Process (len σ.currentThread)) : System len :=
  { σ with
    spaces := σ.spaces.put σ.currentThread p.machine
    registers := p.registers
    phase := Function.update σ.phase σ.currentThread p.phase }

/-- The registers are saved for the old thread, and restored for the new one. -/
def switch (σ : System len) (nextThread : ι) : System len :=
  let userRegisters := Function.update σ.userRegisters σ.currentThread σ.registers
  { σ with
    registers := userRegisters nextThread
    currentThread := nextThread
    userRegisters := userRegisters }

def step (σ : System len) : Move ι → Option (System len)
  | .process e => ((σ.process σ.currentThread).step e).map σ.put
  | .run nextThread => some (σ.switch nextThread)

/-- What process `i` is given in a move. -/
def events (i : ι) (σ : System len) : Move ι → List ProcessEvent
  | .process e => if i = σ.currentThread then [e] else []
  | .run _ => []

end System

variable {frame : (i : ι) → Fin (len i) → Fin numPhysPages}

/-! ### Behind the page tables -/

theorem Spaces.machine_put_self {σ : Spaces len} {i : ι} {m : Machine (len i)}
    {f : FlatStore (len i)} (h : Shows m (frame i) f) : (σ.put i m).machine i = m := by
  obtain ⟨pageTable, htlb, htable, _, _⟩ := h
  unfold machine put
  rw [htable]
  dsimp only
  rw [Function.update_self, ← htlb, ← htable]

theorem Spaces.machine_put_of_ne {σ : Spaces len} {i j : ι} (hij : j ≠ i) (m : Machine (len i)) :
    (σ.put i m).machine j = { σ.machine j with mainMemory := m.mainMemory } := by
  unfold machine put
  split
  · rfl
  · dsimp only
    rw [Function.update_of_ne hij]

omit [DecidableEq ι] in
/-- A process shows the same when only the frames of another one have changed. -/
theorem Shows.of_elsewhere (hsep : Separate frame) {i j : ι} (hij : j ≠ i)
    {m m' : Machine (len i)} (helse : Elsewhere (frame i) m m') {m₁ : Machine (len j)}
    (hm₁ : m₁.mainMemory = m.mainMemory) {f : FlatStore (len j)} (h : Shows m₁ (frame j) f) :
    Shows { m₁ with mainMemory := m'.mainMemory } (frame j) f := by
  obtain ⟨pageTable, htlb, htable, hmaps, rfl⟩ := h
  refine ⟨pageTable, htlb, htable, hmaps, ?_⟩
  have hsame : m₁.mainMemory ∘ phys (frame j) = m'.mainMemory ∘ phys (frame j) := by
    funext v
    rw [hm₁]
    exact (helse _ fun u => phys_ne (hsep.disjoint i j hij.symm) u v).symm
  unfold flat
  rw [hsame]

omit [DecidableEq ι] in
theorem Spaces.Mapped.shows {σ : Spaces len} (h : σ.Mapped frame) (i : ι) :
    Shows (σ.machine i) (frame i) (σ.flat frame i) :=
  ⟨σ.pageTable i, rfl, rfl, h i, rfl⟩

theorem Spaces.Mapped.put_shows {σ : Spaces len} (h : σ.Mapped frame) {i : ι}
    {m : Machine (len i)} {f : FlatStore (len i)} (hm : Shows m (frame i) f) :
    (σ.put i m).Mapped frame := by
  obtain ⟨pageTable, _, htable, hmaps, _⟩ := hm
  intro j
  unfold Spaces.put
  rw [htable]
  dsimp only
  by_cases hj : j = i
  · subst hj
    rw [Function.update_self]
    exact hmaps
  · rw [Function.update_of_ne hj]
    exact h j

/-! ### One move -/

namespace System

variable {σ τ : System len}

/-- A switch changes nothing for any process. -/
theorem process_switch (σ : System len) (nextThread i : ι) :
    (σ.switch nextThread).process i = σ.process i := by
  have hregs : (σ.switch nextThread).process i =
      { σ.process i with
        registers := Function.update σ.userRegisters σ.currentThread σ.registers i } := by
    unfold switch process
    dsimp only
    by_cases hi : i = nextThread
    · rw [if_pos hi, hi]
    · rw [if_neg hi]
  rw [hregs, Function.update_apply]
  rfl

/-- The process that runs has the registers of the machine. -/
theorem registers_process (σ : System len) :
    (σ.process σ.currentThread).registers = σ.registers := if_pos rfl

/-- What process `j` is after a step of the process that runs. -/
theorem process_put_self {p : Process (len σ.currentThread)} {f : FlatStore (len σ.currentThread)}
    (h : Shows p.machine (frame σ.currentThread) f) :
    (σ.put p).process σ.currentThread = p := by
  unfold process put
  dsimp only
  rw [if_pos rfl, Function.update_self, Spaces.machine_put_self h]

theorem process_put_of_ne {i : ι} (hi : i ≠ σ.currentThread)
    (p : Process (len σ.currentThread)) :
    (σ.put p).process i = { σ.process i with
      machine := { σ.spaces.machine i with mainMemory := p.machine.mainMemory } } := by
  unfold process put
  dsimp only
  rw [if_neg hi, if_neg hi, Function.update_of_ne hi, Spaces.machine_put_of_ne hi]

/-- The process that runs takes a step: it stays behind its page table. -/
theorem put_of_step (hsep : Separate frame) (hmap : σ.spaces.Mapped frame) {e : ProcessEvent}
    (hstep : σ.step (.process e) = some τ) :
    ∃ p f, (σ.process σ.currentThread).step e = some p ∧ τ = σ.put p ∧
      Shows p.machine (frame σ.currentThread) f ∧
      Elsewhere (frame σ.currentThread) (σ.spaces.machine σ.currentThread) p.machine := by
  obtain ⟨p, hp, rfl⟩ := Option.map_eq_some_iff.mp hstep
  -- the process that runs, beside itself
  have hself : (σ.process σ.currentThread).Alike (frame σ.currentThread)
      (σ.process σ.currentThread) := ⟨rfl, rfl, _, hmap.shows _, hmap.shows _⟩
  obtain ⟨p₁, _, hp₁, _, halike, helse, _⟩ | ⟨hnone, _⟩ :=
    hself.twins_step (hsep.injective σ.currentThread) e
  · obtain rfl := Option.some.inj (hp.symm.trans hp₁)
    obtain ⟨f, hshows, _⟩ := halike.machine
    exact ⟨p, f, hp, rfl, hshows, helse⟩
  · rw [hp] at hnone
    cases hnone

/-- A move touches no memory but that of the process that runs. -/
theorem step_elsewhere (hsep : Separate frame) (hmap : σ.spaces.Mapped frame) {move : Move ι}
    (hstep : σ.step move = some τ) {a : Fin memorySize}
    (ha : ∀ v, phys (frame σ.currentThread) v ≠ a) :
    τ.spaces.mainMemory a = σ.spaces.mainMemory a := by
  cases move with
  | run nextThread =>
    obtain rfl := Option.some.inj hstep
    rfl
  | process e =>
    obtain ⟨p, f, -, rfl, -, helse⟩ := put_of_step hsep hmap hstep
    exact helse a ha

/-- What a move does to the machine, to process `i`, and to memory of no process. -/
theorem step_alike (hsep : Separate frame) (hmap : σ.spaces.Mapped frame) {move : Move ι}
    (hstep : σ.step move = some τ) (i : ι) {q : Process (len i)}
    (hq : (σ.process i).Alike (frame i) q) :
    τ.spaces.Mapped frame ∧
      (∃ q', run Process.step q (events i σ move) = some q' ∧ (τ.process i).Alike (frame i) q') ∧
      ∀ p, (∀ j v, phys (frame j) v ≠ p) → τ.spaces.mainMemory p = σ.spaces.mainMemory p := by
  cases move with
  | run nextThread =>
    obtain rfl := Option.some.inj hstep
    refine ⟨hmap, ⟨q, rfl, ?_⟩, fun _ _ => rfl⟩
    rw [process_switch]
    exact hq
  | process e =>
    obtain ⟨p, f, hp, rfl, hshows, helse⟩ := put_of_step hsep hmap hstep
    have hinj := hsep.injective σ.currentThread
    refine ⟨hmap.put_shows hshows, ?_, fun a ha => helse a (ha _)⟩
    by_cases hi : i = σ.currentThread
    · subst hi
      obtain ⟨p₂, q', hp₂, hq', halike', _⟩ | ⟨hnone, _⟩ := hq.twins_step hinj e
      · obtain rfl := Option.some.inj (hp.symm.trans hp₂)
        refine ⟨q', ?_, ?_⟩
        · unfold events
          dsimp only
          rw [if_pos rfl, run_cons_eq_some]
          exact ⟨q', hq', rfl⟩
        · rw [process_put_self hshows]
          exact halike'
      · rw [hp] at hnone
        cases hnone
    · refine ⟨q, ?_, ?_⟩
      · unfold events
        dsimp only
        rw [if_neg hi]
        rfl
      · rw [process_put_of_ne hi]
        obtain ⟨g, hg, hgq⟩ := hq.machine
        exact ⟨hq.registers, hq.phase, g, hg.of_elsewhere hsep hi helse rfl, hgq⟩

/-! ### Many moves -/

theorem run_alike (hsep : Separate frame) (hmap : σ.spaces.Mapped frame) {moves : List (Move ι)}
    (hrun : run step σ moves = some τ) (i : ι) {q : Process (len i)}
    (hq : (σ.process i).Alike (frame i) q) :
    τ.spaces.Mapped frame ∧
      (∃ q', run Process.step q (observed (events i) step σ moves) = some q' ∧
        (τ.process i).Alike (frame i) q') ∧
      ∀ p, (∀ j v, phys (frame j) v ≠ p) → τ.spaces.mainMemory p = σ.spaces.mainMemory p := by
  induction moves generalizing σ q with
  | nil =>
    obtain rfl := Option.some.inj hrun
    exact ⟨hmap, ⟨q, rfl, hq⟩, fun _ _ => rfl⟩
  | cons move moves ih =>
    obtain ⟨ρ, hstep, hrest⟩ := run_cons_eq_some.mp hrun
    obtain ⟨hmapρ, ⟨q₁, hq₁, halike⟩, hkeep⟩ := step_alike hsep hmap hstep i hq
    obtain ⟨hmapτ, ⟨q', hq', halike'⟩, hkeep'⟩ := ih hmapρ hrest halike
    refine ⟨hmapτ, ⟨q', ?_, halike'⟩, fun p hp => (hkeep' p hp).trans (hkeep p hp)⟩
    rw [observed_cons hstep, run_append_eq_some]
    exact ⟨q₁, hq₁, hq'⟩

/-- A condition on the steps of process `i` holds of its steps on a machine of its own. -/
theorem allSteps_alone (hsep : Separate frame) (hmap : σ.spaces.Mapped frame)
    {moves : List (Move ι)} (i : ι) {C : Process (len i) → ProcessEvent → Prop}
    (hC : ∀ p q e, Process.Alike (frame i) p q → C p e → C q e) {q : Process (len i)}
    (hq : (σ.process i).Alike (frame i) q)
    (hall : AllSteps step (fun ρ move => ∀ e ∈ events i ρ move, C (ρ.process i) e) σ moves) :
    AllSteps Process.step C q (observed (events i) step σ moves) := by
  induction moves generalizing σ q with
  | nil => trivial
  | cons move moves ih =>
    cases hstep : σ.step move with
    | none =>
      unfold observed
      rw [hstep]
      trivial
    | some ρ =>
      obtain ⟨hfirst, hrest⟩ := (allSteps_cons hstep).mp hall
      obtain ⟨hmapρ, ⟨q₁, hq₁, halike⟩, -⟩ := step_alike hsep hmap hstep i hq
      have hevents : AllSteps Process.step C q (events i σ move) := by
        cases move with
        | run nextThread => trivial
        | process e =>
          unfold events at hfirst ⊢
          dsimp only at hfirst ⊢
          split
          next hi =>
            rw [if_pos hi] at hfirst
            exact ⟨hC _ _ e hq (hfirst e List.mem_cons_self), fun _ _ => trivial⟩
          next => trivial
      rw [observed_cons hstep, allSteps_append hq₁]
      exact ⟨hevents, ih hmapρ halike hrest⟩

/-- No move touches memory but that of the process that runs. -/
theorem allSteps_elsewhere (hsep : Separate frame) (hmap : σ.spaces.Mapped frame)
    (moves : List (Move ι)) :
    AllSteps step (fun ρ move => ∀ ρ', ρ.step move = some ρ' →
      ∀ a, (∀ v, phys (frame ρ.currentThread) v ≠ a) →
        ρ'.spaces.mainMemory a = ρ.spaces.mainMemory a) σ moves := by
  have hkeep : ∀ (ρ : System len) (move : Move ι) (ρ' : System len), ρ.spaces.Mapped frame →
      ρ.step move = some ρ' → ρ'.spaces.Mapped frame := by
    intro ρ move ρ' hmap hstep
    exact (step_alike hsep hmap hstep ρ.currentThread
      ⟨rfl, rfl, _, hmap.shows _, hmap.shows _⟩).1
  exact allSteps_of_invariant hkeep
    (fun ρ move hmap ρ' hstep a ha => step_elsewhere hsep hmap hstep ha) hmap moves

end System

/-! ## Whole runs -/

/--
Every process is alone.

In every run of the processes, a process comes to the registers, the bytes and the place in its code
to which it would come from the same ones on a machine of its own, if it were given there what it
was given here. Memory behind no page table is not touched.
-/
theorem run_isolated (hsep : Separate frame) {σ τ : System len} (hmap : σ.spaces.Mapped frame)
    {moves : List (Move ι)} (hrun : run System.step σ moves = some τ) (i : ι)
    {q : Process (len i)} (hq : (σ.process i).Alike (frame i) q) :
    (∃ q', run Process.step q (observed (System.events i) System.step σ moves) = some q' ∧
      (τ.process i).Alike (frame i) q') ∧
    ∀ p, (∀ j v, phys (frame j) v ≠ p) → τ.spaces.mainMemory p = σ.spaces.mainMemory p :=
  (System.run_alike hsep hmap hrun i hq).2

end System

/-! ## Two processes -/

/-- `ADDIU r2, r0, 58` and the `SYSCALL` of `GetPID`, in the frames 3 and 5. -/
def twoPrograms : System (ι := Bool) fun _ => 1 where
  spaces := { twoSpaces with
    mainMemory := fun p =>
      if p.val / pageSize = 3 ∨ p.val / pageSize = 5 then
        byteOf (([0x2402003a, 0x0000000c] : List (BitVec 32)).getD (p.val % pageSize / 4) 0)
          (p.val % 4)
      else 0 }
  registers := .initRegisters 1
  currentThread := true
  userRegisters := fun _ => .initRegisters 1
  phase := fun _ => .user

/-- The one in frame 3, with nothing else in memory. -/
def onlyProgram : Process 1 where
  registers := .initRegisters 1
  machine := { twoPrograms.spaces.machine true with
    mainMemory := fun p => if p.val / pageSize = 3 then twoPrograms.spaces.mainMemory p else 0 }
  phase := .user

theorem alike_onlyProgram : (twoPrograms.process true).Alike (twoFrames true) onlyProgram := by
  have hmaps : Maps (twoPrograms.spaces.pageTable true) (twoFrames true) := fun _ => rfl
  refine ⟨rfl, rfl, _, ⟨_, rfl, rfl, hmaps, rfl⟩, _, rfl, rfl, hmaps, ?_⟩
  have hbytes : twoPrograms.spaces.mainMemory ∘ phys (twoFrames true) =
      onlyProgram.machine.mainMemory ∘ phys (twoFrames true) := by
    funext v
    have hthree : (phys (twoFrames true) v : Nat) / pageSize = 3 := by
      have hval : (twoFrames true v.divNat : Nat) = 3 := rfl
      rw [phys_val, hval]
      unfold pageSize
      omega
    exact (if_pos hthree).symm
  exact congrArg (FlatStore.mk _ _) hbytes

/-- The first is preempted behind its first instruction, and gets 7 for its question. -/
def twoProgramsMoves : List (Move Bool) :=
  [.process (.go ⟨0, []⟩ fun _ => 0), .run false, .process (.go ⟨0, []⟩ fun _ => 0), .run true,
    .process (.go ⟨0, []⟩ fun _ => 0), .process (.go ⟨7, []⟩ fun _ => 0),
    .process (.go ⟨0, []⟩ fun _ => 0)]

theorem run_isolated_two_programs :
    ∃ τ, run System.step twoPrograms twoProgramsMoves = some τ ∧
      (τ.process true).registers.gp 2 = 7 ∧
      ∃ q', run Process.step onlyProgram
          (observed (System.events true) System.step twoPrograms twoProgramsMoves) = some q' ∧
        (τ.process true).Alike (twoFrames true) q' := by
  have hsep : Separate twoFrames := ⟨fun i p q _ => Subsingleton.elim p q, by decide⟩
  have hmap : twoPrograms.spaces.Mapped twoFrames := by
    intro i p
    cases i <;> rfl
  refine ⟨_, rfl, rfl, (run_isolated hsep hmap ?_ true alike_onlyProgram).1⟩
  rfl

end Nachos
