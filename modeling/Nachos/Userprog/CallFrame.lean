import Nachos.Userprog.Isolation

/-!
# A system call writes into the buffer it is given

`Read` and `ReadString` are given a buffer by the process, and they write to it at most as many
bytes as the process has said. No other system call writes to the memory of the process, and of the
registers a system call changes the result and the program counters. The process can be preempted
inside the call as often as it likes, and the other processes run then.

* `SyscallCode.InBuffer` — the bytes that a call may write
* `call_frame` — a call from its `SYSCALL` to its return, of a process alone
* `run_call_frame` — the same among all processes
-/

namespace Nachos

open Base

/-! ## What a body may write -/

/-- Nobody reads more than has been asked for. -/
def Query.Grants : Query → KernelAnswer → Prop
  | .read _ charcount, a => a.value.toInt ≤ charcount.toInt
  | _, _ => True

/-- Whatever is answered, the body writes to addresses in `P` only. -/
def CallBody.WritesIn (P : BitVec 32 → Prop) : CallBody → Prop
  | .result _ | .halted | .finished => True
  | .request r next => ∀ a, r.Grants a → (next a).WritesIn P
  | .allocate _ next | .copyIn _ _ next => ∀ buffer, (next buffer).WritesIn P
  | .copyOut virtAddr len _ next =>
    (∀ j < len.toNat, P (virtAddr + BitVec.ofNat 32 j)) ∧ next.WritesIn P

/-- The address is one of `length` bytes from `virtAddr` on. -/
def WithinBuffer (virtAddr length : BitVec 32) (addr : BitVec 32) : Prop :=
  ∃ j < length.toInt.toNat, addr = virtAddr + BitVec.ofNat 32 j

/-- The address is in the buffer that the process gives to the call. -/
def SyscallCode.InBuffer (code : SyscallCode) (regs : Registers) (addr : BitVec 32) : Prop :=
  match code with
  | .readString | .readFile => WithinBuffer (regs.gp 4) (regs.gp 5) addr
  | _ => False

namespace CallBody

variable {P : BitVec 32 → Prop}

theorem writesIn_result (value : BitVec 32) : (result value).WritesIn P := trivial

theorem writesIn_ask (r : Query) : (ask r).WritesIn P := fun _ _ => trivial

theorem writesIn_ite {c : Prop} [Decidable c] {a b : CallBody} (ha : a.WritesIn P)
    (hb : b.WritesIn P) : (if c then a else b).WritesIn P := by
  split
  · exact ha
  · exact hb

theorem writesIn_readChars {next : KernelBuf → Nat → CallBody}
    (h : ∀ sysBuff idx, (next sysBuff idx).WritesIn P) (sysBuff : KernelBuf) (idx k : Nat) :
    (readChars next sysBuff idx k).WritesIn P := by
  induction k generalizing sysBuff idx with
  | zero => exact h sysBuff idx
  | succ k ih => exact fun a _ => writesIn_ite (h _ _) (ih _ _)

theorem writesIn_putChars {next : Nat → CallBody} (h : ∀ i, (next i).WritesIn P)
    (sysBuff : KernelBuf) (i k : Nat) : (putChars next sysBuff i k).WritesIn P := by
  induction k generalizing i with
  | zero => exact h i
  | succ k ih => exact writesIn_ite (h i) fun _ _ => ih (i + 1)

theorem writesIn_takeLine (virtAddr length : BitVec 32) {next : Nat → CallBody}
    (h : ∀ idx, (next idx).WritesIn (WithinBuffer virtAddr length)) (sysBuff : KernelBuf) :
    (takeLine virtAddr length next sysBuff).WritesIn (WithinBuffer virtAddr length) := by
  refine writesIn_readChars (fun buffer idx => ?_) sysBuff 0 _
  exact ⟨fun j hj => ⟨j, hj, rfl⟩, h idx⟩

end CallBody

open CallBody

/-- A file is copied to the user as far as it has been read. -/
theorem writesIn_sysReadBody (regs : Registers) :
    (sysReadBody regs).WritesIn (WithinBuffer (regs.gp 4) (regs.gp 5)) := by
  refine writesIn_ite trivial fun file _ => writesIn_ite trivial fun sysBuff => ?_
  refine writesIn_ite (writesIn_takeLine _ _ (fun _ => writesIn_result _) sysBuff)
    (writesIn_ite trivial ?_)
  intro size hsize
  have hle : size.value.toInt ≤ (regs.gp 5).toInt := hsize
  exact writesIn_ite ⟨fun j hj => ⟨j, by omega, rfl⟩, trivial⟩ trivial

/-- A call writes into its buffer only. -/
theorem SyscallCode.body_writesIn (code : SyscallCode) (regs : Registers) :
    (code.body regs).WritesIn (code.InBuffer regs) := by
  cases code with
  | readString => exact fun sysBuff => writesIn_takeLine _ _ (fun _ => writesIn_result _) sysBuff
  | readFile => exact writesIn_sysReadBody regs
  | printString => exact fun sysBuff => writesIn_putChars (fun _ => writesIn_result _) sysBuff 0 _
  | createFile => exact fun sysBuff => writesIn_ite trivial fun _ _ => trivial
  | openFile => exact fun name => writesIn_ite trivial (writesIn_ite trivial (writesIn_ask _))
  | writeFile =>
    refine writesIn_ite trivial fun file _ => writesIn_ite trivial fun type _ =>
      writesIn_ite trivial fun sysBuff => ?_
    exact writesIn_ite (writesIn_putChars (fun _ => writesIn_result _) sysBuff 0 _)
      (writesIn_ite trivial (writesIn_ask _))
  | exec => exact fun name oFile _ => writesIn_ite trivial (writesIn_ask _)
  | exit => exact writesIn_ite (fun _ _ => trivial) trivial
  | createSemaphore | signal => exact fun name => writesIn_ask _
  | wait => exact fun _ name => writesIn_ask _
  | halt | add => trivial
  | _ => exact writesIn_ask _

/-! ## The copies -/

section Copies

variable {n : Nat} {frame : Fin n → Fin numPhysPages} {m m' : Machine n} {f : FlatStore n}

/-- `m'` has the bytes of `m` everywhere but at the user addresses in `P`. -/
def Framed (frame : Fin n → Fin numPhysPages) (P : BitVec 32 → Prop) (m : Machine n)
    (f : FlatStore n) (m' : Machine n) : Prop :=
  Elsewhere frame m m' ∧
    ∃ g, Shows m' frame g ∧ ∀ addr, ¬ P addr → g.read addr .byte = f.read addr .byte

theorem Shows.framed (h : Shows m frame f) (P : BitVec 32 → Prop) : Framed frame P m f m :=
  ⟨.refl frame m, f, h, fun _ _ => rfl⟩

theorem Framed.user2SystemLoop {P : BitVec 32 → Prop} {m₁ m₂ : Machine n}
    (h : Framed frame P m f m₁) {virtAddr : BitVec 32} {kernelBuf b : KernelBuf} {i k : Nat}
    (hloop : Nachos.user2SystemLoop virtAddr m₁ kernelBuf i k = .done (m₂, b)) :
    Framed frame P m f m₂ := by
  induction k generalizing m₁ kernelBuf i with
  | zero =>
    cases hloop
    exact h
  | succ k ih =>
    obtain ⟨helse, g, hshows, hg⟩ := h
    obtain ⟨⟨m₃, oneChar⟩, hread, hrest⟩ := Access.bind_eq_done.mp hloop
    have hread' : m₁.readMem (virtAddr + BitVec.ofNat 32 i) Width.byte.size = .done (m₃, oneChar) :=
      hread
    have hframed : Framed frame P m f m₃ :=
      ⟨helse.trans (.of_mainMemory (Machine.mainMemory_of_readMem hread)), g,
        hshows.of_readMem hread', hg⟩
    dsimp only at hrest
    split at hrest
    · cases hrest
      exact hframed
    · exact ih hframed hrest

theorem Framed.system2UserLoop (hinj : Function.Injective frame) {P : BitVec 32 → Prop}
    {m₁ m₂ : Machine n} (h : Framed frame P m f m₁) {virtAddr : BitVec 32} {buffer : KernelBuf}
    {i k : Nat} (hP : ∀ j, i ≤ j → j < i + k → P (virtAddr + BitVec.ofNat 32 j))
    (hloop : Nachos.system2UserLoop virtAddr buffer m₁ i k = .done m₂) :
    Framed frame P m f m₂ := by
  induction k generalizing m₁ i with
  | zero =>
    cases hloop
    exact h
  | succ k ih =>
    obtain ⟨helse, g, hshows, hg⟩ := h
    obtain ⟨m₃, hwrite, hrest⟩ := Access.bind_eq_done.mp hloop
    have hframed : Framed frame P m f m₃ := by
      rcases hshows.writeMem hinj (virtAddr + BitVec.ofNat 32 i) .byte ((buffer i).signExtend 32)
        with ⟨m₄, g', hg', hm₄, hshows', hkeep⟩ | ⟨e, _, hm₄⟩
      · obtain rfl := Access.done.inj (hm₄.symm.trans hwrite)
        refine ⟨helse.trans hkeep, g', hshows', fun addr haddr => ?_⟩
        rw [FlatStore.write_byte hg' addr, if_neg, hg addr haddr]
        rintro rfl
        exact haddr (hP i le_rfl (by omega))
      · cases hm₄.symm.trans hwrite
    split at hrest
    · cases hrest
      exact hframed
    · exact ih hframed (fun j hj hlt => hP j (by omega) (by omega)) hrest

end Copies

/-! ## No load is pending in a call -/

/-- No load is pending. -/
structure Registers.Settled (regs : Registers) : Prop where
  load : regs loadReg = 0
  value : regs loadValueReg = 0
  zero : regs 0 = 0

namespace Registers

variable {regs regs' : Registers}

theorem settled_of_delayedLoad (h : regs.delayedLoad 0 0 = some regs') : regs'.Settled := by
  unfold delayedLoad at h
  split at h
  · cases h
    exact ⟨rfl, rfl, rfl⟩
  · cases h

theorem Settled.delayedLoad (h : regs.Settled) : regs.delayedLoad 0 0 = some regs := by
  have hkeep : ∀ k, regs k = 0 → regs.writeRegister k 0 = regs := by
    intro k hk
    rw [← hk]
    exact Function.update_eq_self k regs
  have heq : regs.delayed 0 0 0 = regs := by
    unfold delayed setGp
    dsimp only
    rw [h.value, hkeep (gpReg 0) h.zero, hkeep loadReg h.load, hkeep loadValueReg h.value,
      hkeep 0 h.zero]
  exact (delayedLoad_eq (r := 0) h.load).trans (congrArg some heq)

theorem delayedLoad_idem (h : regs.delayedLoad 0 0 = some regs') :
    regs'.delayedLoad 0 0 = some regs' :=
  (settled_of_delayedLoad h).delayedLoad

end Registers

section Settled

variable {n : Nat} {regs regs' : Registers} {m m' : Machine n} {which : Trap}

theorem settled_of_raiseException {cause : Trap} {badVAddr : BitVec 32}
    (h : raiseException cause badVAddr regs m = .trapped which regs' m') :
    regs'.delayedLoad 0 0 = some regs' := by
  unfold raiseException at h
  split at h
  · cases h
  next hload =>
    cases h
    exact Registers.delayedLoad_idem hload

/-- An interrupt changes nothing behind a `SYSCALL`. -/
theorem settled_of_trapped (h : oneInstruction regs m = .trapped which regs' m') :
    regs'.delayedLoad 0 0 = some regs' := by
  unfold oneInstruction at h
  split at h
  next m₁ raw _ =>
    cases hexec : (Instruction.decode raw).execute regs m₁ with
    | next regs₁ m₂ pcAfter nextLoadReg nextLoadValue =>
      rw [hexec] at h
      simp only [Executed.finish] at h
      split at h <;> cases h
    | raised cause badVAddr regs₁ m₂ =>
      rw [hexec] at h
      exact settled_of_raiseException h
    | defaultCase | aborted | hostFault =>
      rw [hexec] at h
      cases h
  next => exact settled_of_raiseException h
  next => cases h

end Settled

/-! ## A call -/

section Call

variable {n : Nat} {frame : Fin n → Fin numPhysPages} {f : FlatStore n} {p q r : Process n}
  {code : SyscallCode}

/-- The answer is one that the kernel can give. -/
def Process.Granted (p : Process n) : ProcessEvent → Prop
  | .go answer _ =>
    match p.phase with
    | .call _ (.request r _) => r.Grants answer
    | _ => True
  | .interrupt => True

/-- `q` is in the call of `p`. -/
structure Calling (frame : Fin n → Fin numPhysPages) (f : FlatStore n) (code : SyscallCode)
    (p q : Process n) : Prop where
  registers : q.registers = p.registers
  body : ∃ body, q.phase = .call code body ∧ body.WritesIn (code.InBuffer p.registers)
  memory : Framed frame (code.InBuffer p.registers) p.machine f q.machine

/-- `q` is `p` behind its call. -/
structure Returned (frame : Fin n → Fin numPhysPages) (f : FlatStore n) (code : SyscallCode)
    (p q : Process n) : Prop where
  registers : ∃ value, q.registers = code.return p.registers value
  phase : q.phase = .user
  memory : Framed frame (code.InBuffer p.registers) p.machine f q.machine

/-- What is left of the call behind a memory access. -/
theorem Calling.ofAccess {α : Type} {next : α → CallBody} {access : Access (Machine n × α)}
    (hstep : q.ofAccess code next access = some r) (hregs : q.registers = p.registers)
    (hnext : ∀ a, (next a).WritesIn (code.InBuffer p.registers))
    (hmemory : ∀ m a, access = .done (m, a) →
      Framed frame (code.InBuffer p.registers) p.machine f m) :
    Calling frame f code p r := by
  cases access with
  | done ma =>
    obtain ⟨m, a⟩ := ma
    cases hstep
    exact ⟨hregs, ⟨next a, rfl, hnext a⟩, hmemory m a rfl⟩
  | raised e => cases hstep
  | aborted => cases hstep

/-- A step in a call. -/
theorem Calling.step (hinj : Function.Injective frame)
    (hsettled : p.registers.delayedLoad 0 0 = some p.registers) (h : Calling frame f code p q)
    {e : ProcessEvent} (hgranted : q.Granted e) (hstep : q.step e = some r) :
    Calling frame f code p r ∨ Returned frame f code p r := by
  obtain ⟨hregs, ⟨body, hphase, hbody⟩, hmemory⟩ := h
  cases e with
  | interrupt =>
    unfold Process.step at hstep
    rw [hregs, hsettled] at hstep
    cases hstep
    exact .inl ⟨rfl, ⟨body, hphase, hbody⟩, hmemory⟩
  | go answer junk =>
    unfold Process.step at hstep
    unfold Process.Granted at hgranted
    simp only [hphase] at hstep hgranted
    cases body with
    | result value =>
      cases hstep
      exact .inr ⟨⟨value, by rw [hregs]⟩, rfl, hmemory⟩
    | halted => cases hstep
    | finished => cases hstep
    | request r next =>
      cases hstep
      exact .inl ⟨hregs, ⟨next answer, rfl, hbody answer hgranted⟩, hmemory⟩
    | allocate size next =>
      simp only [Process.serve] at hstep
      split at hstep
      · cases hstep
      · cases hstep
        exact .inl ⟨hregs, ⟨next junk, rfl, hbody junk⟩, hmemory⟩
    | copyIn virtAddr limit next =>
      refine .inl (.ofAccess hstep hregs hbody fun m b hcopy => ?_)
      unfold user2System at hcopy
      split at hcopy
      · cases hcopy
      · exact hmemory.user2SystemLoop hcopy
    | copyOut virtAddr len buffer next =>
      obtain ⟨hrange, hnext⟩ := hbody
      refine .inl (.ofAccess hstep hregs (fun _ => hnext) fun m b hcopy => ?_)
      obtain ⟨m₁, hcopied, heq⟩ := Access.map_eq_done.mp hcopy
      obtain rfl := (Prod.mk.inj heq).1
      unfold system2User at hcopied
      split at hcopied
      · cases hcopied
        exact hmemory
      · refine hmemory.system2UserLoop hinj (fun j _ hlt => hrange j ?_) hcopied
        rwa [Nat.zero_add] at hlt

/-- The steps of a call. -/
theorem Calling.run (hinj : Function.Injective frame)
    (hsettled : p.registers.delayedLoad 0 0 = some p.registers) (h : Calling frame f code p q)
    {events : List ProcessEvent}
    (hcall : AllSteps Process.step (fun s e => s.phase ≠ .user ∧ s.Granted e) q events)
    (hrun : Base.run Process.step q events = some r) :
    Calling frame f code p r ∨ Returned frame f code p r := by
  induction events generalizing q with
  | nil =>
    obtain rfl := Option.some.inj hrun
    exact .inl h
  | cons e events ih =>
    obtain ⟨t, hstep, hrest⟩ := run_cons_eq_some.mp hrun
    obtain ⟨⟨_, hgranted⟩, hcall⟩ := (allSteps_cons hstep).mp hcall
    rcases h.step hinj hsettled hgranted hstep with hcalling | hreturned
    · exact ih hcalling hcall hrest
    · cases events with
      | nil =>
        obtain rfl := Option.some.inj hrest
        exact .inr hreturned
      | cons e' events => exact absurd hreturned.phase hcall.1.1

/-- The instruction that enters a call. -/
theorem Process.instruct_call (hvalid : p.registers.Valid) (huser : p.phase = .user)
    {body : CallBody} (hstep : p.instruct = some q) (hphase : q.phase = .call code body) :
    Precise p.registers p.machine q.registers q.machine ∧
      q.registers.delayedLoad 0 0 = some q.registers ∧ body = code.body q.registers := by
  unfold instruct at hstep
  split at hstep
  · cases hstep
    rw [huser] at hphase
    cases hphase
  next regs m htrapped =>
    obtain ⟨code', _, rfl⟩ := Option.map_eq_some_iff.mp hstep
    obtain ⟨rfl, rfl⟩ := UserPhase.call.inj hphase
    exact ⟨(precise_of_trapped hvalid htrapped).1, settled_of_trapped htrapped, rfl⟩
  · cases hstep
  · cases hstep
  · cases hstep

/--
A call of a process alone.

From the `SYSCALL` to the return the process keeps its registers, but for the result and the program
counters, and the bytes of its memory, but for those in the buffer that it gives to `Read` or
`ReadString`. Nothing that is not its own is changed either.
-/
theorem call_frame (hinj : Function.Injective frame) {p₀ : Process n}
    (hvalid : p₀.registers.Valid) (huser : p₀.phase = .user) {body : CallBody}
    (hstep : p₀.instruct = some p) (hphase : p.phase = .call code body)
    (hshows : Shows p.machine frame f) {events : List ProcessEvent}
    (hcall : AllSteps Process.step (fun s e => s.phase ≠ .user ∧ s.Granted e) p events)
    (hrun : Base.run Process.step p events = some q) :
    Precise p₀.registers p₀.machine p.registers p.machine ∧ Elsewhere frame p.machine q.machine ∧
      (∃ g, Shows q.machine frame g ∧ ∀ addr, ¬ code.InBuffer p.registers addr →
        g.read addr .byte = f.read addr .byte) ∧
      ((q.phase ≠ .user ∧ q.registers = p.registers) ∨
        (q.phase = .user ∧ ∃ value, q.registers = code.return p.registers value)) := by
  obtain ⟨hprecise, hsettled, rfl⟩ := Process.instruct_call hvalid huser hstep hphase
  have hcalling : Calling frame f code p p :=
    ⟨rfl, ⟨_, hphase, code.body_writesIn p.registers⟩, hshows.framed _⟩
  refine ⟨hprecise, ?_⟩
  rcases hcalling.run hinj hsettled hcall hrun with h | h
  · obtain ⟨_, hphase, _⟩ := h.body
    exact ⟨h.memory.1, h.memory.2, .inl ⟨by rw [hphase]; exact nofun, h.registers⟩⟩
  · exact ⟨h.memory.1, h.memory.2, .inr ⟨h.phase, h.registers⟩⟩

end Call

/-! ## A call among the other processes -/

section Calls

variable {ι : Type} [DecidableEq ι] {len : ι → Nat}
  {frame : (i : ι) → Fin (len i) → Fin numPhysPages}

theorem Process.Granted.of_alike {n : Nat} {frame : Fin n → Fin numPhysPages} {p q : Process n}
    {e : ProcessEvent} (h : p.Alike frame q) (hgranted : p.Granted e) : q.Granted e := by
  cases e with
  | interrupt => trivial
  | go answer junk =>
    unfold Process.Granted at *
    rwa [← h.phase]

/-- What is behind the page table, read as bytes. -/
theorem Shows.eq {n : Nat} {frame : Fin n → Fin numPhysPages} {m : Machine n} {f g : FlatStore n}
    (hf : Shows m frame f) (hg : Shows m frame g) : f = g := by
  obtain ⟨pageTable, -, htable, -, rfl⟩ := hf
  obtain ⟨pageTable', -, htable', -, rfl⟩ := hg
  obtain rfl := Option.some.inj (htable.symm.trans htable')
  rfl

/--
**A system call writes into the buffer it is given.**

The process that runs enters a system call, and after that the processes run and are switched to in
any order, with interrupts, while what this one is given is for its call. Up to the return it keeps
its registers, but for the result and the program counters, and the bytes of its memory, but for
those in the buffer that it gives to `Read` or `ReadString`. And no step of a process changes
anything that is not its own.
-/
theorem run_call_frame (hsep : Separate frame) {σ₀ σ τ : System len}
    (hmap : σ₀.spaces.Mapped frame) (hvalid : σ₀.registers.Valid)
    (huser : σ₀.phase σ₀.currentThread = .user) {answer : KernelAnswer} {junk : KernelBuf}
    (hstep : σ₀.step (.process (.go answer junk)) = some σ) {code : SyscallCode} {body : CallBody}
    (hphase : σ.phase σ₀.currentThread = .call code body) {moves : List (Move ι)}
    (hcall : AllSteps System.step (fun ρ move => ∀ e ∈ System.events σ₀.currentThread ρ move,
      ρ.phase σ₀.currentThread ≠ .user ∧ (ρ.process σ₀.currentThread).Granted e) σ moves)
    (hrun : run System.step σ moves = some τ) :
    Precise σ₀.registers (σ₀.spaces.machine σ₀.currentThread) σ.registers
        (σ.spaces.machine σ₀.currentThread) ∧
      (∀ addr, ¬ code.InBuffer σ.registers addr →
        (τ.spaces.flat frame σ₀.currentThread).read addr .byte =
          (σ.spaces.flat frame σ₀.currentThread).read addr .byte) ∧
      AllSteps System.step (fun ρ move => ∀ ρ', ρ.step move = some ρ' →
        ∀ a, (∀ v, phys (frame ρ.currentThread) v ≠ a) →
          ρ'.spaces.mainMemory a = ρ.spaces.mainMemory a) σ moves ∧
      ((τ.phase σ₀.currentThread ≠ .user ∧
          (τ.process σ₀.currentThread).registers = σ.registers) ∨
        (τ.phase σ₀.currentThread = .user ∧ ∃ value,
          (τ.process σ₀.currentThread).registers = code.return σ.registers value)) := by
  obtain ⟨p, f, hp, rfl, hshows, -⟩ := System.put_of_step hsep hmap hstep
  have hself : (σ₀.put p).process σ₀.currentThread = p := System.process_put_self hshows
  have hinstruct : (σ₀.process σ₀.currentThread).instruct = some p := by
    unfold Process.step at hp
    dsimp only at hp
    rwa [show (σ₀.process σ₀.currentThread).phase = .user from huser] at hp
  have hvalid' : (σ₀.process σ₀.currentThread).registers.Valid := by
    rwa [System.registers_process]
  have hphase' : p.phase = .call code body := by
    rw [← congrArg Process.phase hself]
    exact hphase
  have hmap' : (σ₀.put p).spaces.Mapped frame := hmap.put_shows hshows
  -- the process on a machine of its own
  have hq : ((σ₀.put p).process σ₀.currentThread).Alike (frame σ₀.currentThread) p := by
    rw [hself]
    exact ⟨rfl, rfl, f, hshows, hshows⟩
  obtain ⟨hmapτ, ⟨q, hrun', halike⟩, -⟩ := System.run_alike hsep hmap' hrun σ₀.currentThread hq
  have hcall' := System.allSteps_alone hsep hmap' σ₀.currentThread
    (fun p q e hpq (hc : p.phase ≠ .user ∧ p.Granted e) =>
      (⟨hpq.phase ▸ hc.1, hc.2.of_alike hpq⟩ : q.phase ≠ .user ∧ q.Granted e)) hq hcall
  obtain ⟨hprecise, -, ⟨g, hg, hkeep⟩, hplace⟩ := call_frame (hsep.injective σ₀.currentThread)
    hvalid' huser hinstruct hphase' hshows hcall' hrun'
  have hflat : (σ₀.put p).spaces.flat frame σ₀.currentThread = f := by
    refine (hmap'.shows σ₀.currentThread).eq ?_
    rwa [show (σ₀.put p).spaces.machine σ₀.currentThread = p.machine from
      congrArg Process.machine hself]
  have hflat' : τ.spaces.flat frame σ₀.currentThread = g := by
    obtain ⟨g', hτ, hq'⟩ := halike.machine
    exact ((hmapτ.shows σ₀.currentThread).eq hτ).trans (hq'.eq hg)
  refine ⟨?_, ?_, System.allSteps_elsewhere hsep hmap' moves, ?_⟩
  · have hmachine : (σ₀.put p).spaces.machine σ₀.currentThread = p.machine :=
      congrArg Process.machine hself
    rw [System.registers_process] at hprecise
    rw [hmachine]
    exact hprecise
  · rw [hflat, hflat']
    exact hkeep
  · rw [show τ.phase σ₀.currentThread = q.phase from halike.phase, halike.registers]
    exact hplace

end Calls

/-- The first of the two programs is before its `SYSCALL`, which is that of `ReadString(64, 2)`. -/
def readingPrograms : System (ι := Bool) fun _ => 1 :=
  { twoPrograms with
    registers := ((((Registers.initRegisters 1).setGp 2 48).setGp 4 64).setGp 5 2 |>.writeRegister
      pcReg 4).writeRegister nextPCReg 8 }

/-- The process is in a call, and the answer that it waits for is not bounded. -/
def UserPhase.waits : UserPhase → Bool
  | .user | .call _ (.request (.read _ _) _) => false
  | .call _ _ => true

theorem granted_of_waits {n : Nat} {p : Process n} (h : p.phase.waits = true) (e : ProcessEvent) :
    p.phase ≠ .user ∧ p.Granted e := by
  obtain ⟨registers, machine, phase⟩ := p
  cases phase with
  | user => cases h
  | call code body =>
    refine ⟨nofun, ?_⟩
    cases e with
    | interrupt => trivial
    | go answer junk =>
      cases body with
      | request r next => cases r <;> trivial
      | _ => trivial

/-- The process in its call. -/
def readingCall : System (ι := Bool) fun _ => 1 :=
  (readingPrograms.step (.process (.go ⟨0, []⟩ fun _ => 0))).getD readingPrograms

/-- The line is `A`. The other process runs between its characters. -/
def lineMoves : List (Move Bool) :=
  [.process (.go ⟨0, []⟩ fun _ => 0xff), .process (.go ⟨65, []⟩ fun _ => 0), .process .interrupt,
    .run false, .process (.go ⟨0, []⟩ fun _ => 0), .run true,
    .process (.go ⟨10, []⟩ fun _ => 0), .process (.go ⟨0, []⟩ fun _ => 0),
    .process (.go ⟨0, []⟩ fun _ => 0)]

theorem run_call_frame_read_string :
    ∃ τ, readingPrograms.step (.process (.go ⟨0, []⟩ fun _ => 0)) = some readingCall ∧
      run System.step readingCall lineMoves = some τ ∧
      (τ.spaces.flat twoFrames true).read 64 .byte = .done 65 ∧
      (τ.spaces.flat twoFrames true).read 66 .byte =
        (readingCall.spaces.flat twoFrames true).read 66 .byte := by
  have hsep : Separate twoFrames := ⟨fun i p q _ => Subsingleton.elim p q, by decide⟩
  have hmap : readingPrograms.spaces.Mapped twoFrames := by
    intro i p
    cases i <;> rfl
  have hvalid : readingPrograms.registers.Valid := ⟨⟨0, rfl⟩, rfl⟩
  have hstep : readingPrograms.step (.process (.go ⟨0, []⟩ fun _ => 0)) = some readingCall := rfl
  obtain ⟨body, hphase⟩ : ∃ body, readingCall.phase true = .call .readString body := ⟨_, rfl⟩
  have hwaits : AllSteps System.step (fun ρ move => ∀ e ∈ System.events true ρ move,
      (ρ.process true).phase.waits = true) readingCall lineMoves := by decide +kernel
  have hread : (run System.step readingCall lineMoves).map
      (fun τ => (τ.spaces.flat twoFrames true).read 64 .byte) = some (.done 65) := by
    decide +kernel
  obtain ⟨τ, hτ, hwritten⟩ := Option.map_eq_some_iff.mp hread
  have hcall := hwaits.imp fun ρ move h e he => granted_of_waits (h e he) e
  have hframe := (run_call_frame hsep hmap hvalid rfl hstep hphase hcall hτ).2.1
  refine ⟨τ, hstep, hτ, hwritten, hframe 66 ?_⟩
  rintro ⟨j, hj, heq⟩
  have htwo : j < 2 := hj
  obtain rfl | rfl : j = 0 ∨ j = 1 := by omega
  · exact absurd heq (by decide)
  · exact absurd heq (by decide)

end Nachos
