import Nachos.Threads.PTableSafety

/-!
# What a step of a process can do

`Moves` says once what a step of a thread in the process table can do, case by case, without any
condition on the calls: it may crash the kernel. What the case needs to know about the state before
the step is only that the thread's slot points to its own PCB, and that a thread in `exitsem->P()`
waits on its own PCB.

Most steps leave the table alone (`Local`); `Goes` lists where they take the thread.

* `Local` — a step that changes at most the semaphores, the exit code and the counter of one PCB
* `moves_of_step` — every step is one of `Moves`
-/

namespace Nachos

open Base

namespace Sys

/--
Thread `t` goes from `th` to `th'`, and at most the semaphores, the exit code and the counter of one
PCB change. Only `ExitRelease` releases a process.
-/
structure Local (s : Sys) (t : Tid) (th th' : Proc) (s' : Sys) : Prop
    extends SameTable s s' where
  files : ∀ a, (s'.heap a).map PCB.fileName = (s.heap a).map PCB.fileName
  thread : s'.thread = Function.update s.thread t (some th')
  pid : th'.processID = th.processID
  bm : s'.bm = s.bm
  next : s'.next = s.next
  status : s'.status = s.status
  released : ∀ a, s'.Released a →
    s.Released a ∨ ∃ id ec, th.pc = .joinRelease id ec ∧ th'.pc = .user ∧ s.deref id = some a

/-- Where a step that leaves the table and `bmsem` alone takes the thread. -/
inductive Goes (s : Sys) (t : Tid) (th : Proc) : ProcPc → Prop where
  /-- The thread goes to sleep. -/
  | sleep : Goes s t th th.pc
  | callExec (name : Option CStr) (getName : CStr) (hpc : th.pc = .user) :
      Goes s t th (.execP name getName)
  | joinRefused (hpc : th.pc = .user) : Goes s t th .user
  | callJoin (id : Int) (child : Tid) (p : PCB) (self : Tid) (hpc : th.pc = .user)
      (hid : s.deref id = some child) (hp : s.heap child = some p)
      (hparent : p.parentID = th.processID) (hself : s.deref p.parentID = some self) :
      Goes s t th (.joinIncP id self)
  | callExit (hpc : th.pc = .user) (h0 : th.processID ≠ 0) : Goes s t th .exitDec
  | joinIncV (id : Int) (self : Tid) (hpc : th.pc = .joinIncP id self) :
      Goes s t th (.joinIncV id self)
  | joinWait (id : Int) (self : Tid) (hpc : th.pc = .joinIncV id self) : Goes s t th (.joinWait id)
  | joinP (id : Int) (child : Tid) (hpc : th.pc = .joinWait id) (hid : s.deref id = some child) :
      Goes s t th (.joinP id child)
  | joinGet (id : Int) (child : Tid) (hpc : th.pc = .joinP id child) : Goes s t th (.joinGet id)
  | joinRelease (id ec : Int) (hpc : th.pc = .joinGet id) : Goes s t th (.joinRelease id ec)
  | joined (id ec : Int) (child : Tid) (hpc : th.pc = .joinRelease id ec)
      (hid : s.deref id = some child) : Goes s t th .user
  | exitDecP (p : PCB) (parent : Tid) (hpc : th.pc = .exitDec) (hp : s.heap t = some p)
      (hparent : s.deref p.parentID = some parent) : Goes s t th (.exitDecP parent)
  | exitDecV (parent : Tid) (hpc : th.pc = .exitDecP parent) : Goes s t th (.exitDecV parent)
  | exitRelease (parent : Tid) (hpc : th.pc = .exitDecV parent) : Goes s t th .exitRelease
  | exitWait (hpc : th.pc = .exitRelease) : Goes s t th .exitWait
  | exitP (hpc : th.pc = .exitWait) : Goes s t th (.exitP t)
  | exitRemove (hpc : th.pc = .exitP t) : Goes s t th .exitRemove

/-- `ExecUpdate` refuses the name: `NULL`, the caller's own name, or no free slot. -/
def Refuses (s : Sys) (name : Option CStr) (getName : CStr) : Prop :=
  ∀ n, name = some n → n = nghiala ∨ n = getName ∨ s.bm.free = []

/-- Everything a step of thread `t` can do. -/
inductive Moves (s : Sys) (t : Tid) (th : Proc) : Sys → Prop where
  | crash : Moves s t th s.crash
  | halt : Moves s t th { s with status := .halted }
  | go {s' : Sys} (th' : Proc) (h : Local s t th th' s') (hgoes : Goes s t th th'.pc)
      (hsem : s'.bmsem.value = s.bmsem.value) : Moves s t th s'
  /-- `bmsem->P()` returns. -/
  | enter {s' : Sys} (name : Option CStr) (getName : CStr)
      (hpc : th.pc = .execP name getName) (hv : s.bmsem.value ≠ 0)
      (h : Local s t th { th with pc := .execBody name getName } s')
      (hsem : s'.bmsem.value = toInt32 (s.bmsem.value - 1)) : Moves s t th s'
  /-- `ExecUpdate` is going to return -1. -/
  | refuse (name : Option CStr) (getName : CStr) (hpc : th.pc = .execBody name getName)
      (hwhy : s.Refuses name getName) :
      Moves s t th (s.goto t th (.execBmV (-1)))
  | create (getName fileName : CStr) (bm : Bitmap) (i : Nat)
      (hpc : th.pc = .execBody (some fileName) getName)
      (hnot : ¬ s.Refuses (some fileName) getName) (hfirst : s.bm.free.head? = some i)
      (hnum : bm.numBits = s.bm.numBits) (hbits : bm.bits = insert i s.bm.bits) :
      Moves s t th (s.created t th bm i fileName)
  | fork (id : Int) (child : Tid) (p : PCB) (hpc : th.pc = .execFork id child)
      (hp : s.live? child = some p) :
      Moves s t th (((s.setPCB child { p with
        thread := some child, parentID := th.processID }).spawned id child).goto t th
          (.execMultexV id child))
  | forked {s' : Sys} (id : Int) (child : Tid) (hpc : th.pc = .execMultexV id child)
      (h : Local s t th { th with pc := .execBmV id } s') (hsem : s'.bmsem = s.bmsem) :
      Moves s t th s'
  /-- `bmsem->V()`, and `ExecUpdate` returns. -/
  | leave (r : Int) (hpc : th.pc = .execBmV r) : Moves s t th (s.execBmV t th r)
  | remove (bm : Bitmap) (p : PCB) (k : Nat) (hpc : th.pc = .exitRemove)
      (hk : th.processID = k) (hnum : bm.numBits = s.bm.numBits)
      (hbits : bm.bits = s.bm.bits.erase k) (hp : s.heap t = some p) :
      Moves s t th (s.removed t bm p)
  /-- `ExitUpdate` of a process whose bit is not set. -/
  | finish (hpc : th.pc = .user) (hbit : s.bm.test th.processID = some false) :
      Moves s t th (s.finish t)

section Local

variable {s s' : Sys} {t : Tid} {th : Proc}

/-- The thread moves and no PCB changes. -/
theorem Local.of_thread (th' : Proc) (hpcb : s'.pcb = s.pcb) (hheap : s'.heap = s.heap)
    (hbm : s'.bm = s.bm) (hnext : s'.next = s.next) (hstatus : s'.status = s.status)
    (hthread : s'.thread = Function.update s.thread t (some th'))
    (hpid : th'.processID = th.processID) (hpc : th'.pc ≠ .exitRemove) :
    Local s t th th' s' where
  pcb := hpcb
  heap := fun a => by rw [hheap]
  files := fun a => by rw [hheap]
  thread := hthread
  pid := hpid
  bm := hbm
  next := hnext
  status := hstatus
  released := fun _ ha => Or.inl (released_of_thread hheap hthread hpc ha)

/-- The thread moves and one PCB changes. -/
theorem Local.of_pcb (th' : Proc) (p' : PCB) {a : Tid} {p : PCB} (hp : s.heap a = some p)
    (htie : p'.tie = p.tie) (hfile : p'.fileName = p.fileName)
    (hrel : p'.exitsem.value ≠ 0 →
      s.Released a ∨ ∃ id ec, th.pc = .joinRelease id ec ∧ th'.pc = .user ∧ s.deref id = some a)
    (hpcb : s'.pcb = s.pcb) (hheap : s'.heap = Function.update s.heap a (some p'))
    (hbm : s'.bm = s.bm) (hnext : s'.next = s.next) (hstatus : s'.status = s.status)
    (hthread : s'.thread = Function.update s.thread t (some th'))
    (hpid : th'.processID = th.processID) (hpc : th'.pc = .exitRemove → s.Released t) :
    Local s t th th' s' where
  toSameTable := .of_update hp htie hpcb hheap
  files := by
    intro b
    rw [hheap]
    by_cases hb : b = a
    · rw [hb, Function.update_self, hp, Option.map_some, Option.map_some, hfile]
    · rw [Function.update_of_ne hb]
  thread := hthread
  pid := hpid
  bm := hbm
  next := hnext
  status := hstatus
  released := by
    intro b hb
    rcases released_of_pcb hheap hthread hpc hb with hold | ⟨rfl, hv⟩
    · exact Or.inl hold
    · exact hrel hv

theorem Local.thread_of_ne {th' : Proc} (h : Local s t th th' s') {u : Tid} (hu : u ≠ t) :
    s'.thread u = s.thread u := by
  rw [h.thread, Function.update_of_ne hu]

theorem Local.thread_self {th' : Proc} (h : Local s t th th' s') : s'.thread t = some th' := by
  rw [h.thread, Function.update_self]

/-! ## The steps, one by one -/

/-- A pass through the test of `P` on a PCB, from which the thread may go on to `pc`. -/
theorem moves_semP (ht : s.thread t = some th) {a : Tid} {x : PcbSem} {pc : ProcPc}
    (hgoes : Goes s t th pc) (hx : pc = .exitRemove → x = .exitsem ∧ a = t)
    (hold : th.pc ≠ .exitRemove) : Moves s t th ((s.semP t th a x pc).getD s.crash) := by
  cases hp : s.live? a with
  | none =>
    simp only [Sys.semP, hp, Option.bind_eq_bind, Option.bind_none, Option.getD_none]
    exact .crash
  | some p =>
    obtain ⟨hheap, -⟩ := live?_eq_some.mp hp
    have htie : ∀ sem, (p.setSem x sem).tie = p.tie := by intro sem; cases x <;> rfl
    have hfile : ∀ sem, (p.setSem x sem).fileName = p.fileName := by intro sem; cases x <;> rfl
    by_cases hv : (p.sem x).value = 0
    · rw [semP_sleep hp hv]
      have hsame : s.thread = Function.update s.thread t (some th) := by
        rw [← ht, Function.update_eq_self]
      refine .go th (.of_pcb th _ hheap (htie _) (hfile _) ?_ rfl rfl rfl rfl rfl hsame rfl ?_)
        .sleep rfl
      · intro hv'
        refine Or.inl (released_of_value hheap ?_)
        cases x <;> exact hv'
      · exact fun h => absurd h hold
    · rw [semP_take hp hv]
      refine .go { th with pc := pc } (.of_pcb _ _ hheap (htie _) (hfile _) ?_ rfl rfl rfl rfl rfl
        rfl rfl ?_) hgoes rfl
      · intro hv'
        refine Or.inl (released_of_value hheap ?_)
        cases x with
        | exitsem => exact hv
        | joinsem => exact hv'
        | multex => exact hv'
      · intro h
        obtain ⟨rfl, rfl⟩ := hx h
        exact released_of_value hheap hv

/-- The thread goes to `pc`, and nothing else changes. -/
theorem moves_goto {pc : ProcPc} (hgoes : Goes s t th pc) (hpc : pc ≠ .exitRemove) :
    Moves s t th (s.goto t th pc) :=
  .go { th with pc := pc } (.of_thread _ rfl rfl rfl rfl rfl rfl rfl hpc) hgoes rfl

theorem moves_ret (hgoes : Goes s t th .user) (r : Int) : Moves s t th (s.ret t th r) :=
  .go { th with pc := .user, result := r } (.of_thread _ rfl rfl rfl rfl rfl rfl rfl (by simp))
    hgoes rfl

theorem moves_execP {name : Option CStr} {getName : CStr} (ht : s.thread t = some th)
    (hpc : th.pc = .execP name getName) : Moves s t th (s.execP t th name getName) := by
  unfold Sys.execP
  by_cases hv : s.bmsem.value = 0
  · rw [Semaphore.p_of_zero hv]
    have hsame : s.thread = Function.update s.thread t (some th) := by
      rw [← ht, Function.update_eq_self]
    exact .go th (.of_thread th rfl rfl rfl rfl rfl hsame rfl (by simp [hpc])) .sleep rfl
  · rw [Semaphore.p_of_ne_zero hv]
    exact .enter name getName hpc hv (.of_thread _ rfl rfl rfl rfl rfl rfl rfl (by simp)) rfl

theorem moves_execBody {name : Option CStr} {getName : CStr}
    (hpc : th.pc = .execBody name getName) :
    Moves s t th ((s.execBody t th name getName).getD s.crash) := by
  unfold Sys.execBody
  cases name with
  | none => exact .refuse none getName hpc (by simp [Refuses])
  | some name =>
    simp only [CStr.strcmp_eq_zero_iff]
    split
    · next hself =>
      refine .refuse (some name) getName hpc ?_
      rintro n ⟨⟩
      exact hself.imp_right Or.inl
    · next hself =>
      cases hfree : s.bm.free with
      | nil =>
        rw [Bitmap.findAndSet_of_free_nil hfree]
        exact .refuse (some name) getName hpc fun _ _ => Or.inr (Or.inr hfree)
      | cons i rest =>
        obtain ⟨bm, hfind, hnum, hbits, -⟩ := Bitmap.findAndSet_of_free_cons hfree
        have hnot : ¬ s.Refuses (some name) getName := by
          intro hwhy
          rcases hwhy name rfl with h | h | h
          · exact hself (Or.inl h)
          · exact hself (Or.inr h)
          · rw [hfree] at h
            cases h
        rw [hfind]
        simp only [Option.bind_eq_bind, Option.bind_some, show ¬ ((i : Int) < 0) by omega, if_false]
        exact .create getName name bm i hpc hnot (by rw [hfree]; rfl) hnum hbits

theorem moves_execFork {id : Int} {child : Tid} (hpc : th.pc = .execFork id child) :
    Moves s t th ((s.execFork t th id child).getD s.crash) := by
  unfold Sys.execFork
  cases hp : s.live? child with
  | none => exact .crash
  | some p => exact .fork id child p hpc hp

theorem moves_execMultexV {id : Int} {child : Tid} (hpc : th.pc = .execMultexV id child) :
    Moves s t th ((s.execMultexV t th id child).getD s.crash) := by
  unfold Sys.execMultexV
  cases hp : s.live? child with
  | none =>
    rw [semV, hp]
    exact .crash
  | some p =>
    obtain ⟨hheap, -⟩ := live?_eq_some.mp hp
    rw [semV_eq hp]
    exact .forked id child hpc (.of_pcb _ (p.setSem .multex p.multex.v) hheap rfl rfl
      (fun hv => Or.inl (released_of_value hheap hv)) rfl rfl rfl rfl rfl rfl rfl (by simp)) rfl

theorem moves_joinUpdate {id : Int} (hpc : th.pc = .user) :
    Moves s t th ((s.joinUpdate t th id).getD s.crash) := by
  unfold Sys.joinUpdate
  split
  · exact moves_ret (.joinRefused hpc) (-1)
  · cases hid : s.deref id with
    | none => exact .crash
    | some child =>
      cases hp : s.live? child with
      | none =>
        simp only [Option.bind_eq_bind, Option.bind_some, hp, Option.bind_none, Option.getD_none]
        exact .crash
      | some p =>
        simp only [Option.bind_eq_bind, Option.bind_some, hp]
        split
        · exact moves_ret (.joinRefused hpc) (-1)
        · next hparent =>
          have heq : p.parentID = th.processID := (not_not.mp hparent).symm
          cases hself : s.deref p.parentID with
          | none => exact .crash
          | some self =>
            exact moves_goto (.callJoin id child p self hpc hid (live?_eq_some.mp hp).1 heq hself)
              (by simp)

theorem moves_joinIncV {id : Int} {self : Tid} (hpc : th.pc = .joinIncV id self) :
    Moves s t th ((s.joinIncV t th id self).getD s.crash) := by
  unfold Sys.joinIncV
  cases hp : s.live? self with
  | none => exact .crash
  | some p =>
    obtain ⟨hheap, -⟩ := live?_eq_some.mp hp
    exact .go { th with pc := .joinWait id } (.of_pcb _ p.incNumWait hheap rfl rfl
      (fun hv => Or.inl (released_of_value hheap hv)) rfl rfl rfl rfl rfl rfl rfl (by simp))
      (.joinWait id self hpc) rfl

theorem moves_joinWait {id : Int} (hpc : th.pc = .joinWait id) :
    Moves s t th ((s.joinWait t th id).getD s.crash) := by
  unfold Sys.joinWait
  cases hid : s.deref id with
  | none => exact .crash
  | some child => exact moves_goto (.joinP id child hpc hid) (by simp)

theorem moves_joinGet {id : Int} (hpc : th.pc = .joinGet id) :
    Moves s t th ((s.joinGet t th id).getD s.crash) := by
  unfold Sys.joinGet
  cases hid : s.deref id with
  | none => exact .crash
  | some child =>
    obtain ⟨p, hp⟩ := live_of_deref hid
    simp only [Option.bind_eq_bind, Option.bind_some, hp]
    exact moves_goto (.joinRelease id p.exitcode hpc) (by simp)

theorem moves_joinRelease {id ec : Int} (hpc : th.pc = .joinRelease id ec) :
    Moves s t th ((s.joinRelease t th id ec).getD s.crash) := by
  unfold Sys.joinRelease
  cases hid : s.deref id with
  | none => exact .crash
  | some child =>
    obtain ⟨p, hp⟩ := live_of_deref hid
    obtain ⟨hheap, -⟩ := live?_eq_some.mp hp
    simp only [Option.bind_eq_bind, Option.bind_some, semV_eq hp]
    exact .go { th with pc := .user, result := ec } (.of_pcb _ (p.setSem .exitsem p.exitsem.v)
      hheap rfl rfl (fun _ => Or.inr ⟨id, ec, hpc, rfl, hid⟩) rfl rfl rfl rfl rfl rfl rfl (by simp))
      (.joined id ec child hpc hid) rfl

theorem moves_exitUpdate {exitcode : Int} (hslot : s.deref th.processID = some t)
    (hpc : th.pc = .user) : Moves s t th ((s.exitUpdate t th exitcode).getD s.crash) := by
  unfold Sys.exitUpdate
  split
  · exact .halt
  · next h0 =>
    cases hbit : s.bm.test th.processID with
    | none => exact .crash
    | some b =>
      cases b with
      | false => exact .finish hpc hbit
      | true =>
        obtain ⟨p, hp⟩ := live_of_deref hslot
        obtain ⟨hheap, -⟩ := live?_eq_some.mp hp
        simp only [Option.bind_eq_bind, Option.bind_some, if_true, hslot, hp]
        exact .go { th with pc := .exitDec } (.of_pcb _ { p with exitcode := exitcode } hheap rfl
          rfl (fun hv => Or.inl (released_of_value hheap hv)) rfl rfl rfl rfl rfl rfl rfl (by simp))
          (.callExit hpc h0) rfl

theorem moves_exitDec (hslot : s.deref th.processID = some t) (hpc : th.pc = .exitDec) :
    Moves s t th ((s.exitDec t th).getD s.crash) := by
  unfold Sys.exitDec
  obtain ⟨p, hp⟩ := live_of_deref hslot
  simp only [Option.bind_eq_bind, Option.bind_some, hslot, hp]
  cases hparent : s.deref p.parentID with
  | none => exact .crash
  | some parent =>
    exact moves_goto (.exitDecP p parent hpc (live?_eq_some.mp hp).1 hparent) (by simp)

theorem moves_exitDecV {parent : Tid} (hpc : th.pc = .exitDecV parent) :
    Moves s t th ((s.exitDecV t th parent).getD s.crash) := by
  unfold Sys.exitDecV
  cases hp : s.live? parent with
  | none => exact .crash
  | some p =>
    obtain ⟨hheap, -⟩ := live?_eq_some.mp hp
    exact .go { th with pc := .exitRelease } (.of_pcb _ p.decNumWait hheap rfl rfl
      (fun hv => Or.inl (released_of_value hheap hv)) rfl rfl rfl rfl rfl rfl rfl (by simp))
      (.exitRelease parent hpc) rfl

theorem moves_exitRelease (hslot : s.deref th.processID = some t) (hpc : th.pc = .exitRelease) :
    Moves s t th ((s.exitRelease t th).getD s.crash) := by
  unfold Sys.exitRelease
  obtain ⟨p, hp⟩ := live_of_deref hslot
  obtain ⟨hheap, -⟩ := live?_eq_some.mp hp
  simp only [Option.bind_eq_bind, Option.bind_some, hslot, semV_eq hp]
  exact .go { th with pc := .exitWait } (.of_pcb _ (p.setSem .joinsem p.joinsem.v) hheap rfl rfl
    (fun hv => Or.inl (released_of_value hheap hv)) rfl rfl rfl rfl rfl rfl rfl (by simp))
    (.exitWait hpc) rfl

theorem moves_exitWait (hslot : s.deref th.processID = some t) (hpc : th.pc = .exitWait) :
    Moves s t th ((s.exitWait t th).getD s.crash) := by
  simp only [Sys.exitWait, Option.bind_eq_bind, Option.bind_some, hslot]
  exact moves_goto (.exitP hpc) (by simp)

theorem moves_remove (hnum : s.bm.numBits = maxProcess) (hslot : s.deref th.processID = some t)
    (hpc : th.pc = .exitRemove) : Moves s t th ((s.remove t th).getD s.crash) := by
  obtain ⟨p, hp⟩ := live_of_deref hslot
  obtain ⟨h0, h1, hpcb, -⟩ := deref_eq_some.mp hslot
  obtain ⟨k, hk⟩ : ∃ k : Nat, th.processID = k := ⟨_, (Int.toNat_of_nonneg h0).symm⟩
  obtain ⟨bm, hclear, hnum', hbits⟩ := Bitmap.clear_bits (b := s.bm) (i := k)
    (by rw [hnum]; omega)
  have hs : s.remove t th = some (s.removed t bm p) := by
    rw [hk, Int.toNat_natCast] at hpcb
    simp [Sys.remove, hk, hclear, hpcb, hp, Sys.removed, Sys.finish, Sys.setPCB]
  rw [hs]
  exact .remove bm p k hpc hk hnum' hbits (live?_eq_some.mp hp).1

/-! ## All steps -/

theorem moves_doRun (hnum : s.bm.numBits = maxProcess) (ht : s.thread t = some th)
    (hslot : s.deref th.processID = some t) (hself : ∀ a, th.pc = .exitP a → a = t) :
    Moves s t th ((s.doRun t th).getD s.crash) := by
  unfold Sys.doRun
  cases hpc : th.pc with
  | user =>
    have hsame : s.thread = Function.update s.thread t (some th) := by
      rw [← ht, Function.update_eq_self]
    exact .go th (.of_thread th rfl rfl rfl rfl rfl hsame rfl (by simp [hpc])) .sleep rfl
  | execP name getName => exact moves_execP ht hpc
  | execBody name getName => exact moves_execBody hpc
  | execFork id child => exact moves_execFork hpc
  | execMultexV id child => exact moves_execMultexV hpc
  | execBmV r => exact .leave r hpc
  | joinIncP id self => exact moves_semP ht (.joinIncV id self hpc) (by simp) (by simp [hpc])
  | joinIncV id self => exact moves_joinIncV hpc
  | joinWait id => exact moves_joinWait hpc
  | joinP id child => exact moves_semP ht (.joinGet id child hpc) (by simp) (by simp [hpc])
  | joinGet id => exact moves_joinGet hpc
  | joinRelease id ec => exact moves_joinRelease hpc
  | exitDec => exact moves_exitDec hslot hpc
  | exitDecP parent => exact moves_semP ht (.exitDecV parent hpc) (by simp) (by simp [hpc])
  | exitDecV parent => exact moves_exitDecV hpc
  | exitRelease => exact moves_exitRelease hslot hpc
  | exitWait => exact moves_exitWait hslot hpc
  | exitP a =>
    obtain rfl := hself a hpc
    exact moves_semP ht (.exitRemove hpc) (fun _ => ⟨rfl, rfl⟩) (by simp [hpc])
  | exitRemove => exact moves_remove hnum hslot hpc

/-- Every step of a thread is one of `Moves`. -/
theorem moves_of_step (hnum : s.bm.numBits = maxProcess)
    (hslot : ∀ t th, s.thread t = some th → s.deref th.processID = some t)
    (hself : ∀ t th a, s.thread t = some th → th.pc = .exitP a → a = t) {e : SysEvent}
    (h : s.step e = some s') :
    ∃ th, s.thread e.tid = some th ∧ s.status = .running ∧ Moves s e.tid th s' := by
  cases e with
  | call t c =>
    obtain ⟨th, ht, hrunning, hpc, rfl⟩ := step_call_some h
    refine ⟨th, ht, hrunning, ?_⟩
    cases c with
    | exec name getName => exact moves_goto (.callExec name getName hpc) (by simp)
    | join id => exact moves_joinUpdate hpc
    | exit exitcode => exact moves_exitUpdate (hslot t th ht) hpc
  | run t =>
    obtain ⟨th, ht, hrunning, -, -, rfl⟩ := step_run_some h
    exact ⟨th, ht, hrunning,
      moves_doRun hnum ht (hslot t th ht) fun a hpc => hself t th a ht hpc⟩

end Local

end Sys

end Nachos
