import Nachos.Threads.ProcessSteps

/-!
# What holds of the process table in every run (`threads/ptable.cc`, `threads/pcb.cc`)

`ExecUpdate` marks a slot, makes a PCB and forks a thread while it holds `bmsem`; `Remove` frees
slots without asking for `bmsem`. This file finds out what holds of the table in every run, whatever
the processes join and exit, also when the kernel crashes in the end: a slot's bit is set exactly
when it points to a PCB that is not destroyed, and every thread's slot points to its own PCB. Nobody
but the thread inside `ExecUpdate` makes PCBs, so the slot it has found stays its own until it
returns.

* `Table` — the invariant, `Table.step` — every step keeps it
-/

namespace Nachos

open Base

/-- In `ExecUpdate`, with `bmsem` taken. -/
def ProcPc.InExec : ProcPc → Prop
  | .execBody _ _ | .execFork _ _ | .execMultexV _ _ | .execBmV _ => True
  | _ => False

namespace Sys

/-! ## The invariant -/

/-- The thread holds `bmsem`. -/
def Holds (s : Sys) (t : Tid) : Prop := ∃ th, s.thread t = some th ∧ th.pc.InExec

/-- `bmsem` is free, or one thread holds it. -/
def Mutex (s : Sys) : Prop :=
  (s.bmsem.value = 1 ∧ ∀ t, ¬ s.Holds t) ∨
    (s.bmsem.value = 0 ∧ ∃ t, s.Holds t ∧ ∀ u, s.Holds u → u = t)

/-- What is known of a thread at the place where it is. -/
def Place (s : Sys) (t : Tid) (th : Proc) : Prop :=
  match th.pc with
  | .execFork id child => 0 < id ∧ s.deref id = some child ∧ s.IsParent child th.processID ∧
      s.thread child = none ∧ child + 1 = s.next
  | .execMultexV id child => 0 < id ∧ id < maxProcess ∧ child + 1 = s.next ∧
      ∀ a, s.deref id = some a → a = child
  | .execBmV r => r = -1 ∨ 0 < r ∧ r < maxProcess ∧ ∀ a, s.deref r = some a → a + 1 = s.next
  | .exitP self => th.processID ≠ 0 ∧ self = t
  | .exitDec | .exitDecP _ | .exitDecV _ | .exitRelease | .exitWait | .exitRemove =>
    th.processID ≠ 0
  | _ => True

/-- What holds of the process table in every run. -/
structure Table (s : Sys) : Prop extends Slots s where
  main : ∃ a, s.deref 0 = some a
  mutex : s.Mutex
  place : ∀ t th, s.thread t = some th → s.Place t th

section Reading

variable {s s' : Sys} {t u : Tid} {th tu : Proc}

/-- The thread inside `ExecUpdate` is the only one. -/
theorem Table.holds_unique (h : s.Table) (ht : s.Holds t) (hu : s.Holds u) : u = t := by
  rcases h.mutex with ⟨-, hnone⟩ | ⟨-, v, -, huniq⟩
  · exact absurd ht (hnone t)
  · rw [huniq u hu, huniq t ht]

theorem Table.exitP_self (h : s.Table) {a : Tid} (ht : s.thread t = some th)
    (hpc : th.pc = .exitP a) : a = t := by
  have hplace := h.place t th ht
  simp only [Place, hpc] at hplace
  exact hplace.2

/-- The slot that `FindAndSet` finds is not the one of the main process. -/
theorem Table.free_pos (h : s.Table) {i : Nat} (hi : i ∈ s.bm.free) : 0 < i := by
  rcases Nat.eq_zero_or_pos i with rfl | hpos
  · obtain ⟨a, ha⟩ := h.main
    have hnone := h.deref_free hi
    rw [Nat.cast_zero, ha] at hnone
    cases hnone
  · exact hpos

theorem Mutex.same (h : s.Mutex) (hv : s'.bmsem.value = s.bmsem.value)
    (hholds : ∀ u, s'.Holds u ↔ s.Holds u) : s'.Mutex := by
  unfold Mutex
  simp only [hv, hholds]
  exact h

/-- Who holds `bmsem` after a step in which only the thread `t` moves. -/
theorem holds_of_update {th' : Proc} (ht : s.thread t = some th)
    (hthread : s'.thread = Function.update s.thread t (some th'))
    (hpc : th'.pc.InExec ↔ th.pc.InExec) (u : Tid) : s'.Holds u ↔ s.Holds u := by
  unfold Holds
  rw [hthread]
  by_cases hu : u = t
  · rw [hu, Function.update_self, ht]
    simp only [Option.some.injEq, exists_eq_left']
    exact hpc
  · rw [Function.update_of_ne hu]

end Reading

/-! ## Steps that leave the table alone -/

section Local

variable {s s' : Sys} {t : Tid} {th th' : Proc}

/-- What is known of a thread stays known. -/
theorem Place.transfer {u : Tid} {tu : Proc} (h : s.Place u tu)
    (hderef : ∀ k, s'.deref k = s.deref k) (hparent : ∀ a q, s.IsParent a q → s'.IsParent a q)
    (hnone : ∀ a, s.thread a = none → s'.thread a = none) (hnext : s'.next = s.next) :
    s'.Place u tu := by
  unfold Place at h ⊢
  cases hpc : tu.pc with
  | execFork id child =>
    rw [hpc] at h
    obtain ⟨hpos, hid, hpar, hn, hlast⟩ := h
    exact ⟨hpos, (hderef id).trans hid, hparent _ _ hpar, hnone child hn, hnext ▸ hlast⟩
  | execMultexV id child =>
    rw [hpc] at h
    simp only [hderef, hnext]
    exact h
  | execBmV r =>
    rw [hpc] at h
    simp only [hderef, hnext]
    exact h
  | exitP a | exitDec | exitDecP b | exitDecV b | exitRelease | exitWait | exitRemove =>
    rw [hpc] at h
    exact h
  | _ => trivial

/-- Outside of `ExecUpdate` it does not depend on the table. -/
theorem Place.outside {u : Tid} {tu : Proc} (h : s.Place u tu) (hout : ¬ tu.pc.InExec) :
    s'.Place u tu := by
  unfold Place at h ⊢
  cases hpc : tu.pc with
  | execFork id child | execMultexV id child | execBmV r =>
    rw [hpc] at hout
    exact absurd trivial hout
  | exitP a | exitDec | exitDecP b | exitDecV b | exitRelease | exitWait | exitRemove =>
    rw [hpc] at h
    exact h
  | _ => trivial

theorem Table.localStep (h : s.Table) (ht : s.thread t = some th) (hl : Local s t th th' s')
    (hmutex : s'.Mutex) (hplace : s.Place t th') : s'.Table where
  toSlots := h.toSlots.move ht hl.toSameTable hl.bm hl.next hl.thread hl.pid
  main := by simp only [hl.deref]; exact h.main
  mutex := hmutex
  place := by
    intro u tu hu
    have hnone : ∀ a, s.thread a = none → s'.thread a = none := by
      intro a hn
      by_cases hat : a = t
      · rw [hat, ht] at hn
        cases hn
      · rw [hl.thread_of_ne hat]
        exact hn
    have hkeep : ∀ {u tu}, s.Place u tu → s'.Place u tu := fun hp =>
      hp.transfer hl.deref (fun _ _ => hl.isParent) hnone hl.next
    by_cases hut : u = t
    · subst hut
      rw [hl.thread_self] at hu
      rw [← Option.some.inj hu]
      exact hkeep hplace
    · rw [hl.thread_of_ne hut] at hu
      exact hkeep (h.place u tu hu)

/-- Such a step neither enters nor leaves the part of `ExecUpdate` that `bmsem` guards. -/
theorem Goes.inExec {pc : ProcPc} (hgoes : Goes s t th pc) : pc.InExec ↔ th.pc.InExec := by
  cases hgoes with
  | sleep => exact Iff.rfl
  | _ => simp_all [ProcPc.InExec]

/-- Outside of `ExecUpdate` a thread only has to know that it is not the main one, to exit. -/
theorem Goes.place (hgoes : Goes s t th th'.pc) (h : s.Place t th)
    (hid : th'.processID = th.processID) : s.Place t th' := by
  unfold Place at h ⊢
  rw [hid]
  generalize th'.pc = pc at hgoes ⊢
  cases hgoes with
  | sleep => exact h
  | callExit hpc h0 => exact h0
  | exitDecP p parent hpc => rw [hpc] at h; exact h
  | exitDecV parent hpc => rw [hpc] at h; exact h
  | exitRelease parent hpc => rw [hpc] at h; exact h
  | exitWait hpc => rw [hpc] at h; exact h
  | exitP hpc => rw [hpc] at h; exact ⟨h, rfl⟩
  | exitRemove hpc => rw [hpc] at h; exact h.1
  | _ => trivial

theorem Table.go (h : s.Table) (ht : s.thread t = some th) (hl : Local s t th th' s')
    (hgoes : Goes s t th th'.pc) (hsem : s'.bmsem.value = s.bmsem.value) : s'.Table := by
  have hplace := hgoes.place (h.place t th ht) hl.pid
  exact h.localStep ht hl (h.mutex.same hsem (holds_of_update ht hl.thread hgoes.inExec)) hplace

/-- `bmsem->P()` returns: nobody was inside. -/
theorem Table.enter (h : s.Table) (ht : s.thread t = some th) {name : Option CStr}
    {getName : CStr} (hv : s.bmsem.value ≠ 0)
    (hl : Local s t th { th with pc := .execBody name getName } s')
    (hsem : s'.bmsem.value = toInt32 (s.bmsem.value - 1)) : s'.Table := by
  refine h.localStep ht hl ?_ trivial
  rcases h.mutex with ⟨hone, hnone⟩ | ⟨hzero, -⟩
  · refine Or.inr ⟨by rw [hsem, hone]; rfl, t, ⟨_, hl.thread_self, trivial⟩, fun u hu => ?_⟩
    obtain ⟨tu, htu, hin⟩ := hu
    by_contra hut
    rw [hl.thread_of_ne hut] at htu
    exact hnone u ⟨tu, htu, hin⟩
  · exact absurd hzero hv

/-- `bmsem->V()`: the thread was the one inside. -/
theorem Table.leave (h : s.Table) (ht : s.thread t = some th) {r : Int}
    (hpc : th.pc = .execBmV r) :
    (s.execBmV t th r).Table ∧ (s.execBmV t th r).bmsem.value = 1 := by
  have hl : Local s t th { th with pc := .user, result := r } (s.execBmV t th r) :=
    .of_thread _ rfl rfl rfl rfl rfl rfl rfl (by simp)
  have hholds : s.Holds t := ⟨th, ht, by rw [hpc]; trivial⟩
  have hvalue : s.bmsem.value = 0 := by
    rcases h.mutex with ⟨-, hnone⟩ | ⟨hzero, -⟩
    · exact absurd hholds (hnone t)
    · exact hzero
  have hone : (s.execBmV t th r).bmsem.value = 1 := Semaphore.v_value_of_zero hvalue
  refine ⟨h.localStep ht hl (Or.inl ⟨hone, fun u hu => ?_⟩) trivial, hone⟩
  obtain ⟨tu, htu, hin⟩ := hu
  by_cases hut : u = t
  · rw [hut, hl.thread_self] at htu
    rw [← Option.some.inj htu] at hin
    exact hin
  · rw [hl.thread_of_ne hut] at htu
    exact hut (h.holds_unique hholds ⟨tu, htu, hin⟩)

theorem Table.refuse (h : s.Table) (ht : s.thread t = some th) {name : Option CStr}
    {getName : CStr} (hpc : th.pc = .execBody name getName) :
    (s.goto t th (.execBmV (-1))).Table := by
  have hl : Local s t th { th with pc := .execBmV (-1) } (s.goto t th (.execBmV (-1))) :=
    .of_thread _ rfl rfl rfl rfl rfl rfl rfl (by simp)
  refine h.localStep ht hl (h.mutex.same rfl (holds_of_update ht hl.thread ?_)) (Or.inl rfl)
  simp [hpc, ProcPc.InExec]

theorem Table.forked (h : s.Table) (ht : s.thread t = some th) {id : Int} {child : Tid}
    (hpc : th.pc = .execMultexV id child) (hl : Local s t th { th with pc := .execBmV id } s')
    (hsem : s'.bmsem = s.bmsem) : s'.Table := by
  have hplace := h.place t th ht
  simp only [Place, hpc] at hplace
  obtain ⟨hpos, hlt, hlast, huniq⟩ := hplace
  refine h.localStep ht hl (h.mutex.same (by rw [hsem]) (holds_of_update ht hl.thread ?_))
    (Or.inr ⟨hpos, hlt, fun a ha => ?_⟩)
  · simp [hpc, ProcPc.InExec]
  · rw [huniq a ha]
    exact hlast

end Local

/-! ## New and removed processes -/

section Change

variable {s s' : Sys} {t : Tid} {th : Proc}

/-- A new PCB in a free slot. Its maker is the only thread inside `ExecUpdate`. -/
theorem Table.created (h : s.Table) (ht : s.thread t = some th) {bm : Bitmap} {i : Nat}
    {getName fileName : CStr} (hpc : th.pc = .execBody (some fileName) getName)
    (hfree : i ∈ s.bm.free) (hnum : bm.numBits = s.bm.numBits)
    (hbits : bm.bits = insert i s.bm.bits) : (s.created t th bm i fileName).Table := by
  have htn : s.next ≠ t := (h.thread_lt ht).ne'
  have hholds : s.Holds t := ⟨th, ht, by rw [hpc]; trivial⟩
  exact {
    toSlots := h.toSlots.created ht hfree hnum hbits
    main := by
      obtain ⟨a, ha⟩ := h.main
      exact ⟨a, h.deref_created_of_some hfree ha⟩
    mutex := h.mutex.same rfl (holds_of_update ht rfl (by simp [hpc, ProcPc.InExec]))
    place := by
      intro u tu hu
      by_cases hut : u = t
      · subst hut
        rw [created_thread_self] at hu
        rw [← Option.some.inj hu]
        -- the maker knows its new slot, which is not that of the main process
        refine ⟨by exact_mod_cast h.free_pos hfree, ?_, ⟨_, created_heap_next, rfl⟩, ?_, rfl⟩
        · rw [h.deref_created hfree, if_pos rfl]
        · rw [created_thread_of_ne htn]
          exact h.thread_next
      · rw [created_thread_of_ne hut] at hu
        exact (h.place u tu hu).outside fun hin => hut (h.holds_unique hholds ⟨tu, hu, hin⟩) }

section Fork

variable {id : Int} {child : Tid} {p : PCB}

/-- Who is there after `Fork`: the maker, the new thread, and those that were there before. -/
theorem thread_of_fork (hs' : s' = ((s.setPCB child { p with
      thread := some child, parentID := th.processID }).spawned id child).goto t th
        (.execMultexV id child)) {u : Tid} {tu : Proc} (hu : s'.thread u = some tu) :
    (u = t ∧ tu = { th with pc := .execMultexV id child }) ∨
      (u = child ∧ tu = { processID := id, pc := .user, result := 0 }) ∨
      s.thread u = some tu := by
  rw [hs', goto_thread] at hu
  by_cases hut : u = t
  · rw [hut, Function.update_self] at hu
    exact Or.inl ⟨hut, (Option.some.inj hu).symm⟩
  · rw [Function.update_of_ne hut] at hu
    by_cases huc : u = child
    · have hu' := (Function.update_self ..).symm.trans (huc ▸ hu)
      exact Or.inr (Or.inl ⟨huc, (Option.some.inj hu').symm⟩)
    · exact Or.inr (Or.inr ((Function.update_of_ne huc ..).symm.trans hu))

/-- The parent that `Fork` writes is the one that was there. -/
theorem Table.sameTable_fork (h : s.Table) (ht : s.thread t = some th)
    (hpc : th.pc = .execFork id child) (hp : s.live? child = some p)
    (hs' : s' = ((s.setPCB child { p with
      thread := some child, parentID := th.processID }).spawned id child).goto t th
        (.execMultexV id child)) : SameTable s s' := by
  have hplace := h.place t th ht
  simp only [Place, hpc] at hplace
  obtain ⟨-, -, hparent, -⟩ := hplace
  obtain ⟨hheap, -⟩ := live?_eq_some.mp hp
  have heq : p.parentID = th.processID := IsParent.unique ⟨p, hheap, rfl⟩ hparent
  have htie : PCB.tie { p with thread := some child, parentID := th.processID } = p.tie := by
    rw [← heq]
    rfl
  exact .of_update hheap htie (by rw [hs']; rfl) (by rw [hs']; rfl)

/-- `Fork`: the PCB is there, and its thread comes into being. -/
theorem Table.fork (h : s.Table) (ht : s.thread t = some th)
    (hpc : th.pc = .execFork id child) (hp : s.live? child = some p)
    (hs' : s' = ((s.setPCB child { p with
      thread := some child, parentID := th.processID }).spawned id child).goto t th
        (.execMultexV id child)) : s'.Table := by
  have hplace := h.place t th ht
  simp only [Place, hpc] at hplace
  obtain ⟨hpos, hid, -, -, hlast⟩ := hplace
  have hsame := h.sameTable_fork ht hpc hp hs'
  have hnext : s'.next = s.next := by rw [hs']; rfl
  have hself : s'.thread t = some { th with pc := .execMultexV id child } := by
    rw [hs', goto_thread, Function.update_self]
  have hholds : s.Holds t := ⟨th, ht, by rw [hpc]; trivial⟩
  have hslots : s'.Slots := by
    refine h.toSlots.same hsame (by rw [hs']; rfl) hnext ?_
    intro u tu hu
    rcases thread_of_fork hs' hu with ⟨rfl, rfl⟩ | ⟨rfl, rfl⟩ | hu
    · exact h.thread u th ht
    · exact hid
    · exact h.thread u tu hu
  refine {
    toSlots := hslots
    main := by simp only [hsame.deref]; exact h.main
    mutex := ?_
    place := ?_ }
  · -- the new thread begins outside of `ExecUpdate`, and its maker is still inside
    refine h.mutex.same (by rw [hs']; rfl) fun u => ⟨?_, fun hu => ?_⟩
    · rintro ⟨tu, hu, hin⟩
      rcases thread_of_fork hs' hu with ⟨rfl, -⟩ | ⟨-, rfl⟩ | hu
      · exact hholds
      · exact hin.elim
      · exact ⟨tu, hu, hin⟩
    · rw [h.holds_unique hholds hu]
      exact ⟨_, hself, trivial⟩
  · intro u tu hu
    by_cases hut : u = t
    · rw [hut, hself] at hu
      rw [← Option.some.inj hu]
      refine ⟨hpos, (deref_eq_some.mp hid).2.1, by rw [hnext]; exact hlast, fun a ha => ?_⟩
      rw [hsame.deref, hid] at ha
      exact (Option.some.inj ha).symm
    · rcases thread_of_fork hs' hu with ⟨heq, -⟩ | ⟨-, rfl⟩ | hu
      · exact absurd heq hut
      · trivial
      · exact (h.place u tu hu).outside fun hin => hut (h.holds_unique hholds ⟨tu, hu, hin⟩)

end Fork

/-- `Remove`: the slot of the thread is free, and the other slots stay. -/
theorem Table.removed (h : s.Table) (ht : s.thread t = some th) (hpc : th.pc = .exitRemove)
    {k : Nat} (hk : th.processID = k) {bm : Bitmap} (hnum : bm.numBits = s.bm.numBits)
    (hbits : bm.bits = s.bm.bits.erase k) {p : PCB} (hp : s.heap t = some p) :
    (s.removed t bm p).Table := by
  have hplace := h.place t th ht
  simp only [Place, hpc] at hplace
  have hslot := h.thread t th ht
  have hsub : ∀ {l a}, (s.removed t bm p).deref l = some a → s.deref l = some a :=
    h.deref_of_removed ht
  have hkeep : ∀ {l a}, s.deref l = some a → a ≠ t → (s.removed t bm p).deref l = some a :=
    h.deref_removed_of_some ht
  exact {
    toSlots := h.toSlots.removed ht hk hnum hbits hp
    main := by
      obtain ⟨a, ha⟩ := h.main
      refine ⟨a, hkeep ha ?_⟩
      -- a thread that gets as far as `Remove` is not the main one
      rintro rfl
      exact hplace (h.inj _ _ _ hslot ha)
    mutex := by
      refine h.mutex.same rfl ?_
      intro u
      by_cases hut : u = t
      · refine iff_of_false ?_ ?_
        · rintro ⟨tu, htu, -⟩
          rw [hut, removed_thread_self] at htu
          cases htu
        · rintro ⟨tu, htu, hin⟩
          rw [hut, ht] at htu
          rw [← Option.some.inj htu, hpc] at hin
          exact hin
      · unfold Holds
        rw [removed_thread_of_ne hut]
    place := by
      intro u tu hu
      rw [removed_thread_of_ne (ne_of_removed_thread hu)] at hu
      have hplace := h.place u tu hu
      unfold Place at hplace ⊢
      cases hpcu : tu.pc with
      | execFork id child =>
        rw [hpcu] at hplace
        obtain ⟨hpos, hid, ⟨q, hq, hparent⟩, hnone, hlast⟩ := hplace
        -- a child that is about to be forked has no thread, so it is not the one that exits
        have hct : child ≠ t := by
          rintro rfl
          rw [ht] at hnone
          cases hnone
        refine ⟨hpos, hkeep hid hct, ⟨q, ?_, hparent⟩, ?_, hlast⟩
        · exact (removed_heap_of_ne hct).trans hq
        · exact (removed_thread_of_ne hct).trans hnone
      | execMultexV id child =>
        rw [hpcu] at hplace
        exact ⟨hplace.1, hplace.2.1, hplace.2.2.1, fun a ha => hplace.2.2.2 a (hsub ha)⟩
      | execBmV r =>
        rw [hpcu] at hplace
        exact hplace.imp id fun hr => ⟨hr.1, hr.2.1, fun a ha => hr.2.2 a (hsub ha)⟩
      | exitP a | exitDec | exitDecP b | exitDecV b | exitRelease | exitWait | exitRemove =>
        rw [hpcu] at hplace
        exact hplace
      | _ => trivial }

end Change

/-! ## All steps -/

section Steps

variable {s s' : Sys} {t : Tid} {th : Proc}

theorem Table.moves_of_step (h : s.Table) {e : SysEvent} (hs : s.step e = some s') :
    ∃ th, s.thread e.tid = some th ∧ s.status = .running ∧ Moves s e.tid th s' :=
  Sys.moves_of_step h.numBits h.thread (fun _ _ _ => h.exitP_self) hs

theorem Table.frame (h : s.Table) (hbm : s'.bm = s.bm) (hpcb : s'.pcb = s.pcb)
    (hheap : s'.heap = s.heap) (hthread : s'.thread = s.thread) (hnext : s'.next = s.next)
    (hsem : s'.bmsem = s.bmsem) : s'.Table := by
  have hsame : SameTable s s' := ⟨hpcb, fun a => by rw [hheap]⟩
  have hparent : ∀ a q, s.IsParent a q → s'.IsParent a q := fun _ _ => hsame.isParent
  refine {
    toSlots := h.toSlots.same hsame hbm hnext (by rw [hthread]; exact h.thread)
    main := ?_
    mutex := ?_
    place := ?_ }
  · simp only [hsame.deref]
    exact h.main
  · exact h.mutex.same (by rw [hsem]) fun u => by unfold Holds; rw [hthread]
  · intro u tu hu
    rw [hthread] at hu
    exact (h.place u tu hu).transfer hsame.deref hparent (by simp [hthread]) hnext

theorem Table.step (s : Sys) (e : SysEvent) (s' : Sys) (h : s.Table) (hs : s.step e = some s') :
    s'.Table := by
  obtain ⟨th, ht, -, hmoves⟩ := h.moves_of_step hs
  cases hmoves with
  | crash => exact h.frame rfl rfl rfl rfl rfl rfl
  | halt => exact h.frame rfl rfl rfl rfl rfl rfl
  | go th' hl hgoes hsem => exact h.go ht hl hgoes hsem
  | enter name getName hpc hv hl hsem => exact h.enter ht hv hl hsem
  | refuse name getName hpc hwhy => exact h.refuse ht hpc
  | create getName fileName bm i hpc hnot hfirst hnum hbits =>
    exact h.created ht hpc (List.mem_of_head? hfirst) hnum hbits
  | fork id child p hpc hp => exact h.fork ht hpc hp rfl
  | forked id child hpc hl hsem => exact h.forked ht hpc hl hsem
  | leave r hpc => exact (h.leave ht hpc).1
  | remove bm p k hpc hk hnum hbits hp => exact h.removed ht hpc hk hnum hbits hp
  | finish hpc hbit =>
    rw [h.test_of_deref (h.thread _ th ht)] at hbit
    cases hbit

theorem table_new {s : Sys} (h : Sys.new = some s) : s.Table := by
  have hinv := inv_new h
  have hthread : ∀ t th, s.thread t = some th → t = 0 ∧ th.pc = .user := by
    intro t th ht
    obtain rfl := Option.some.inj h
    obtain ⟨rfl, rfl⟩ := update_none_eq_some.mp ht
    exact ⟨rfl, rfl⟩
  exact {
    toSlots := hinv.slots
    main := by
      have hbit : 0 ∈ s.bm.bits := by rw [(new_bits h).2]; exact Finset.mem_singleton_self 0
      exact_mod_cast (hinv.bits 0).mp hbit
    mutex := by
      refine Or.inl ⟨?_, ?_⟩
      · obtain rfl := Option.some.inj h
        rfl
      · rintro t ⟨th, ht, hin⟩
        rw [(hthread t th ht).2] at hin
        exact hin
    place := by
      intro t th ht
      simp only [Place, (hthread t th ht).2] }

theorem table_run {s₀ s : Sys} {es : List SysEvent} (hnew : Sys.new = some s₀)
    (hrun : run Sys.step s₀ es = some s) : s.Table :=
  run_invariant Table.step (table_new hnew) hrun

end Steps

end Sys

end Nachos
