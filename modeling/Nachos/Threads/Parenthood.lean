import Nachos.Threads.TableInvariant

/-!
# Who is the parent of a process (`threads/ptable.cc`)

`parentID` is the number of a slot. `JoinUpdate` compares it with the number of the caller's slot,
and `ExitUpdate` goes through it to the parent's PCB. Slots are used again, so the number stands for
the process that has made the child only as long as nobody else moves into that slot; and `Join`
goes through `pcb[id]` several times, so the child must not be replaced in between. `KeepsParents`
says which steps are safe in this respect.

The log of a run holds a pair for every process: itself and the process whose `Exec` has made it.

* `Family` — the invariant: who sits in the slot of the parent is the one that made the child
* `run_parent_by_process` — in runs whose steps all keep the parents, `Join` and `Exit` meet the
  right processes
* `run_parent_by_slot` — a run in which they do not
-/

namespace Nachos

open Base

/-- The argument of the `JoinUpdate` that a thread is in. -/
def ProcPc.joining : ProcPc → Option Int
  | .joinIncP id _ | .joinIncV id _ | .joinWait id | .joinP id _ | .joinGet id
  | .joinRelease id _ => some id
  | _ => none

namespace Sys

/-- The process that the step makes, with the process that makes it. -/
def made (s : Sys) (e : SysEvent) : List (Tid × Tid) :=
  match s.step e with
  | none => []
  | some s' => if s'.next = s.next then [] else [(s.next, e.tid)]

/--
The slot that `Exec` is about to take is not the parent's slot of any process; and `Join` is not
called on a child of the caller that is already released.
-/
def KeepsParents (s : Sys) : SysEvent → Prop
  | .call t (.join id) => ∀ th a, s.thread t = some th → s.deref id = some a →
      s.IsParent a th.processID → ¬ s.Released a
  | .run t => ∀ th name getName i, s.thread t = some th → th.pc = .execBody name getName →
      ¬ s.Refuses name getName → s.bm.free.head? = some i →
      ∀ k a, s.deref k = some a → ¬ s.IsParent a i
  | _ => True

/-- The argument of the `JoinUpdate` that the step belongs to. -/
def joining (s : Sys) : SysEvent → Option Int
  | .call _ (.join id) => some id
  | .call _ _ => none
  | .run t => (s.thread t).bind fun th => th.pc.joining

/-- The step ends a `JoinUpdate(id)`, which returns `r`. -/
def JoinReturns (s : Sys) (e : SysEvent) (id r : Int) : Prop :=
  s.joining e = some id ∧ ∃ s' th', s.step e = some s' ∧ s'.status = .running ∧
    s'.thread e.tid = some th' ∧ th'.pc = .user ∧ th'.result = r

/-- Thread `t` is in `DecNumWait` of the PCB `b`. -/
def InDecNumWait (s : Sys) (t b : Tid) : Prop :=
  ∃ th, s.thread t = some th ∧ (th.pc = .exitDecP b ∨ th.pc = .exitDecV b)

/-! ## The invariant -/

/-- The PCB `a` in slot `id` has the parent `q`, and `ExitRelease` has not been called on it. -/
def Awaits (s : Sys) (q id : Int) (a : Tid) : Prop :=
  s.deref id = some a ∧ s.IsParent a q ∧ ¬ s.Released a

/-- What a thread in `Join` or `Exit` knows about its child or its parent. -/
def Kin (s : Sys) (log : List (Tid × Tid)) (t : Tid) (th : Proc) : Prop :=
  match th.pc with
  | .joinIncP id _ | .joinIncV id _ | .joinWait id | .joinGet id | .joinRelease id _ =>
    ∃ a, s.Awaits th.processID id a
  | .joinP id child => s.Awaits th.processID id child
  | .exitDecP b | .exitDecV b => (t, b) ∈ log
  | _ => True

structure Family (s : Sys) (log : List (Tid × Tid)) : Prop where
  table : s.Table
  parent : ∀ k a q b, s.deref k = some a → s.IsParent a q → s.deref q = some b → (a, b) ∈ log
  kin : ∀ t th, s.thread t = some th → s.Kin log t th

section Reading

variable {s s' : Sys} {t : Tid} {th : Proc} {log log' : List (Tid × Tid)}

/-- The child that a thread may join is one that it has made. -/
theorem Family.mem_of_awaits (h : s.Family log) (ht : s.thread t = some th) {id : Int} {a : Tid}
    (ha : s.Awaits th.processID id a) : (a, t) ∈ log :=
  h.parent id a _ t ha.1 ha.2.1 (h.table.thread t th ht)

theorem Kin.transfer (h : s.Kin log t th) (hsub : log ⊆ log')
    (haw : ∀ id a, s.Awaits th.processID id a → s'.Awaits th.processID id a) :
    s'.Kin log' t th := by
  unfold Kin at h ⊢
  cases hpc : th.pc with
  | joinIncP id self | joinIncV id self | joinWait id | joinGet id | joinRelease id ec =>
    rw [hpc] at h
    obtain ⟨a, ha⟩ := h
    exact ⟨a, haw id a ha⟩
  | joinP id child =>
    rw [hpc] at h
    exact haw id child h
  | exitDecP b | exitDecV b =>
    rw [hpc] at h
    exact hsub h
  | _ => trivial

theorem Family.sameTable (h : s.Family log) (hsame : SameTable s s') (htable : s'.Table)
    (hsub : log ⊆ log') (hkin : ∀ u tu, s'.thread u = some tu → s'.Kin log' u tu) :
    s'.Family log' where
  table := htable
  parent := by
    intro k a q b hk hq hb
    rw [hsame.deref] at hk hb
    exact hsub (h.parent k a q b hk (hsame.symm.isParent hq) hb)
  kin := hkin

end Reading

/-! ## Steps that leave the table alone -/

section Local

variable {s s' : Sys} {t : Tid} {th th' : Proc} {log log' : List (Tid × Tid)}

/-- Only the parent itself releases a child, and then its `Join` is over. -/
theorem Family.awaits_local (h : s.Family log) (ht : s.thread t = some th)
    (hl : Local s t th th' s') {u : Tid} {tu : Proc} (hu : s.thread u = some tu)
    (hback : u = t → th'.pc ≠ .user) {id : Int} {a : Tid} (ha : s.Awaits tu.processID id a) :
    s'.Awaits tu.processID id a := by
  obtain ⟨hid, hparent, hrel⟩ := ha
  refine ⟨(hl.deref id).trans hid, hl.isParent hparent, fun hr => ?_⟩
  rcases hl.released a hr with hold | ⟨id', ec, hpc, huser, hid'⟩
  · exact hrel hold
  · have hkin := h.kin t th ht
    simp only [Kin, hpc] at hkin
    obtain ⟨a', haw⟩ := hkin
    have haa : a' = a := Option.some.inj (haw.1.symm.trans hid')
    have hpid : tu.processID = th.processID := hparent.unique (haa ▸ haw.2.1)
    exact hback (h.table.thread_unique hu ht hpid) huser

theorem Family.localStep (h : s.Family log) (ht : s.thread t = some th)
    (hl : Local s t th th' s') (htable : s'.Table) (hsub : log ⊆ log')
    (hkin : s'.Kin log' t th') : s'.Family log' := by
  refine h.sameTable hl.toSameTable htable hsub ?_
  intro u tu hu
  by_cases hut : u = t
  · subst hut
    rw [hl.thread_self] at hu
    rw [← Option.some.inj hu]
    exact hkin
  · rw [hl.thread_of_ne hut] at hu
    exact (h.kin u tu hu).transfer hsub fun id a =>
      h.awaits_local ht hl hu fun heq => absurd heq hut

/-- What the thread knows at its next place follows from what it knew. -/
theorem Family.goes (h : s.Family log) (ht : s.thread t = some th) (hl : Local s t th th' s')
    (hgoes : Goes s t th th'.pc) (hsub : log ⊆ log')
    (hjoin : ∀ id child, th.pc = .user → s.deref id = some child →
      s.IsParent child th.processID → (∃ self, th'.pc = .joinIncP id self) → ¬ s.Released child) :
    s'.Kin log' t th' := by
  have haw : th'.pc ≠ .user → ∀ {id a}, s.Awaits th.processID id a →
      s'.Awaits th'.processID id a := fun hne id a ha => by
    rw [hl.pid]
    exact h.awaits_local ht hl ht (fun _ => hne) ha
  have hkin := h.kin t th ht
  unfold Kin at hkin ⊢
  generalize th'.pc = pc at hgoes haw hjoin ⊢
  cases hgoes with
  | sleep =>
    by_cases huser : th.pc = .user
    · rw [huser]
      trivial
    · have hkeep : s'.Kin log' t th := (h.kin t th ht).transfer hsub fun id a ha => by
        rw [← hl.pid]
        exact haw huser ha
      unfold Kin at hkeep
      rw [hl.pid]
      exact hkeep
  | callJoin id child p self hpc hid hp hparent hself =>
    have hmine : s.IsParent child th.processID := ⟨p, hp, hparent⟩
    exact ⟨child, haw (by simp) ⟨hid, hmine, hjoin id child hpc hid hmine ⟨self, rfl⟩⟩⟩
  | joinIncV id self hpc | joinWait id self hpc | joinRelease id ec hpc =>
    rw [hpc] at hkin
    obtain ⟨a, ha⟩ := hkin
    exact ⟨a, haw (by simp) ha⟩
  | joinP id child hpc hid =>
    rw [hpc] at hkin
    obtain ⟨a, ha⟩ := hkin
    rw [ha.1] at hid
    rw [← Option.some.inj hid]
    exact haw (by simp) ha
  | joinGet id child hpc =>
    rw [hpc] at hkin
    exact ⟨child, haw (by simp) hkin⟩
  | exitDecP p parent hpc hp hparent =>
    exact hsub (h.parent _ t _ parent (h.table.thread t th ht) ⟨p, hp, rfl⟩ hparent)
  | exitDecV parent hpc =>
    rw [hpc] at hkin
    exact hsub hkin
  | _ => trivial

end Local

/-! ## New and removed processes -/

section Change

variable {s s' : Sys} {t : Tid} {th : Proc} {log log' : List (Tid × Tid)}

theorem Family.created (h : s.Family log) (ht : s.thread t = some th) {bm : Bitmap} {i : Nat}
    {fileName : CStr} (hfree : i ∈ s.bm.free)
    (hkeeps : ∀ k a, s.deref k = some a → ¬ s.IsParent a i)
    (htable : (s.created t th bm i fileName).Table) (hsub : log ⊆ log')
    (hnew : (s.next, t) ∈ log') : (s.created t th bm i fileName).Family log' := by
  have hderef : ∀ k, (s.created t th bm i fileName).deref k
      = if k = i then some s.next else s.deref k := h.table.deref_created hfree
  have hne : ∀ {k a}, s.deref k = some a → k ≠ i := by
    rintro k a hk rfl
    rw [h.table.deref_free hfree] at hk
    cases hk
  refine ⟨htable, fun k a q b hk hq hb => ?_, fun u tu hu => ?_⟩
  · rw [hderef] at hk hb
    obtain ⟨p, hp, rfl⟩ := hq
    by_cases hki : k = i
    · -- the new process: its parent is the caller
      rw [if_pos hki] at hk
      obtain rfl := Option.some.inj hk
      rw [created_heap_next] at hp
      have hslot : s.deref th.processID = some t := h.table.thread t th ht
      have hparent : p.parentID = th.processID := by
        rw [← Option.some.inj hp]
        rfl
      rw [hparent, if_neg (hne hslot), hslot] at hb
      rw [← Option.some.inj hb]
      exact hnew
    · rw [if_neg hki] at hk
      have hp' : s.heap a = some p := by
        rwa [created_heap_of_ne (h.table.deref_lt hk).ne] at hp
      have hqi : p.parentID ≠ i := fun heq => hkeeps k a hk ⟨p, hp', heq⟩
      rw [if_neg hqi] at hb
      exact hsub (h.parent k a _ b hk ⟨p, hp', rfl⟩ hb)
  · by_cases hut : u = t
    · subst hut
      rw [created_thread_self] at hu
      rw [← Option.some.inj hu]
      trivial
    · rw [created_thread_of_ne hut] at hu
      refine (h.kin u tu hu).transfer hsub ?_
      rintro id a ⟨hid, hparent, hrel⟩
      exact ⟨h.table.deref_created_of_some hfree hid, h.table.isParent_created hparent,
        fun hr => hrel (h.table.released_created hr).2⟩

theorem Family.fork (h : s.Family log) (ht : s.thread t = some th) {id : Int} {child : Tid}
    {p : PCB} (hpc : th.pc = .execFork id child) (hp : s.live? child = some p)
    (hs' : s' = ((s.setPCB child { p with
      thread := some child, parentID := th.processID }).spawned id child).goto t th
        (.execMultexV id child)) (htable : s'.Table) (hsub : log ⊆ log') : s'.Family log' := by
  have hsame := h.table.sameTable_fork ht hpc hp hs'
  obtain ⟨hheap, -⟩ := live?_eq_some.mp hp
  have hheap' : s'.heap = Function.update s.heap child
      (some { p with thread := some child, parentID := th.processID }) := by rw [hs']; rfl
  have hreleased : ∀ {a}, s'.Released a → s.Released a := by
    rintro a (⟨q, hq, hv⟩ | ⟨ta, hta, hex⟩)
    · by_cases hac : a = child
      · rw [hheap', hac, Function.update_self] at hq
        rw [← Option.some.inj hq] at hv
        rw [hac]
        exact Or.inl ⟨p, hheap, hv⟩
      · rw [hheap', Function.update_of_ne hac] at hq
        exact Or.inl ⟨q, hq, hv⟩
    · rcases thread_of_fork hs' hta with ⟨-, rfl⟩ | ⟨-, rfl⟩ | hold
      · cases hex
      · cases hex
      · exact Or.inr ⟨ta, hold, hex⟩
  refine h.sameTable hsame htable hsub ?_
  intro u tu hu
  rcases thread_of_fork hs' hu with ⟨-, rfl⟩ | ⟨-, rfl⟩ | hold
  · trivial
  · trivial
  · exact (h.kin u tu hold).transfer hsub fun id a ha =>
      ⟨(hsame.deref id).trans ha.1, hsame.isParent ha.2.1, fun hr => ha.2.2 (hreleased hr)⟩

/-- A process that is removed was released, so nobody waits for it. -/
theorem Family.removed (h : s.Family log) (ht : s.thread t = some th) (hpc : th.pc = .exitRemove)
    {bm : Bitmap} {p : PCB} (hp : s.heap t = some p) (htable : (s.removed t bm p).Table)
    (hsub : log ⊆ log') : (s.removed t bm p).Family log' := by
  have hkeep : ∀ {l a}, (s.removed t bm p).deref l = some a → s.deref l = some a :=
    h.table.deref_of_removed ht
  refine ⟨htable, fun k a q b hk hq hb => ?_, fun u tu hu => ?_⟩
  · exact hsub (h.parent k a q b (hkeep hk) ((isParent_removed hp).mp hq) (hkeep hb))
  · rw [removed_thread_of_ne (ne_of_removed_thread hu)] at hu
    refine (h.kin u tu hu).transfer hsub ?_
    rintro id a ⟨hid, hq, hrel⟩
    have hat : a ≠ t := by
      rintro rfl
      exact hrel (Or.inr ⟨th, ht, hpc⟩)
    refine ⟨h.table.deref_removed_of_some ht hid hat, (isParent_removed hp).mpr hq, ?_⟩
    rintro (⟨q', hq', hv⟩ | ⟨ta, hta, hex⟩)
    · rw [removed_heap_of_ne hat] at hq'
      exact hrel (Or.inl ⟨q', hq', hv⟩)
    · rw [removed_thread_of_ne hat] at hta
      exact hrel (Or.inr ⟨ta, hta, hex⟩)

end Change

/-! ## All steps -/

section Steps

variable {s s' : Sys} {t : Tid} {th : Proc} {e : SysEvent} {log : List (Tid × Tid)}

theorem made_of_next (hs : s.step e = some s') (hnext : s'.next = s.next + 1) :
    s.made e = [(s.next, e.tid)] := by
  have hne : s'.next ≠ s.next := by
    rw [hnext]
    exact Nat.succ_ne_self _
  simp only [made, hs, if_neg hne]

/-- `JoinUpdate` crashes, returns -1, or goes on to `IncNumWait`. -/
theorem joinUpdate_getD (s : Sys) (t : Tid) (th : Proc) (id : Int) :
    (s.joinUpdate t th id).getD s.crash = s.crash ∨
      (s.joinUpdate t th id).getD s.crash = s.ret t th (-1) ∨
      ∃ self, (s.joinUpdate t th id).getD s.crash = s.goto t th (.joinIncP id self) := by
  unfold Sys.joinUpdate
  split
  · exact Or.inr (Or.inl rfl)
  · cases hid : s.deref id with
    | none => exact Or.inl rfl
    | some child =>
      obtain ⟨p, hp⟩ := live_of_deref hid
      simp only [hp, Option.bind_eq_bind, Option.bind_some]
      split
      · exact Or.inr (Or.inl rfl)
      · cases s.deref p.parentID with
        | none => exact Or.inl rfl
        | some self => exact Or.inr (Or.inr ⟨self, rfl⟩)

/-- `JoinUpdate` goes on to `IncNumWait` with its own argument. -/
theorem joinUpdate_place (ht : s.thread t = some th) (hpc : th.pc = .user) {id id' : Int}
    {self : Tid} {th' : Proc} (ht' : ((s.joinUpdate t th id').getD s.crash).thread t = some th')
    (hself : th'.pc = .joinIncP id self) : id' = id := by
  rcases joinUpdate_getD s t th id' with heq | heq | ⟨self', heq⟩
  · rw [heq] at ht'
    rw [← Option.some.inj (ht.symm.trans ht'), hpc] at hself
    cases hself
  · rw [heq, ret_thread, Function.update_self] at ht'
    rw [← Option.some.inj ht'] at hself
    cases hself
  · rw [heq, goto_thread, Function.update_self] at ht'
    rw [← Option.some.inj ht'] at hself
    cases hself
    rfl

/-- `ExitUpdate` goes on to `DecNumWait`, or not at all. -/
theorem exitUpdate_place (ht : s.thread t = some th) (hpc : th.pc = .user) {exitcode : Int}
    {th' : Proc} (ht' : ((s.exitUpdate t th exitcode).getD s.crash).thread t = some th') :
    th'.pc = .user ∨ th'.pc = .exitDec := by
  have hsame : s.thread t = some th' → th'.pc = .user ∨ th'.pc = .exitDec := by
    intro h
    rw [ht] at h
    rw [← Option.some.inj h]
    exact Or.inl hpc
  unfold Sys.exitUpdate at ht'
  split at ht'
  · exact hsame ht'
  · cases hbit : s.bm.test th.processID with
    | none =>
      rw [hbit] at ht'
      exact hsame ht'
    | some b =>
      cases b with
      | false =>
        rw [hbit] at ht'
        have hnone : (s.finish t).thread t = none := Function.update_self ..
        cases hnone.symm.trans ht'
      | true =>
        cases hid : s.deref th.processID with
        | none =>
          rw [hbit, hid] at ht'
          exact hsame ht'
        | some self =>
          obtain ⟨p, hp⟩ := live_of_deref hid
          simp only [hbit, hid, hp, Option.bind_eq_bind, Option.bind_some, if_true] at ht'
          have heq := (Function.update_self ..).symm.trans ht'
          rw [← Option.some.inj heq]
          exact Or.inr rfl

/-- Only `Join` takes a thread from its program to `IncNumWait`. -/
theorem call_join_of_place (hs : s.step e = some s') (ht : s.thread e.tid = some th) {th' : Proc}
    (ht' : s'.thread e.tid = some th') (hpc : th.pc = .user) {id : Int} {self : Tid}
    (hself : th'.pc = .joinIncP id self) : e = .call e.tid (.join id) := by
  cases e with
  | run t =>
    obtain ⟨th₀, ht₀, -, hne, -⟩ := step_run_some hs
    rw [show s.thread t = some th from ht] at ht₀
    rw [← Option.some.inj ht₀] at hne
    exact absurd hpc hne
  | call t c =>
    obtain ⟨th₀, ht₀, -, -, rfl⟩ := step_call_some hs
    rw [show s.thread t = some th from ht] at ht₀
    obtain rfl := Option.some.inj ht₀
    cases c with
    | join id' =>
      obtain rfl := joinUpdate_place ht hpc ht' hself
      rfl
    | exec name getName =>
      have hgoto : (s.goto t th (.execP name getName)).thread t
          = some { th with pc := .execP name getName } := Function.update_self ..
      have heq := hgoto.symm.trans ht'
      rw [← Option.some.inj heq] at hself
      cases hself
    | exit exitcode =>
      rcases exitUpdate_place ht hpc ht' with huser | hdec
      · rw [hself] at huser
        cases huser
      · rw [hself] at hdec
        cases hdec

/-- The condition, for a thread that has just passed the test of `JoinUpdate`. -/
theorem KeepsParents.not_released (hkeeps : s.KeepsParents e) (hs : s.step e = some s')
    (ht : s.thread e.tid = some th) {th' : Proc} (ht' : s'.thread e.tid = some th') {id : Int}
    {child : Tid} (hpc : th.pc = .user) (hid : s.deref id = some child)
    (hparent : s.IsParent child th.processID) (hself : ∃ self, th'.pc = .joinIncP id self) :
    ¬ s.Released child := by
  obtain ⟨self, hself⟩ := hself
  rw [call_join_of_place hs ht ht' hpc hself] at hkeeps
  exact hkeeps th child ht hid hparent

theorem Family.step (s : Sys) (e : SysEvent) (s' : Sys) (log : List (Tid × Tid))
    (h : s.Family log) (hkeeps : s.KeepsParents e) (hs : s.step e = some s') :
    s'.Family (log ++ s.made e) := by
  have hsub : log ⊆ log ++ s.made e := List.subset_append_left _ _
  have htable : s'.Table := Table.step s e s' h.table hs
  obtain ⟨th, ht, -, hmoves⟩ := h.table.moves_of_step hs
  have hframe : ∀ {u tu}, s.thread u = some tu → SameTable s s' →
      (∀ a, s'.Released a → s.Released a) → s'.Kin (log ++ s.made e) u tu :=
    fun hu hsame hrel => (h.kin _ _ hu).transfer hsub fun id a ha =>
      ⟨(hsame.deref id).trans ha.1, hsame.isParent ha.2.1, fun hr => ha.2.2 (hrel a hr)⟩
  cases hmoves with
  | crash =>
    have hsame : SameTable s s.crash := ⟨rfl, fun _ => rfl⟩
    exact h.sameTable hsame htable hsub fun u tu hu => hframe hu hsame fun a hr => hr
  | halt =>
    have hsame : SameTable s { s with status := .halted } := ⟨rfl, fun _ => rfl⟩
    exact h.sameTable hsame htable hsub fun u tu hu => hframe hu hsame fun a hr => hr
  | go th' hl hgoes hsem =>
    refine h.localStep ht hl htable hsub (h.goes ht hl hgoes hsub ?_)
    intro id child hpc hid hq hself
    exact hkeeps.not_released hs ht hl.thread_self hpc hid hq hself
  | enter name getName hpc hv hl hsem => exact h.localStep ht hl htable hsub trivial
  | refuse name getName hpc hwhy =>
    exact h.localStep ht (.of_thread _ rfl rfl rfl rfl rfl rfl rfl (by simp)) htable hsub trivial
  | create getName fileName bm i hpc hnot hfirst hnum hbits =>
    have hmade : s.made e = [(s.next, e.tid)] := made_of_next hs rfl
    refine h.created ht (List.mem_of_head? hfirst) ?_ htable hsub ?_
    · cases e with
      | run t => exact hkeeps th (some fileName) getName i ht hpc hnot hfirst
      | call t c =>
        obtain ⟨th₀, ht₀, -, huser, -⟩ := step_call_some hs
        rw [show s.thread t = some th from ht] at ht₀
        rw [← Option.some.inj ht₀, hpc] at huser
        cases huser
    · rw [hmade]
      exact List.mem_append_right _ (List.mem_singleton_self _)
  | fork id child p hpc hp => exact h.fork ht hpc hp rfl htable hsub
  | forked id child hpc hl hsem => exact h.localStep ht hl htable hsub trivial
  | leave r hpc =>
    exact h.localStep ht (.of_thread _ rfl rfl rfl rfl rfl rfl rfl (by simp)) htable hsub trivial
  | remove bm p k hpc hk hnum hbits hp => exact h.removed ht hpc hp htable hsub
  | finish hpc hbit =>
    rw [h.table.test_of_deref (h.table.thread _ th ht)] at hbit
    cases hbit

theorem family_new {s : Sys} (h : Sys.new = some s) : s.Family [] where
  table := table_new h
  parent := by
    intro k a q b hk hq hb
    obtain rfl := Option.some.inj h
    obtain ⟨p, hp, rfl⟩ := hq
    obtain ⟨-, rfl⟩ := update_none_eq_some.mp hp
    obtain ⟨hneg, -⟩ := deref_eq_some.mp hb
    exact absurd hneg (by decide)
  kin := by
    intro t th ht
    obtain rfl := Option.some.inj h
    obtain ⟨-, rfl⟩ := update_none_eq_some.mp ht
    trivial

/-- A `Join` that is not refused returns from `joinRelease`. -/
theorem joinReturns_place (htable : s.Table) {id r : Int} (h : s.JoinReturns e id r)
    (hr : r ≠ -1) : ∃ th ec, s.thread e.tid = some th ∧ th.pc = .joinRelease id ec := by
  obtain ⟨hid, s', th', hs, hrunning, ht', huser, rfl⟩ := h
  cases e with
  | call t c =>
    obtain ⟨th, ht, -, hpc, rfl⟩ := step_call_some hs
    cases c with
    | exec name getName => cases hid
    | exit exitcode => cases hid
    | join id' =>
      -- an immediate return is a refusal
      exfalso
      rcases joinUpdate_getD s t th id' with heq | heq | ⟨self, heq⟩
      · rw [Sys.doCall, heq] at hrunning
        cases hrunning
      · rw [Sys.doCall, heq] at ht'
        have hth := (Function.update_self ..).symm.trans ht'
        rw [← Option.some.inj hth] at hr
        exact hr rfl
      · rw [Sys.doCall, heq] at ht'
        have hth := (Function.update_self ..).symm.trans ht'
        rw [← Option.some.inj hth] at huser
        cases huser
  | run t =>
    obtain ⟨th, ht, -, hne, -⟩ := step_run_some hs
    obtain ⟨th₀, ht₀, -, hmoves⟩ := htable.moves_of_step hs
    rw [show s.thread (SysEvent.run t).tid = some th from ht] at ht₀
    obtain rfl := Option.some.inj ht₀
    rw [joining, ht, Option.bind_some] at hid
    cases hmoves with
    | crash | halt => cases hrunning
    | go th'' hl hgoes hsem =>
      rw [hl.thread_self] at ht'
      obtain rfl := Option.some.inj ht'
      generalize th''.pc = pc at hgoes huser
      cases hgoes with
      | joined id' ec child hpc hid' =>
        rw [hpc] at hid
        obtain rfl := Option.some.inj hid
        exact ⟨th, ec, ht, hpc⟩
      | sleep => exact absurd huser hne
      | joinRefused hpc => exact absurd hpc hne
      | _ => cases huser
    | enter name getName hpc hv hl hsem => rw [hpc] at hid; cases hid
    | refuse name getName hpc hwhy => rw [hpc] at hid; cases hid
    | create getName fileName bm i hpc hnot hfirst hnum hbits => rw [hpc] at hid; cases hid
    | fork id child p hpc hp => rw [hpc] at hid; cases hid
    | forked id child hpc hl hsem => rw [hpc] at hid; cases hid
    | leave r hpc => rw [hpc] at hid; cases hid
    | remove bm p k hpc hk hnum hbits hp => rw [hpc] at hid; cases hid
    | finish hpc hbit => rw [hpc] at hid; cases hid

/--
In every state of a run whose steps all keep the parents: a `JoinUpdate(id)` that returns something
other than -1 was called by the process that has made the one in slot `id`, and `DecNumWait` is
called on the PCB of the process that has made the one that exits.
-/
theorem run_parent_by_process {s₀ s : Sys} {es : List SysEvent} (hnew : Sys.new = some s₀)
    (hkeeps : AllSteps Sys.step KeepsParents s₀ es) (hrun : run Sys.step s₀ es = some s) :
    (∀ e id r, s.JoinReturns e id r → r ≠ -1 →
        ∃ a, s.deref id = some a ∧ (a, e.tid) ∈ observed made Sys.step s₀ es) ∧
      ∀ t b, s.InDecNumWait t b → (t, b) ∈ observed made Sys.step s₀ es := by
  have h : s.Family (observed made Sys.step s₀ es) :=
    run_observed_guarded Family.step (family_new hnew) hkeeps hrun
  constructor
  · intro e id r hret hr
    obtain ⟨th, ec, ht, hpc⟩ := joinReturns_place h.table hret hr
    have hkin := h.kin e.tid th ht
    simp only [Kin, hpc] at hkin
    obtain ⟨a, ha⟩ := hkin
    exact ⟨a, ha.1, h.mem_of_awaits ht ha⟩
  · rintro t b ⟨th, ht, hpc | hpc⟩
    all_goals
      have hkin := h.kin t th ht
      simp only [Kin, hpc] at hkin
      exact hkin

/-- The main process makes a process, which exits, and the main process joins it. -/
def mainJoins : List SysEvent := execAll 0 nameA nameMain ++ (exitAll 1 ++ joinAll 0 1)

theorem keepsParents_run (ht : s.thread t = some th)
    (hpc : ∀ name getName, th.pc ≠ .execBody name getName) : s.KeepsParents (.run t) := by
  intro th' name getName i ht' hpc'
  rw [ht] at ht'
  rw [← Option.some.inj ht'] at hpc'
  exact absurd hpc' (hpc name getName)

theorem run_parent_by_process_main :
    ∃ s₀ s, Sys.new = some s₀ ∧ run Sys.step s₀ mainJoins = some s ∧ s.JoinReturns (.run 0) 1 0 ∧
      ∃ a, s.deref 1 = some a ∧ (a, 0) ∈ observed made Sys.step s₀ mainJoins := by
  obtain ⟨s₀, s, hnew, hkeeps, hrun, hret⟩ : ∃ s₀ s, Sys.new = some s₀ ∧
      AllSteps Sys.step KeepsParents s₀ mainJoins ∧ run Sys.step s₀ mainJoins = some s ∧
      s.JoinReturns (.run 0) 1 0 := by
    refine ⟨_, _, rfl, ?_, rfl, rfl, _, _, rfl, rfl, rfl, rfl, rfl⟩
    unfold mainJoins execAll exitAll joinAll
    refine (allSteps_cons rfl).mpr ⟨trivial, ?_⟩
    refine (allSteps_cons rfl).mpr ⟨keepsParents_run rfl (by rintro _ _ ⟨⟩), ?_⟩
    refine (allSteps_cons rfl).mpr ⟨?_, ?_⟩
    · -- the only process is the main one, which has no parent
      rintro th name getName i - - - - k a - ⟨p, hp, hparent⟩
      obtain ⟨-, rfl⟩ := update_none_eq_some.mp hp
      have hneg : (-1 : Int) = i := hparent
      omega
    iterate 3 refine (allSteps_cons rfl).mpr ⟨keepsParents_run rfl (by rintro _ _ ⟨⟩), ?_⟩
    refine (allSteps_cons rfl).mpr ⟨trivial, ?_⟩
    iterate 6 refine (allSteps_cons rfl).mpr ⟨keepsParents_run rfl (by rintro _ _ ⟨⟩), ?_⟩
    refine (allSteps_cons rfl).mpr ⟨?_, ?_⟩
    · -- the child sleeps in `exitsem->P()`
      rintro th a - ha - (⟨p, hp, hv⟩ | ⟨ta, hta, hex⟩)
      · obtain rfl := Option.some.inj ha
        obtain rfl := Option.some.inj hp
        exact hv rfl
      · obtain rfl := Option.some.inj ha
        obtain rfl := Option.some.inj hta
        cases hex
    iterate 5 refine (allSteps_cons rfl).mpr ⟨keepsParents_run rfl (by rintro _ _ ⟨⟩), ?_⟩
    trivial
  exact ⟨s₀, s, hnew, hrun, hret,
    (run_parent_by_process hnew hkeeps hrun).1 (.run 0) 1 0 hret (by decide)⟩

/--
Process 2 is made by a process with number 1, which exits. The main process makes another one, which
gets the number 1 again.
-/
def slotReused : List SysEvent :=
  execAll 0 nameA nameMain ++ execAll 1 nameB nameA ++ exitAll 1 ++ joinAll 0 1 ++
    [.run 0, .run 1, .run 1] ++ execAll 0 nameC nameMain ++ [.call 2 (.exit 0), .run 2]

/-- Process 2 goes on with its `Exit`, and the new process with number 1 joins it. -/
def strangerJoins : List SysEvent := [.run 2, .run 2, .run 2] ++ joinAll 3 2

/--
The PCB in slot 2 was made by thread 1. `DecNumWait` is called on the PCB of thread 3, and the
`Join(2)` of thread 3 returns 0.
-/
theorem run_parent_by_slot :
    ∃ s₀ s s', Sys.new = some s₀ ∧ run Sys.step s₀ slotReused = some s ∧
      run Sys.step s strangerJoins = some s' ∧
      ¬ (∀ t b, s.InDecNumWait t b → (t, b) ∈ observed made Sys.step s₀ slotReused) ∧
      ¬ (∀ e id r, s'.JoinReturns e id r → r ≠ -1 → ∃ a, s'.deref id = some a ∧
        (a, e.tid) ∈ observed made Sys.step s₀ (slotReused ++ strangerJoins)) := by
  obtain ⟨s₀, s, s', hnew, hrun, hrun', hdec, hret, hslot, hmade, hmade'⟩ :
      ∃ s₀ s s', Sys.new = some s₀ ∧ run Sys.step s₀ slotReused = some s ∧
        run Sys.step s strangerJoins = some s' ∧ s.InDecNumWait 2 3 ∧
        s'.JoinReturns (.run 3) 2 0 ∧ s'.deref 2 = some 2 ∧
        observed made Sys.step s₀ slotReused = [(1, 0), (2, 1), (3, 0)] ∧
        observed made Sys.step s₀ (slotReused ++ strangerJoins) = [(1, 0), (2, 1), (3, 0)] := by
    refine ⟨_, _, _, rfl, rfl, rfl, ⟨_, rfl, Or.inl rfl⟩, ?_, rfl, rfl, rfl⟩
    exact ⟨rfl, _, _, rfl, rfl, rfl, rfl, rfl⟩
  refine ⟨s₀, s, s', hnew, hrun, hrun', fun h => ?_, fun h => ?_⟩
  · have hmem := h 2 3 hdec
    rw [hmade] at hmem
    exact absurd hmem (by decide)
  · obtain ⟨a, ha, hmem⟩ := h (.run 3) 2 0 hret (by decide)
    rw [hslot] at ha
    rw [← Option.some.inj ha, hmade'] at hmem
    exact absurd hmem (by decide)

end Steps

end Sys

end Nachos
