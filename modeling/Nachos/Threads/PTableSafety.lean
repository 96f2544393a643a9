import Nachos.Threads.PTable

/-!
# Which accesses to the process table are safe

`JoinUpdate` tests that `id` is not negative and nothing else before it goes through `pcb[id]`, and
`ExitUpdate` goes through the slot of the parent without asking whether the parent is still there.
So some calls crash the kernel. This file says which: `Respects` is a condition on the call and
the state it is made in, and `run_accesses_allocated` shows that in a run whose calls all respect
it, every slot that `JoinUpdate` and `ExitUpdate` go through is allocated and holds a PCB.

A PCB is used by its own thread until `Remove`, by its parent in `Exec` and in `Join`, and by its
children that have not passed `DecNumWait`. The invariant keeps these users apart from `Remove`:
a parent in `Join` has not yet released the child, and a parent that exits has no children left
that need it.

* `Slots` — how the slots, their bits and the threads belong together
* `Inv` — the invariant, `Inv.step` — every step that respects the condition keeps it
* `run_accesses_allocated` — safety of whole runs
-/

namespace Nachos

open Base

namespace ProcPc

/-- In `ExitUpdate`, after the exit code is stored. -/
def Exiting : ProcPc → Prop
  | .exitDec | .exitDecP _ | .exitDecV _ | .exitRelease | .exitWait | .exitP _ | .exitRemove =>
    True
  | _ => False

/-- In `ExitUpdate`, after `DecNumWait`: the parent's PCB is not used any more. -/
def Done : ProcPc → Prop
  | .exitRelease | .exitWait | .exitP _ | .exitRemove => True
  | _ => False

end ProcPc

/-- The part of a PCB that ties it to its slot and its parent. -/
def PCB.tie (p : PCB) : Bool × Int := (p.alive, p.parentID)

namespace Sys

/-! ## Who needs which PCB -/

/-- The PCB `a` has the parent `q`. -/
def IsParent (s : Sys) (a : Tid) (q : Int) : Prop := ∃ p, s.heap a = some p ∧ p.parentID = q

/-- `ExitRelease` has been called on the PCB `a`, so it can be destroyed at any time. -/
def Released (s : Sys) (a : Tid) : Prop :=
  (∃ p, s.heap a = some p ∧ p.exitsem.value ≠ 0) ∨
    ∃ th, s.thread a = some th ∧ th.pc = .exitRemove

/-- The process of the PCB `a` is past `DecNumWait`. -/
def Done (s : Sys) (a : Tid) : Prop := ∃ th, s.thread a = some th ∧ th.pc.Done

/-- Slot `k` is in the table, its bit is set, and it points to a PCB that is not destroyed. -/
def Allocated (s : Sys) (k : Int) : Prop :=
  0 ≤ k ∧ k < maxProcess ∧ s.bm.test k = some true ∧ ∃ a, s.deref k = some a

/--
The calls that are safe.

`Join` names a slot whose bit is set, or a negative number; a child is not joined again once it
is released. A process other than the main one exits only when its children are done with it.
-/
def Respects (s : Sys) : SysEvent → Prop
  | .call t (.join id) => id < 0 ∨ (s.bm.test id = some true ∧
      ∀ th a, s.thread t = some th → s.deref id = some a → s.IsParent a th.processID →
        ¬ s.Released a)
  | .call t (.exit _) => ∀ th, s.thread t = some th → th.processID ≠ 0 →
      ∀ k a, s.deref k = some a → s.IsParent a th.processID → s.Done a
  | _ => True

/-- The number in `parentID` of the PCB in slot `k`. -/
def parentAt (s : Sys) (k : Int) : List Int :=
  (((s.deref k).bind s.live?).map fun p => p.parentID).toList

/-- The slots that a step of thread `t` goes through inside `JoinUpdate` and `ExitUpdate`. -/
def touched (s : Sys) (th : Proc) : List Int :=
  match th.pc with
  | .joinIncP _ _ | .joinIncV _ _ => [th.processID]
  | .joinWait id | .joinP id _ | .joinGet id | .joinRelease id _ => [id]
  | .exitDec => th.processID :: s.parentAt th.processID
  | .exitDecP _ | .exitDecV _ => s.parentAt th.processID
  | .exitRelease | .exitWait | .exitP _ | .exitRemove => [th.processID]
  | _ => []

/-- The slots that a step goes through inside `JoinUpdate` and `ExitUpdate`. -/
def touches (s : Sys) : SysEvent → List Int
  | .call t (.join id) =>
    if id < 0 then []
    else id :: (s.parentAt id).filter fun q => (s.thread t).map (·.processID) = some q
  | .call t (.exit _) =>
    (((s.thread t).map (·.processID)).filter fun k => k ≠ 0 ∧ s.bm.test k = some true).toList
  | .call _ (.exec _ _) => []
  | .run t => ((s.thread t).map s.touched).getD []

/-! ## The invariant -/

/-- What a thread relies on at the place where it is. -/
def PcOk (s : Sys) (t : Tid) (th : Proc) : Prop :=
  let mine (a : Tid) : Prop := s.IsParent a th.processID ∧ ¬ s.Released a
  match th.pc with
  | .execFork id child => s.deref id = some child ∧ mine child ∧ s.thread child = none
  | .execMultexV id child => s.deref id = some child ∧ mine child
  | .joinIncP id self | .joinIncV id self =>
    (∃ a, s.deref id = some a ∧ mine a) ∧ self = t
  | .joinWait id | .joinGet id | .joinRelease id _ => ∃ a, s.deref id = some a ∧ mine a
  | .joinP id child => s.deref id = some child ∧ mine child
  | .exitDec | .exitRelease | .exitWait | .exitRemove => th.processID ≠ 0
  | .exitDecP b | .exitDecV b =>
    th.processID ≠ 0 ∧ ∃ q, s.IsParent t q ∧ s.deref q = some b
  | .exitP self => th.processID ≠ 0 ∧ self = t
  | _ => True

/-- The invariant of the process table. -/
structure Inv (s : Sys) : Prop where
  status : s.status ≠ .crashed
  numBits : s.bm.numBits = maxProcess
  bits : ∀ k : Nat, k ∈ s.bm.bits ↔ ∃ a, s.deref k = some a
  inj : ∀ k l a, s.deref k = some a → s.deref l = some a → k = l
  pcb_lt : ∀ k a, s.pcb k = some a → a < s.next
  heap_lt : ∀ a p, s.heap a = some p → a < s.next
  thread : ∀ t th, s.thread t = some th → s.deref th.processID = some t
  parent : ∀ k a, s.deref k = some a → k ≠ 0 → ¬ s.Done a →
    ∃ q b tb, s.IsParent a q ∧ s.deref q = some b ∧ s.thread b = some tb ∧ ¬ tb.pc.Exiting
  pc : ∀ t th, s.thread t = some th → s.PcOk t th

/-! ## Reading the invariant -/

variable {s s' : Sys} {t : Tid} {th : Proc}

theorem IsParent.unique {a : Tid} {q r : Int} (h : s.IsParent a q) (h' : s.IsParent a r) :
    q = r := by
  obtain ⟨p, hp, rfl⟩ := h
  obtain ⟨p', hp', rfl⟩ := h'
  rw [hp] at hp'
  rw [Option.some.inj hp']

theorem live_of_deref {k : Int} {a : Tid} (h : s.deref k = some a) : ∃ p, s.live? a = some p := by
  obtain ⟨-, -, -, p, hp⟩ := deref_eq_some.mp h
  exact ⟨p, live?_eq_some.mpr hp⟩

theorem Inv.deref_of_test (h : s.Inv) {k : Int} (hk : s.bm.test k = some true) :
    ∃ a, s.deref k = some a := by
  obtain ⟨h0, h1, hbit⟩ := Bitmap.test_eq_some hk
  lift k to Nat using h0
  exact (h.bits k).mp (Bitmap.mem_bits.mpr ⟨by omega, hbit⟩)

/--
What a thread relies on survives a step: the slots that it uses stay, no child of its process is
released, and the child that it is about to fork has no thread.
-/
theorem PcOk.transfer (h : s.PcOk t th)
    (hderef : ∀ k a, s.deref k = some a → ¬ s.Released a → s'.deref k = some a)
    (hup : ∀ q b, s.IsParent t q → s.deref q = some b → th.processID ≠ 0 → ¬ th.pc.Done →
      s'.deref q = some b)
    (hparent : ∀ a q, s.IsParent a q → s'.IsParent a q)
    (hreleased : ∀ a, s.IsParent a th.processID → s'.Released a → s.Released a)
    (hnone : ∀ id a, th.pc = .execFork id a → s.thread a = none → s'.thread a = none) :
    s'.PcOk t th := by
  have hmine : ∀ a, s.IsParent a th.processID ∧ ¬ s.Released a →
      s'.IsParent a th.processID ∧ ¬ s'.Released a :=
    fun a ha => ⟨hparent a _ ha.1, fun hr => ha.2 (hreleased a ha.1 hr)⟩
  unfold PcOk at h ⊢
  cases hpc : th.pc with
  | execFork id child =>
    rw [hpc] at h
    obtain ⟨hid, hm, hn⟩ := h
    exact ⟨hderef id child hid hm.2, hmine child hm, hnone id child hpc hn⟩
  | execMultexV id child | joinP id child =>
    rw [hpc] at h
    exact ⟨hderef id child h.1 h.2.2, hmine child h.2⟩
  | joinIncP id self | joinIncV id self =>
    rw [hpc] at h
    obtain ⟨⟨a, ha, hm⟩, hself⟩ := h
    exact ⟨⟨a, hderef id a ha hm.2, hmine a hm⟩, hself⟩
  | joinWait id | joinGet id | joinRelease id ec =>
    rw [hpc] at h
    obtain ⟨a, ha, hm⟩ := h
    exact ⟨a, hderef id a ha hm.2, hmine a hm⟩
  | exitDecP b | exitDecV b =>
    rw [hpc] at h
    obtain ⟨hne, q, hq, hb⟩ := h
    exact ⟨hne, q, hparent t q hq, hup q b hq hb hne (by simp [hpc, ProcPc.Done])⟩
  | exitDec | exitRelease | exitWait | exitP self | exitRemove => rw [hpc] at h; exact h
  | user | execP name getName | execBody name getName | execBmV result => trivial

/-! ## Steps that leave the table alone -/

/-- The slots point to the same PCBs, with the same parents, and as alive as before. -/
structure SameTable (s s' : Sys) : Prop where
  pcb : s'.pcb = s.pcb
  heap : ∀ a, (s'.heap a).map PCB.tie = (s.heap a).map PCB.tie

namespace SameTable

theorem heap_some (h : SameTable s s') {a : Tid} {p' : PCB} (hp' : s'.heap a = some p') :
    ∃ p, s.heap a = some p ∧ p.tie = p'.tie := by
  have hh := h.heap a
  rw [hp', Option.map_some] at hh
  exact Option.map_eq_some_iff.mp hh.symm

theorem symm (h : SameTable s s') : SameTable s' s :=
  ⟨h.pcb.symm, fun a => (h.heap a).symm⟩

theorem isParent (h : SameTable s s') {a : Tid} {q : Int} (hq : s.IsParent a q) :
    s'.IsParent a q := by
  obtain ⟨p, hp, rfl⟩ := hq
  obtain ⟨p', hp', htie⟩ := h.symm.heap_some hp
  exact ⟨p', hp', congrArg Prod.snd htie⟩

theorem deref_some (h : SameTable s s') {k : Int} {a : Tid} (hk : s.deref k = some a) :
    s'.deref k = some a := by
  obtain ⟨h0, h1, hpcb, p, hp, halive⟩ := deref_eq_some.mp hk
  obtain ⟨p', hp', htie⟩ := h.symm.heap_some hp
  have halive' : p'.alive = p.alive := congrArg Prod.fst htie
  exact deref_eq_some.mpr ⟨h0, h1, by rw [h.pcb]; exact hpcb, p', hp', halive'.trans halive⟩

theorem deref (h : SameTable s s') (k : Int) : s'.deref k = s.deref k := by
  ext a
  exact ⟨h.symm.deref_some, h.deref_some⟩

/-- A PCB is written without a change to what ties it to the table. -/
theorem of_update {a : Tid} {p p' : PCB} (hp : s.heap a = some p) (htie : p'.tie = p.tie)
    (hpcb : s'.pcb = s.pcb) (hheap : s'.heap = Function.update s.heap a (some p')) :
    SameTable s s' where
  pcb := hpcb
  heap := by
    intro b
    rw [hheap]
    by_cases hb : b = a
    · rw [hb, Function.update_self, hp, Option.map_some, Option.map_some, htie]
    · rw [Function.update_of_ne hb]

end SameTable

/-! ## The slots -/

/-- What ties the slots of the table, their bits and the threads together. -/
structure Slots (s : Sys) : Prop where
  numBits : s.bm.numBits = maxProcess
  bits : ∀ k : Nat, k ∈ s.bm.bits ↔ ∃ a, s.deref k = some a
  inj : ∀ k l a, s.deref k = some a → s.deref l = some a → k = l
  pcb_lt : ∀ k a, s.pcb k = some a → a < s.next
  heap_lt : ∀ a p, s.heap a = some p → a < s.next
  thread : ∀ t th, s.thread t = some th → s.deref th.processID = some t

namespace Slots

theorem test_of_deref (h : s.Slots) {k : Int} {a : Tid} (hk : s.deref k = some a) :
    s.bm.test k = some true := by
  obtain ⟨h0, -⟩ := deref_eq_some.mp hk
  lift k to Nat using h0
  obtain ⟨hlt, hbit⟩ := Bitmap.mem_bits.mp ((h.bits k).mpr ⟨a, hk⟩)
  rw [Bitmap.test_natCast hlt, hbit]

/-- A process has one thread. -/
theorem thread_unique (h : s.Slots) {t u : Tid} {th tu : Proc} (ht : s.thread t = some th)
    (hu : s.thread u = some tu) (hid : th.processID = tu.processID) : t = u := by
  have h1 := h.thread t th ht
  have h2 := h.thread u tu hu
  rw [hid, h2] at h1
  exact (Option.some.inj h1).symm

/-- The free slot that `FindAndSet` finds points to nothing that is alive. -/
theorem deref_free (h : s.Slots) {i : Nat} (hi : i ∈ s.bm.free) : s.deref i = none := by
  by_contra hne
  obtain ⟨a, ha⟩ := Option.ne_none_iff_exists'.mp hne
  exact Bitmap.mem_free_iff_notMem_bits.mp hi |>.2 ((h.bits i).mpr ⟨a, ha⟩)

theorem deref_lt (h : s.Slots) {k : Int} {a : Tid} (hk : s.deref k = some a) : a < s.next := by
  obtain ⟨-, -, hpcb, -⟩ := deref_eq_some.mp hk
  exact h.pcb_lt _ a hpcb

theorem thread_lt (h : s.Slots) (ht : s.thread t = some th) : t < s.next :=
  h.deref_lt (h.thread t th ht)

/-- The next PCB has no thread yet. -/
theorem thread_next (h : s.Slots) : s.thread s.next = none := by
  by_contra hne
  obtain ⟨tn, htn⟩ := Option.ne_none_iff_exists'.mp hne
  exact absurd (h.thread_lt htn) (lt_irrefl _)

/-- The table stays, and every thread has the slot that points to its PCB. -/
theorem same (h : s.Slots) (hsame : SameTable s s') (hbm : s'.bm = s.bm) (hnext : s'.next = s.next)
    (hthread : ∀ u tu, s'.thread u = some tu → s.deref tu.processID = some u) : s'.Slots where
  numBits := by rw [hbm]; exact h.numBits
  bits := fun k => by simp only [hbm, hsame.deref]; exact h.bits k
  inj := fun k l a hk hl => by rw [hsame.deref] at hk hl; exact h.inj k l a hk hl
  pcb_lt := fun k a hk => by rw [hsame.pcb] at hk; rw [hnext]; exact h.pcb_lt k a hk
  heap_lt := by
    intro a p hp
    obtain ⟨p₀, hp₀, -⟩ := hsame.heap_some hp
    rw [hnext]
    exact h.heap_lt a p₀ hp₀
  thread := fun u tu hu => by rw [hsame.deref]; exact hthread u tu hu

/-- One thread moves, and it stays in its slot. -/
theorem move {th' : Proc} (h : s.Slots) (ht : s.thread t = some th) (hsame : SameTable s s')
    (hbm : s'.bm = s.bm) (hnext : s'.next = s.next)
    (hthread : s'.thread = Function.update s.thread t (some th'))
    (hpid : th'.processID = th.processID) : s'.Slots := by
  refine h.same hsame hbm hnext ?_
  intro u tu hu
  rw [hthread] at hu
  by_cases hut : u = t
  · rw [hut, Function.update_self] at hu
    rw [← Option.some.inj hu, hut, hpid]
    exact h.thread t th ht
  · rw [Function.update_of_ne hut] at hu
    exact h.thread u tu hu

end Slots

theorem Inv.slots (h : s.Inv) : s.Slots := ⟨h.numBits, h.bits, h.inj, h.pcb_lt, h.heap_lt, h.thread⟩

theorem Inv.allocated (h : s.Inv) {k : Int} {a : Tid} (hk : s.deref k = some a) :
    s.Allocated k := by
  obtain ⟨h0, h1, -⟩ := deref_eq_some.mp hk
  exact ⟨h0, h1, h.slots.test_of_deref hk, a, hk⟩

/--
A step in which thread `t` goes from `th` to `th'` and at most the semaphores, the exit code and
the counter of one PCB change. Only `ExitRelease` releases a child, and then the call returns.
-/
structure LocalStep (s : Sys) (t : Tid) (th th' : Proc) (s' : Sys) : Prop
    extends SameTable s s' where
  thread : s'.thread = Function.update s.thread t (some th')
  pid : th'.processID = th.processID
  bm : s'.bm = s.bm
  next : s'.next = s.next
  status : s'.status = s.status
  released : ∀ a, s'.Released a → s.Released a ∨ (th'.pc = .user ∧ s.IsParent a th.processID)

/-- A thread other than `t` is where it was. -/
theorem LocalStep.thread_of_ne {th' : Proc} (h : LocalStep s t th th' s') {u : Tid} (hu : u ≠ t) :
    s'.thread u = s.thread u := by
  rw [h.thread, Function.update_of_ne hu]

theorem LocalStep.thread_self {th' : Proc} (h : LocalStep s t th th' s') :
    s'.thread t = some th' := by
  rw [h.thread, Function.update_self]

/-- What has to be checked for a step that leaves the table alone. -/
theorem Inv.localStep {th' : Proc} (hinv : s.Inv) (ht : s.thread t = some th)
    (h : LocalStep s t th th' s') (hpc : th'.pc ≠ .user → s.PcOk t th')
    (hdone : th.pc.Done → th'.pc.Done)
    (hexit : th'.pc.Exiting → th.pc.Exiting ∨
      ∀ k a, s.deref k = some a → s.IsParent a th.processID → s.Done a) : s'.Inv where
  __ := hinv.slots.move ht h.toSameTable h.bm h.next h.thread h.pid
  status := by rw [h.status]; exact hinv.status
  parent := by
    intro k a hk hk0 hnd
    rw [h.deref] at hk
    have hnd₀ : ¬ s.Done a := by
      rintro ⟨ta, hta, hd⟩
      by_cases hat : a = t
      · subst hat
        rw [ht] at hta
        rw [← Option.some.inj hta] at hd
        exact hnd ⟨th', h.thread_self, hdone hd⟩
      · exact hnd ⟨ta, (h.thread_of_ne hat).trans hta, hd⟩
    obtain ⟨q, b, tb, hq, hb, htb, hex⟩ := hinv.parent k a hk hk0 hnd₀
    by_cases hbt : b = t
    · subst hbt
      rw [ht] at htb
      obtain rfl := Option.some.inj htb
      refine ⟨q, b, th', h.isParent hq, (h.deref q).trans hb, h.thread_self, fun hex' => ?_⟩
      rcases hexit hex' with hold | hall
      · exact hex hold
      · -- the process of `b` is `q`, so `a` would be done
        have hqid : q = th.processID := hinv.inj _ _ _ hb (hinv.thread b th ht)
        rw [hqid] at hq
        exact hnd₀ (hall k a hk hq)
    · exact ⟨q, b, tb, h.isParent hq, (h.deref q).trans hb, (h.thread_of_ne hbt).trans htb, hex⟩
  pc := by
    intro u tu hu
    have hderef : ∀ k a, s.deref k = some a → s'.deref k = some a :=
      fun k a hk => (h.deref k).trans hk
    have hnone : ∀ a, s.thread a = none → s'.thread a = none := by
      intro a hn
      by_cases hat : a = t
      · rw [hat, ht] at hn
        cases hn
      · rw [h.thread_of_ne hat]
        exact hn
    by_cases hut : u = t
    · subst hut
      rw [h.thread_self] at hu
      obtain rfl := Option.some.inj hu
      by_cases huser : th'.pc = .user
      · simp [PcOk, huser]
      · refine (hpc huser).transfer (fun k a hk _ => hderef k a hk)
          (fun q b _ hb _ _ => hderef q b hb) (fun a q hq => h.isParent hq) ?_
          (fun _ a _ hn => hnone a hn)
        intro a _ hr
        exact (h.released a hr).resolve_right fun hc => huser hc.1
    · rw [h.thread_of_ne hut] at hu
      refine (hinv.pc u tu hu).transfer (fun k a hk _ => hderef k a hk)
        (fun q b _ hb _ _ => hderef q b hb) (fun a q hq => h.isParent hq) ?_
        (fun _ a _ hn => hnone a hn)
      intro a ha hr
      rcases h.released a hr with hr | ⟨-, ha'⟩
      · exact hr
      · exact absurd (hinv.slots.thread_unique hu ht (ha.unique ha')) hut

/-! ## ExecUpdate: a new PCB and a new thread -/

/-- The state after a new PCB was made in slot `i`. -/
def created (s : Sys) (t : Tid) (th : Proc) (bm : Bitmap) (i : Nat) (name : CStr) : Sys :=
  { s with
    bm := bm
    pcb := Function.update s.pcb i (some s.next)
    heap := Function.update s.heap s.next (some (newPCB t i th.processID name))
    next := s.next + 1 }.goto t th (.execFork i s.next)

section Created

variable {bm : Bitmap} {i : Nat} {name : Option CStr} {getName fileName : CStr}

theorem created_thread_of_ne {u : Tid} (hu : u ≠ t) :
    (s.created t th bm i fileName).thread u = s.thread u := by
  simp [created, hu]

theorem created_thread_self :
    (s.created t th bm i fileName).thread t = some { th with pc := .execFork i s.next } := by
  simp [created]

theorem created_heap_of_ne {a : Tid} (ha : a ≠ s.next) :
    (s.created t th bm i fileName).heap a = s.heap a := by
  simp [created, ha]

theorem created_heap_next :
    (s.created t th bm i fileName).heap s.next = some (newPCB t i th.processID fileName) := by
  simp [created]

namespace Slots

theorem deref_created (h : s.Slots) (hfree : i ∈ s.bm.free) (k : Int) :
    (s.created t th bm i fileName).deref k = if k = i then some s.next else s.deref k := by
  have hi : i < maxProcess := by
    rw [← h.numBits]
    exact (Bitmap.mem_free.mp hfree).1
  by_cases hk : k = i
  · subst hk
    rw [if_pos rfl, deref_eq_some]
    exact ⟨by omega, by omega, by simp [created], newPCB t i th.processID fileName,
      by simp [created], rfl⟩
  · rw [if_neg hk]
    ext a
    rw [deref_eq_some, deref_eq_some]
    constructor
    · rintro ⟨h0, h1, h2, p, h3, h4⟩
      have hki : k.toNat ≠ i := by omega
      have hpcb : s.pcb k.toNat = some a := by simpa [created, hki] using h2
      have hne : a ≠ s.next := (h.pcb_lt _ a hpcb).ne
      exact ⟨h0, h1, hpcb, p, by simpa [created, hne] using h3, h4⟩
    · rintro ⟨h0, h1, h2, p, h3, h4⟩
      have hki : k.toNat ≠ i := by omega
      have hne : a ≠ s.next := (h.pcb_lt _ a h2).ne
      exact ⟨h0, h1, by simpa [created, hki] using h2, p, by simpa [created, hne] using h3, h4⟩

/-- The other slots point where they did. -/
theorem deref_created_of_some (h : s.Slots) (hfree : i ∈ s.bm.free) {k : Int} {a : Tid}
    (hk : s.deref k = some a) : (s.created t th bm i fileName).deref k = some a := by
  rw [h.deref_created hfree, if_neg]
  · exact hk
  · rintro rfl
    rw [h.deref_free hfree] at hk
    cases hk

theorem isParent_created (h : s.Slots) {a : Tid} {q : Int} (hq : s.IsParent a q) :
    (s.created t th bm i fileName).IsParent a q := by
  obtain ⟨p, hp, hq⟩ := hq
  have ha : a ≠ s.next := (h.heap_lt a p hp).ne
  exact ⟨p, (created_heap_of_ne ha).trans hp, hq⟩

theorem released_created (h : s.Slots) {a : Tid}
    (hr : (s.created t th bm i fileName).Released a) : a ≠ s.next ∧ s.Released a := by
  rcases hr with ⟨p, hp, hv⟩ | ⟨ta, hta, hpc⟩
  · by_cases ha : a = s.next
    · subst ha
      rw [created_heap_next] at hp
      rw [← Option.some.inj hp] at hv
      exact absurd rfl hv
    · rw [created_heap_of_ne ha] at hp
      exact ⟨ha, Or.inl ⟨p, hp, hv⟩⟩
  · by_cases hat : a = t
    · subst hat
      rw [created_thread_self] at hta
      rw [← Option.some.inj hta] at hpc
      cases hpc
    · rw [created_thread_of_ne hat] at hta
      exact ⟨(h.thread_lt hta).ne, Or.inr ⟨ta, hta, hpc⟩⟩

/-- A new PCB in a free slot. -/
theorem created (h : s.Slots) (ht : s.thread t = some th) (hfree : i ∈ s.bm.free)
    (hnum : bm.numBits = s.bm.numBits) (hbits : bm.bits = insert i s.bm.bits) :
    (s.created t th bm i fileName).Slots where
  numBits := hnum.trans h.numBits
  bits := by
    intro k
    show k ∈ bm.bits ↔ _
    rw [hbits, Finset.mem_insert, h.bits, h.deref_created hfree]
    by_cases hk : k = i <;> simp [hk]
  inj := by
    intro k l a hk hl
    rw [h.deref_created hfree] at hk hl
    split at hk <;> split at hl
    · next h1 h2 => rw [h1, h2]
    · rw [← Option.some.inj hk] at hl
      exact absurd (h.deref_lt hl) (lt_irrefl _)
    · rw [← Option.some.inj hl] at hk
      exact absurd (h.deref_lt hk) (lt_irrefl _)
    · exact h.inj k l a hk hl
  pcb_lt := by
    intro k a hk
    show a < s.next + 1
    by_cases hki : k = i
    · have ha : s.next = a := by simpa [Sys.created, hki] using hk
      rw [ha]
      exact Nat.lt_succ_self a
    · have hk' : s.pcb k = some a := by simpa [Sys.created, hki] using hk
      exact Nat.lt_succ_of_lt (h.pcb_lt k a hk')
  heap_lt := by
    intro a p hp
    show a < s.next + 1
    by_cases ha : a = s.next
    · rw [ha]
      exact Nat.lt_succ_self _
    · rw [created_heap_of_ne ha] at hp
      exact Nat.lt_succ_of_lt (h.heap_lt a p hp)
  thread := by
    intro u tu hu
    by_cases hut : u = t
    · subst hut
      rw [created_thread_self] at hu
      rw [← Option.some.inj hu]
      exact h.deref_created_of_some hfree (h.thread u th ht)
    · rw [created_thread_of_ne hut] at hu
      exact h.deref_created_of_some hfree (h.thread u tu hu)

end Slots

/-- The creation of a PCB keeps the invariant. -/
theorem Inv.created (hinv : s.Inv) (ht : s.thread t = some th)
    (hpc : th.pc = .execBody name getName) (hfree : i ∈ s.bm.free)
    (hnum : bm.numBits = s.bm.numBits) (hbits : bm.bits = insert i s.bm.bits) :
    (s.created t th bm i fileName).Inv := by
  have htn : s.next ≠ t := (hinv.slots.thread_lt ht).ne'
  have hkeep : ∀ k a, s.deref k = some a → (s.created t th bm i fileName).deref k = some a :=
    fun k a => hinv.slots.deref_created_of_some hfree
  have hparent : ∀ a q, s.IsParent a q → (s.created t th bm i fileName).IsParent a q :=
    fun a q => hinv.slots.isParent_created
  have hnewParent : (s.created t th bm i fileName).IsParent s.next th.processID :=
    ⟨_, created_heap_next, rfl⟩
  have hnone : (s.created t th bm i fileName).thread s.next = none := by
    rw [created_thread_of_ne htn]
    exact hinv.slots.thread_next
  exact {
    hinv.slots.created ht hfree hnum hbits with
    status := hinv.status
    parent := by
      intro k a hk hk0 hnd
      rw [hinv.slots.deref_created hfree] at hk
      split at hk
      · obtain rfl := Option.some.inj hk
        exact ⟨_, t, _, hnewParent, hkeep _ _ (hinv.thread t th ht), created_thread_self,
          by simp [ProcPc.Exiting]⟩
      · have hnd₀ : ¬ s.Done a := by
          rintro ⟨ta, hta, hd⟩
          by_cases hat : a = t
          · subst hat
            rw [ht] at hta
            rw [← Option.some.inj hta, hpc] at hd
            exact hd
          · exact hnd ⟨ta, (created_thread_of_ne hat).trans hta, hd⟩
        obtain ⟨q, b, tb, hq, hb, htb, hex⟩ := hinv.parent k a hk hk0 hnd₀
        by_cases hbt : b = t
        · subst hbt
          exact ⟨q, b, _, hparent a q hq, hkeep _ _ hb, created_thread_self,
            by simp [ProcPc.Exiting]⟩
        · exact ⟨q, b, tb, hparent a q hq, hkeep _ _ hb, (created_thread_of_ne hbt).trans htb, hex⟩
    pc := by
      intro u tu hu
      by_cases hut : u = t
      · subst hut
        rw [created_thread_self] at hu
        rw [← Option.some.inj hu]
        refine ⟨?_, ⟨hnewParent, fun hr => ?_⟩, hnone⟩
        · rw [hinv.slots.deref_created hfree, if_pos rfl]
        · exact (hinv.slots.released_created hr).1 rfl
      · rw [created_thread_of_ne hut] at hu
        refine (hinv.pc u tu hu).transfer (fun k a hk _ => hkeep k a hk)
          (fun q b _ hb _ _ => hkeep q b hb) hparent
          (fun a _ hr => (hinv.slots.released_created hr).2) ?_
        intro _ a _ hn
        by_cases hat : a = t
        · rw [hat, ht] at hn
          cases hn
        · rw [created_thread_of_ne hat]
          exact hn }

end Created

/-! ## Fork and Remove -/

/-- The thread of the PCB `child` in slot `id` is made. -/
def spawned (s : Sys) (id : Int) (child : Tid) : Sys :=
  { s with
    thread := Function.update s.thread child
      (some { processID := id, pc := .user, result := 0 }) }

/-- `Fork` keeps the invariant. -/
theorem Inv.spawned (hinv : s.Inv) {id : Int} {child : Tid} (hid : s.deref id = some child)
    (hnone : s.thread child = none)
    (hno : ∀ u tu, s.thread u = some tu → ∀ id', tu.pc ≠ .execFork id' child) :
    (s.spawned id child).Inv := by
  have hself : (s.spawned id child).thread child
      = some { processID := id, pc := .user, result := 0 } := by simp [Sys.spawned]
  have hother : ∀ {u}, u ≠ child → (s.spawned id child).thread u = s.thread u :=
    fun hu => by simp [Sys.spawned, hu]
  have hne : ∀ {u tu}, s.thread u = some tu → u ≠ child := by
    rintro u tu hu rfl
    rw [hnone] at hu
    cases hu
  exact {
    status := hinv.status
    numBits := hinv.numBits
    bits := hinv.bits
    inj := hinv.inj
    pcb_lt := hinv.pcb_lt
    heap_lt := hinv.heap_lt
    thread := by
      intro u tu hu
      by_cases huc : u = child
      · subst huc
        rw [hself] at hu
        rw [← Option.some.inj hu]
        exact hid
      · rw [hother huc] at hu
        exact hinv.thread u tu hu
    parent := by
      intro k a hk hk0 hnd
      have hnd₀ : ¬ s.Done a := fun ⟨ta, hta, hd⟩ => hnd ⟨ta, (hother (hne hta)).trans hta, hd⟩
      obtain ⟨q, b, tb, hq, hb, htb, hex⟩ := hinv.parent k a hk hk0 hnd₀
      exact ⟨q, b, tb, hq, hb, (hother (hne htb)).trans htb, hex⟩
    pc := by
      intro u tu hu
      by_cases huc : u = child
      · subst huc
        rw [hself] at hu
        rw [← Option.some.inj hu]
        trivial
      · rw [hother huc] at hu
        refine (hinv.pc u tu hu).transfer (fun _ _ hk _ => hk) (fun _ _ _ hb _ _ => hb)
          (fun _ _ hq => hq) ?_ ?_
        · rintro a - (hv | ⟨ta, hta, hpc⟩)
          · exact Or.inl hv
          · by_cases hac : a = child
            · subst hac
              rw [hself] at hta
              rw [← Option.some.inj hta] at hpc
              cases hpc
            · rw [hother hac] at hta
              exact Or.inr ⟨ta, hta, hpc⟩
        · intro id' a hpc hn
          by_cases hac : a = child
          · subst hac
            exact absurd hpc (hno u tu hu id')
          · rw [hother hac]
            exact hn }

/-- The state after the PCB `t` of the exiting thread `t` was destroyed. -/
def removed (s : Sys) (t : Tid) (bm : Bitmap) (p : PCB) : Sys :=
  { s with
    bm := bm
    heap := Function.update s.heap t (some { p with alive := false })
    thread := Function.update s.thread t none }

theorem removed_thread_self {bm : Bitmap} {p : PCB} : (s.removed t bm p).thread t = none := by
  simp [removed]

theorem removed_thread_of_ne {bm : Bitmap} {p : PCB} {u : Tid} (hu : u ≠ t) :
    (s.removed t bm p).thread u = s.thread u := by
  simp [removed, hu]

theorem removed_heap_of_ne {bm : Bitmap} {p : PCB} {a : Tid} (ha : a ≠ t) :
    (s.removed t bm p).heap a = s.heap a := by
  simp [removed, ha]

theorem isParent_removed {bm : Bitmap} {p : PCB} (hp : s.heap t = some p) {a : Tid} {q : Int} :
    (s.removed t bm p).IsParent a q ↔ s.IsParent a q := by
  unfold IsParent
  by_cases hat : a = t
  · subst hat
    simp [removed, hp]
  · rw [removed_heap_of_ne hat]

theorem ne_of_removed_thread {bm : Bitmap} {p : PCB} {u : Tid} {tu : Proc}
    (hu : (s.removed t bm p).thread u = some tu) : u ≠ t := by
  rintro rfl
  rw [removed_thread_self] at hu
  cases hu

section Removed

variable {bm : Bitmap} {p : PCB}

namespace Slots

theorem deref_removed (h : s.Slots) (ht : s.thread t = some th) (k : Int) :
    (s.removed t bm p).deref k = if k = th.processID then none else s.deref k := by
  have hslot := h.thread t th ht
  have hiff : ∀ a, (s.removed t bm p).deref k = some a ↔ s.deref k = some a ∧ a ≠ t := by
    intro a
    rw [deref_eq_some, deref_eq_some]
    by_cases ha : a = t
    · simp [Sys.removed, ha]
    · simp [Sys.removed, ha]
  by_cases hk : k = th.processID
  · rw [if_pos hk, Option.eq_none_iff_forall_ne_some]
    intro a ha
    obtain ⟨ha, hne⟩ := (hiff a).mp ha
    rw [hk, hslot] at ha
    exact hne (Option.some.inj ha).symm
  · rw [if_neg hk]
    ext a
    rw [hiff]
    refine ⟨fun h => h.1, fun ha => ⟨ha, ?_⟩⟩
    rintro rfl
    exact hk (h.inj _ _ _ ha hslot)

theorem deref_of_removed (h : s.Slots) (ht : s.thread t = some th) {l : Int} {a : Tid}
    (hl : (s.removed t bm p).deref l = some a) : s.deref l = some a := by
  rw [h.deref_removed ht] at hl
  split at hl
  · cases hl
  · exact hl

theorem deref_removed_of_some (h : s.Slots) (ht : s.thread t = some th) {l : Int} {a : Tid}
    (hl : s.deref l = some a) (ha : a ≠ t) : (s.removed t bm p).deref l = some a := by
  rw [h.deref_removed ht, if_neg]
  · exact hl
  · rintro rfl
    rw [h.thread t th ht] at hl
    exact ha (Option.some.inj hl).symm

/-- The slot of the thread is free, and the other slots stay. -/
theorem removed (h : s.Slots) (ht : s.thread t = some th) {k : Nat} (hk : th.processID = k)
    (hnum : bm.numBits = s.bm.numBits) (hbits : bm.bits = s.bm.bits.erase k)
    (hp : s.heap t = some p) : (s.removed t bm p).Slots where
  numBits := hnum.trans h.numBits
  bits := by
    intro l
    show l ∈ bm.bits ↔ _
    rw [hbits, Finset.mem_erase, h.bits, h.deref_removed ht, hk]
    by_cases hl : l = k <;> simp [hl]
  inj := fun l m a hl hm => h.inj l m a (h.deref_of_removed ht hl) (h.deref_of_removed ht hm)
  pcb_lt := h.pcb_lt
  heap_lt := by
    intro a q hq
    by_cases hat : a = t
    · rw [hat]
      exact h.heap_lt t p hp
    · rw [removed_heap_of_ne hat] at hq
      exact h.heap_lt a q hq
  thread := by
    intro u tu hu
    have hut := ne_of_removed_thread hu
    rw [removed_thread_of_ne hut] at hu
    exact h.deref_removed_of_some ht (h.thread u tu hu) hut

end Slots

/-- `Remove` keeps the invariant: nobody else uses the PCB of a thread that has been released. -/
theorem Inv.removed (hinv : s.Inv) (ht : s.thread t = some th) (hpc : th.pc = .exitRemove)
    {k : Nat} (hk : th.processID = k) (hnum : bm.numBits = s.bm.numBits)
    (hbits : bm.bits = s.bm.bits.erase k) (hp : s.heap t = some p) :
    (s.removed t bm p).Inv := by
  have hkeep : ∀ {l a}, s.deref l = some a → a ≠ t → (s.removed t bm p).deref l = some a :=
    hinv.slots.deref_removed_of_some ht
  have hparent : ∀ a q, s.IsParent a q → (s.removed t bm p).IsParent a q :=
    fun a q => (isParent_removed hp).mpr
  have hreleased : s.Released t := Or.inr ⟨th, ht, hpc⟩
  have hne_of_not_exiting : ∀ {b tb}, s.thread b = some tb → ¬ tb.pc.Exiting → b ≠ t := by
    rintro b tb htb hex rfl
    rw [ht] at htb
    rw [← Option.some.inj htb, hpc] at hex
    exact hex trivial
  exact {
    hinv.slots.removed ht hk hnum hbits hp with
    status := hinv.status
    parent := by
      intro l a hl hl0 hnd
      have hl₀ := hinv.slots.deref_of_removed ht hl
      have hnd₀ : ¬ s.Done a := by
        rintro ⟨ta, hta, hd⟩
        have hat : a ≠ t := by
          rintro rfl
          rw [hinv.inj l _ a hl₀ (hinv.thread a th ht), hinv.slots.deref_removed ht,
            if_pos rfl] at hl
          cases hl
        exact hnd ⟨ta, (removed_thread_of_ne hat).trans hta, hd⟩
      obtain ⟨q, b, tb, hq, hb, htb, hex⟩ := hinv.parent l a hl₀ hl0 hnd₀
      have hbt := hne_of_not_exiting htb hex
      exact ⟨q, b, tb, hparent a q hq, hkeep hb hbt, (removed_thread_of_ne hbt).trans htb, hex⟩
    pc := by
      intro u tu hu
      rw [removed_thread_of_ne (ne_of_removed_thread hu)] at hu
      refine (hinv.pc u tu hu).transfer ?_ ?_ hparent ?_ ?_
      · intro l a hl hr
        refine hkeep hl ?_
        rintro rfl
        exact hr hreleased
      · -- before `DecNumWait` the parent of `u` does not exit, so it is not `t`
        intro q b hq hb hu0 hd
        have hnd : ¬ s.Done u := by
          rintro ⟨tu', htu', hd'⟩
          rw [hu] at htu'
          rw [← Option.some.inj htu'] at hd'
          exact hd hd'
        obtain ⟨q', b', tb, hq', hb', htb, hex⟩ :=
          hinv.parent _ u (hinv.thread u tu hu) hu0 hnd
        rw [hq.unique hq', hb'] at hb
        obtain rfl := Option.some.inj hb
        rw [hq.unique hq']
        exact hkeep hb' (hne_of_not_exiting htb hex)
      · rintro a - (⟨p', hp', hv⟩ | ⟨ta, hta, hpc'⟩)
        · by_cases hat : a = t
          · rw [hat]
            exact hreleased
          · rw [removed_heap_of_ne hat] at hp'
            exact Or.inl ⟨p', hp', hv⟩
        · rw [removed_thread_of_ne (ne_of_removed_thread hta)] at hta
          exact Or.inr ⟨ta, hta, hpc'⟩
      · intro _ a _ hn
        by_cases hat : a = t
        · rw [hat]
          exact removed_thread_self
        · rw [removed_thread_of_ne hat]
          exact hn }

end Removed

/-! ## One step of a thread -/

/-- No PCB changes, and the thread does not go on to remove itself. -/
theorem released_of_thread {th' : Proc} (hheap : s'.heap = s.heap)
    (hthread : s'.thread = Function.update s.thread t (some th')) (hpc : th'.pc ≠ .exitRemove)
    {a : Tid} (h : s'.Released a) : s.Released a := by
  rcases h with ⟨p, hp, hv⟩ | ⟨ta, hta, hex⟩
  · rw [hheap] at hp
    exact Or.inl ⟨p, hp, hv⟩
  · by_cases hat : a = t
    · rw [hat, hthread, Function.update_self] at hta
      rw [← Option.some.inj hta] at hex
      exact absurd hex hpc
    · rw [hthread, Function.update_of_ne hat] at hta
      exact Or.inr ⟨ta, hta, hex⟩

/-- The one PCB that changes is the only one that can come to be released. -/
theorem released_of_pcb {th' : Proc} {p' : PCB} {a : Tid}
    (hheap : s'.heap = Function.update s.heap a (some p'))
    (hthread : s'.thread = Function.update s.thread t (some th'))
    (hpc : th'.pc = .exitRemove → s.Released t) {b : Tid} (h : s'.Released b) :
    s.Released b ∨ b = a ∧ p'.exitsem.value ≠ 0 := by
  rcases h with ⟨q, hq, hv⟩ | ⟨tb, htb, hex⟩
  · by_cases hb : b = a
    · rw [hb, hheap, Function.update_self] at hq
      rw [← Option.some.inj hq] at hv
      exact Or.inr ⟨hb, hv⟩
    · rw [hheap, Function.update_of_ne hb] at hq
      exact Or.inl (Or.inl ⟨q, hq, hv⟩)
  · by_cases hbt : b = t
    · rw [hbt, hthread, Function.update_self] at htb
      rw [← Option.some.inj htb] at hex
      rw [hbt]
      exact Or.inl (hpc hex)
    · rw [hthread, Function.update_of_ne hbt] at htb
      exact Or.inl (Or.inr ⟨tb, htb, hex⟩)

/-- The thread moves and no PCB changes. -/
theorem LocalStep.of_thread (th' : Proc) (hpcb : s'.pcb = s.pcb) (hheap : s'.heap = s.heap)
    (hbm : s'.bm = s.bm) (hnext : s'.next = s.next) (hstatus : s'.status = s.status)
    (hthread : s'.thread = Function.update s.thread t (some th'))
    (hpid : th'.processID = th.processID) (hpc : th'.pc ≠ .exitRemove) :
    LocalStep s t th th' s' where
  pcb := hpcb
  heap := fun a => by rw [hheap]
  thread := hthread
  pid := hpid
  bm := hbm
  next := hnext
  status := hstatus
  released := fun _ ha => Or.inl (released_of_thread hheap hthread hpc ha)

/-- The thread moves and one PCB changes. -/
theorem LocalStep.of_pcb (th' : Proc) (p' : PCB) {a : Tid} {p : PCB} (hp : s.heap a = some p)
    (htie : p'.tie = p.tie)
    (hrel : p'.exitsem.value ≠ 0 → s.Released a ∨ (th'.pc = .user ∧ s.IsParent a th.processID))
    (hpcb : s'.pcb = s.pcb) (hheap : s'.heap = Function.update s.heap a (some p'))
    (hbm : s'.bm = s.bm) (hnext : s'.next = s.next) (hstatus : s'.status = s.status)
    (hthread : s'.thread = Function.update s.thread t (some th'))
    (hpid : th'.processID = th.processID) (hpc : th'.pc = .exitRemove → s.Released t) :
    LocalStep s t th th' s' where
  toSameTable := .of_update hp htie hpcb hheap
  thread := hthread
  pid := hpid
  bm := hbm
  next := hnext
  status := hstatus
  released := by
    intro b hb
    rcases released_of_pcb hheap hthread hpc hb with hold | ⟨rfl, hv⟩
    · exact Or.inl hold
    · exact hrel hv

theorem released_of_value {a : Tid} {p : PCB} (hp : s.heap a = some p)
    (hv : p.exitsem.value ≠ 0) : s.Released a :=
  Or.inl ⟨p, hp, hv⟩

/-- A pass through the test of `P`, when the thread may go on to `pc`. -/
theorem Inv.semP (hinv : s.Inv) (ht : s.thread t = some th) (x : PcbSem) (pc : ProcPc)
    {a : Tid} {p : PCB} (hp : s.live? a = some p)
    (hx : x = .exitsem → a = t) (hpc : s.PcOk t { th with pc := pc })
    (hdone : th.pc.Done → pc.Done) (hexit : pc.Exiting → th.pc.Exiting)
    (hrem : pc = .exitRemove → x = .exitsem) :
    ∃ s', s.semP t th a x pc = some s' ∧ s'.Inv := by
  obtain ⟨hheap, -⟩ := live?_eq_some.mp hp
  have htie : ∀ sem, (p.setSem x sem).tie = p.tie := by intro sem; cases x <;> rfl
  have hsame : Function.update s.thread t (some th) = s.thread := by
    rw [← ht, Function.update_eq_self]
  by_cases hv : (p.sem x).value = 0
  · refine ⟨_, semP_sleep hp hv, hinv.localStep ht (.of_pcb th _ hheap (htie _) ?_ rfl rfl
      rfl rfl rfl hsame.symm rfl ?_) (fun _ => hinv.pc t th ht) (fun h => h) (fun h => Or.inl h)⟩
    · intro hv'
      refine Or.inl (released_of_value hheap ?_)
      cases x <;> exact hv'
    · exact fun h => Or.inr ⟨th, ht, h⟩
  · refine ⟨_, semP_take hp hv, hinv.localStep ht (.of_pcb { th with pc := pc } _ hheap
      (htie _) ?_ rfl rfl rfl rfl rfl rfl rfl ?_) (fun _ => hpc) hdone (fun h => Or.inl (hexit h))⟩
    · intro hv'
      refine Or.inl (released_of_value hheap ?_)
      cases x with
      | exitsem => exact hv
      | joinsem => exact hv'
      | multex => exact hv'
    · intro h
      obtain rfl := hrem h
      obtain rfl := hx rfl
      exact released_of_value hheap hv

/-! ### ExecUpdate -/

theorem Inv.execP (hinv : s.Inv) (ht : s.thread t = some th) {name : Option CStr}
    {getName : CStr} (hpc : th.pc = .execP name getName) : (s.execP t th name getName).Inv := by
  have hsame : Function.update s.thread t (some th) = s.thread := by
    rw [← ht, Function.update_eq_self]
  unfold Sys.execP
  split
  · refine hinv.localStep ht (.of_thread th rfl rfl rfl rfl rfl hsame.symm rfl (by simp [hpc]))
      (fun _ => hinv.pc t th ht) (fun h => h) (fun h => Or.inl h)
  · exact hinv.localStep ht (.of_thread { th with pc := .execBody name getName } rfl rfl rfl rfl
      rfl rfl rfl (by simp)) (fun _ => trivial) (by simp [hpc, ProcPc.Done])
      (by simp [ProcPc.Exiting])

theorem Inv.execBody (hinv : s.Inv) (ht : s.thread t = some th) {name : Option CStr}
    {getName : CStr} (hpc : th.pc = .execBody name getName) :
    ∃ s', s.execBody t th name getName = some s' ∧ s'.Inv := by
  -- the call is refused, and the table does not change
  have hfail : ∀ s' : Sys, s' = s.goto t th (.execBmV (-1)) → s'.Inv := by
    rintro s' rfl
    exact hinv.localStep ht (.of_thread { th with pc := .execBmV (-1) } rfl rfl rfl rfl rfl rfl rfl
      (by simp)) (fun _ => trivial) (by simp [hpc, ProcPc.Done]) (by simp [ProcPc.Exiting])
  unfold Sys.execBody
  cases name with
  | none => exact ⟨_, rfl, hfail _ rfl⟩
  | some name =>
    simp only
    split
    · exact ⟨_, rfl, hfail _ rfl⟩
    · cases hfree : s.bm.free with
      | nil =>
        rw [Bitmap.findAndSet_of_free_nil hfree]
        exact ⟨_, rfl, hfail _ rfl⟩
      | cons i rest =>
        obtain ⟨bm, hfind, hnum, hbits, -⟩ := Bitmap.findAndSet_of_free_cons hfree
        rw [hfind]
        refine ⟨s.created t th bm i name, ?_, hinv.created ht hpc (by rw [hfree]; simp) hnum hbits⟩
        simp [Sys.created, show ¬ ((i : Int) < 0) by omega]

theorem Inv.execFork (hinv : s.Inv) (ht : s.thread t = some th) {id : Int} {child : Tid}
    (hpc : th.pc = .execFork id child) : ∃ s', s.execFork t th id child = some s' ∧ s'.Inv := by
  have hok := hinv.pc t th ht
  simp only [PcOk, hpc] at hok
  obtain ⟨hid, ⟨hmine, hrel⟩, hnone⟩ := hok
  obtain ⟨p, hp⟩ := live_of_deref hid
  obtain ⟨hheap, -⟩ := live?_eq_some.mp hp
  have htc : child ≠ t := by
    rintro rfl
    rw [ht] at hnone
    cases hnone
  have hp' : th.processID = p.parentID := hmine.unique ⟨p, hheap, rfl⟩
  -- first the thread moves on, then the child gets its thread
  let s₁ : Sys := (s.setPCB child { p with thread := some child, parentID := th.processID }).goto t
    th (.execMultexV id child)
  have hlocal : LocalStep s t th { th with pc := .execMultexV id child } s₁ :=
    .of_pcb _ { p with thread := some child, parentID := th.processID } hheap
      (by rw [hp']; rfl) (fun hv => Or.inl (released_of_value hheap hv)) rfl rfl rfl
      rfl rfl rfl rfl (by simp)
  have hinv₁ : s₁.Inv := hinv.localStep ht hlocal (fun _ => ⟨hid, hmine, hrel⟩)
    (by simp [hpc, ProcPc.Done]) (by simp [ProcPc.Exiting])
  refine ⟨s₁.spawned id child, ?_, hinv₁.spawned ((hlocal.deref id).trans hid) ?_ ?_⟩
  · simp only [Sys.execFork, hp, Option.bind_eq_bind, Option.bind_some, Sys.goto, Sys.setPCB,
      Sys.spawned, s₁, Option.pure_def]
    rw [Function.update_comm htc]
  · rw [hlocal.thread_of_ne htc]
    exact hnone
  · intro u tu hu id' hpcu
    by_cases hut : u = t
    · subst hut
      rw [hlocal.thread_self] at hu
      rw [← Option.some.inj hu] at hpcu
      cases hpcu
    · rw [hlocal.thread_of_ne hut] at hu
      have hoku := hinv.pc u tu hu
      simp only [PcOk, hpcu] at hoku
      exact hut (hinv.slots.thread_unique hu ht (hoku.2.1.1.unique hmine))

theorem Inv.execMultexV (hinv : s.Inv) (ht : s.thread t = some th) {id : Int} {child : Tid}
    (hpc : th.pc = .execMultexV id child) :
    ∃ s', s.execMultexV t th id child = some s' ∧ s'.Inv := by
  have hok := hinv.pc t th ht
  simp only [PcOk, hpc] at hok
  obtain ⟨p, hp⟩ := live_of_deref hok.1
  obtain ⟨hheap, -⟩ := live?_eq_some.mp hp
  refine ⟨(s.setPCB child (p.setSem .multex p.multex.v)).goto t th (.execBmV id), ?_, ?_⟩
  · simp [Sys.execMultexV, semV_eq hp, PCB.sem]
  · exact hinv.localStep ht (.of_pcb { th with pc := .execBmV id }
      (p.setSem .multex p.multex.v) hheap rfl
      (fun hv => Or.inl (released_of_value hheap hv)) rfl rfl rfl rfl rfl rfl rfl (by simp))
      (fun _ => trivial) (by simp [hpc, ProcPc.Done]) (by simp [ProcPc.Exiting])

theorem Inv.execBmV (hinv : s.Inv) (ht : s.thread t = some th) {result : Int}
    (hpc : th.pc = .execBmV result) : (s.execBmV t th result).Inv :=
  hinv.localStep ht (.of_thread { th with pc := .user, result := result } rfl rfl rfl rfl rfl rfl
    rfl (by simp)) (fun _ => trivial) (by simp [hpc, ProcPc.Done]) (by simp [ProcPc.Exiting])

/-! ### JoinUpdate -/

/-- A call that returns without having touched a PCB. -/
theorem Inv.ret (hinv : s.Inv) (ht : s.thread t = some th) (hdone : ¬ th.pc.Done) (r : Int) :
    (s.ret t th r).Inv :=
  hinv.localStep ht (.of_thread { th with pc := .user, result := r } rfl rfl rfl rfl rfl rfl
    rfl (by simp)) (fun _ => trivial) (fun h => absurd h hdone) (by simp [ProcPc.Exiting])

/-- What `JoinUpdate` does before its first `P`, from a state in which the slot `id` is alive. -/
theorem joinUpdate_cases {id : Int} {a : Tid} {p : PCB} (h0 : 0 ≤ id)
    (hid : s.deref id = some a) (hp : s.live? a = some p) :
    (th.processID ≠ p.parentID → s.joinUpdate t th id = some (s.ret t th (-1))) ∧
    (∀ self, th.processID = p.parentID → s.deref th.processID = some self →
      s.joinUpdate t th id = some (s.goto t th (.joinIncP id self))) := by
  have hneg : ¬ id < 0 := by omega
  constructor
  · intro hne
    simp [joinUpdate, hneg, hid, hp, hne]
  · intro self heq hself
    rw [heq] at hself
    simp [joinUpdate, hneg, hid, hp, heq, hself]

theorem Inv.joinUpdate (hinv : s.Inv) (ht : s.thread t = some th) (hpc : th.pc = .user) {id : Int}
    (hresp : s.Respects (.call t (.join id))) :
    ∃ s', s.joinUpdate t th id = some s' ∧ s'.Inv := by
  have hnd : ¬ th.pc.Done := by simp [hpc, ProcPc.Done]
  rcases hresp with hneg | ⟨hbit, hrel⟩
  · exact ⟨s.ret t th (-1), by simp [Sys.joinUpdate, hneg], hinv.ret ht hnd _⟩
  · obtain ⟨a, ha⟩ := hinv.deref_of_test hbit
    obtain ⟨p, hp⟩ := live_of_deref ha
    obtain ⟨hheap, -⟩ := live?_eq_some.mp hp
    obtain ⟨hno, hyes⟩ := joinUpdate_cases (t := t) (Bitmap.test_eq_some hbit).1 ha hp
    by_cases heq : th.processID = p.parentID
    · have hmine : s.IsParent a th.processID := ⟨p, hheap, heq.symm⟩
      refine ⟨_, hyes t heq (hinv.thread t th ht), hinv.localStep ht (.of_thread
        { th with pc := .joinIncP id t } rfl rfl rfl rfl rfl rfl rfl (by simp)) ?_
        (fun h => absurd h hnd) (by simp [ProcPc.Exiting])⟩
      exact fun _ => ⟨⟨a, ha, hmine, hrel th a ht ha hmine⟩, rfl⟩
    · exact ⟨_, hno heq, hinv.ret ht hnd _⟩

theorem Inv.joinIncV (hinv : s.Inv) (ht : s.thread t = some th) {id : Int} {self : Tid}
    (hpc : th.pc = .joinIncV id self) : ∃ s', s.joinIncV t th id self = some s' ∧ s'.Inv := by
  have hok := hinv.pc t th ht
  simp only [PcOk, hpc] at hok
  obtain ⟨hjoin, rfl⟩ := hok
  obtain ⟨p, hp⟩ := live_of_deref (hinv.thread self th ht)
  obtain ⟨hheap, -⟩ := live?_eq_some.mp hp
  refine ⟨(s.setPCB self p.incNumWait).goto self th (.joinWait id), by simp [Sys.joinIncV, hp],
    hinv.localStep ht (.of_pcb { th with pc := .joinWait id } p.incNumWait hheap rfl
      (fun hv => Or.inl (released_of_value hheap hv)) rfl rfl rfl rfl rfl rfl rfl (by simp))
      (fun _ => hjoin) (by simp [hpc, ProcPc.Done]) (by simp [ProcPc.Exiting])⟩

theorem Inv.joinWait (hinv : s.Inv) (ht : s.thread t = some th) {id : Int}
    (hpc : th.pc = .joinWait id) : ∃ s', s.joinWait t th id = some s' ∧ s'.Inv := by
  have hok := hinv.pc t th ht
  simp only [PcOk, hpc] at hok
  obtain ⟨a, ha, hmine⟩ := hok
  refine ⟨s.goto t th (.joinP id a), by simp [Sys.joinWait, ha], hinv.localStep ht
    (.of_thread { th with pc := .joinP id a } rfl rfl rfl rfl rfl rfl rfl (by simp))
    (fun _ => ⟨ha, hmine⟩) (by simp [hpc, ProcPc.Done]) (by simp [ProcPc.Exiting])⟩

theorem Inv.joinGet (hinv : s.Inv) (ht : s.thread t = some th) {id : Int}
    (hpc : th.pc = .joinGet id) : ∃ s', s.joinGet t th id = some s' ∧ s'.Inv := by
  have hok := hinv.pc t th ht
  simp only [PcOk, hpc] at hok
  obtain ⟨a, ha, hmine⟩ := hok
  obtain ⟨p, hp⟩ := live_of_deref ha
  refine ⟨s.goto t th (.joinRelease id p.exitcode), by simp [Sys.joinGet, ha, hp],
    hinv.localStep ht (.of_thread { th with pc := .joinRelease id p.exitcode } rfl rfl rfl rfl rfl
    rfl rfl (by simp)) (fun _ => ⟨a, ha, hmine⟩) (by simp [hpc, ProcPc.Done])
    (by simp [ProcPc.Exiting])⟩

/-- `ExitRelease` is the last that the parent does with the PCB. -/
theorem Inv.joinRelease (hinv : s.Inv) (ht : s.thread t = some th) {id ec : Int}
    (hpc : th.pc = .joinRelease id ec) : ∃ s', s.joinRelease t th id ec = some s' ∧ s'.Inv := by
  have hok := hinv.pc t th ht
  simp only [PcOk, hpc] at hok
  obtain ⟨a, ha, hmine⟩ := hok
  obtain ⟨p, hp⟩ := live_of_deref ha
  obtain ⟨hheap, -⟩ := live?_eq_some.mp hp
  refine ⟨(s.setPCB a (p.setSem .exitsem p.exitsem.v)).ret t th ec,
    by simp [Sys.joinRelease, ha, semV_eq hp, PCB.sem], hinv.localStep ht
    (.of_pcb { th with pc := .user, result := ec } (p.setSem .exitsem p.exitsem.v) hheap rfl
      (fun _ => Or.inr ⟨rfl, hmine.1⟩) rfl rfl rfl rfl rfl rfl rfl (by simp))
    (fun _ => trivial) (by simp [hpc, ProcPc.Done]) (by simp [ProcPc.Exiting])⟩

/-! ### ExitUpdate -/

theorem Inv.exitUpdate (hinv : s.Inv) (ht : s.thread t = some th) (hpc : th.pc = .user)
    {exitcode : Int} (hresp : s.Respects (.call t (.exit exitcode))) :
    ∃ s', s.exitUpdate t th exitcode = some s' ∧ s'.Inv := by
  unfold Sys.exitUpdate
  by_cases h0 : th.processID = 0
  · refine ⟨_, by rw [if_pos h0], ?_⟩
    exact { hinv with status := by simp }
  · have hslot := hinv.thread t th ht
    obtain ⟨p, hp⟩ := live_of_deref hslot
    obtain ⟨hheap, -⟩ := live?_eq_some.mp hp
    refine ⟨(s.setPCB t { p with exitcode := exitcode }).goto t th .exitDec, ?_, hinv.localStep ht
      (.of_pcb { th with pc := .exitDec } { p with exitcode := exitcode } hheap rfl
        (fun hv => Or.inl (released_of_value hheap hv)) rfl rfl rfl rfl rfl rfl rfl (by simp))
      (fun _ => h0) (by simp [hpc, ProcPc.Done]) (fun _ => Or.inr (hresp th ht h0))⟩
    simp [h0, hinv.slots.test_of_deref hslot, hslot, hp]

/-- The parent of a process before `DecNumWait` is in the table. -/
theorem Inv.parent_deref (hinv : s.Inv) (ht : s.thread t = some th) (h0 : th.processID ≠ 0)
    (hnd : ¬ th.pc.Done) : ∃ q b, s.IsParent t q ∧ s.deref q = some b := by
  have hd : ¬ s.Done t := by
    rintro ⟨th', ht', hd⟩
    rw [ht] at ht'
    rw [← Option.some.inj ht'] at hd
    exact hnd hd
  obtain ⟨q, b, tb, hq, hb, -⟩ := hinv.parent _ t (hinv.thread t th ht) h0 hd
  exact ⟨q, b, hq, hb⟩

theorem Inv.exitDec (hinv : s.Inv) (ht : s.thread t = some th) (hpc : th.pc = .exitDec) :
    ∃ s', s.exitDec t th = some s' ∧ s'.Inv := by
  have h0 := hinv.pc t th ht
  simp only [PcOk, hpc] at h0
  have hslot := hinv.thread t th ht
  obtain ⟨p, hp⟩ := live_of_deref hslot
  obtain ⟨hheap, -⟩ := live?_eq_some.mp hp
  obtain ⟨q, b, hq, hb⟩ := hinv.parent_deref ht h0 (by simp [hpc, ProcPc.Done])
  have hpq : p.parentID = q := IsParent.unique ⟨p, hheap, rfl⟩ hq
  refine ⟨s.goto t th (.exitDecP b), by simp [Sys.exitDec, hslot, hp, hpq, hb], hinv.localStep ht
    (.of_thread { th with pc := .exitDecP b } rfl rfl rfl rfl rfl rfl rfl (by simp))
    (fun _ => ⟨h0, q, hq, hb⟩) (by simp [hpc, ProcPc.Done])
    (fun _ => Or.inl (by simp [hpc, ProcPc.Exiting]))⟩

theorem Inv.exitDecV (hinv : s.Inv) (ht : s.thread t = some th) {parent : Tid}
    (hpc : th.pc = .exitDecV parent) : ∃ s', s.exitDecV t th parent = some s' ∧ s'.Inv := by
  have hok := hinv.pc t th ht
  simp only [PcOk, hpc] at hok
  obtain ⟨h0, q, hq, hb⟩ := hok
  obtain ⟨p, hp⟩ := live_of_deref hb
  obtain ⟨hheap, -⟩ := live?_eq_some.mp hp
  exact ⟨(s.setPCB parent p.decNumWait).goto t th .exitRelease, by simp [Sys.exitDecV, hp],
    hinv.localStep ht (.of_pcb { th with pc := .exitRelease } p.decNumWait hheap rfl
      (fun hv => Or.inl (released_of_value hheap hv)) rfl rfl rfl rfl rfl rfl rfl (by simp))
      (fun _ => h0) (by simp [hpc, ProcPc.Done]) (fun _ => Or.inl (by simp [hpc, ProcPc.Exiting]))⟩

theorem Inv.exitRelease (hinv : s.Inv) (ht : s.thread t = some th) (hpc : th.pc = .exitRelease) :
    ∃ s', s.exitRelease t th = some s' ∧ s'.Inv := by
  have h0 := hinv.pc t th ht
  simp only [PcOk, hpc] at h0
  have hslot := hinv.thread t th ht
  obtain ⟨p, hp⟩ := live_of_deref hslot
  obtain ⟨hheap, -⟩ := live?_eq_some.mp hp
  exact ⟨(s.setPCB t (p.setSem .joinsem p.joinsem.v)).goto t th .exitWait,
    by simp [Sys.exitRelease, hslot, semV_eq hp, PCB.sem],
    hinv.localStep ht (.of_pcb { th with pc := .exitWait } (p.setSem .joinsem p.joinsem.v) hheap
      rfl (fun hv => Or.inl (released_of_value hheap hv)) rfl rfl rfl rfl rfl rfl rfl (by simp))
      (fun _ => h0) (by simp [ProcPc.Done]) (fun _ => Or.inl (by simp [hpc, ProcPc.Exiting]))⟩

theorem Inv.exitWait (hinv : s.Inv) (ht : s.thread t = some th) (hpc : th.pc = .exitWait) :
    ∃ s', s.exitWait t th = some s' ∧ s'.Inv := by
  have h0 := hinv.pc t th ht
  simp only [PcOk, hpc] at h0
  have hslot := hinv.thread t th ht
  exact ⟨s.goto t th (.exitP t), by simp [Sys.exitWait, hslot],
    hinv.localStep ht (.of_thread { th with pc := .exitP t } rfl rfl rfl rfl rfl rfl rfl (by simp))
      (fun _ => ⟨h0, rfl⟩) (by simp [ProcPc.Done])
      (fun _ => Or.inl (by simp [hpc, ProcPc.Exiting]))⟩

theorem Inv.remove (hinv : s.Inv) (ht : s.thread t = some th) (hpc : th.pc = .exitRemove) :
    ∃ s', s.remove t th = some s' ∧ s'.Inv := by
  have hslot := hinv.thread t th ht
  obtain ⟨p, hp⟩ := live_of_deref hslot
  obtain ⟨hheap, -⟩ := live?_eq_some.mp hp
  obtain ⟨h0, h1, hpcb, -⟩ := deref_eq_some.mp hslot
  obtain ⟨k, hk⟩ : ∃ k : Nat, th.processID = k := ⟨_, (Int.toNat_of_nonneg h0).symm⟩
  obtain ⟨bm, hclear, hnum, hbits⟩ := Bitmap.clear_bits (b := s.bm) (i := k)
    (by rw [hinv.numBits]; omega)
  refine ⟨s.removed t bm p, ?_, hinv.removed ht hpc hk hnum hbits hheap⟩
  rw [hk, Int.toNat_natCast] at hpcb
  simp [Sys.remove, hk, hclear, hpcb, hp, Sys.removed, Sys.finish, Sys.setPCB]

/-! ## All steps -/

theorem Inv.doCall (hinv : s.Inv) (ht : s.thread t = some th) (hpc : th.pc = .user) {c : SysCall}
    (hresp : s.Respects (.call t c)) : ∃ s', s.doCall t th c = some s' ∧ s'.Inv := by
  cases c with
  | exec name getName =>
    exact ⟨_, rfl, hinv.localStep ht (.of_thread { th with pc := .execP name getName } rfl rfl rfl
      rfl rfl rfl rfl (by simp)) (fun _ => trivial) (by simp [hpc, ProcPc.Done])
      (by simp [ProcPc.Exiting])⟩
  | join id => exact hinv.joinUpdate ht hpc hresp
  | exit exitcode => exact hinv.exitUpdate ht hpc hresp

theorem Inv.doRun (hinv : s.Inv) (ht : s.thread t = some th) :
    ∃ s', s.doRun t th = some s' ∧ s'.Inv := by
  have hok := hinv.pc t th ht
  cases hpc : th.pc with
  | user => exact ⟨s, by simp [Sys.doRun, hpc], hinv⟩
  | execP name getName => exact ⟨_, by simp [Sys.doRun, hpc], hinv.execP ht hpc⟩
  | execBody name getName => simpa [Sys.doRun, hpc] using hinv.execBody ht hpc
  | execFork id child => simpa [Sys.doRun, hpc] using hinv.execFork ht hpc
  | execMultexV id child => simpa [Sys.doRun, hpc] using hinv.execMultexV ht hpc
  | execBmV result => exact ⟨_, by simp [Sys.doRun, hpc], hinv.execBmV ht hpc⟩
  | joinIncP id self =>
    simp only [PcOk, hpc] at hok
    obtain ⟨hjoin, rfl⟩ := hok
    obtain ⟨p, hp⟩ := live_of_deref (hinv.thread self th ht)
    simpa [Sys.doRun, hpc] using hinv.semP ht .multex (.joinIncV id self) hp
      (by simp) ⟨hjoin, rfl⟩ (by simp [hpc, ProcPc.Done]) (by simp [ProcPc.Exiting]) (by simp)
  | joinIncV id self => simpa [Sys.doRun, hpc] using hinv.joinIncV ht hpc
  | joinWait id => simpa [Sys.doRun, hpc] using hinv.joinWait ht hpc
  | joinP id child =>
    simp only [PcOk, hpc] at hok
    obtain ⟨p, hp⟩ := live_of_deref hok.1
    simpa [Sys.doRun, hpc] using hinv.semP ht .joinsem (.joinGet id) hp
      (by simp) ⟨child, hok⟩ (by simp [hpc, ProcPc.Done]) (by simp [ProcPc.Exiting]) (by simp)
  | joinGet id => simpa [Sys.doRun, hpc] using hinv.joinGet ht hpc
  | joinRelease id ec => simpa [Sys.doRun, hpc] using hinv.joinRelease ht hpc
  | exitDec => simpa [Sys.doRun, hpc] using hinv.exitDec ht hpc
  | exitDecP parent =>
    simp only [PcOk, hpc] at hok
    obtain ⟨h0, q, hq, hb⟩ := hok
    obtain ⟨p, hp⟩ := live_of_deref hb
    simpa [Sys.doRun, hpc] using hinv.semP ht .multex (.exitDecV parent) hp
      (by simp) ⟨h0, q, hq, hb⟩ (by simp [hpc, ProcPc.Done]) (by simp [hpc, ProcPc.Exiting])
      (by simp)
  | exitDecV parent => simpa [Sys.doRun, hpc] using hinv.exitDecV ht hpc
  | exitRelease => simpa [Sys.doRun, hpc] using hinv.exitRelease ht hpc
  | exitWait => simpa [Sys.doRun, hpc] using hinv.exitWait ht hpc
  | exitP self =>
    simp only [PcOk, hpc] at hok
    obtain ⟨h0, rfl⟩ := hok
    obtain ⟨p, hp⟩ := live_of_deref (hinv.thread self th ht)
    simpa [Sys.doRun, hpc] using hinv.semP ht .exitsem .exitRemove hp
      (by simp) h0 (by simp [ProcPc.Done]) (by simp [hpc, ProcPc.Exiting]) (by simp)
  | exitRemove => simpa [Sys.doRun, hpc] using hinv.remove ht hpc

/-- A step that respects the condition keeps the invariant. -/
theorem Inv.step (hinv : s.Inv) {e : SysEvent} (hresp : s.Respects e) (h : s.step e = some s') :
    s'.Inv := by
  cases e with
  | call t c =>
    obtain ⟨th, ht, -, hpc, rfl⟩ := step_call_some h
    obtain ⟨s', hs', hinv'⟩ := hinv.doCall ht hpc hresp
    rw [hs']
    exact hinv'
  | run t =>
    obtain ⟨th, ht, -, -, -, rfl⟩ := step_run_some h
    obtain ⟨s', hs', hinv'⟩ := hinv.doRun ht
    rw [hs']
    exact hinv'

theorem mem_parentAt {k q : Int} : q ∈ s.parentAt k ↔ ∃ a, s.deref k = some a ∧ s.IsParent a q := by
  unfold parentAt
  cases hk : s.deref k with
  | none => simp
  | some a =>
    obtain ⟨p, hp⟩ := live_of_deref hk
    obtain ⟨hheap, -⟩ := live?_eq_some.mp hp
    simp only [Option.bind_some, hp, Option.map_some, Option.toList_some, List.mem_singleton,
      Option.some.injEq, exists_eq_left']
    constructor
    · rintro rfl
      exact ⟨p, hheap, rfl⟩
    · intro hq
      exact hq.unique ⟨p, hheap, rfl⟩

/-- The slots that a thread goes through where it is are allocated. -/
theorem Inv.touched_allocated (hinv : s.Inv) (ht : s.thread t = some th) :
    ∀ k ∈ s.touched th, s.Allocated k := by
  have hok := hinv.pc t th ht
  have hself := hinv.allocated (hinv.thread t th ht)
  have hup : th.processID ≠ 0 → ¬ th.pc.Done → ∀ k ∈ s.parentAt th.processID, s.Allocated k := by
    intro h0 hnd k hk
    obtain ⟨a, ha, hak⟩ := mem_parentAt.mp hk
    rw [hinv.thread t th ht] at ha
    obtain rfl := Option.some.inj ha
    obtain ⟨q, b, hq, hb⟩ := hinv.parent_deref ht h0 hnd
    rw [hak.unique hq]
    exact hinv.allocated hb
  unfold touched
  cases hpc : th.pc with
  | user | execP name getName | execBody name getName | execFork id child | execMultexV id child
    | execBmV result => simp
  | joinIncP id self | joinIncV id self | exitRelease | exitWait | exitP self | exitRemove =>
    simpa using hself
  | joinWait id | joinGet id | joinRelease id ec =>
    simp only [PcOk, hpc] at hok
    obtain ⟨a, ha, -⟩ := hok
    simpa using hinv.allocated ha
  | joinP id child =>
    simp only [PcOk, hpc] at hok
    simpa using hinv.allocated hok.1
  | exitDec =>
    simp only [PcOk, hpc] at hok
    simpa using ⟨hself, hup hok (by simp [hpc, ProcPc.Done])⟩
  | exitDecP b | exitDecV b =>
    simp only [PcOk, hpc] at hok
    exact hup hok.1 (by simp [hpc, ProcPc.Done])

/-- The slots that a step goes through are allocated. -/
theorem Inv.touches_allocated (hinv : s.Inv) {e : SysEvent} (hresp : s.Respects e) :
    ∀ k ∈ s.touches e, s.Allocated k := by
  cases e with
  | run t =>
    simp only [touches]
    cases ht : s.thread t with
    | none => simp
    | some th => simpa using hinv.touched_allocated ht
  | call t c =>
    cases c with
    | exec name getName => simp [touches]
    | join id =>
      intro k hk
      simp only [touches] at hk
      split at hk
      · simp at hk
      · next hneg =>
        rcases hresp with hlt | ⟨hbit, -⟩
        · exact absurd hlt hneg
        obtain ⟨a, ha⟩ := hinv.deref_of_test hbit
        rcases List.mem_cons.mp hk with rfl | hk
        · exact hinv.allocated ha
        · -- the parent is the caller itself
          have hk' := (List.mem_filter.mp hk).2
          cases ht : s.thread t with
          | none => simp [ht] at hk'
          | some th =>
            have hid : th.processID = k := by simpa [ht] using hk'
            rw [← hid]
            exact hinv.allocated (hinv.thread t th ht)
    | exit exitcode =>
      intro k hk
      simp only [touches] at hk
      cases ht : s.thread t with
      | none => simp [ht] at hk
      | some th =>
        rw [ht, Option.map_some, Option.mem_toList, Option.filter_eq_some_iff] at hk
        rw [← Option.some.inj hk.1]
        exact hinv.allocated (hinv.thread t th ht)

/-! ## Whole runs -/

/-- A table with one entry. -/
theorem update_none_eq_some {α : Type*} {x y : α} {k : Nat} :
    Function.update (fun _ => none) 0 (some x) k = some y ↔ k = 0 ∧ x = y := by
  by_cases hk : k = 0 <;> simp [hk]

theorem new_bits {s : Sys} (h : Sys.new = some s) :
    s.bm.numBits = maxProcess ∧ s.bm.bits = {0} := by
  obtain ⟨bm, hmark, hnum, hbit⟩ := Bitmap.mark_natCast
    (b := Bitmap.zero maxProcess (by decide)) (i := 0) (show 0 < maxProcess by decide)
  rw [Nat.cast_zero] at hmark
  have hs : bm = s.bm := by
    simp only [Sys.new, Bitmap.new_eq, Option.bind_eq_bind, Option.bind_some, hmark,
      Option.pure_def, Option.some.injEq] at h
    rw [← h]
  rw [← hs]
  refine ⟨hnum, ?_⟩
  ext k
  rw [Bitmap.mem_bits, hnum, hbit, Bitmap.bit_zero, Finset.mem_singleton]
  by_cases hk : k = 0
  · simp [hk, Bitmap.zero, maxProcess]
  · simp [hk]

/-- The table that the kernel starts with meets the invariant: the main process is all there is. -/
theorem inv_new {s : Sys} (h : Sys.new = some s) : s.Inv := by
  obtain ⟨hnum, hbits⟩ := new_bits h
  obtain ⟨P, th₀, hpcb, hheap, halive, hthread, hid, huser, hnext, hstatus⟩ : ∃ P th₀,
      s.pcb = Function.update (fun _ => none) 0 (some 0) ∧
      s.heap = Function.update (fun _ => none) 0 (some P) ∧ P.alive = true ∧
      s.thread = Function.update (fun _ => none) 0 (some th₀) ∧ th₀.processID = 0 ∧
      th₀.pc = .user ∧ s.next = 1 ∧ s.status = .running := by
    obtain rfl := Option.some.inj h
    exact ⟨_, _, rfl, rfl, rfl, rfl, rfl, rfl, rfl, rfl⟩
  have hderef : ∀ {k : Int} {a : Tid}, s.deref k = some a ↔ k = 0 ∧ a = 0 := by
    intro k a
    rw [deref_eq_some, hpcb, update_none_eq_some]
    constructor
    · rintro ⟨h0, -, ⟨hk, ha⟩, -⟩
      exact ⟨by omega, ha.symm⟩
    · rintro ⟨rfl, rfl⟩
      exact ⟨le_rfl, by decide, ⟨rfl, rfl⟩, P, by rw [hheap]; simp, halive⟩
  exact {
    status := by rw [hstatus]; simp
    numBits := hnum
    bits := by
      intro k
      rw [hbits, Finset.mem_singleton]
      simp [hderef]
    inj := fun k l a hk hl => by rw [(hderef.mp hk).1, (hderef.mp hl).1]
    pcb_lt := by
      intro k a hk
      rw [hpcb, update_none_eq_some] at hk
      rw [hnext, ← hk.2]
      exact Nat.one_pos
    heap_lt := by
      intro a p hp
      rw [hheap, update_none_eq_some] at hp
      rw [hnext, hp.1]
      exact Nat.one_pos
    thread := by
      intro t th ht
      rw [hthread, update_none_eq_some] at ht
      rw [← ht.2, hid]
      exact hderef.mpr ⟨rfl, ht.1⟩
    parent := fun k a hk hk0 _ => absurd (hderef.mp hk).1 hk0
    pc := by
      intro t th ht
      rw [hthread, update_none_eq_some] at ht
      rw [← ht.2]
      simp [PcOk, huser] }

/--
`Join` on a negative number, or on an allocated slot that is not a child of the caller, answers -1
and changes no PCB.
-/
def RefusesJoin (s : Sys) : SysEvent → Prop
  | .call t (.join id) => ∀ th, s.thread t = some th →
      (id < 0 ∨ ∀ a, s.deref id = some a → ¬ s.IsParent a th.processID) →
      ∃ s', s.step (.call t (.join id)) = some s' ∧ s'.heap = s.heap ∧
        s'.thread t = some { th with result := -1 }
  | _ => True

theorem Inv.refusesJoin (hinv : s.Inv) {e : SysEvent} (hresp : s.Respects e)
    (h : s.step e = some s') : s.RefusesJoin e := by
  cases e with
  | run t => trivial
  | call t c =>
    cases c with
    | exec name getName => trivial
    | exit exitcode => trivial
    | join id =>
      intro th ht hbad
      obtain ⟨th', ht', hrun, hpc, -⟩ := step_call_some h
      rw [ht] at ht'
      obtain rfl := Option.some.inj ht'
      have hjoin : s.joinUpdate t th id = some (s.ret t th (-1)) := by
        by_cases hneg : id < 0
        · simp [Sys.joinUpdate, hneg]
        · obtain ⟨hbit, -⟩ := hresp.resolve_left hneg
          obtain ⟨a, ha⟩ := hinv.deref_of_test hbit
          obtain ⟨p, hp⟩ := live_of_deref ha
          obtain ⟨hheap, -⟩ := live?_eq_some.mp hp
          refine (joinUpdate_cases (by omega) ha hp).1 ?_
          intro heq
          exact hbad.resolve_left hneg a ha ⟨p, hheap, heq.symm⟩
      refine ⟨s.ret t th (-1), ?_, rfl, ?_⟩
      · rw [step_call_eq ht hrun hpc, Sys.doCall, hjoin]
        rfl
      · rw [ret_thread, Function.update_self, ← hpc]

/--
Process-table safety of every run whose calls respect the condition.

The kernel never goes through a bad pointer, every slot that `JoinUpdate` and `ExitUpdate` go
through is allocated, and a `Join` that names no child of the caller answers -1.
-/
theorem run_accesses_allocated {s₀ s : Sys} {es : List SysEvent} (hnew : Sys.new = some s₀)
    (hresp : AllSteps Sys.step Respects s₀ es) (hrun : run Sys.step s₀ es = some s) :
    s.status ≠ .crashed ∧
      AllSteps Sys.step
        (fun s e => (∀ k ∈ s.touches e, s.Allocated k) ∧ s.RefusesJoin e) s₀ es := by
  have hstep : ∀ (s : Sys) e s', s.Inv → s.Respects e → s.step e = some s' →
      s'.Inv ∧ ((∀ k ∈ s.touches e, s.Allocated k) ∧ s.RefusesJoin e) :=
    fun s e s' hinv hr hs =>
      ⟨hinv.step hr hs, hinv.touches_allocated hr, hinv.refusesJoin hr hs⟩
  obtain ⟨hinv, hall⟩ := run_guarded hstep (inv_new hnew) hresp hrun
  exact ⟨hinv.status, hall⟩

/-- Steps that respect the condition in every state. -/
theorem respects_of_forall {s : Sys} {es : List SysEvent} (h : ∀ e ∈ es, ∀ s, Respects s e) :
    AllSteps Sys.step Respects s es := by
  induction es generalizing s with
  | nil => trivial
  | cons e es ih =>
    exact ⟨h e List.mem_cons_self s, fun _ _ => ih fun e he => h e (List.mem_cons_of_mem _ he)⟩

/-- The main process executes a program and joins a negative number. -/
def executesFirst : List SysEvent := execAll 0 nameA nameMain ++ [.call 0 (.join (-1))]

/-- The program exits, the main process joins it, and the program comes to its end. -/
def joinsAndExits : List SysEvent :=
  executesFirst ++ (exitAll 1 ++ (joinAll 0 1 ++ [.run 0, .run 1, .run 1]))

theorem run_accesses_allocated_joined :
    ∃ s₀ s, Sys.new = some s₀ ∧ AllSteps Sys.step Respects s₀ joinsAndExits ∧
      run Sys.step s₀ joinsAndExits = some s ∧ s.status ≠ .crashed ∧ s.thread 1 = none ∧
      (s.thread 0).map (·.result) = some 0 := by
  obtain ⟨s₀, s, hnew, hrun, hended, hresult⟩ : ∃ s₀ s, Sys.new = some s₀ ∧
      run Sys.step s₀ joinsAndExits = some s ∧ s.thread 1 = none ∧
      (s.thread 0).map (·.result) = some 0 := ⟨_, _, rfl, rfl, rfl, rfl⟩
  obtain ⟨s₁, hrun₁, hrest₁⟩ := run_append_eq_some.mp hrun
  obtain ⟨s₂, hrun₂, hrest₂⟩ := run_append_eq_some.mp hrest₁
  have hself : (s₁.thread 1).map (·.processID) = some 1 := by
    obtain rfl := Option.some.inj (hnew.symm.trans rfl)
    obtain rfl := Option.some.inj (hrun₁.symm.trans rfl)
    rfl
  have hnobody : ∀ a p, s₁.heap a = some p → p.parentID ≠ 1 := by
    obtain rfl := Option.some.inj (hnew.symm.trans rfl)
    obtain rfl := Option.some.inj (hrun₁.symm.trans rfl)
    rintro (_ | _ | a) p hp
    · obtain rfl := Option.some.inj hp
      decide
    · obtain rfl := Option.some.inj hp
      decide
    · cases hp
  have hchild : s₂.bm.test 1 = some true ∧ s₂.deref 1 = some 1 ∧
      (s₂.heap 1).map (·.exitsem.value) = some 0 ∧ (s₂.thread 1).map (·.pc) = some (.exitP 1) := by
    obtain rfl := Option.some.inj (hnew.symm.trans rfl)
    obtain rfl := Option.some.inj (hrun₁.symm.trans rfl)
    obtain rfl := Option.some.inj (hrun₂.symm.trans rfl)
    exact ⟨rfl, rfl, rfl, rfl⟩
  obtain ⟨hbit, hslot, hvalue, hpc⟩ := hchild
  have hresp : AllSteps Sys.step Respects s₀ joinsAndExits := by
    refine (allSteps_append hrun₁).mpr ⟨?_, (allSteps_append hrun₂).mpr ⟨?_, ?_⟩⟩
    · exact respects_of_forall (by simp [executesFirst, execAll, Respects])
    · -- nobody is a child of process 1
      refine ⟨?_, fun _ _ => respects_of_forall (by simp [Respects])⟩
      rintro th hth - k a - ⟨p, hp, hparent⟩
      rw [hth] at hself
      exact absurd (hparent.trans (Option.some.inj hself)) (hnobody a p hp)
    · -- the child sleeps in `exitsem->P()`
      refine ⟨Or.inr ⟨hbit, ?_⟩, fun _ _ => respects_of_forall (by simp [Respects])⟩
      rintro th a - ha - hreleased
      rw [hslot] at ha
      obtain rfl := Option.some.inj ha
      rcases hreleased with ⟨p, hp, hv⟩ | ⟨tc, htc, hex⟩
      · rw [hp] at hvalue
        exact hv (Option.some.inj hvalue)
      · rw [htc] at hpc
        have hpc' : tc.pc = .exitP 1 := Option.some.inj hpc
        rw [hpc'] at hex
        cases hex
  exact ⟨s₀, s, hnew, hresp, hrun, (run_accesses_allocated hnew hresp hrun).1, hended, hresult⟩

/-- `Join(10)`, called by the main process right after the start, reads behind the table. -/
theorem join_out_of_range_crashes :
    ∃ s₀ s, Sys.new = some s₀ ∧ run Sys.step s₀ [.call 0 (.join 10)] = some s ∧
      s.status = .crashed ∧ 10 ∈ s₀.touches (.call 0 (.join 10)) ∧ ¬ s₀.Allocated 10 := by
  refine ⟨_, _, rfl, rfl, rfl, by decide, ?_⟩
  rintro ⟨-, hlt, -⟩
  exact absurd hlt (by decide)

end Sys

end Nachos
