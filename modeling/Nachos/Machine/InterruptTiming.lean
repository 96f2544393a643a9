import Nachos.Machine.Interrupt
import Nachos.Lib.SortedNodes
import Mathlib.Data.List.Perm.Basic
import Mathlib.Algebra.Order.Ring.Int

/-!
# Interrupts come on time (`machine/interrupt.cc`)

While all interrupts are scheduled with an object to call back, the list `pending` is ordered by
the time they are due and, among equal times, by their `Schedule`. `CheckIfDue` takes them off the
front, so what it has called and what is still pending form one ordered sequence, along a whole
run: this is the invariant. A `CallBack` that schedules more interrupts only adds to the part that
is not due yet, because `fromNow` is positive; that is also why the loop ends.

* `Before` — the order in which interrupts occur
* `Timely` — the invariant, which also holds in the middle of the loop
* `run_interrupt_timing` — every interrupt once, in its order, and not before its time
-/

namespace Nachos

open Base

/-- `Schedule` with an object, and a time in the future. -/
def Request.Plain {κ η : Type*} : Request κ η → Prop
  | .object _ fromNow _ => 0 < fromNow
  | .handler _ _ _ _ => False

/-- The requests of an event. -/
def InterruptEvent.Plain {κ η : Type*} : InterruptEvent κ η → Prop
  | .schedule r => r.Plain
  | _ => True

/-- The devices only make requests with an object, and with a time in the future. -/
def Devices.Plain {κ η ω : Type*} (d : Devices κ η ω) : Prop :=
  ∀ object stats world, ∀ r ∈ (d.callBack object stats world).requests, r.Plain

/-- `p` occurs before `q`: it is due earlier, or at the same time and was scheduled earlier. -/
def PendingInterrupt.Before {κ η : Type*} (p q : PendingInterrupt κ η) : Prop :=
  p.when < q.when ∨ p.when = q.when ∧ p.address < q.address

namespace Interrupt

variable {κ η ω : Type*} [DecidableEq κ] [DecidableEq η]

/-- The interrupts that have occurred, in their order. -/
def fired (s : Interrupt κ η ω) : List (PendingInterrupt κ η) := s.log.map (·.interrupt)

/-- The pending interrupts that are due. -/
def due (s : Interrupt κ η ω) : Nat :=
  s.pending.items.countP fun p => decide (p.when ≤ s.stats.totalTicks)

/-! ## The invariant -/

/-- What holds at every time, also in the middle of `CheckIfDue`. -/
structure Timely (s : Interrupt κ η ω) : Prop where
  counted : s.pending.Counted
  crashed : s.crashed = false
  order : (s.fired ++ s.pending.items).Pairwise PendingInterrupt.Before
  perm : (s.fired ++ s.pending.items).Perm s.registered
  addresses : s.registered.map (·.address) = List.range s.nextAddress
  objects : ∀ p ∈ s.registered, p.callOnInterrupt ≠ none
  calls : ∀ f ∈ s.log, ∃ object, f.interrupt.callOnInterrupt = some object ∧
    f.call = .callBack object
  onTime : ∀ f ∈ s.log, f.interrupt.when ≤ f.time ∧ f.time ≤ s.stats.totalTicks
  clock : s.stats.totalTicks = s.stats.idleTicks + s.stats.systemTicks + s.stats.userTicks

omit [DecidableEq κ] [DecidableEq η] in
theorem timely_start (world : ω) : Timely (start world : Interrupt κ η ω) where
  counted := LinkedList.counted_empty
  crashed := rfl
  order := List.Pairwise.nil
  perm := List.Perm.refl _
  addresses := rfl
  objects := by simp [start]
  calls := by simp [start]
  onTime := by simp [start]
  clock := rfl

/-- Nothing that is due is left in the list. -/
def Settled (s : Interrupt κ η ω) : Prop :=
  ∀ p ∈ s.pending.items, s.stats.totalTicks < p.when

section Steps

variable {d : Devices κ η ω} {s s' : Interrupt κ η ω}

section

omit [DecidableEq κ] [DecidableEq η]

theorem Timely.address_lt (h : Timely s) {p : PendingInterrupt κ η} (hp : p ∈ s.registered) :
    p.address < s.nextAddress := by
  have hmem : p.address ∈ s.registered.map (·.address) := List.mem_map_of_mem hp
  rw [h.addresses] at hmem
  exact List.mem_range.mp hmem

theorem Timely.mem_registered (h : Timely s) {p : PendingInterrupt κ η}
    (hp : p ∈ s.pending.items) : p ∈ s.registered :=
  h.perm.mem_iff.mp (List.mem_append_right _ hp)

/-- What has occurred was due by now. -/
theorem Timely.fired_le (h : Timely s) {p : PendingInterrupt κ η} (hp : p ∈ s.fired) :
    p.when ≤ s.stats.totalTicks := by
  obtain ⟨f, hf, rfl⟩ := List.mem_map.mp hp
  exact (h.onTime f hf).1.trans (h.onTime f hf).2

theorem pendingCompare_neg {x y : PendingInterrupt κ η} :
    pendingCompare x y < 0 ↔ x.when < y.when := by
  unfold pendingCompare
  split
  · next hlt => exact iff_of_true (by decide) hlt
  · next hlt =>
    refine iff_of_false ?_ hlt
    split <;> decide

/-- `pending` is kept in the order that a sorted list is for. -/
theorem comparison_pendingCompare :
    NodeList.Comparison (pendingCompare : PendingInterrupt κ η → PendingInterrupt κ η → Int) := by
  have hneg : ∀ x y : PendingInterrupt κ η, pendingCompare x y ≤ 0 ↔ x.when ≤ y.when := by
    intro x y
    unfold pendingCompare
    split_ifs <;> omega
  constructor
  · intro x y z hxy hyz
    rw [hneg] at *
    exact hxy.trans hyz
  · intro x y
    rw [pendingCompare_neg, ← not_le, ← not_le, hneg]

end

/-! ### Schedule -/

/-- What a `Schedule` does, and what it leaves alone. -/
structure Added (s s' : Interrupt κ η ω) : Prop where
  timely : Timely s'
  stats : s'.stats = s.stats
  level : s'.level = s.level
  halted : s'.halted = s.halted
  inHandler : s'.inHandler = s.inHandler
  due : s'.due = s.due
  settled : s.Settled → s'.Settled

omit [DecidableEq κ] [DecidableEq η] in
theorem Added.trans {s'' : Interrupt κ η ω} (h : Added s s') (h' : Added s' s'') :
    Added s s'' where
  timely := h'.timely
  stats := h'.stats.trans h.stats
  level := h'.level.trans h.level
  halted := h'.halted.trans h.halted
  inHandler := h'.inHandler.trans h.inHandler
  due := h'.due.trans h.due
  settled := fun hs => h'.settled (h.settled hs)

omit [DecidableEq κ] [DecidableEq η] in
/-- A new interrupt gets behind everything that is due earlier, or at the same time. -/
theorem Timely.insert_order (h : Timely s) {q : PendingInterrupt κ η}
    (hwhen : s.stats.totalTicks < q.when) (haddress : q.address = s.nextAddress) :
    (s.fired ++ insertBefore (fun p => pendingCompare q p < 0) q s.pending.items).Pairwise
      PendingInterrupt.Before := by
  obtain ⟨hfired, hpending, hbetween⟩ := List.pairwise_append.mp h.order
  refine List.pairwise_append.mpr ⟨hfired, ?_, fun p hp y hy => ?_⟩
  · refine pairwise_insertBefore hpending ?_ ?_ ?_
    · -- what stands behind an interrupt that is due later is due later as well
      refine hpending.imp fun {y z} hyz hy => ?_
      rw [decide_eq_true_iff, pendingCompare_neg] at *
      rcases hyz with hlt | ⟨heq, -⟩
      · exact hy.trans hlt
      · exact heq ▸ hy
    · intro y _ hy
      rw [decide_eq_true_iff, pendingCompare_neg] at hy
      exact Or.inl hy
    · -- at the same time the address decides, and the new one is the highest
      intro y hmem hy
      rw [decide_eq_false_iff_not, pendingCompare_neg, not_lt] at hy
      rcases hy.lt_or_eq with hlt | heq
      · exact Or.inl hlt
      · exact Or.inr ⟨heq, haddress ▸ h.address_lt (h.mem_registered hmem)⟩
  · rcases List.mem_cons.mp ((insertBefore_perm _ _ _).mem_iff.mp hy) with rfl | hy
    · exact Or.inl ((h.fired_le hp).trans_lt hwhen)
    · exact hbetween p hp y hy

omit [DecidableEq κ] [DecidableEq η] in
theorem Timely.enqueue (h : Timely s) {q : PendingInterrupt κ η}
    (hwhen : s.stats.totalTicks < q.when) (haddress : q.address = s.nextAddress)
    (hobject : q.callOnInterrupt ≠ none) {l : LinkedList (PendingInterrupt κ η)}
    (hcounted : l.Counted)
    (hitems : l.items = insertBefore (fun p => pendingCompare q p < 0) q s.pending.items) :
    Added s (s.enqueue q l) := by
  have hperm : l.items.Perm (q :: s.pending.items) := by
    rw [hitems]
    exact insertBefore_perm ..
  refine ⟨⟨hcounted, h.crashed, ?_, ?_, ?_, ?_, h.calls, h.onTime, h.clock⟩, rfl, rfl, rfl,
    rfl, ?_, ?_⟩
  · show (s.fired ++ l.items).Pairwise _
    rw [hitems]
    exact h.insert_order hwhen haddress
  · calc (s.fired ++ l.items).Perm (s.fired ++ (q :: s.pending.items)) := hperm.append_left _
      List.Perm _ (q :: (s.fired ++ s.pending.items)) := List.perm_middle
      List.Perm _ (q :: s.registered) := h.perm.cons q
      List.Perm _ (s.registered ++ [q]) := (List.perm_append_singleton q _).symm
  · show (s.registered ++ [q]).map (·.address) = List.range (s.nextAddress + 1)
    rw [List.map_append, h.addresses, List.range_succ, List.map_singleton, haddress]
  · intro p hp
    rcases List.mem_append.mp hp with hp | hp
    · exact h.objects p hp
    · rw [List.mem_singleton.mp hp]
      exact hobject
  · show l.items.countP _ = s.pending.items.countP _
    rw [hperm.countP_eq, List.countP_cons_of_neg]
    · rfl
    · rw [decide_eq_true_iff, not_le]
      exact hwhen
  · intro hs p hp
    rcases List.mem_cons.mp (hperm.mem_iff.mp hp) with rfl | hp
    · exact hwhen
    · exact hs p hp

theorem Timely.schedule (h : Timely s) {r : Request κ η} (hr : r.Plain) :
    ∃ s', s.schedule d r = some s' ∧ Added s s' := by
  cases r with
  | handler handler arg fromNow type => exact hr.elim
  | object toCall fromNow type =>
    have hpos : 0 < fromNow := hr
    let q : PendingInterrupt κ η :=
      { address := s.nextAddress
        callOnInterrupt := some toCall
        handler := none
        when := s.stats.totalTicks + fromNow
        type := type }
    have hwhen : s.stats.totalTicks < q.when := lt_add_of_pos_right _ hpos
    have hnew : q ∉ s.pending.items := fun hq =>
      absurd (h.address_lt (h.mem_registered hq)) (lt_irrefl _)
    obtain ⟨l, hl, hcounted, hitems⟩ := h.counted.insert pendingCompare hnew
    refine ⟨s.enqueue q l, ?_, h.enqueue hwhen rfl (Option.some_ne_none toCall) hcounted hitems⟩
    show s.scheduleObject toCall fromNow type = _
    unfold scheduleObject
    simp only
    rw [if_pos hpos]
    exact congrArg (Option.map _) hl

theorem Timely.requests (h : Timely s) {rs : List (Request κ η)} (hrs : ∀ r ∈ rs, r.Plain) :
    ∃ s', rs.foldlM (Interrupt.schedule d) s = some s' ∧ Added s s' := by
  induction rs generalizing s with
  | nil => exact ⟨s, rfl, h, rfl, rfl, rfl, rfl, rfl, id⟩
  | cons r rs ih =>
    obtain ⟨t, ht, hadded⟩ := h.schedule (d := d) (hrs r List.mem_cons_self)
    obtain ⟨s', hs', hadded'⟩ := ih hadded.timely fun r hr => hrs r (List.mem_cons_of_mem _ hr)
    refine ⟨s', ?_, hadded.trans hadded'⟩
    rw [List.foldlM_cons, ht]
    exact hs'

/-! ### The loop of CheckIfDue -/

omit [DecidableEq κ] [DecidableEq η] in
/-- The first interrupt of the list has been taken off, and its object is being called. -/
theorem Timely.called (h : Timely s) {p : PendingInterrupt κ η} {ps : List (PendingInterrupt κ η)}
    (hitems : s.pending.items = p :: ps) (hdue : p.when ≤ s.stats.totalTicks)
    {l : LinkedList (PendingInterrupt κ η)} (hcounted : l.Counted) (hl : l.items = ps) {object : κ}
    (hobject : p.callOnInterrupt = some object) (hd : Handling κ η ω) :
    Timely (s.called l p object hd) := by
  have hfired : (s.called l p object hd).fired = s.fired ++ [p] := by
    show (s.log ++ [_]).map _ = _
    rw [List.map_append]
    rfl
  -- the interrupt goes from the end of one list to the end of the other
  have hseq : (s.called l p object hd).fired ++ (s.called l p object hd).pending.items
      = s.fired ++ s.pending.items := by
    rw [hfired, hitems, show (s.called l p object hd).pending.items = ps from hl,
      List.append_assoc]
    rfl
  refine ⟨hcounted, h.crashed, ?_, ?_, h.addresses, h.objects, ?_, ?_, h.clock⟩
  · rw [hseq]
    exact h.order
  · rw [hseq]
    exact h.perm
  · intro f hf
    rcases List.mem_append.mp hf with hf | hf
    · exact h.calls f hf
    · rw [List.mem_singleton.mp hf]
      exact ⟨object, hobject, rfl⟩
  · intro f hf
    rcases List.mem_append.mp hf with hf | hf
    · exact h.onTime f hf
    · rw [List.mem_singleton.mp hf]
      exact ⟨hdue, le_rfl⟩

/-- One pass: there is one interrupt less that is due. -/
theorem Timely.fire (h : Timely s) (hd : d.Plain) {p : PendingInterrupt κ η}
    {ps : List (PendingInterrupt κ η)} (hitems : s.pending.items = p :: ps)
    (hdue : p.when ≤ s.stats.totalTicks) :
    ∃ s', s.fire d = some s' ∧ Timely s' ∧ s'.stats = s.stats ∧ s'.level = s.level ∧
      s'.halted = s.halted ∧ s'.due + 1 = s.due := by
  obtain ⟨l, hl, hcounted, hlitems⟩ := h.counted.removeFront hitems
  have hreg : p ∈ s.registered := h.mem_registered (by rw [hitems]; exact List.mem_cons_self)
  obtain ⟨object, hobject⟩ := Option.ne_none_iff_exists'.mp (h.objects p hreg)
  have hcalled := h.called hitems hdue hcounted hlitems hobject
    (d.callBack object s.stats s.world)
  obtain ⟨s', hs', hadded⟩ := hcalled.requests (d := d) (hd object s.stats s.world)
  refine ⟨s', ?_, hadded.timely, hadded.stats, hadded.level, hadded.halted, ?_⟩
  · unfold Interrupt.fire
    rw [hl]
    simp only [hobject]
    exact hs'
  · rw [hadded.due]
    show l.items.countP _ + 1 = s.pending.items.countP _
    rw [hlitems, hitems, List.countP_cons_of_pos]
    · rfl
    · rw [decide_eq_true_iff]
      exact hdue

omit [DecidableEq κ] [DecidableEq η] in
/-- The list is ordered: if the first interrupt is not due, none is. -/
theorem Timely.settled_of_head (h : Timely s) {p : PendingInterrupt κ η}
    {ps : List (PendingInterrupt κ η)} (hitems : s.pending.items = p :: ps)
    (hlater : s.stats.totalTicks < p.when) : s.Settled := by
  intro q hq
  have horder := (List.pairwise_append.mp h.order).2.1
  rw [hitems] at horder hq
  rcases List.mem_cons.mp hq with rfl | hq
  · exact hlater
  · rcases List.rel_of_pairwise_cons horder hq with hlt | ⟨heq, -⟩
    · exact hlater.trans hlt
    · exact heq ▸ hlater

/-- The loop ends after as many passes as interrupts are due, and leaves none of them. -/
theorem Timely.drain (hd : d.Plain) {n : Nat} (h : Timely s) {p : PendingInterrupt κ η}
    {ps : List (PendingInterrupt κ η)} (hitems : s.pending.items = p :: ps)
    (hdue : p.when ≤ s.stats.totalTicks) (hn : s.due ≤ n) :
    ∃ s', s.drain d n = some s' ∧ Timely s' ∧ s'.Settled ∧ s'.stats = s.stats ∧
      s'.level = s.level ∧ s'.halted = s.halted := by
  obtain ⟨t, ht, htimely, hstats, hlevel, hhalted, hless⟩ := h.fire hd hitems hdue
  induction n generalizing s t p ps with
  | zero => omega
  | succ n ih =>
    unfold Interrupt.drain
    rw [ht]
    simp only [htimely.crashed, Bool.false_or]
    cases hitems' : t.pending.items with
    | nil =>
      rw [if_pos (htimely.counted.isEmpty_iff.mpr hitems')]
      refine ⟨t, rfl, htimely, fun q hq => ?_, hstats, hlevel, hhalted⟩
      rw [hitems'] at hq
      cases hq
    | cons q qs =>
      have hempty : ¬ t.pending.isEmpty = true := by
        rw [htimely.counted.isEmpty_iff, hitems']
        exact List.cons_ne_nil q qs
      rw [if_neg hempty, LinkedList.front, hitems']
      simp only [List.head?_cons]
      by_cases hdue' : q.when ≤ t.stats.totalTicks
      · rw [if_pos hdue']
        obtain ⟨u, hu, hu1, hu2, hu3, hu4, hu5⟩ := htimely.fire hd hitems' hdue'
        obtain ⟨s', hs', h1, h2, h3, h4, h5⟩ :=
          ih htimely hitems' hdue' (by omega) u hu hu1 hu2 hu3 hu4 hu5
        exact ⟨s', hs', h1, h2, h3.trans hstats, h4.trans hlevel, h5.trans hhalted⟩
      · rw [if_neg hdue']
        exact ⟨t, rfl, htimely, htimely.settled_of_head hitems' (not_le.mp hdue'), hstats, hlevel,
          hhalted⟩

/-- More fuel than needed changes nothing. -/
theorem drain_mono {n m : Nat} (hs : s.drain d n = some s') (hnm : n ≤ m) :
    s.drain d m = some s' := by
  induction n generalizing s m with
  | zero => cases hs
  | succ n ih =>
    obtain ⟨m, rfl⟩ : ∃ k, m = k + 1 := ⟨m - 1, by omega⟩
    unfold Interrupt.drain at hs ⊢
    split at hs
    · cases hs
    · split at hs
      · next hstop => rw [if_pos hstop]; exact hs
      · next hstop =>
        rw [if_neg hstop]
        split at hs
        · cases hs
        · split at hs
          · next hle => rw [if_pos hle]; exact ih hs (by omega)
          · next hle => rw [if_neg hle]; exact hs

/-! ### CheckIfDue, OneTick and Idle -/

omit [DecidableEq κ] [DecidableEq η] in
/-- The list and the logs stay; the clock may go on. -/
theorem Timely.frame (h : Timely s) (hpending : s'.pending = s.pending)
    (hcrashed : s'.crashed = s.crashed) (hlog : s'.log = s.log)
    (hregistered : s'.registered = s.registered) (hnext : s'.nextAddress = s.nextAddress)
    (hle : s.stats.totalTicks ≤ s'.stats.totalTicks)
    (hclock : s'.stats.totalTicks
      = s'.stats.idleTicks + s'.stats.systemTicks + s'.stats.userTicks) : Timely s' := by
  have hfired : s'.fired = s.fired := by rw [fired, hlog, fired]
  refine ⟨?_, hcrashed.trans h.crashed, ?_, ?_, ?_, ?_, ?_, ?_, hclock⟩
  · rw [hpending]
    exact h.counted
  · rw [hfired, hpending]
    exact h.order
  · rw [hfired, hpending, hregistered]
    exact h.perm
  · rw [hregistered, hnext]
    exact h.addresses
  · rw [hregistered]
    exact h.objects
  · rw [hlog]
    exact h.calls
  · rw [hlog]
    exact fun f hf => ⟨(h.onTime f hf).1, (h.onTime f hf).2.trans hle⟩

/-- Between two steps. -/
structure Steady (s : Interrupt κ η ω) : Prop where
  timely : Timely s
  settled : s.Settled
  inHandler : s.inHandler = false

omit [DecidableEq κ] [DecidableEq η] in
theorem Steady.frame (h : Steady s) (hpending : s'.pending = s.pending)
    (hcrashed : s'.crashed = s.crashed) (hlog : s'.log = s.log)
    (hregistered : s'.registered = s.registered) (hnext : s'.nextAddress = s.nextAddress)
    (hstats : s'.stats = s.stats) (hin : s'.inHandler = s.inHandler) : Steady s' := by
  refine ⟨h.timely.frame hpending hcrashed hlog hregistered hnext ?_ ?_, ?_, hin.trans h.inHandler⟩
  · rw [hstats]
  · rw [hstats]
    exact h.timely.clock
  · unfold Settled
    rw [hpending, hstats]
    exact h.settled

/-- What `CheckIfDue` comes back with. -/
structure Checked (s s' : Interrupt κ η ω) : Prop where
  steady : Steady s'
  level : s'.level = .off
  halted : s'.halted = s.halted
  clock : s.stats.totalTicks ≤ s'.stats.totalTicks

omit [DecidableEq κ] [DecidableEq η] in
theorem due_le_length (s : Interrupt κ η ω) : s.due ≤ s.pending.items.length :=
  List.countP_le_length

theorem Timely.handle (hd : d.Plain) (h : Timely s) (hlevel : s.level = .off)
    {p : PendingInterrupt κ η} {ps : List (PendingInterrupt κ η)}
    (hitems : s.pending.items = p :: ps) (hdue : p.when ≤ s.stats.totalTicks) :
    ∃ s', (∀ n, s.pending.items.length ≤ n → s.handle d n = some (s', true)) ∧ Checked s s' := by
  let t : Interrupt κ η ω := { s with inHandler := true }
  have ht : Timely t := h.frame rfl rfl rfl rfl rfl le_rfl h.clock
  obtain ⟨u, hu, htimely, hsettled, hstats, hlevel', hhalted⟩ :=
    ht.drain hd hitems hdue (due_le_length t)
  refine ⟨{ u with inHandler := false }, fun n hn => ?_, ⟨?_, hsettled, rfl⟩, ?_, hhalted, ?_⟩
  · show (t.drain d n).map _ = _
    rw [drain_mono hu hn]
    rfl
  · exact htimely.frame rfl rfl rfl rfl rfl le_rfl htimely.clock
  · exact hlevel'.trans hlevel
  · exact le_of_eq (congrArg Statistics.totalTicks hstats).symm

/-- `CheckIfDue` comes back, with any fuel that is enough for the list. -/
theorem Timely.checkIfDue (hd : d.Plain) (h : Timely s) (hlevel : s.level = .off)
    (hin : s.inHandler = false) (advanceClock : Bool) :
    ∃ r, (∀ n, s.pending.items.length ≤ n → s.checkIfDue d n advanceClock = some r) ∧
      Checked s r.1 := by
  have hnot : ¬ s.level = .on := by rw [hlevel]; decide
  unfold Interrupt.checkIfDue
  cases hitems : s.pending.items with
  | nil =>
    have hempty := h.counted.isEmpty_iff.mpr hitems
    refine ⟨(s, false), fun n _ => ?_, ⟨h, fun q hq => ?_, hin⟩, hlevel, rfl, le_rfl⟩
    · rw [if_neg hnot, if_pos hempty]
    · rw [hitems] at hq
      cases hq
  | cons p ps =>
    have hempty : ¬ s.pending.isEmpty = true := by
      rw [h.counted.isEmpty_iff, hitems]
      exact List.cons_ne_nil p ps
    have hfront : s.pending.front = some p := by rw [LinkedList.front, hitems]; rfl
    simp only [if_neg hnot, if_neg hempty, hfront]
    by_cases hlater : p.when > s.stats.totalTicks
    · cases advanceClock with
      | false =>
        refine ⟨(s, false), fun n _ => ?_, ⟨h, h.settled_of_head hitems hlater, hin⟩, hlevel, rfl,
          le_rfl⟩
        rw [if_pos hlater]
        rfl
      | true =>
        -- the clock jumps to the first interrupt, and the ticks in between are idle ticks
        have hadvance : Timely (s.advanceTo p) := by
          refine h.frame rfl rfl rfl rfl rfl (le_of_lt hlater) ?_
          have hclock := h.clock
          show p.when = s.stats.idleTicks + (p.when - s.stats.totalTicks) + s.stats.systemTicks
            + s.stats.userTicks
          omega
        obtain ⟨s', hs', hchecked⟩ := hadvance.handle hd hlevel hitems le_rfl
        refine ⟨(s', true), fun n hn => ?_, hchecked.steady, hchecked.level, hchecked.halted, ?_⟩
        · rw [if_pos hlater, if_pos rfl]
          exact hs' n (by rwa [← hitems] at hn)
        · exact (le_of_lt hlater).trans hchecked.clock
    · obtain ⟨s', hs', hchecked⟩ := h.handle hd hlevel hitems (not_lt.mp hlater)
      refine ⟨(s', true), fun n hn => ?_, hchecked⟩
      rw [if_neg hlater]
      exact hs' n (by rwa [← hitems] at hn)

omit [DecidableEq κ] [DecidableEq η] in
theorem Timely.tick (h : Timely s) :
    Timely s.tick ∧ s.stats.totalTicks ≤ s.tick.stats.totalTicks := by
  have hclock := h.clock
  have hle : s.stats.totalTicks ≤ s.tick.stats.totalTicks := by
    unfold Interrupt.tick systemTick userTick
    simp only
    split <;> simp
  refine ⟨h.frame rfl rfl rfl rfl rfl hle ?_, hle⟩
  unfold Interrupt.tick
  simp only
  split <;> simp only <;> omega

omit [DecidableEq κ] [DecidableEq η] in
theorem Steady.afterTick (h : Steady s) : Steady s.afterTick ∧ s.afterTick.stats = s.stats := by
  unfold Interrupt.afterTick
  split
  · exact ⟨h.frame rfl rfl rfl rfl rfl rfl rfl, rfl⟩
  · exact ⟨h.frame rfl rfl rfl rfl rfl rfl rfl, rfl⟩

omit [DecidableEq κ] [DecidableEq η] in
theorem length_le (s : Interrupt κ η ω) : s.pending.items.length ≤ s.pending.elements.length :=
  le_of_eq (LinkedList.length_items _)

/-- What a step comes to. -/
structure Stepped (s s' : Interrupt κ η ω) : Prop where
  steady : Steady s'
  clock : s.stats.totalTicks ≤ s'.stats.totalTicks

theorem Steady.oneTick (hd : d.Plain) (h : Steady s) :
    ∃ s', s.oneTick d = some s' ∧ Stepped s s' := by
  obtain ⟨htick, hle⟩ := h.timely.tick
  obtain ⟨r, hr, hchecked⟩ := htick.checkIfDue hd rfl h.inHandler false
  obtain ⟨hsteady, hstats⟩ := hchecked.steady.afterTick
  refine ⟨r.1.afterTick, ?_, hsteady, ?_⟩
  · unfold Interrupt.oneTick
    rw [hr _ (length_le s)]
    rfl
  · rw [hstats]
    exact hle.trans hchecked.clock

theorem Steady.idle (hd : d.Plain) (h : Steady s) (hlevel : s.level = .off) :
    ∃ s', s.idle d = some s' ∧ Stepped s s' := by
  let t : Interrupt κ η ω := { s with status := .idle }
  have ht : Timely t := h.timely.frame rfl rfl rfl rfl rfl le_rfl h.timely.clock
  obtain ⟨⟨u, fired⟩, hr, hchecked⟩ := ht.checkIfDue hd hlevel h.inHandler true
  unfold Interrupt.idle
  rw [hr _ (length_le s)]
  cases fired with
  | false => exact ⟨_, rfl, hchecked.steady.frame rfl rfl rfl rfl rfl rfl rfl, hchecked.clock⟩
  | true => exact ⟨_, rfl, hchecked.steady.frame rfl rfl rfl rfl rfl rfl rfl, hchecked.clock⟩

theorem Steady.setLevel (hd : d.Plain) (h : Steady s) (now : IntStatus) :
    ∃ s', s.setLevel d now = some s' ∧ Stepped s s' := by
  have hframe : Steady { s with level := now } := h.frame rfl rfl rfl rfl rfl rfl rfl
  unfold Interrupt.setLevel
  rw [if_neg (by rw [h.inHandler]; simp)]
  split
  · obtain ⟨s', hs', hstepped⟩ := hframe.oneTick hd
    exact ⟨s', hs', hstepped.steady, hstepped.clock⟩
  · exact ⟨_, rfl, hframe, le_rfl⟩

/-- The only assertion that can fail is that `Idle` is called with interrupts off. -/
theorem Steady.step (hd : d.Plain) (h : Steady s) {e : InterruptEvent κ η} (he : e.Plain)
    (hhalted : s.halted = false) (hidle : e = .idle → s.level = .off) :
    ∃ s', s.step d e = some s' ∧ Stepped s s' := by
  have hon : ¬ (s.halted || s.crashed) = true := by
    rw [hhalted, h.timely.crashed]
    decide
  unfold Interrupt.step
  rw [if_neg hon]
  cases e with
  | schedule r =>
    obtain ⟨s', hs', hadded⟩ := h.timely.schedule (d := d) he
    refine ⟨s', hs', ⟨hadded.timely, hadded.settled h.settled, ?_⟩, ?_⟩
    · exact hadded.inHandler.trans h.inHandler
    · rw [hadded.stats]
  | setLevel now => exact h.setLevel hd now
  | oneTick => exact h.oneTick hd
  | idle => exact h.idle hd (hidle rfl)
  | setStatus st => exact ⟨_, rfl, h.frame rfl rfl rfl rfl rfl rfl rfl, le_rfl⟩

theorem Steady.of_step (hd : d.Plain) (h : Steady s) {e : InterruptEvent κ η} (he : e.Plain)
    (hs : s.step d e = some s') : Stepped s s' := by
  have hhalted : s.halted = false := by
    cases hh : s.halted with
    | false => rfl
    | true =>
      unfold Interrupt.step at hs
      rw [hh] at hs
      cases hs
  have hidle : e = .idle → s.level = .off := by
    rintro rfl
    cases hl : s.level with
    | off => rfl
    | on => simp [Interrupt.step, Interrupt.idle, Interrupt.checkIfDue, hl] at hs
  obtain ⟨t, ht, hstepped⟩ := h.step hd he hhalted hidle
  obtain rfl := Option.some.inj (hs.symm.trans ht)
  exact hstepped

end Steps

/-! ## Whole runs -/

/-- What every run keeps, and that the clock does not go back. -/
theorem Steady.run {d : Devices κ η ω} (hd : d.Plain) {s s' : Interrupt κ η ω} (h : Steady s)
    {es : List (InterruptEvent κ η)} (hes : ∀ e ∈ es, e.Plain)
    (hs : run (Interrupt.step d) s es = some s') : Stepped s s' := by
  have hall : AllSteps (Interrupt.step d) (fun _ e => e.Plain) s es := allSteps_of_forall hes
  refine (run_guarded (P := fun _ _ => True) (fun t e t' ht he hstep => ?_) ⟨h, le_rfl⟩ hall hs).1
  have hstepped := ht.steady.of_step hd he hstep
  exact ⟨⟨hstepped.steady, ht.clock.trans hstepped.clock⟩, trivial⟩

omit [DecidableEq κ] [DecidableEq η] in
theorem steady_start (world : ω) : Steady (start world : Interrupt κ η ω) where
  timely := timely_start world
  settled := by simp [Settled, start, LinkedList.empty, LinkedList.items]
  inHandler := rfl

omit [DecidableEq κ] [DecidableEq η] in
/-- All interrupts are different: each has its own address. -/
theorem Timely.nodup {s : Interrupt κ η ω} (h : Timely s) : s.registered.Nodup := by
  refine List.Nodup.of_map (·.address) ?_
  rw [h.addresses]
  exact List.nodup_range

/-- Every interrupt has occurred once if its time has come, and not at all otherwise. -/
theorem Steady.count_fired {s : Interrupt κ η ω} (h : Steady s) {p : PendingInterrupt κ η}
    (hp : p ∈ s.registered) :
    s.fired.count p = if p.when ≤ s.stats.totalTicks then 1 else 0 := by
  have hone : s.fired.count p + s.pending.items.count p = 1 := by
    rw [← List.count_append, h.timely.perm.count_eq, List.count_eq_one_of_mem h.timely.nodup hp]
  split
  · next hle =>
    have hnot : p ∉ s.pending.items := fun hmem => absurd (h.settled p hmem) (not_lt.mpr hle)
    rwa [List.count_eq_zero_of_not_mem hnot, Nat.add_zero] at hone
  · next hlt => exact List.count_eq_zero_of_not_mem fun hmem => hlt (h.timely.fired_le hmem)

/--
**Interrupts come on time.**

Along every run in which interrupts are scheduled with an object to call back and a time in the
future, also by the devices that are called back: nothing is called before its time; nothing that is
due is left when `CheckIfDue` has returned; every interrupt is called once when its time has come,
in the order of the times and among equal times in the order of the `Schedule`s; `CheckIfDue`
returns, however much fuel its loop is given beyond the length of the list; and the clock is the sum
of its three parts and never goes back.
-/
theorem run_interrupt_timing {d : Devices κ η ω} (hd : d.Plain) {world : ω}
    {es : List (InterruptEvent κ η)} (hes : ∀ e ∈ es, e.Plain) {s : Interrupt κ η ω}
    (h : run (Interrupt.step d) (start world) es = some s) :
    (∀ f ∈ s.log, f.interrupt.when ≤ f.time ∧
      ∃ object, f.interrupt.callOnInterrupt = some object ∧ f.call = .callBack object) ∧
    s.Settled ∧
    (s.fired ++ s.pending.items).Perm s.registered ∧
    s.registered.map (·.address) = List.range s.nextAddress ∧
    (∀ p ∈ s.registered, s.fired.count p = if p.when ≤ s.stats.totalTicks then 1 else 0) ∧
    s.fired.Pairwise PendingInterrupt.Before ∧
    (∀ u advanceClock, u = s ∨ u = s.tick → u.level = .off →
      ∃ r, (∀ n, s.pending.items.length ≤ n → u.checkIfDue d n advanceClock = some r) ∧
        r.1.Settled ∧ s.stats.totalTicks ≤ r.1.stats.totalTicks) ∧
    s.stats.totalTicks = s.stats.idleTicks + s.stats.systemTicks + s.stats.userTicks ∧
    (∀ es' s', (∀ e ∈ es', e.Plain) → run (Interrupt.step d) s es' = some s' →
      s.stats.totalTicks ≤ s'.stats.totalTicks) := by
  have hsteady : Steady s := ((steady_start world).run hd hes h).steady
  have htimely := hsteady.timely
  refine ⟨fun f hf => ⟨(htimely.onTime f hf).1, htimely.calls f hf⟩, hsteady.settled, htimely.perm,
    htimely.addresses, fun p hp => hsteady.count_fired hp,
    (List.pairwise_append.mp htimely.order).1, ?_, htimely.clock,
    fun es' s' hes' hs' => (hsteady.run hd hes' hs').clock⟩
  rintro u advanceClock (rfl | rfl) hlevel
  · obtain ⟨r, hr, hchecked⟩ := htimely.checkIfDue hd hlevel hsteady.inHandler advanceClock
    exact ⟨r, hr, hchecked.steady.settled, hchecked.clock⟩
  · obtain ⟨htick, hle⟩ := htimely.tick
    obtain ⟨r, hr, hchecked⟩ := htick.checkIfDue hd hlevel hsteady.inHandler advanceClock
    exact ⟨r, hr, hchecked.steady.settled, hle.trans hchecked.clock⟩

/-- A device whose object 1 asks for object 2 to be called five ticks later. -/
def chainedDevice : Devices Nat Unit Unit where
  callBack := fun object _ world =>
    { world := world
      requests := if object = 1 then [.object 2 5 .timer] else []
      yieldOnReturn := false }
  garbage := fun _ => 0

theorem chainedDevice_plain : chainedDevice.Plain := by
  intro object stats world r hr
  unfold chainedDevice at hr
  simp only at hr
  split at hr
  · obtain rfl := List.mem_singleton.mp hr
    show (0 : Int) < 5
    decide
  · cases hr

/-- Objects 1 and 3 are due at the first tick, object 2 is called five ticks later. -/
theorem run_interrupt_chained :
    ∃ s : Interrupt Nat Unit Unit,
      run (Interrupt.step chainedDevice) (start ()) [.schedule (.object 1 10 .timer),
        .schedule (.object 3 10 .disk), .oneTick, .setLevel .off, .idle] = some s ∧
      s.stats.totalTicks = 15 ∧ s.fired.map (·.callOnInterrupt) = [some 1, some 3, some 2] ∧
      s.fired.Pairwise PendingInterrupt.Before := by
  have hrun : run (Interrupt.step chainedDevice) (start ()) [.schedule (.object 1 10 .timer),
    .schedule (.object 3 10 .disk), .oneTick, .setLevel .off, .idle] = some _ := rfl
  refine ⟨_, rfl, rfl, rfl, ?_⟩
  have hplain : ∀ e ∈ ([.schedule (.object 1 10 .timer), .schedule (.object 3 10 .disk), .oneTick,
      .setLevel .off, .idle] : List (InterruptEvent Nat Unit)), e.Plain := by
    simp [InterruptEvent.Plain, Request.Plain]
  exact (run_interrupt_timing chainedDevice_plain hplain hrun).2.2.2.2.2.1

end Interrupt

end Nachos
