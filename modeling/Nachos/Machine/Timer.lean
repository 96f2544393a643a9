import Nachos.Machine.InterruptTiming
import Mathlib.Tactic.Linarith

/-!
# The timer and the alarm (`machine/timer.cc`, `threads/alarm.cc`)

The kernel starts with an alarm. Its timer interrupts over and over again, and the thread that runs
then yields. The other devices, and what is called of the class `Interrupt`, are arbitrary. The
clock is an integer that does not overflow.

* `Interrupt.timedStep` — one step of a machine with an alarm
* `Ticking` — the one timer interrupt that is pending
* `run_alarm` — how often the alarm goes off, and what it does
-/

namespace Nachos

open Base

/-- `TimerTicks`. -/
def timerTicks : Nat := 100

/-- The class `Timer`; `drawn` counts its calls of `RandomNumber`. -/
structure Timer where
  randomize : Bool
  disable : Bool
  drawn : Nat

/-- Who is called back: the timer, or another device. -/
inductive Source (κ : Type*) where
  | timer
  | device (object : κ)
deriving DecidableEq

/-- The requests of another device. -/
def Request.device {κ η : Type*} : Request κ η → Request (Source κ) η
  | .object toCall fromNow type => .object (.device toCall) fromNow type
  | .handler func arg fromNow type => .handler func arg fromNow type

theorem Request.plain_device {κ η : Type*} {r : Request κ η} (h : r.Plain) : r.device.Plain := by
  cases r with
  | object toCall fromNow type => exact h
  | handler func arg fromNow type => exact h.elim

/-- The events in which the timer is not mentioned. -/
def InterruptEvent.device {κ η : Type*} : InterruptEvent κ η → InterruptEvent (Source κ) η
  | .schedule request => .schedule request.device
  | .setLevel now => .setLevel now
  | .oneTick => .oneTick
  | .idle => .idle
  | .setStatus st => .setStatus st

namespace Timer

/-- `delay` in `Timer::SetInterrupt`. -/
def delay (randomNumber : Nat → BitVec 32) (t : Timer) : Nat :=
  if t.randomize then 1 + (randomNumber t.drawn).toNat % (timerTicks * 2) else timerTicks

/-- `Timer::SetInterrupt`. -/
def setInterrupt {κ η : Type*} (randomNumber : Nat → BitVec 32) (t : Timer) :
    Timer × List (Request (Source κ) η) :=
  if t.disable then (t, [])
  else
    ({ t with drawn := if t.randomize then t.drawn + 1 else t.drawn },
      [.object .timer (t.delay randomNumber) .timer])

end Timer

/-- `Alarm::CallBack`: whether it calls `YieldOnReturn`. -/
def alarmCallBack (status : MachineStatus) : Bool := decide (status ≠ .idle)

/-- The other devices, and the numbers that `RandomNumber` returns. -/
structure Surroundings (κ η ω : Type*) where
  randomNumber : Nat → BitVec 32
  callBack : κ → Statistics → ω → Handling κ η ω
  garbage : PendingInterrupt (Source κ) η → Int

namespace Surroundings

variable {κ η ω : Type*}

/-- `Timer::CallBack`, and the `CallBack` of the others, in a machine with this status. -/
def devices (e : Surroundings κ η ω) (status : MachineStatus) :
    Devices (Source κ) η (Timer × ω) where
  callBack
    | .timer, _, (timer, world) =>
      let (timer, requests) := timer.setInterrupt e.randomNumber
      ⟨(timer, world), requests, alarmCallBack status⟩
    | .device object, stats, (timer, world) =>
      let h := e.callBack object stats world
      ⟨(timer, h.world), h.requests.map Request.device, h.yieldOnReturn⟩
  garbage := e.garbage

/-- The timer that is not disabled asks for its next interrupt. -/
theorem callBack_timer (e : Surroundings κ η ω) (status : MachineStatus) (stats : Statistics)
    {w : Timer × ω} (h : w.1.disable = false) :
    ∃ t : Timer, t.randomize = w.1.randomize ∧ t.disable = false ∧
      (e.devices status).callBack .timer stats w =
        ⟨(t, w.2), [.object .timer (w.1.delay e.randomNumber) .timer], alarmCallBack status⟩ := by
  refine ⟨{ w.1 with drawn := if w.1.randomize then w.1.drawn + 1 else w.1.drawn }, rfl, h, ?_⟩
  simp only [devices, Timer.setInterrupt, h]
  rfl

/-- The other devices make requests with an object and a time in the future, and do not yield. -/
structure Plain (e : Surroundings κ η ω) : Prop where
  requests : ∀ object stats world, ∀ r ∈ (e.callBack object stats world).requests, r.Plain
  yields : ∀ object stats world, (e.callBack object stats world).yieldOnReturn = false

end Surroundings

namespace Interrupt

variable {κ η ω : Type*} [DecidableEq κ] [DecidableEq η]

/-- `kernel->interrupt` in `Kernel::Initialize`, after `Enable` and `new Alarm(randomSlice)`. -/
def withAlarm (e : Surroundings κ η ω) (randomSlice : Bool) (world : ω) :
    Option (Interrupt (Source κ) η (Timer × ω)) := do
  let (timer, requests) := Timer.setInterrupt e.randomNumber ⟨randomSlice, false, 0⟩
  let enabled ← (start (timer, world)).setLevel (e.devices .system) .on
  requests.foldlM (schedule (e.devices .system)) enabled

/-- `getStatus` during an event. -/
def statusDuring (s : Interrupt (Source κ) η (Timer × ω)) : InterruptEvent κ η → MachineStatus
  | .idle => .idle
  | _ => s.status

/-- One step of a machine with an alarm. -/
def timedStep (e : Surroundings κ η ω) (s : Interrupt (Source κ) η (Timer × ω))
    (event : InterruptEvent κ η) : Option (Interrupt (Source κ) η (Timer × ω)) :=
  s.step (e.devices (s.statusDuring event)) event.device

/-- Whether `OneTick` calls `Yield`. -/
def yields (d : Devices κ η ω) (s : Interrupt κ η ω) : Bool :=
  ((s.tick.checkIfDue d s.pending.elements.length false).map fun r => r.1.yieldOnReturn).getD false

/-- How often the timer has interrupted. -/
def rings (s : Interrupt (Source κ) η ω) : Nat :=
  s.log.countP fun f => decide (f.interrupt.callOnInterrupt = some .timer)

/-! ## What a request adds -/

section Requests

variable {d : Devices (Source κ) η (Timer × ω)} {s s' : Interrupt (Source κ) η (Timer × ω)}

def timers (s : Interrupt (Source κ) η ω) : List (PendingInterrupt (Source κ) η) :=
  s.pending.items.filter fun p => decide (p.callOnInterrupt = some .timer)

/-- Everything but the list of pending interrupts, and what is known of it. -/
structure SameLog (s s' : Interrupt κ η ω) : Prop where
  log : s'.log = s.log
  stats : s'.stats = s.stats
  world : s'.world = s.world
  yieldOnReturn : s'.yieldOnReturn = s.yieldOnReturn
  status : s'.status = s.status

omit [DecidableEq η] in
theorem SameLog.trans {κ : Type*} {s s' s'' : Interrupt κ η ω} (h : SameLog s s')
    (h' : SameLog s' s'') : SameLog s s'' where
  log := h'.log.trans h.log
  stats := h'.stats.trans h.stats
  world := h'.world.trans h.world
  yieldOnReturn := h'.yieldOnReturn.trans h.yieldOnReturn
  status := h'.status.trans h.status

/-- A request with an object puts one interrupt into the list. -/
theorem Timely.object_cases (h : Timely s) {toCall : Source κ} {fromNow : Int} {type : IntType}
    (hpos : 0 < fromNow) (hs : s.schedule d (.object toCall fromNow type) = some s') :
    Timely s' ∧ SameLog s s' ∧ ∃ q, q.callOnInterrupt = some toCall ∧
      q.when = s.stats.totalTicks + fromNow ∧ s'.pending.items.Perm (q :: s.pending.items) := by
  obtain ⟨t, ht, hadded⟩ := h.schedule (d := d) (r := .object toCall fromNow type) hpos
  obtain rfl := Option.some.inj (ht.symm.trans hs)
  refine ⟨hadded.timely, ?_⟩
  let q : PendingInterrupt (Source κ) η :=
    { address := s.nextAddress
      callOnInterrupt := some toCall
      handler := none
      when := s.stats.totalTicks + fromNow
      type := type }
  simp only [Interrupt.schedule, scheduleObject, if_pos hpos] at hs
  obtain ⟨l, -, rfl⟩ := Option.map_eq_some_iff.mp hs
  refine ⟨⟨rfl, rfl, rfl, rfl, rfl⟩, q, rfl, rfl, ?_⟩
  have hperm := hadded.timely.perm.trans (h.perm.symm.append_right _)
  rw [List.append_assoc] at hperm
  have hperm' := (List.perm_append_left_iff _).mp hperm
  exact hperm'.trans (List.perm_append_singleton _ _)

/-- The requests of the other devices do not touch the timer. -/
theorem Timely.device_requests (h : Timely s) {rs : List (Request κ η)} (hrs : ∀ r ∈ rs, r.Plain)
    (hs : (rs.map Request.device).foldlM (Interrupt.schedule d) s = some s') :
    Timely s' ∧ SameLog s s' ∧ s'.timers.Perm s.timers := by
  induction rs generalizing s with
  | nil =>
    obtain rfl := Option.some.inj hs
    exact ⟨h, ⟨rfl, rfl, rfl, rfl, rfl⟩, List.Perm.refl _⟩
  | cons r rs ih =>
    rw [List.map_cons, List.foldlM_cons] at hs
    obtain ⟨t, ht, hrest⟩ := Option.bind_eq_some_iff.mp hs
    have hr := hrs r List.mem_cons_self
    cases r with
    | handler func arg fromNow type => exact hr.elim
    | object toCall fromNow type =>
      obtain ⟨htimely, hsame, q, hq, -, hperm⟩ := h.object_cases hr ht
      obtain ⟨hlast, hsame', hperm'⟩ :=
        ih htimely (fun r hr => hrs r (List.mem_cons_of_mem _ hr)) hrest
      refine ⟨hlast, hsame.trans hsame', hperm'.trans ?_⟩
      have htimers := hperm.filter fun p => decide (p.callOnInterrupt = some .timer)
      rw [List.filter_cons_of_neg (by rw [hq]; simp)] at htimers
      exact htimers

end Requests

/-! ## The timer interrupt that is pending -/

section Ticking

variable {e : Surroundings κ η ω} {s s' : Interrupt (Source κ) η (Timer × ω)}

/-- The least and the greatest `delay`. -/
def minDelay (randomize : Bool) : Nat := if randomize then 1 else timerTicks

def maxDelay (randomize : Bool) : Nat := if randomize then timerTicks * 2 else timerTicks

theorem delay_bounds (randomNumber : Nat → BitVec 32) (t : Timer) :
    minDelay t.randomize ≤ t.delay randomNumber ∧
      t.delay randomNumber ≤ maxDelay t.randomize := by
  have hmod : (randomNumber t.drawn).toNat % (timerTicks * 2) < timerTicks * 2 :=
    Nat.mod_lt _ (by decide)
  unfold minDelay maxDelay Timer.delay
  cases t.randomize with
  | false => exact ⟨le_rfl, le_rfl⟩
  | true =>
    simp only [if_true]
    omega

/--
One timer interrupt is pending. It is the one after `rings` others, each of which came after a
`delay`, and was late by less than a `SystemTick`. The clock showed one `SystemTick` at the start.
-/
structure Ticking (randomize : Bool) (s : Interrupt (Source κ) η (Timer × ω))
    (p : PendingInterrupt (Source κ) η) : Prop where
  timers : s.timers = [p]
  random : s.world.1.randomize = randomize
  enabled : s.world.1.disable = false
  elapsed : systemTick + s.rings * minDelay randomize ≤ s.stats.totalTicks
  early : systemTick + (s.rings + 1) * minDelay randomize ≤ p.when
  late : p.when ≤ systemTick + (s.rings + 1) * maxDelay randomize + s.rings * (systemTick - 1)
  soon : p.when ≤ s.stats.totalTicks + maxDelay randomize
  close : s.stats.totalTicks < p.when + systemTick

/-- The timer has interrupted since, or not, and `YieldOnReturn` has been called if so. -/
structure Rung (s s' : Interrupt (Source κ) η (Timer × ω)) : Prop where
  status : s'.status = s.status
  rings : s.rings ≤ s'.rings
  yields : s'.yieldOnReturn = true ↔
    s.yieldOnReturn = true ∨ s.status ≠ .idle ∧ s.rings < s'.rings

omit [DecidableEq η] in
theorem Rung.refl (s : Interrupt (Source κ) η (Timer × ω)) : Rung s s where
  status := rfl
  rings := le_rfl
  yields := by simp

omit [DecidableEq η] in
theorem Rung.trans {s'' : Interrupt (Source κ) η (Timer × ω)} (h : Rung s s') (h' : Rung s' s'') :
    Rung s s'' where
  status := h'.status.trans h.status
  rings := h.rings.trans h'.rings
  yields := by
    have hle := h.rings
    have hle' := h'.rings
    rw [h'.yields, h.yields, h.status, or_assoc, ← and_or_left]
    have hlt : s.rings < s'.rings ∨ s'.rings < s''.rings ↔ s.rings < s''.rings := by omega
    rw [hlt]

variable {randomize : Bool} {p q : PendingInterrupt (Source κ) η}
  {qs : List (PendingInterrupt (Source κ) η)} {status : MachineStatus}

/-- The timer has been called, and has made its request. -/
theorem Ticking.fire_timer (h : Timely s) (ht : Ticking randomize s p)
    (hitems : s.pending.items = q :: qs) (hdue : q.when ≤ s.stats.totalTicks)
    (hobject : q.callOnInterrupt = some .timer)
    (hs : s.fire (e.devices s.status) = some s') :
    (∃ p, Ticking randomize s' p) ∧ Rung s s' := by
  obtain ⟨l, hl, hcounted, hlitems⟩ := h.counted.removeFront hitems
  have htimers : q :: qs.filter (fun p => decide (p.callOnInterrupt = some .timer)) = [p] := by
    have heq := ht.timers
    rw [Interrupt.timers, hitems, List.filter_cons_of_pos (by rw [hobject]; simp)] at heq
    exact heq
  obtain ⟨rfl, hrest⟩ := List.cons.inj htimers
  obtain ⟨t, hrandom, henabled, hback⟩ := e.callBack_timer s.status s.stats ht.enabled
  unfold Interrupt.fire at hs
  rw [hl] at hs
  simp only [hobject, hback, List.foldlM_cons, List.foldlM_nil] at hs
  obtain ⟨u, hu, hlast⟩ := Option.bind_eq_some_iff.mp hs
  obtain rfl := Option.some.inj hlast
  have hcalled := h.called hitems hdue hcounted hlitems hobject
    ⟨(t, s.world.2), [.object .timer (s.world.1.delay e.randomNumber) .timer],
      alarmCallBack s.status⟩
  obtain ⟨hmin, hmax⟩ := delay_bounds e.randomNumber s.world.1
  rw [ht.random] at hmin hmax
  have hpos : 0 < minDelay randomize := by cases randomize <;> decide
  obtain ⟨htimely, hsame, q', hq', hwhen, hperm⟩ := hcalled.object_cases (by omega) hu
  have hrings : u.rings = s.rings + 1 := by
    rw [rings, hsame.log]
    show (s.log ++ [_]).countP _ = _
    rw [List.countP_append, List.countP_singleton, if_pos (by rw [hobject]; simp)]
    rfl
  have htotal : u.stats.totalTicks = s.stats.totalTicks := by rw [hsame.stats]; rfl
  have hwhen' : q'.when = s.stats.totalTicks + (s.world.1.delay e.randomNumber : Nat) := hwhen
  have helapsed := ht.elapsed
  have hearly := ht.early
  have hlate := ht.late
  have hclose := ht.close
  have hstatus : u.status = s.status := hsame.status
  have htick : systemTick = 10 := rfl
  refine ⟨⟨q', ?_, ?_, ?_, ?_, ?_, ?_, ?_, ?_⟩, hstatus, by omega, ?_⟩
  · have hfilter := hperm.filter fun p => decide (p.callOnInterrupt = some .timer)
    rw [List.filter_cons_of_pos (by rw [hq']; simp)] at hfilter
    change u.timers.Perm (q' :: l.items.filter _) at hfilter
    rw [hlitems, hrest] at hfilter
    exact List.perm_singleton.mp hfilter
  · rw [hsame.world, ← ht.random]
    exact hrandom
  · rw [hsame.world]
    exact henabled
  · rw [hrings, htotal]
    push_cast
    linarith
  · rw [hrings, hwhen']
    push_cast
    linarith
  · rw [hrings, hwhen']
    push_cast
    linarith
  · rw [htotal, hwhen']
    omega
  · rw [htotal, hwhen']
    omega
  · rw [hsame.yieldOnReturn, hrings]
    show (s.yieldOnReturn || alarmCallBack s.status) = true ↔ _
    simp [alarmCallBack]

/-- Another device has been called. -/
theorem Ticking.fire_device (hplain : e.Plain) (h : Timely s) (ht : Ticking randomize s p)
    (hitems : s.pending.items = q :: qs) (hdue : q.when ≤ s.stats.totalTicks) {object : κ}
    (hobject : q.callOnInterrupt = some (.device object))
    (hs : s.fire (e.devices s.status) = some s') :
    (∃ p, Ticking randomize s' p) ∧ Rung s s' := by
  obtain ⟨l, hl, hcounted, hlitems⟩ := h.counted.removeFront hitems
  unfold Interrupt.fire at hs
  rw [hl] at hs
  simp only [hobject] at hs
  let a := e.callBack object s.stats s.world.2
  have hcalled := h.called hitems hdue hcounted hlitems hobject
    ⟨(s.world.1, a.world), a.requests.map Request.device, a.yieldOnReturn⟩
  obtain ⟨-, hsame, hperm⟩ :=
    hcalled.device_requests (hplain.requests object s.stats s.world.2) hs
  have hrings : s'.rings = s.rings := by
    rw [rings, hsame.log]
    show (s.log ++ [_]).countP _ = _
    rw [List.countP_append, List.countP_singleton, if_neg (by rw [hobject]; simp)]
    rfl
  have htotal : s'.stats.totalTicks = s.stats.totalTicks := by rw [hsame.stats]; rfl
  have hworld : s'.world.1 = s.world.1 := by rw [hsame.world]; rfl
  refine ⟨⟨p, ?_, ?_, ?_, ?_, ?_, ?_, ?_, ?_⟩, hsame.status, hrings.ge, ?_⟩
  · have htimers := ht.timers
    rw [Interrupt.timers, hitems, List.filter_cons_of_neg (by rw [hobject]; simp)] at htimers
    change s'.timers.Perm (l.items.filter _) at hperm
    rw [hlitems, htimers] at hperm
    exact List.perm_singleton.mp hperm
  · rw [hworld]
    exact ht.random
  · rw [hworld]
    exact ht.enabled
  · rw [hrings, htotal]
    exact ht.elapsed
  · rw [hrings]
    exact ht.early
  · rw [hrings]
    exact ht.late
  · rw [htotal]
    exact ht.soon
  · rw [htotal]
    exact ht.close
  · rw [hsame.yieldOnReturn, hrings]
    show (s.yieldOnReturn || a.yieldOnReturn) = true ↔ _
    rw [hplain.yields]
    simp

/-- One pass through the loop of `CheckIfDue`. -/
theorem Ticking.fire (hplain : e.Plain) (h : Timely s) (ht : Ticking randomize s p)
    (hitems : s.pending.items = q :: qs) (hdue : q.when ≤ s.stats.totalTicks)
    (hs : s.fire (e.devices s.status) = some s') :
    (∃ p, Ticking randomize s' p) ∧ Rung s s' := by
  have hreg : q ∈ s.registered := h.mem_registered (by rw [hitems]; exact List.mem_cons_self)
  obtain ⟨object, hobject⟩ := Option.ne_none_iff_exists'.mp (h.objects q hreg)
  cases object with
  | timer => exact ht.fire_timer h hitems hdue hobject hs
  | device object => exact ht.fire_device hplain h hitems hdue hobject hs

omit [DecidableEq κ] [DecidableEq η] in
theorem devices_plain (hplain : e.Plain) (status : MachineStatus) : (e.devices status).Plain := by
  rintro (_ | object) stats ⟨timer, world⟩ r hr
  · simp only [Surroundings.devices, Timer.setInterrupt] at hr
    split at hr
    · cases hr
    · obtain rfl := List.mem_singleton.mp hr
      have hpos : 0 < minDelay timer.randomize := by cases timer.randomize <;> decide
      have hmin := (delay_bounds e.randomNumber timer).1
      exact Int.natCast_pos.mpr (hpos.trans_le hmin)
  · obtain ⟨r', hr', rfl⟩ := List.mem_map.mp hr
    exact Request.plain_device (hplain.requests object stats world r' hr')

/-- The loop of `CheckIfDue`. -/
theorem Ticking.drain (hplain : e.Plain) {n : Nat} (h : Timely s) (ht : Ticking randomize s p)
    (hitems : s.pending.items = q :: qs) (hdue : q.when ≤ s.stats.totalTicks)
    (hs : s.drain (e.devices s.status) n = some s') :
    (∃ p, Ticking randomize s' p) ∧ Rung s s' := by
  induction n generalizing s p q qs with
  | zero => cases hs
  | succ n ih =>
    obtain ⟨t, hfire, htimely, -⟩ := h.fire (devices_plain hplain s.status) hitems hdue
    obtain ⟨⟨p', hticking⟩, hrung⟩ := ht.fire hplain h hitems hdue hfire
    unfold Interrupt.drain at hs
    rw [hfire] at hs
    simp only at hs
    split at hs
    · obtain rfl := Option.some.inj hs
      exact ⟨⟨p', hticking⟩, hrung⟩
    · split at hs
      · cases hs
      · next next hfront =>
        split at hs
        · next hdue' =>
          obtain ⟨rest, hitems'⟩ := List.head?_eq_some_iff.mp hfront
          rw [← hrung.status] at hs
          obtain ⟨hlast, hrung'⟩ := ih htimely hticking hitems' hdue' hs
          exact ⟨hlast, hrung.trans hrung'⟩
        · obtain rfl := Option.some.inj hs
          exact ⟨⟨p', hticking⟩, hrung⟩

omit [DecidableEq η] in
/-- The bounds hold after a change of the clock, too, if the interrupt is still due soon enough. -/
theorem Ticking.clock (ht : Ticking randomize s p) (htimers : s'.timers = s.timers)
    (hrings : s'.rings = s.rings) (hworld : s'.world = s.world)
    (hle : s.stats.totalTicks ≤ s'.stats.totalTicks)
    (hclose : s'.stats.totalTicks < p.when + systemTick) : Ticking randomize s' p where
  timers := htimers.trans ht.timers
  random := hworld ▸ ht.random
  enabled := hworld ▸ ht.enabled
  elapsed := hrings ▸ ht.elapsed.trans hle
  early := hrings ▸ ht.early
  late := hrings ▸ ht.late
  soon := ht.soon.trans (by omega)
  close := hclose

theorem Ticking.handle (hplain : e.Plain) {n : Nat} (h : Timely s) (ht : Ticking randomize s p)
    (hitems : s.pending.items = q :: qs) (hdue : q.when ≤ s.stats.totalTicks)
    {r : Interrupt (Source κ) η (Timer × ω) × Bool}
    (hs : s.handle (e.devices s.status) n = some r) :
    (∃ p, Ticking randomize r.1 p) ∧ Rung s r.1 ∧ r.2 = true := by
  obtain ⟨t, hdrain, rfl⟩ := Option.map_eq_some_iff.mp hs
  have ht' : Ticking randomize { s with inHandler := true } p :=
    ht.clock rfl rfl rfl le_rfl ht.close
  have h' : Timely { s with inHandler := true } := h.frame rfl rfl rfl rfl rfl le_rfl h.clock
  obtain ⟨⟨p', hlast⟩, hrung⟩ := ht'.drain hplain h' hitems hdue hdrain
  exact ⟨⟨p', hlast.clock rfl rfl rfl le_rfl hlast.close⟩,
    ⟨hrung.status, hrung.rings, hrung.yields⟩, rfl⟩

/-- `CheckIfDue` is called with the timer interrupt in the list. -/
theorem Ticking.checkIfDue (hplain : e.Plain) {n : Nat} {advanceClock : Bool} (h : Timely s)
    (ht : Ticking randomize s p) {r : Interrupt (Source κ) η (Timer × ω) × Bool}
    (hs : s.checkIfDue (e.devices s.status) n advanceClock = some r) :
    (∃ p, Ticking randomize r.1 p) ∧ Rung s r.1 ∧ (advanceClock = true → r.2 = true) := by
  have hp : p ∈ s.pending.items :=
    (List.mem_filter.mp (ht.timers ▸ List.mem_singleton_self p : p ∈ s.timers)).1
  obtain ⟨q, qs, hitems⟩ := List.exists_cons_of_ne_nil (List.ne_nil_of_mem hp)
  have hfront : s.pending.front = some q := by rw [LinkedList.front, hitems]; rfl
  have hempty : ¬ s.pending.isEmpty = true := by
    rw [h.counted.isEmpty_iff, hitems]
    exact List.cons_ne_nil q qs
  unfold Interrupt.checkIfDue at hs
  rw [if_neg hempty, hfront] at hs
  split at hs
  · cases hs
  simp only at hs
  split at hs
  · next hlater =>
    cases advanceClock with
    | false =>
      obtain rfl := Option.some.inj hs
      exact ⟨⟨p, ht⟩, .refl s, fun hfalse => absurd hfalse (by decide)⟩
    | true =>
      -- the clock does not pass the timer interrupt
      have hle : q.when ≤ p.when := by
        have horder := (List.pairwise_append.mp h.order).2.1
        rw [hitems] at horder hp
        rcases List.mem_cons.mp hp with rfl | hp
        · exact le_rfl
        · rcases List.rel_of_pairwise_cons horder hp with hlt | ⟨heq, -⟩
          · exact hlt.le
          · exact heq.le
      have hadvanced : Ticking randomize (s.advanceTo q) p :=
        ht.clock rfl rfl rfl (le_of_lt hlater) (by
          show q.when < _
          have htick : systemTick = 10 := rfl
          omega)
      have hclock := h.clock
      have htimely : Timely (s.advanceTo q) := by
        refine h.frame rfl rfl rfl rfl rfl (le_of_lt hlater) ?_
        show q.when = s.stats.idleTicks + (q.when - s.stats.totalTicks) + s.stats.systemTicks
          + s.stats.userTicks
        omega
      obtain ⟨hlast, hrung, htrue⟩ := hadvanced.handle hplain htimely hitems le_rfl hs
      exact ⟨hlast, ⟨hrung.status, hrung.rings, hrung.yields⟩, fun _ => htrue⟩
  · next hnow =>
    obtain ⟨hlast, hrung, htrue⟩ := ht.handle hplain h hitems (not_lt.mp hnow) hs
    exact ⟨hlast, hrung, fun _ => htrue⟩

/-! ## A machine with an alarm -/

/-- Between two steps. -/
structure Alarmed (randomize : Bool) (s : Interrupt (Source κ) η (Timer × ω)) : Prop where
  steady : Steady s
  ticking : ∃ p, Ticking randomize s p
  yieldOnReturn : s.yieldOnReturn = false
  halted : s.halted = false

omit [DecidableEq η] in
theorem Alarmed.frame (h : Alarmed randomize s) (hsteady : Steady s')
    (htimers : s'.timers = s.timers) (hlog : s'.log = s.log) (hworld : s'.world = s.world)
    (hstats : s'.stats = s.stats) (hyield : s'.yieldOnReturn = s.yieldOnReturn)
    (hhalted : s'.halted = s.halted) : Alarmed randomize s' := by
  obtain ⟨p, hp⟩ := h.ticking
  have hrings : s'.rings = s.rings := congrArg (List.countP _) hlog
  have hclose : s'.stats.totalTicks < p.when + systemTick := hstats ▸ hp.close
  exact ⟨hsteady, ⟨p, hp.clock htimers hrings hworld (by rw [hstats]) hclose⟩,
    hyield.trans h.yieldOnReturn, hhalted.trans h.halted⟩

omit [DecidableEq η] in
/-- The timer interrupt that is pending is not due. -/
theorem Alarmed.later (h : Alarmed randomize s) (hp : Ticking randomize s p) :
    s.stats.totalTicks < p.when :=
  h.steady.settled p (List.mem_filter.mp (hp.timers ▸ List.mem_singleton_self p : p ∈ s.timers)).1

/-- What a call of `CheckIfDue` comes back with. -/
structure Passed (randomize advanceClock : Bool) (s : Interrupt (Source κ) η (Timer × ω))
    (r : Interrupt (Source κ) η (Timer × ω) × Bool) : Prop where
  steady : Steady r.1
  halted : r.1.halted = s.halted
  ticking : ∃ p, Ticking randomize r.1 p
  rung : Rung s r.1
  advanced : advanceClock = true → r.2 = true

theorem Ticking.passed (hplain : e.Plain) (h : Timely s) (ht : Ticking randomize s p)
    (hlevel : s.level = .off) (hin : s.inHandler = false) {advanceClock : Bool}
    {r : Interrupt (Source κ) η (Timer × ω) × Bool}
    (hs : s.checkIfDue (e.devices s.status) s.pending.elements.length advanceClock = some r) :
    Passed randomize advanceClock s r := by
  obtain ⟨r', hr', hchecked⟩ := h.checkIfDue (devices_plain hplain s.status) hlevel hin advanceClock
  obtain rfl := Option.some.inj ((hr' _ (length_le s)).symm.trans hs)
  obtain ⟨hlast, hrung, htrue⟩ := ht.checkIfDue hplain h hs
  exact ⟨hchecked.steady, hchecked.halted, hlast, hrung, htrue⟩

/-- `OneTick` calls `Yield` exactly if the timer interrupts and the machine is not idle. -/
theorem Alarmed.oneTick (hplain : e.Plain) (h : Alarmed randomize s)
    (hs : s.oneTick (e.devices s.status) = some s') :
    Alarmed randomize s' ∧ (s.yields (e.devices s.status) = true ↔
      s.status ≠ .idle ∧ s.rings < s'.rings) := by
  obtain ⟨r, hr, rfl⟩ := Option.map_eq_some_iff.mp hs
  obtain ⟨p, hp⟩ := h.ticking
  have hlater := h.later hp
  obtain ⟨htimely, hle⟩ := h.steady.timely.tick
  have hless : s.tick.stats.totalTicks ≤ s.stats.totalTicks + systemTick := by
    unfold tick systemTick userTick
    simp only
    split <;> simp
  have htick : Ticking randomize s.tick p := hp.clock rfl rfl rfl hle (by omega)
  have hpassed := htick.passed hplain htimely rfl h.steady.inHandler (r := r) hr
  obtain ⟨hsteady, hstats⟩ := hpassed.steady.afterTick
  obtain ⟨p', hp'⟩ := hpassed.ticking
  have hnot : s.tick.yieldOnReturn = false := h.yieldOnReturn
  have hyields := hpassed.rung.yields
  rw [hnot] at hyields
  obtain ⟨hlog, htimers, hworld, hoff, hhalted⟩ :
      r.1.afterTick.log = r.1.log ∧ r.1.afterTick.timers = r.1.timers ∧
        r.1.afterTick.world = r.1.world ∧ r.1.afterTick.yieldOnReturn = false ∧
        r.1.afterTick.halted = r.1.halted := by
    unfold afterTick
    split
    · exact ⟨rfl, rfl, rfl, rfl, rfl⟩
    · next hno => exact ⟨rfl, rfl, rfl, eq_false_of_ne_true hno, rfl⟩
  have hrings : r.1.afterTick.rings = r.1.rings := congrArg (List.countP _) hlog
  refine ⟨⟨hsteady, ⟨p', hp'.clock htimers hrings hworld (by rw [hstats]) ?_⟩, hoff, ?_⟩, ?_⟩
  · rw [hstats]
    exact hp'.close
  · rw [hhalted, hpassed.halted]
    exact h.halted
  · rw [yields, hr, hrings]
    exact hyields.trans (by simp [tick, rings])

/-- `Idle` finds the timer interrupt, and does not halt the machine. -/
theorem Alarmed.idle (hplain : e.Plain) (h : Alarmed randomize s) (hlevel : s.level = .off)
    (hs : s.idle (e.devices .idle) = some s') : Alarmed randomize s' := by
  obtain ⟨r, hr, rfl⟩ := Option.map_eq_some_iff.mp hs
  obtain ⟨p, hp⟩ := h.ticking
  let t : Interrupt (Source κ) η (Timer × ω) := { s with status := .idle }
  have ht : Timely t := h.steady.timely.frame rfl rfl rfl rfl rfl le_rfl h.steady.timely.clock
  have hpt : Ticking randomize t p := hp.clock rfl rfl rfl le_rfl hp.close
  have hpassed := hpt.passed hplain ht hlevel h.steady.inHandler hr
  obtain ⟨p', hp'⟩ := hpassed.ticking
  have hnot : ¬ r.1.yieldOnReturn = true := by
    rw [hpassed.rung.yields]
    rintro (hyes | ⟨hidle, -⟩)
    · exact absurd (h.yieldOnReturn.symm.trans hyes) (by decide)
    · exact hidle rfl
  rw [if_pos (hpassed.advanced rfl)]
  have hsteady : Steady { r.1 with status := .system } :=
    hpassed.steady.frame rfl rfl rfl rfl rfl rfl rfl
  exact ⟨hsteady, ⟨p', hp'.clock rfl rfl rfl le_rfl hp'.close⟩, eq_false_of_ne_true hnot,
    hpassed.halted.trans h.halted⟩

theorem Alarmed.schedule (h : Alarmed randomize s) {d : Devices (Source κ) η (Timer × ω)}
    {r : Request κ η} (hr : r.Plain) (hs : s.schedule d r.device = some s') :
    Alarmed randomize s' := by
  obtain ⟨t, ht, hadded⟩ := h.steady.timely.schedule (d := d) (Request.plain_device hr)
  obtain rfl := Option.some.inj (ht.symm.trans hs)
  have hfold : [r.device].foldlM (Interrupt.schedule d) s = some t := by
    rw [List.foldlM_cons, ht]
    rfl
  have hplain : ∀ r' ∈ [r], r'.Plain := fun r' hr' => List.mem_singleton.mp hr' ▸ hr
  obtain ⟨-, hsame, hperm⟩ := h.steady.timely.device_requests hplain hfold
  obtain ⟨p, hp⟩ := h.ticking
  have htimers : t.timers = s.timers := by
    rw [hp.timers] at hperm ⊢
    exact List.perm_singleton.mp hperm
  exact h.frame ⟨hadded.timely, hadded.settled h.steady.settled,
    hadded.inHandler.trans h.steady.inHandler⟩ htimers hsame.log hsame.world hsame.stats
    hsame.yieldOnReturn hadded.halted

theorem Alarmed.step (hplain : e.Plain) (h : Alarmed randomize s) {event : InterruptEvent κ η}
    (hevent : event.Plain) (hs : s.timedStep e event = some s') : Alarmed randomize s' := by
  have hon : ¬ (s.halted || s.crashed) = true := by
    rw [h.halted, h.steady.timely.crashed]
    decide
  unfold timedStep Interrupt.step at hs
  rw [if_neg hon] at hs
  cases event with
  | schedule r => exact h.schedule hevent hs
  | setLevel now =>
    simp only [InterruptEvent.device, statusDuring] at hs
    unfold Interrupt.setLevel at hs
    rw [if_neg (by rw [h.steady.inHandler]; simp)] at hs
    have hframe : Alarmed randomize { s with level := now } :=
      h.frame (h.steady.frame rfl rfl rfl rfl rfl rfl rfl) rfl rfl rfl rfl rfl rfl
    split at hs
    · exact (hframe.oneTick hplain hs).1
    · obtain rfl := Option.some.inj hs
      exact hframe
  | oneTick => exact (h.oneTick hplain hs).1
  | idle =>
    have hlevel : s.level = .off := by
      cases hl : s.level with
      | off => rfl
      | on => simp [InterruptEvent.device, Interrupt.idle, Interrupt.checkIfDue, hl] at hs
    exact h.idle hplain hlevel hs
  | setStatus st =>
    obtain rfl := Option.some.inj hs
    exact h.frame (h.steady.frame rfl rfl rfl rfl rfl rfl rfl) rfl rfl rfl rfl rfl rfl

/-- `Enable` advances the clock by one `SystemTick`. Nothing is pending. -/
theorem setLevel_start (d : Devices κ η ω) (world : ω) :
    ∃ s, (start world : Interrupt κ η ω).setLevel d .on = some s ∧ Steady s ∧
      s.world = world ∧ s.log = [] ∧ s.pending.items = [] ∧ s.stats.totalTicks = systemTick ∧
      s.yieldOnReturn = false ∧ s.halted = false := by
  refine ⟨_, rfl, ⟨?_, ?_, rfl⟩, rfl, rfl, rfl, rfl, rfl, rfl⟩
  · refine (timely_start world).frame rfl rfl rfl rfl rfl ?_ rfl
    show (0 : Int) ≤ 0 + systemTick
    decide
  · exact fun p hp => absurd hp List.not_mem_nil

/-- The alarm has been set for the first time. -/
theorem alarmed_withAlarm (e : Surroundings κ η ω) (randomSlice : Bool) (world : ω) :
    ∃ s, withAlarm e randomSlice world = some s ∧ s.stats.totalTicks = systemTick ∧ s.rings = 0 ∧
      Alarmed randomSlice s := by
  let timer : Timer := ⟨randomSlice, false, 0⟩
  obtain ⟨hmin, hmax⟩ := delay_bounds e.randomNumber timer
  have hpos : 0 < minDelay randomSlice := by cases randomSlice <;> decide
  let t : Timer := { timer with drawn := if randomSlice then timer.drawn + 1 else timer.drawn }
  obtain ⟨s₁, hs₁, hsteady, hworld, hlog, hitems, hticks, hyield, hhalted⟩ :=
    setLevel_start (η := η) (e.devices .system) (t, world)
  have hdelay : (0 : Int) < (timer.delay e.randomNumber : Nat) := by
    have hle : minDelay randomSlice ≤ timer.delay e.randomNumber := hmin
    omega
  obtain ⟨s, hs, hadded⟩ :=
    hsteady.timely.schedule (d := e.devices .system) (r := .object .timer _ .timer) hdelay
  obtain ⟨-, hsame, q, hq, hwhen, hperm⟩ := hsteady.timely.object_cases hdelay hs
  have hrings : s.rings = 0 := by
    rw [rings, hsame.log, hlog]
    rfl
  have htotal : s.stats.totalTicks = systemTick := (congrArg _ hsame.stats).trans hticks
  have hwhen' : q.when = systemTick + (timer.delay e.randomNumber : Nat) := by
    rw [hwhen, hticks]
  have htick : systemTick = 10 := rfl
  have hmin' : minDelay randomSlice ≤ timer.delay e.randomNumber := hmin
  have hmax' : timer.delay e.randomNumber ≤ maxDelay randomSlice := hmax
  refine ⟨s, ?_, htotal, hrings, ⟨hadded.timely, hadded.settled hsteady.settled,
    hadded.inHandler.trans hsteady.inHandler⟩, ⟨q, ?_, ?_, ?_, ?_, ?_, ?_, ?_, ?_⟩,
    hsame.yieldOnReturn.trans hyield, hadded.halted.trans hhalted⟩
  · have halarm : withAlarm e randomSlice world =
      ((start (t, world)).setLevel (e.devices .system) .on).bind fun enabled =>
        [Request.object .timer (timer.delay e.randomNumber) .timer].foldlM
          (schedule (e.devices .system)) enabled := rfl
    rw [halarm, hs₁, Option.bind_some, List.foldlM_cons, hs]
    rfl
  · have hfilter := hperm.filter fun p => decide (p.callOnInterrupt = some .timer)
    rw [hitems, List.filter_cons_of_pos (by rw [hq]; simp)] at hfilter
    exact List.perm_singleton.mp hfilter
  · rw [hsame.world, hworld]
  · rw [hsame.world, hworld]
  all_goals
    simp only [hrings, htotal, hwhen']
    push_cast
    omega

end Ticking

end Interrupt

open Interrupt

/--
**The alarm keeps going off.**

Let the other devices make their requests as `Schedule` demands, and let only the alarm yield. From
the start of the alarm in `Kernel::Initialize` on, when the clock shows one `SystemTick`, whatever
is called of the class `Interrupt`:

* exactly one timer interrupt is pending, and it is due before the longest delay is over;
* so `Idle` never halts the machine;
* after `rings` timer interrupts, the clock has gone on by at least `rings` times the shortest
  delay, and by less than the longest delay for each of them and for the next, and the lateness of
  each, which is less than a `SystemTick`;
* `OneTick` calls `Yield` exactly if the timer interrupts in it and the machine is not idle.
-/
theorem run_alarm {κ η ω : Type*} [DecidableEq κ] [DecidableEq η] {e : Surroundings κ η ω}
    (hplain : e.Plain) (randomSlice : Bool) (world : ω) :
    ∃ s₀, withAlarm e randomSlice world = some s₀ ∧ s₀.stats.totalTicks = systemTick ∧
      s₀.rings = 0 ∧
      ∀ (events : List (InterruptEvent κ η)) (s : Interrupt (Source κ) η (Timer × ω)),
        (∀ event ∈ events, event.Plain) → run (timedStep e) s₀ events = some s →
        s.halted = false ∧
        (∃ p, s.timers = [p] ∧ s.stats.totalTicks < p.when ∧
          p.when ≤ s.stats.totalTicks + maxDelay randomSlice) ∧
        systemTick + s.rings * minDelay randomSlice ≤ s.stats.totalTicks ∧
        s.stats.totalTicks <
          systemTick + (s.rings + 1) * maxDelay randomSlice + s.rings * (systemTick - 1) ∧
        ∃ t, timedStep e s .oneTick = some t ∧
          (s.yields (e.devices s.status) = true ↔ s.status ≠ .idle ∧ s.rings < t.rings) := by
  obtain ⟨s₀, hstart, hticks, hrings, halarmed⟩ := alarmed_withAlarm e randomSlice world
  refine ⟨s₀, hstart, hticks, hrings, fun events s hevents hrun => ?_⟩
  have hall : AllSteps (timedStep e) (fun _ event => event.Plain) s₀ events :=
    allSteps_of_forall hevents
  have h : Alarmed randomSlice s :=
    (run_guarded (P := fun _ _ => True) (fun _ _ _ ht he hs => ⟨ht.step hplain he hs, trivial⟩)
      halarmed hall hrun).1
  obtain ⟨p, hp⟩ := h.ticking
  have hlater := h.later hp
  obtain ⟨t, ht, -⟩ := h.steady.oneTick (devices_plain hplain s.status)
  have hgo : timedStep e s .oneTick = some t := by
    have hon : ¬ (s.halted || s.crashed) = true := by
      rw [h.halted, h.steady.timely.crashed]
      decide
    unfold timedStep Interrupt.step
    rw [if_neg hon]
    exact ht
  exact ⟨h.halted, ⟨p, hp.timers, hlater, hp.soon⟩, hp.elapsed, hlater.trans_le hp.late,
    t, hgo, (h.oneTick hplain ht).2⟩

/-- No other device, and a timer that is not random. -/
def onlyAlarm : Surroundings Nat Unit Unit where
  randomNumber := fun _ => 0
  callBack := fun _ _ _ => ⟨(), [], false⟩
  garbage := fun _ => 0

theorem onlyAlarm_plain : onlyAlarm.Plain where
  requests _ _ _ _ hr := absurd hr List.not_mem_nil
  yields _ _ _ := rfl

/-- A machine that has only to wait for the alarm, which rings for the first time at 110. -/
theorem run_alarm_idle :
    ∃ s₀ s, withAlarm onlyAlarm false () = some s₀ ∧
      run (timedStep onlyAlarm) s₀ [.setLevel .off, .idle, .idle] = some s ∧ s.halted = false ∧
      s.rings = 2 ∧ s.stats.totalTicks = 210 ∧
      ∃ p, s.timers = [p] ∧ s.stats.totalTicks < p.when ∧
        p.when ≤ s.stats.totalTicks + maxDelay false := by
  obtain ⟨s₀, hstart, -, -, hrun⟩ := run_alarm onlyAlarm_plain false ()
  have hgo : ((withAlarm onlyAlarm false ()).bind fun s =>
      run (timedStep onlyAlarm) s [.setLevel .off, .idle, .idle]).map
        (fun s => (s.rings, s.stats.totalTicks)) = some (2, 210) := by decide
  rw [hstart, Option.bind_some] at hgo
  obtain ⟨s, hs, hticks⟩ := Option.map_eq_some_iff.mp hgo
  obtain ⟨hrings, htotal⟩ := Prod.mk.inj hticks
  obtain ⟨hhalted, hpending, -⟩ := hrun _ s (fun event hevent => by
    have heq : event = .setLevel .off ∨ event = .idle := by simpa using hevent
    rcases heq with rfl | rfl <;> trivial) hs
  exact ⟨s₀, s, hstart, hs, hhalted, hrings, htotal, hpending⟩

end Nachos
