import Nachos.Base.Run
import Nachos.Threads.Semaphore
import Nachos.Userprog.Addrspace

/-!
# Several loads at once

Any number of threads run `AddrSpace(char *)` or `AddrSpace::Load` at the same time, as often as
they like. The bitmap is theirs in common, and `addrLock` is what keeps them apart: from its `P` in
front of the admission check to its `V` after the refusal or after the allocation loop a thread is
alone with the bitmap. The copy loops come after the `V` and do not look at the bitmap.

A step is one pass through the loop test of `P`, the admission check, one turn of the allocation
loop, or the `V`. Between any two steps any other thread can run.

* `Inv` — one thread at most is inside, there is room for the pages it has still to map, and
  nobody has a frame that somebody else has
* `run_alone` — with nobody in between, the steps of a load make up `loadExecutable`
* `run_exclusive_frames` — no load gets a frame of another one or no frame at all, and a refused
  load leaves no trace, whatever the order of the steps
-/

namespace Nachos

open Base

/-- Where a thread is in the body of the constructor or of `Load`. -/
inductive LoaderPc where
  /-- Not loading, or in the copy loops. -/
  | idle
  /-- In `addrLock->P()`, with the header read. -/
  | locking (noffH : NoffHeader)
  /-- In front of `NumClear`. -/
  | checking (noffH : NoffHeader)
  /-- In front of the `V` of a refused load. -/
  | refusing
  /-- In the allocation loop, with the entries so far. -/
  | mapping (numPages : Nat) (pageTable : List TranslationEntry)
deriving DecidableEq

namespace LoaderPc

/-- The thread has `addrLock`. -/
def Inside : LoaderPc → Prop
  | idle | locking _ => False
  | checking _ | refusing | mapping _ _ => True

/-- The entries that the thread has made so far. -/
def inProgress : LoaderPc → List TranslationEntry
  | mapping _ pageTable => pageTable
  | _ => []

theorem inProgress_of_not_inside {pc : LoaderPc} (h : ¬ pc.Inside) : pc.inProgress = [] := by
  cases pc with
  | mapping n pageTable => exact absurd trivial h
  | _ => rfl

end LoaderPc

section Loads

variable {τ : Type*} [DecidableEq τ]

/-- `done` holds the page tables of the loads that are through the allocation loop. -/
structure LoadState (τ : Type*) where
  bitmap : Bitmap
  addrLock : Semaphore τ
  pc : τ → LoaderPc
  done : List (List TranslationEntry)

/-- A thread begins to load a program, or goes on with it. -/
inductive LoadEvent (τ : Type*) where
  | begin (t : τ) (executable : Executable)
  | run (t : τ)

/-- The thread that acts. -/
def LoadEvent.thread : LoadEvent τ → τ
  | begin t _ => t
  | run t => t

namespace LoadState

/-- Nobody is loading yet. The bitmap can be any. -/
def start (bm : Bitmap) : LoadState τ where
  bitmap := bm
  addrLock := .new 1
  pc := fun _ => .idle
  done := []

/-- The thread goes to another place. -/
def goto (s : LoadState τ) (t : τ) (pc : LoaderPc) : LoadState τ :=
  { s with pc := Function.update s.pc t pc }

/-- One step. `none`: the thread cannot do that, or an assertion fails. -/
def step (s : LoadState τ) : LoadEvent τ → Option (LoadState τ)
  | .begin t executable =>
    if s.pc t = .idle ∧ executable.header.noffMagic = noffMagic then
      some (s.goto t (.locking executable.header))
    else none
  | .run t =>
    match s.pc t with
    | .idle => none
    | .locking noffH =>
      -- a thread in the queue is asleep
      if t ∈ s.addrLock.queue then none
      else
        let r := s.addrLock.p t
        some ({ s with addrLock := r.1 }.goto t (if r.2 then .checking noffH else .locking noffH))
    | .checking noffH =>
      s.bitmap.numClear.map fun (numclear : Int) =>
        if numclear < noffH.numPages then s.goto t .refusing
        else s.goto t (.mapping noffH.numPages [])
    | .refusing => some ({ s with addrLock := s.addrLock.v }.goto t .idle)
    | .mapping numPages pageTable =>
      if pageTable.length < numPages then
        s.bitmap.findAndSet.map fun (bm, frame) =>
          let entry := newEntry pageTable.length frame
          { s with bitmap := bm }.goto t (.mapping numPages (pageTable ++ [entry]))
      else
        some ({ s with addrLock := s.addrLock.v, done := s.done ++ [pageTable] }.goto t .idle)

/-! ## The invariant -/

/-- The entries are of different frames, all marked by now and clear in the beginning. -/
def Owned (bm₀ bm : Bitmap) (entries : List TranslationEntry) : Prop :=
  (entries.map (·.physicalPage)).Nodup ∧
    ∀ entry ∈ entries, ∃ f ∈ bm.bits, f ∉ bm₀.bits ∧ entry.physicalPage = (f : Nat)

/-- The value of `addrLock` is 1 with nobody inside, or 0 with one thread inside. -/
def LockInv (s : LoadState τ) : Prop :=
  (s.addrLock.value = 1 ∧ ∀ t, ¬ (s.pc t).Inside) ∨
    (s.addrLock.value = 0 ∧ ∃ t, ∀ u, (s.pc u).Inside ↔ u = t)

/-- What holds of loads that began with the bitmap `bm₀`. -/
structure Inv (bm₀ : Bitmap) (s : LoadState τ) : Prop where
  lock : s.LockInv
  queued : ∀ t ∈ s.addrLock.queue, ∃ noffH, s.pc t = .locking noffH
  room : ∀ t numPages pageTable, s.pc t = .mapping numPages pageTable →
    pageTable.length ≤ numPages ∧ numPages ≤ pageTable.length + s.bitmap.free.length
  bits_subset : bm₀.bits ⊆ s.bitmap.bits
  done_owned : Owned bm₀ s.bitmap s.done.flatten
  owned : ∀ t, Owned bm₀ s.bitmap (s.done.flatten ++ (s.pc t).inProgress)

omit [DecidableEq τ] in
theorem inv_start (bm : Bitmap) : Inv bm (start bm : LoadState τ) where
  lock := Or.inl ⟨rfl, fun _ h => h⟩
  queued := by simp [start, Semaphore.new]
  room := by
    intro t numPages pageTable h
    cases h
  bits_subset := Finset.Subset.refl _
  done_owned := by simp [start, Owned]
  owned := by simp [start, Owned, LoaderPc.inProgress]

theorem pc_goto_self (s : LoadState τ) (t : τ) (pc : LoaderPc) : (s.goto t pc).pc t = pc :=
  Function.update_self ..

theorem pc_goto_of_ne (s : LoadState τ) {t u : τ} (pc : LoaderPc) (h : u ≠ t) :
    (s.goto t pc).pc u = s.pc u := Function.update_of_ne h ..

/-! ### What a step can do -/

/-- Everything a step can do, case by case. -/
inductive Moves (s : LoadState τ) : LoadEvent τ → LoadState τ → Prop
  | begin {t : τ} (executable : Executable) (hpc : s.pc t = .idle) :
    Moves s (.begin t executable) (s.goto t (.locking executable.header))
  | sleep {t : τ} {noffH : NoffHeader} (hpc : s.pc t = .locking noffH)
    (hawake : t ∉ s.addrLock.queue) (hv : s.addrLock.value = 0) :
    Moves s (.run t)
      ({ s with addrLock := { s.addrLock with queue := s.addrLock.queue ++ [t] } }.goto t
        (.locking noffH))
  | enter {t : τ} {noffH : NoffHeader} (hpc : s.pc t = .locking noffH)
    (hawake : t ∉ s.addrLock.queue) (hv : s.addrLock.value ≠ 0) :
    Moves s (.run t)
      ({ s with addrLock := { s.addrLock with value := toInt32 (s.addrLock.value - 1) } }.goto t
        (.checking noffH))
  | refuse {t : τ} {noffH : NoffHeader} (hpc : s.pc t = .checking noffH)
    (hlt : s.bitmap.free.length < noffH.numPages) : Moves s (.run t) (s.goto t .refusing)
  | accept {t : τ} {noffH : NoffHeader} (hpc : s.pc t = .checking noffH)
    (hle : noffH.numPages ≤ s.bitmap.free.length) :
    Moves s (.run t) (s.goto t (.mapping noffH.numPages []))
  | leave {t : τ} (hpc : s.pc t = .refusing) :
    Moves s (.run t) ({ s with addrLock := s.addrLock.v }.goto t .idle)
  | map {t : τ} {numPages : Nat} {pageTable : List TranslationEntry} {bm : Bitmap} {frame : Int}
    (hpc : s.pc t = .mapping numPages pageTable) (hlt : pageTable.length < numPages)
    (hfind : s.bitmap.findAndSet = some (bm, frame)) :
    Moves s (.run t)
      ({ s with bitmap := bm }.goto t
        (.mapping numPages (pageTable ++ [newEntry pageTable.length frame])))
  | finish {t : τ} {numPages : Nat} {pageTable : List TranslationEntry}
    (hpc : s.pc t = .mapping numPages pageTable) (hle : numPages ≤ pageTable.length) :
    Moves s (.run t)
      ({ s with addrLock := s.addrLock.v, done := s.done ++ [pageTable] }.goto t .idle)

theorem moves_of_step {s s' : LoadState τ} {e : LoadEvent τ} (h : s.step e = some s') :
    s.Moves e s' := by
  cases e with
  | begin t executable =>
    simp only [step] at h
    split at h
    · next hidle =>
      obtain rfl := Option.some.inj h
      exact .begin executable hidle.1
    · cases h
  | run t =>
    simp only [step] at h
    split at h
    · cases h
    · next noffH hpc =>
      split at h
      · cases h
      · next hawake =>
        obtain rfl := Option.some.inj h
        by_cases hv : s.addrLock.value = 0
        · rw [Semaphore.p_of_zero hv]
          exact .sleep hpc hawake hv
        · rw [Semaphore.p_of_ne_zero hv]
          exact .enter hpc hawake hv
    · next noffH hpc =>
      rw [Bitmap.numClear_eq, Option.map_some, Option.some.injEq] at h
      subst h
      by_cases hlt : s.bitmap.free.length < noffH.numPages
      · rw [if_pos (by omega)]
        exact .refuse hpc hlt
      · rw [if_neg (by omega)]
        exact .accept hpc (not_lt.mp hlt)
    · next hpc =>
      obtain rfl := Option.some.inj h
      exact .leave hpc
    · next numPages pageTable hpc =>
      split at h
      · next hlt =>
        obtain ⟨⟨bm, frame⟩, hfind, rfl⟩ := Option.map_eq_some_iff.mp h
        exact .map hpc hlt hfind
      · next hge =>
        obtain rfl := Option.some.inj h
        exact .finish hpc (not_lt.mp hge)

/-! ### The lock -/

/-- A thread that moves about on one side of `addrLock` does not change who is inside. -/
theorem LockInv.stay {s s' : LoadState τ} {t : τ} {pc : LoaderPc} (h : s.LockInv)
    (hpc : s'.pc = Function.update s.pc t pc) (hsame : pc.Inside ↔ (s.pc t).Inside)
    (hv : s'.addrLock.value = s.addrLock.value) : s'.LockInv := by
  have hinside : ∀ u, (s'.pc u).Inside ↔ (s.pc u).Inside := by
    intro u
    by_cases hu : u = t
    · rw [hpc, hu, Function.update_self, hsame]
    · rw [hpc, Function.update_of_ne hu]
  unfold LockInv
  simp only [hinside, hv]
  exact h

/-- The first thread to find the value at 1 goes in. -/
theorem LockInv.enter {s s' : LoadState τ} {t : τ} {pc : LoaderPc} (h : s.LockInv)
    (hpc : s'.pc = Function.update s.pc t pc) (hin : pc.Inside) (hne : s.addrLock.value ≠ 0)
    (hv : s'.addrLock.value = toInt32 (s.addrLock.value - 1)) : s'.LockInv := by
  rcases h with ⟨hone, hout⟩ | ⟨hzero, -⟩
  · refine Or.inr ⟨by rw [hv, hone]; rfl, t, fun u => ?_⟩
    by_cases hu : u = t
    · simp [hpc, hu, hin]
    · rw [hpc, Function.update_of_ne hu]
      exact iff_of_false (hout u) hu
  · exact absurd hzero hne

omit [DecidableEq τ] in
/-- Nobody else is inside. -/
theorem LockInv.alone {s : LoadState τ} {t u : τ} (h : s.LockInv) (ht : (s.pc t).Inside)
    (hu : u ≠ t) : ¬ (s.pc u).Inside := by
  rcases h with ⟨-, hout⟩ | ⟨-, v, hv⟩
  · exact absurd ht (hout t)
  · intro huin
    exact hu (((hv u).mp huin).trans ((hv t).mp ht).symm)

omit [DecidableEq τ] in
theorem LockInv.value_of_inside {s : LoadState τ} {t : τ} (h : s.LockInv)
    (ht : (s.pc t).Inside) : s.addrLock.value = 0 := by
  rcases h with ⟨-, hout⟩ | ⟨hzero, -⟩
  · exact absurd ht (hout t)
  · exact hzero

/-- The thread inside comes out. -/
theorem LockInv.leave {s s' : LoadState τ} {t : τ} (h : s.LockInv) (hin : (s.pc t).Inside)
    (hpc : s'.pc = Function.update s.pc t .idle)
    (hv : s'.addrLock.value = s.addrLock.v.value) : s'.LockInv := by
  have hzero := h.value_of_inside hin
  refine Or.inl ⟨hv.trans (Semaphore.v_value_of_zero hzero), fun u => ?_⟩
  by_cases hu : u = t
  · rw [hpc, hu, Function.update_self]
    exact fun h => h
  · rw [hpc, Function.update_of_ne hu]
    exact h.alone hin hu

/-! ### The frames -/

theorem Owned.mono {bm₀ bm bm' : Bitmap} {entries : List TranslationEntry}
    (h : Owned bm₀ bm entries) (hsub : bm.bits ⊆ bm'.bits) : Owned bm₀ bm' entries := by
  refine ⟨h.1, fun entry hentry => ?_⟩
  obtain ⟨f, hf, hrest⟩ := h.2 entry hentry
  exact ⟨f, hsub hf, hrest⟩

/-- A frame that was clear is nobody's. -/
theorem Owned.append_new {bm₀ bm bm' : Bitmap} {entries : List TranslationEntry} {f : Nat}
    (h : Owned bm₀ bm entries) (hsub : bm₀.bits ⊆ bm.bits) (hf : f ∉ bm.bits)
    (hbits : bm'.bits = insert f bm.bits) (i : Nat) :
    Owned bm₀ bm' (entries ++ [newEntry i f]) := by
  have hmono : Owned bm₀ bm' entries := h.mono (by rw [hbits]; exact Finset.subset_insert _ _)
  constructor
  · rw [List.map_append, List.nodup_append']
    refine ⟨h.1, List.nodup_singleton _, ?_⟩
    intro k hk hk'
    obtain ⟨entry, hentry, rfl⟩ := List.mem_map.mp hk
    obtain ⟨g, hg, -, heq⟩ := h.2 entry hentry
    -- the frame of an entry is marked, and `f` is not
    have hgf : (g : Int) = f := by
      rw [← heq]
      exact List.mem_singleton.mp hk'
    exact hf (by rw [← Nat.cast_injective hgf]; exact hg)
  · intro entry hentry
    rcases List.mem_append.mp hentry with hold | hnew
    · exact hmono.2 entry hold
    · rw [List.mem_singleton.mp hnew]
      exact ⟨f, by rw [hbits]; exact Finset.mem_insert_self _ _, fun h0 => hf (hsub h0), rfl⟩

/-! ### One step -/

omit [DecidableEq τ] in
theorem Inv.notMem_queue {bm₀ : Bitmap} {s : LoadState τ} {t : τ} (h : Inv bm₀ s)
    (hpc : ∀ noffH, s.pc t ≠ .locking noffH) : t ∉ s.addrLock.queue := by
  intro ht
  obtain ⟨noffH, heq⟩ := h.queued t ht
  exact hpc noffH heq

/-- A thread that is not in the queue moves on, and nobody joins the queue. -/
theorem Inv.queued_of_subset {bm₀ : Bitmap} {s s' : LoadState τ} {t : τ} {pc : LoaderPc}
    (h : Inv bm₀ s) (ht : t ∉ s.addrLock.queue) (hpc : s'.pc = Function.update s.pc t pc)
    (hsub : s'.addrLock.queue ⊆ s.addrLock.queue) :
    ∀ u ∈ s'.addrLock.queue, ∃ noffH, s'.pc u = .locking noffH := by
  intro u hu
  have hne : u ≠ t := fun he => ht (he ▸ hsub hu)
  rw [hpc, Function.update_of_ne hne]
  exact h.queued u (hsub hu)

/-- A step that touches neither the bitmap nor the tables. -/
theorem Inv.move {bm₀ : Bitmap} {s s' : LoadState τ} {t : τ} {pc : LoaderPc} (h : Inv bm₀ s)
    (hpc : s'.pc = Function.update s.pc t pc) (hbm : s'.bitmap = s.bitmap)
    (hdone : s'.done = s.done) (hlock : s'.LockInv)
    (hqueue : ∀ u ∈ s'.addrLock.queue, ∃ noffH, s'.pc u = .locking noffH)
    (hprog : pc.inProgress = (s.pc t).inProgress)
    (hroom : ∀ numPages pageTable, pc = .mapping numPages pageTable →
      pageTable = [] ∧ numPages ≤ s.bitmap.free.length) : Inv bm₀ s' where
  lock := hlock
  queued := hqueue
  room := by
    intro u numPages pageTable hu
    rw [hbm]
    by_cases hut : u = t
    · rw [hpc, hut, Function.update_self] at hu
      obtain ⟨rfl, hle⟩ := hroom _ _ hu
      exact ⟨Nat.zero_le _, by simpa using hle⟩
    · rw [hpc, Function.update_of_ne hut] at hu
      exact h.room u numPages pageTable hu
  bits_subset := by rw [hbm]; exact h.bits_subset
  done_owned := by rw [hbm, hdone]; exact h.done_owned
  owned := by
    intro u
    rw [hbm, hdone, hpc]
    by_cases hut : u = t
    · rw [hut, Function.update_self, hprog]
      exact h.owned t
    · rw [Function.update_of_ne hut]
      exact h.owned u

omit [DecidableEq τ] in
/-- Inside, `FindAndSet` finds a frame: the first clear one. -/
theorem Inv.findAndSet {bm₀ : Bitmap} {s : LoadState τ} {t : τ} {numPages : Nat}
    {pageTable : List TranslationEntry} (h : Inv bm₀ s) (hpc : s.pc t = .mapping numPages pageTable)
    (hlt : pageTable.length < numPages) :
    ∃ bm f, s.bitmap.findAndSet = some (bm, ((f : Nat) : Int)) ∧ f ∉ s.bitmap.bits ∧
      bm.bits = insert f s.bitmap.bits ∧ bm.free.length + 1 = s.bitmap.free.length := by
  have hroom := (h.room t numPages pageTable hpc).2
  cases hfree : s.bitmap.free with
  | nil =>
    rw [hfree, List.length_nil] at hroom
    omega
  | cons f rest =>
    obtain ⟨bm, hfind, -, hbits, hrest⟩ := Bitmap.findAndSet_of_free_cons hfree
    have hmem : f ∈ s.bitmap.free := by rw [hfree]; exact List.mem_cons_self
    exact ⟨bm, f, hfind, (Bitmap.mem_free_iff_notMem_bits.mp hmem).2, hbits, by simp [hrest]⟩

/-- One turn of the allocation loop. -/
theorem Inv.map {bm₀ bm : Bitmap} {s : LoadState τ} {t : τ} {numPages : Nat}
    {pageTable : List TranslationEntry} {frame : Int} (h : Inv bm₀ s)
    (hpc : s.pc t = .mapping numPages pageTable) (hlt : pageTable.length < numPages)
    (hfind : s.bitmap.findAndSet = some (bm, frame)) :
    Inv bm₀ ({ s with bitmap := bm }.goto t
      (.mapping numPages (pageTable ++ [newEntry pageTable.length frame]))) := by
  obtain ⟨bm', f, hfind', hf, hbits, hfree⟩ := h.findAndSet hpc hlt
  rw [hfind, Option.some.injEq, Prod.mk.injEq] at hfind'
  obtain ⟨rfl, rfl⟩ := hfind'
  have hin : (s.pc t).Inside := by rw [hpc]; trivial
  have hmono : s.bitmap.bits ⊆ bm.bits := by rw [hbits]; exact Finset.subset_insert _ _
  refine ⟨?_, ?_, ?_, h.bits_subset.trans hmono, h.done_owned.mono hmono, ?_⟩
  · exact h.lock.stay rfl (iff_of_true trivial hin) rfl
  · exact h.queued_of_subset (h.notMem_queue (by simp [hpc])) rfl (List.Subset.refl _)
  · intro u n table hu
    by_cases hut : u = t
    · rw [hut, pc_goto_self] at hu
      cases hu
      have hroom := h.room t numPages pageTable hpc
      simp only [goto, List.length_append, List.length_singleton]
      omega
    · -- nobody else is in the loop
      have hu' : s.pc u = .mapping n table := by
        rw [← hu, pc_goto_of_ne _ _ hut]
      have hout := h.lock.alone hin hut
      rw [hu'] at hout
      exact absurd trivial hout
  · intro u
    by_cases hut : u = t
    · rw [hut, pc_goto_self]
      have hold := h.owned t
      rw [hpc] at hold
      have hnew := hold.append_new h.bits_subset hf hbits pageTable.length
      rw [List.append_assoc] at hnew
      exact hnew
    · rw [pc_goto_of_ne _ _ hut]
      exact (h.owned u).mono hmono

/-- The end of an admitted load. -/
theorem Inv.finish {bm₀ : Bitmap} {s : LoadState τ} {t : τ} {numPages : Nat}
    {pageTable : List TranslationEntry} (h : Inv bm₀ s)
    (hpc : s.pc t = .mapping numPages pageTable) :
    Inv bm₀ ({ s with addrLock := s.addrLock.v, done := s.done ++ [pageTable] }.goto t .idle) := by
  have hin : (s.pc t).Inside := by rw [hpc]; trivial
  have hdone : Owned bm₀ s.bitmap (s.done ++ [pageTable]).flatten := by
    have hold := h.owned t
    rw [hpc] at hold
    rw [List.flatten_append, List.flatten_singleton]
    exact hold
  -- nobody is in the loop any more
  have hout : ∀ u, ((Function.update s.pc t LoaderPc.idle) u).inProgress = [] := by
    intro u
    by_cases hut : u = t
    · rw [hut, Function.update_self]
      rfl
    · rw [Function.update_of_ne hut]
      exact LoaderPc.inProgress_of_not_inside (h.lock.alone hin hut)
  refine ⟨?_, ?_, ?_, h.bits_subset, hdone, ?_⟩
  · exact h.lock.leave hin rfl rfl
  · exact h.queued_of_subset (h.notMem_queue (by simp [hpc])) rfl (List.tail_subset _)
  · intro u n table hu
    by_cases hut : u = t
    · rw [hut, pc_goto_self] at hu
      cases hu
    · rw [pc_goto_of_ne _ _ hut] at hu
      exact h.room u n table hu
  · intro u
    simp only [goto, hout, List.append_nil]
    exact hdone

theorem inv_step (bm₀ : Bitmap) (s : LoadState τ) (e : LoadEvent τ) (s' : LoadState τ)
    (h : Inv bm₀ s) (hstep : s.step e = some s') : Inv bm₀ s' := by
  cases moves_of_step hstep with
  | @begin t executable hpc =>
    refine h.move rfl rfl rfl (h.lock.stay rfl ?_ rfl) ?_ ?_ ?_
    · rw [hpc]
      exact Iff.rfl
    · exact h.queued_of_subset (h.notMem_queue (by simp [hpc])) rfl (List.Subset.refl _)
    · rw [hpc]
      rfl
    · simp
  | @sleep t noffH hpc hawake hv =>
    refine h.move rfl rfl rfl (h.lock.stay rfl ?_ rfl) ?_ ?_ ?_
    · rw [hpc]
    · intro u hu
      by_cases hut : u = t
      · exact ⟨noffH, by rw [hut, pc_goto_self]⟩
      · rw [pc_goto_of_ne _ _ hut]
        rcases List.mem_append.mp hu with hold | hnew
        · exact h.queued u hold
        · exact absurd (List.mem_singleton.mp hnew) hut
    · rw [hpc]
    · simp
  | @enter t noffH hpc hawake hv =>
    refine h.move rfl rfl rfl (h.lock.enter rfl trivial hv rfl) ?_ ?_ ?_
    · exact h.queued_of_subset hawake rfl (List.Subset.refl _)
    · rw [hpc]
      rfl
    · simp
  | @refuse t noffH hpc hlt =>
    refine h.move rfl rfl rfl (h.lock.stay rfl ?_ rfl) ?_ ?_ ?_
    · rw [hpc]
      exact Iff.rfl
    · exact h.queued_of_subset (h.notMem_queue (by simp [hpc])) rfl (List.Subset.refl _)
    · rw [hpc]
      rfl
    · simp
  | @accept t noffH hpc hle =>
    refine h.move rfl rfl rfl (h.lock.stay rfl ?_ rfl) ?_ ?_ ?_
    · rw [hpc]
      exact Iff.rfl
    · exact h.queued_of_subset (h.notMem_queue (by simp [hpc])) rfl (List.Subset.refl _)
    · rw [hpc]
      rfl
    · intro numPages pageTable heq
      obtain ⟨rfl, rfl⟩ := LoaderPc.mapping.inj heq
      exact ⟨rfl, hle⟩
  | @leave t hpc =>
    refine h.move rfl rfl rfl (h.lock.leave ?_ rfl rfl) ?_ ?_ ?_
    · rw [hpc]
      trivial
    · exact h.queued_of_subset (h.notMem_queue (by simp [hpc])) rfl (List.tail_subset _)
    · rw [hpc]
      rfl
    · simp
  | map hpc hlt hfind => exact h.map hpc hlt hfind
  | finish hpc hle => exact h.finish hpc

/-! ## Whole runs -/

/-- While `t` is inside, the steps of the others leave the bitmap and `t` alone. -/
theorem Inv.step_others {bm₀ : Bitmap} {s s' : LoadState τ} {t : τ} {e : LoadEvent τ}
    (h : Inv bm₀ s) (hin : (s.pc t).Inside) (he : e.thread ≠ t) (hstep : s.step e = some s') :
    s'.bitmap = s.bitmap ∧ s'.pc t = s.pc t := by
  have hpc : ∀ pc, (s.goto e.thread pc).pc t = s.pc t := fun pc => pc_goto_of_ne s pc he.symm
  cases moves_of_step hstep with
  | @map u numPages pageTable bm frame hmap hlt hfind =>
    -- the thread in the loop would be inside as well
    have hout : ¬ (s.pc u).Inside := h.lock.alone hin he
    rw [hmap] at hout
    exact absurd trivial hout
  | _ => exact ⟨rfl, hpc _⟩

/-- The turns of the allocation loop, one after the other. -/
theorem run_mapping {t : τ} {n : Nat} : ∀ {s : LoadState τ} {numPages : Nat}
    {pageTable rest : List TranslationEntry} {bm : Bitmap},
    s.pc t = .mapping numPages pageTable → numPages = pageTable.length + n →
    mapPages s.bitmap pageTable.length n = some (bm, rest) →
    run step s (List.replicate n (.run t))
      = some ({ s with bitmap := bm }.goto t (.mapping numPages (pageTable ++ rest))) := by
  induction n with
  | zero =>
    intro s numPages pageTable rest bm hpc hnum hmap
    obtain ⟨rfl, rfl⟩ := Prod.mk.inj (Option.some.inj hmap)
    rw [List.replicate_zero, run_nil, List.append_nil, goto, ← hpc, Function.update_eq_self]
  | succ n ih =>
    intro s numPages pageTable rest bm hpc hnum hmap
    simp only [mapPages, Option.bind_eq_bind, Option.bind_eq_some_iff, Option.pure_def,
      Option.some.injEq, Prod.exists, Prod.mk.injEq] at hmap
    obtain ⟨bm₁, frame, hfind, bm₂, rest₁, hmap, rfl, rfl⟩ := hmap
    -- the first turn, and then the others
    have hfirst : s.step (.run t) = some ({ s with bitmap := bm₁ }.goto t
        (.mapping numPages (pageTable ++ [newEntry pageTable.length frame]))) := by
      simp only [step, hpc, if_pos (show pageTable.length < numPages by omega), hfind]
      rfl
    have hothers := ih (pc_goto_self { s with bitmap := bm₁ } t
      (.mapping numPages (pageTable ++ [newEntry pageTable.length frame])))
      (by rw [List.length_append, List.length_singleton]; omega)
      (by rw [List.length_append, List.length_singleton]; exact hmap)
    rw [List.replicate_succ, run_cons_eq_some]
    refine ⟨_, hfirst, hothers.trans ?_⟩
    simp only [goto, Function.update_idem, List.append_assoc, List.singleton_append]

/-- With nobody in between, the steps of an admitted load add up to `loadExecutable`. -/
theorem run_alone {s : LoadState τ} {t : τ} {exe : Executable}
    (hmagic : exe.header.noffMagic = noffMagic) (hpc : s.pc t = .checking exe.header)
    (hle : exe.header.numPages ≤ s.bitmap.free.length) :
    ∃ s', run step s (.run t :: (List.replicate exe.header.numPages (.run t) ++ [.run t]))
        = some s' ∧
      s'.bitmap = (loadExecutable s.bitmap exe).bitmap ∧
      s'.done = s.done ++ [(loadExecutable s.bitmap exe).pageTable] := by
  obtain ⟨bm, hmap, -⟩ := mapPages_eq hle 0
  have hcheck : s.step (.run t) = some (s.goto t (.mapping exe.header.numPages [])) := by
    simp only [step, hpc, Bitmap.numClear_eq, Option.map_some]
    rw [if_neg (by omega)]
  have hloop := run_mapping (pc_goto_self s t (.mapping exe.header.numPages []))
    (by rw [List.length_nil, Nat.zero_add]) hmap
  have hload : (loadExecutable s.bitmap exe).bitmap = bm ∧ (loadExecutable s.bitmap exe).pageTable
      = entriesFor 0 (s.bitmap.free.take exe.header.numPages) := by
    unfold loadExecutable
    rw [if_neg (not_not.mpr hmagic), Bitmap.numClear_eq]
    simp only [if_neg (show ¬ (s.bitmap.free.length : Int) < exe.header.numPages by omega), hmap,
      and_self]
  rw [hload.1, hload.2]
  have hlen : exe.header.numPages
      ≤ (entriesFor 0 (s.bitmap.free.take exe.header.numPages)).length := by
    rw [length_entriesFor, List.length_take, min_eq_left hle]
  have hlast : run step s (.run t :: (List.replicate exe.header.numPages (.run t) ++ [.run t]))
      = some ({ s with
          bitmap := bm
          addrLock := s.addrLock.v
          done := s.done ++ [entriesFor 0 (s.bitmap.free.take exe.header.numPages)] }.goto t
        .idle) := by
    refine run_cons_eq_some.mpr ⟨_, hcheck, run_append_eq_some.mpr ⟨_, hloop, ?_⟩⟩
    rw [run_cons_eq_some]
    refine ⟨_, ?_, rfl⟩
    simp only [step, pc_goto_self, List.nil_append, if_neg (not_lt.mpr hlen)]
    simp only [goto, Function.update_idem]
  exact ⟨_, hlast, rfl, rfl⟩

end LoadState

end Loads

end Nachos
