import Nachos.Base.BoundedMap
import Nachos.Filesys.Directory

/-!
# A directory as a map (`filesys/directory.cc`)

A directory maps names to sectors. Of a name only the first `FileNameMaxLen` characters count, and
the table has room for `tableSize` names. An entry that is not in use any more keeps its name; the
map has the entries in use only.

* `Directory.bindings` — the map
* `directory_refines` — any sequence of calls
-/

namespace Nachos

open Base

/-- What counts of a name. -/
abbrev NameKey := List (BitVec 8)

/-- The first `FileNameMaxLen` characters. -/
def nameKey (name : Buffer) : NameKey := cString name fileNameMaxLen

/-- The name of an entry. -/
def DirectoryEntry.key (e : DirectoryEntry) : NameKey := nameKey e.name

/-- A call of a method of `Directory`. -/
inductive DirectoryOp where
  | add (name : Buffer) (newSector : BitVec 32)
  | remove (name : Buffer)
  | find (name : Buffer)

/-- The call on the map. -/
def DirectoryOp.keyed : DirectoryOp → BoundedMap.Op NameKey (BitVec 32)
  | .add name newSector => .add (nameKey name) newSector
  | .remove name => .remove (nameKey name)
  | .find name => .find (nameKey name)

/-- What a call returns. -/
inductive DirectoryAnswer where
  | bool (b : Bool)
  | sector (x : BitVec 32)
deriving DecidableEq

/-- The answer of the map: -1 for a name that is not there. -/
def DirectoryAnswer.ofMap : BoundedMap.Answer (BitVec 32) → DirectoryAnswer
  | .done b => .bool b
  | .found x => .sector (x.getD (-1))

namespace Directory

/-- A call of a method. -/
def step (d : Directory) : DirectoryOp → Directory × DirectoryAnswer
  | .add name newSector => ((d.add name newSector).1, .bool (d.add name newSector).2)
  | .remove name => ((d.remove name).1, .bool (d.remove name).2)
  | .find name => (d, .sector (d.find name))

/-- The entries in use, as a map. -/
def bindings (d : Directory) : Finmap fun _ : NameKey => BitVec 32 :=
  toFinmap DirectoryEntry.key DirectoryEntry.sector d.files

/-- No two entries in use have the same name. -/
def Distinct (d : Directory) : Prop := (d.files.map DirectoryEntry.key).Nodup

/-! ## Names -/

theorem named_iff {e : DirectoryEntry} {name : Buffer} : e.Named name ↔ e.key = nameKey name :=
  strncmp_eq_zero_iff

theorem mem_bindings {d : Directory} {k : NameKey} :
    k ∈ d.bindings ↔ ∃ e ∈ d.files, e.key = k :=
  mem_toFinmap

theorem findIndex_isSome {d : Directory} {name : Buffer} :
    (d.findIndex name).isSome = true ↔ nameKey name ∈ d.bindings := by
  unfold findIndex
  rw [List.findIdx?_isSome, List.any_eq_true, mem_bindings]
  constructor
  · rintro ⟨e, he, hmatch⟩
    rw [Bool.and_eq_true, decide_eq_true_eq] at hmatch
    exact ⟨e, List.mem_filter.mpr ⟨he, hmatch.1⟩, named_iff.mp hmatch.2⟩
  · rintro ⟨e, he, hkey⟩
    obtain ⟨hmem, hused⟩ := List.mem_filter.mp he
    refine ⟨e, hmem, ?_⟩
    rw [Bool.and_eq_true, decide_eq_true_eq]
    exact ⟨hused, named_iff.mpr hkey⟩

/-- There is a free entry unless all of them are in use. -/
theorem free_isSome {d : Directory} :
    (d.table.findIdx? fun e => !e.inUse).isSome = true ↔ d.files.length < d.table.length := by
  have hle : d.files.length ≤ d.table.length := List.length_filter_le _ _
  have hfull : d.files.length = d.table.length ↔ ∀ e ∈ d.table, e.inUse = true :=
    List.length_filter_eq_length_iff
  rw [List.findIdx?_isSome, List.any_eq_true]
  constructor
  · rintro ⟨e, he, hfree⟩
    refine lt_of_le_of_ne hle fun heq => ?_
    rw [hfull.mp heq e he] at hfree
    exact absurd hfree (by decide)
  · intro hlt
    by_contra hnone
    refine absurd (hfull.mpr fun e he => ?_) (Nat.ne_of_lt hlt)
    by_contra hused
    exact hnone ⟨e, he, by simpa using hused⟩

/-! ## The three methods -/

variable {d : Directory} {name : Buffer}

theorem add_snd (newSector : BitVec 32) : (d.add name newSector).2 = true ↔
    nameKey name ∉ d.bindings ∧ d.files.length < d.table.length := by
  rw [← findIndex_isSome, ← free_isSome]
  unfold add
  cases d.findIndex name with
  | some i => simp
  | none =>
    cases d.table.findIdx? fun e => !e.inUse with
    | none => simp
    | some i => simp

theorem remove_snd : (d.remove name).2 = true ↔ nameKey name ∈ d.bindings := by
  rw [← findIndex_isSome]
  unfold remove
  cases d.findIndex name with
  | none => simp
  | some i => simp

/-- `Find` looks the name up. -/
theorem find_bindings (hd : d.Distinct) :
    d.find name = (d.bindings.lookup (nameKey name)).getD (-1) := by
  rcases find_eq d name with ⟨hfind, hremove⟩ | ⟨d', e, hfind, hnamed, -, -, hperm⟩
  · have habsent : nameKey name ∉ d.bindings := by
      rw [← remove_snd, hremove]
      exact Bool.false_ne_true
    rw [hfind, Finmap.lookup_eq_none.mpr habsent, Option.getD_none]
  · rw [hfind, ← named_iff.mp hnamed]
    unfold bindings
    rw [toFinmap_perm hd hperm, toFinmap_cons, Finmap.lookup_insert, Option.getD_some]

/-- The map has as many names as there are entries in use. -/
theorem card_bindings (hd : d.Distinct) : d.bindings.keys.card = d.files.length :=
  card_keys_toFinmap hd

/-- What holds between the calls. -/
structure Sound (size : Nat) (d : Directory) : Prop where
  distinct : d.Distinct
  length : d.table.length = size

variable {size : Nat}

/-- `Add` adds the name, if it is new and there is room. -/
theorem add_refines (hd : d.Sound size) (newSector : BitVec 32) :
    (d.add name newSector).1.Sound size ∧
      BoundedMap.step size d.bindings (.add (nameKey name) newSector) =
        ((d.add name newSector).1.bindings, .done (d.add name newSector).2) := by
  have hiff := @add_snd d name newSector
  rw [← card_bindings hd.distinct, hd.length] at hiff
  rcases add_eq d name newSector with heq | ⟨d', e, heq, hsector, hnamed, hlength, hperm⟩
  · rw [heq] at hiff ⊢
    exact ⟨hd, BoundedMap.step_add_refused newSector fun h =>
      absurd (hiff.mpr h) Bool.false_ne_true⟩
  · rw [heq] at hiff ⊢
    obtain ⟨hnew, hroom⟩ := hiff.mp rfl
    have hkey := named_iff.mp hnamed
    have hdistinct : d'.Distinct := by
      refine (hperm.map DirectoryEntry.key).nodup_iff.mpr (List.nodup_cons.mpr ⟨?_, hd.distinct⟩)
      intro hmem
      obtain ⟨e', he', hk⟩ := List.mem_map.mp hmem
      exact hnew (mem_bindings.mpr ⟨e', he', hk.trans hkey⟩)
    refine ⟨⟨hdistinct, hlength.trans hd.length⟩, ?_⟩
    rw [BoundedMap.step_add newSector ⟨hnew, hroom⟩, ← hkey, ← hsector, bindings, bindings,
      toFinmap_perm hdistinct hperm, toFinmap_cons]

/-- `Remove` removes the name, if it is there. -/
theorem remove_refines (hd : d.Sound size) :
    (d.remove name).1.Sound size ∧
      BoundedMap.step size d.bindings (.remove (nameKey name)) =
        ((d.remove name).1.bindings, .done (d.remove name).2) := by
  have hiff := @remove_snd d name
  rcases find_eq d name with ⟨-, heq⟩ | ⟨d', e, -, hnamed, heq, hlength, hperm⟩
  · rw [heq] at hiff ⊢
    exact ⟨hd, BoundedMap.step_remove_refused fun h => absurd (hiff.mpr h) Bool.false_ne_true⟩
  · rw [heq] at hiff ⊢
    have hkey := named_iff.mp hnamed
    have hdistinct : d'.Distinct :=
      (List.nodup_cons.mp ((hperm.map DirectoryEntry.key).nodup_iff.mp hd.distinct)).2
    refine ⟨⟨hdistinct, hlength.trans hd.length⟩, ?_⟩
    rw [BoundedMap.step_remove (hiff.mp rfl), ← hkey]
    exact Prod.ext (toFinmap_erase hd.distinct hperm).symm rfl

/-- Every call does what it does on the map. -/
theorem step_refines (hd : d.Sound size) (op : DirectoryOp) :
    (d.step op).1.Sound size ∧
      (d.step op).1.bindings = (BoundedMap.step size d.bindings op.keyed).1 ∧
      (d.step op).2 = .ofMap (BoundedMap.step size d.bindings op.keyed).2 := by
  cases op with
  | add name newSector =>
    obtain ⟨hsound, hstep⟩ := @add_refines d name size hd newSector
    refine ⟨hsound, ?_⟩
    rw [DirectoryOp.keyed, hstep]
    exact ⟨rfl, rfl⟩
  | remove name =>
    obtain ⟨hsound, hstep⟩ := @remove_refines d name size hd
    refine ⟨hsound, ?_⟩
    rw [DirectoryOp.keyed, hstep]
    exact ⟨rfl, rfl⟩
  | find name =>
    exact ⟨hd, rfl, congrArg DirectoryAnswer.sector (find_bindings hd.distinct)⟩

/-! ## Any sequence of calls -/

theorem files_new (fresh : Buffer) (size : Nat) : (new fresh size).files = [] := by
  refine List.filter_eq_nil_iff.mpr fun e he => ?_
  obtain ⟨e', -, rfl⟩ := List.mem_map.mp he
  rw [DirectoryEntry.inUse_setInUse]
  decide

theorem sound_new (fresh : Buffer) (size : Nat) : (new fresh size).Sound size := by
  refine ⟨?_, length_new fresh size⟩
  unfold Distinct
  rw [files_new]
  exact List.nodup_nil

theorem bindings_new (fresh : Buffer) (size : Nat) : (new fresh size).bindings = ∅ := by
  unfold bindings
  rw [files_new]
  rfl

/-- From any directory in which the names are distinct. -/
theorem Sound.run_refines (hd : d.Sound size) (ops : List DirectoryOp) :
    (runAnswers step d ops).1.Sound size ∧
      (runAnswers step d ops).1.bindings =
        (runAnswers (BoundedMap.step size) d.bindings (ops.map DirectoryOp.keyed)).1 ∧
      (runAnswers step d ops).2 =
        (runAnswers (BoundedMap.step size) d.bindings (ops.map DirectoryOp.keyed)).2.map
          DirectoryAnswer.ofMap := by
  let astep (m : Finmap fun _ : NameKey => BitVec 32) (op : DirectoryOp) :=
    ((BoundedMap.step size m op.keyed).1, DirectoryAnswer.ofMap (BoundedMap.step size m op.keyed).2)
  have hstep : ∀ (d : Directory) op, d.Sound size → (d.step op).1.Sound size ∧
      astep d.bindings op = ((d.step op).1.bindings, (d.step op).2) := by
    intro d op hd
    obtain ⟨hsound, hbindings, hanswer⟩ := step_refines hd op
    exact ⟨hsound, Prod.ext hbindings.symm hanswer.symm⟩
  obtain ⟨hsound, hrun⟩ := runAnswers_simulation hstep hd ops
  rw [runAnswers_map, Prod.mk.injEq] at hrun
  exact ⟨hsound, hrun.1.symm, hrun.2.symm⟩

end Directory

/--
**A directory is a bounded map.**

After any sequence of calls on a new directory: the answers are those of the map with room for
`size` names, the entries in use are its bindings and have different names, every name is bound to
the sector of its last successful `Add` that no `Remove` came after, and a call changes the binding
of its own name only.
-/
theorem directory_refines (fresh : Buffer) (size : Nat) (ops : List DirectoryOp) :
    ∃ d answers calls,
      runAnswers Directory.step (Directory.new fresh size) ops =
        (d, answers.map DirectoryAnswer.ofMap) ∧
      runAnswers (BoundedMap.step size) ∅ calls = (d.bindings, answers) ∧
      calls = ops.map DirectoryOp.keyed ∧
      d.Distinct ∧ d.bindings.keys.card = d.files.length ∧ d.files.length ≤ size ∧
      (∀ name, d.find name =
        (BoundedMap.lastAdded (nameKey name) (calls.zip answers)).getD (-1)) ∧
      ∀ op k, op.keyed.key ≠ k → (d.step op).1.bindings.lookup k = d.bindings.lookup k := by
  obtain ⟨hsound, hbindings, hanswers⟩ := (Directory.sound_new fresh size).run_refines ops
  rw [Directory.bindings_new] at hbindings hanswers
  refine ⟨_, _, _, Prod.ext rfl hanswers, Prod.ext hbindings.symm rfl, rfl, hsound.distinct,
    Directory.card_bindings hsound.distinct, ?_, fun name => ?_, fun op k hk => ?_⟩
  · exact (List.length_filter_le _ _).trans hsound.length.le
  · rw [Directory.find_bindings hsound.distinct, hbindings, BoundedMap.lookup_run_empty]
  · rw [(Directory.step_refines hsound op).2.1]
    exact BoundedMap.lookup_step_of_ne hk

end Nachos
