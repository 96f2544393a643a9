import Nachos.Lib.HashTable

/-!
# Iterators of hash tables (`lib/hash.h`, `lib/hash.cc`)

The class `HashIterator`: the number of a bucket and an iterator of its list, or `NULL` behind the
last bucket. Empty buckets are left out by `FindNextFullBucket`.

* `fullBucketLoop_spec` — between two buckets that are visited there is nothing
* `visit_eq_contents` — the loop over a table ends and looks at every item once
-/

namespace Nachos

open Base

variable {κ α : Type*} {getKey : α → κ} {hash : κ → BitVec 32}

namespace HashTable

/-- The loop of `HashTable::FindNextFullBucket`; the fuel is the number of buckets ahead. -/
def fullBucketLoop (t : HashTable getKey hash) : Nat → Nat → Nat
  | 0, bucket => bucket
  | fuel + 1, bucket =>
    match t.buckets[bucket]? with
    | none => bucket
    | some list => if !list.isEmpty then bucket else t.fullBucketLoop fuel (bucket + 1)

/-- `HashTable::FindNextFullBucket`. -/
def findNextFullBucket (t : HashTable getKey hash) (bucket : Nat) : Nat :=
  t.fullBucketLoop (t.numBuckets - bucket) bucket

end HashTable

/-- The class `HashIterator`. -/
structure HashIterator {κ α : Type*} (getKey : α → κ) (hash : κ → BitVec 32) where
  table : HashTable getKey hash
  bucket : Nat
  bucketIter : Option (ListIterator α)

namespace HashIterator

/-- The iterator at the first item of the next full bucket from `start` on. -/
def enter (table : HashTable getKey hash) (start : Nat) : HashIterator getKey hash :=
  let bucket := table.findNextFullBucket start
  { table := table
    bucket := bucket
    bucketIter :=
      if bucket < table.numBuckets then table.buckets[bucket]?.map ListIterator.new else none }

/-- `HashIterator::HashIterator`. -/
def new (table : HashTable getKey hash) : HashIterator getKey hash := enter table 0

/-- `HashIterator::IsDone`. -/
def isDone (iterator : HashIterator getKey hash) : Bool :=
  iterator.bucket == iterator.table.numBuckets

/-- `HashIterator::Item`. -/
def item (iterator : HashIterator getKey hash) : Option α :=
  if iterator.isDone then none else iterator.bucketIter.bind fun bucketIter => bucketIter.item

/-- `HashIterator::Next`. -/
def next (iterator : HashIterator getKey hash) : Option (HashIterator getKey hash) :=
  iterator.bucketIter.bind fun bucketIter =>
    bucketIter.next.bind fun bucketIter =>
      if bucketIter.isDone then some (enter iterator.table (iterator.bucket + 1))
      else some { iterator with bucketIter := some bucketIter }

def cursor : Cursor (HashIterator getKey hash) α := { done := isDone, item := item, next := next }

end HashIterator

section Contents

variable {t : HashTable getKey hash} {contents : List (List α)}

namespace HashTable

/-- The loop stops at a full bucket or behind the last one, and passes only empty ones. -/
theorem fullBucketLoop_spec (h : List.Forall₂ NodeList.Holds t.buckets contents)
    {fuel start : Nat} (hfuel : start + fuel = t.numBuckets) :
    (contents.drop start).flatten = (contents.drop (t.fullBucketLoop fuel start)).flatten ∧
      (t.fullBucketLoop fuel start = t.numBuckets ∨
        start ≤ t.fullBucketLoop fuel start ∧ ∃ list x xs,
          t.buckets[t.fullBucketLoop fuel start]? = some list ∧
          contents[t.fullBucketLoop fuel start]? = some (x :: xs) ∧ list.Holds (x :: xs)) := by
  induction fuel generalizing start with
  | zero => exact ⟨rfl, Or.inl hfuel⟩
  | succ fuel ih =>
    have hlt : start < t.buckets.length := by
      show start < t.numBuckets
      omega
    obtain ⟨list, xs, hlist, hxs, hholds⟩ := forall₂_getElem? h hlt
    have hempty := hholds.isEmpty
    rw [fullBucketLoop, hlist]
    cases xs with
    | nil =>
      obtain ⟨hlt', hget⟩ := List.getElem?_eq_some_iff.mp hxs
      have hnext : start + 1 + fuel = t.numBuckets := by omega
      obtain ⟨hflat, hstop⟩ := ih hnext
      rw [List.drop_eq_getElem_cons hlt', hget, List.flatten_cons, List.nil_append]
      simp only [hempty, List.isEmpty_nil]
      refine ⟨hflat, hstop.imp_right ?_⟩
      rintro ⟨hle, hfull⟩
      exact ⟨Nat.le_of_succ_le hle, hfull⟩
    | cons x xs =>
      simp only [hempty, List.isEmpty_cons]
      exact ⟨rfl, Or.inr ⟨le_rfl, list, x, xs, hlist, hxs, hholds⟩⟩

end HashTable

namespace HashIterator

/-- Inside a bucket; behind its last item comes what the next full bucket yields. -/
theorem yields_bucket {bucket : Nat} {bucketIter : ListIterator α} {x : α} {xs rest : List α}
    (hlt : bucket < t.numBuckets) (hiter : ListIterator.cursor.Yields bucketIter (x :: xs))
    (hrest : cursor.Yields (enter t (bucket + 1)) rest) :
    cursor.Yields (⟨t, bucket, some bucketIter⟩ : HashIterator getKey hash)
      ((x :: xs) ++ rest) := by
  have hdone : ∀ bucketIter : ListIterator α,
      (⟨t, bucket, some bucketIter⟩ : HashIterator getKey hash).isDone = false :=
    fun _ => beq_false_of_ne (Nat.ne_of_lt hlt)
  induction xs generalizing bucketIter x with
  | nil =>
    obtain ⟨-, hitem, bucketIter', hnext, hend⟩ := hiter
    refine ⟨hdone bucketIter, ?_, enter t (bucket + 1), ?_, hrest⟩
    · exact (if_neg (by simp [hdone])).trans hitem
    · show (bucketIter.next).bind _ = _
      rw [show bucketIter.next = some bucketIter' from hnext]
      exact if_pos hend
  | cons y ys ih =>
    obtain ⟨-, hitem, bucketIter', hnext, hiter'⟩ := hiter
    refine ⟨hdone bucketIter, ?_, ⟨t, bucket, some bucketIter'⟩, ?_, ih hiter'⟩
    · exact (if_neg (by simp [hdone])).trans hitem
    · show (bucketIter.next).bind _ = _
      rw [show bucketIter.next = some bucketIter' from hnext]
      exact if_neg (by simp [show bucketIter'.isDone = false from hiter'.1])

theorem yields_enter (h : List.Forall₂ NodeList.Holds t.buckets contents) (start : Nat)
    (hle : start ≤ t.numBuckets) :
    cursor.Yields (enter t start) (contents.drop start).flatten := by
  -- the next full bucket is nearer to the end of the array
  induction hk : t.numBuckets - start using Nat.strong_induction_on generalizing start with
  | _ k ih =>
    obtain ⟨hflat, hstop⟩ := HashTable.fullBucketLoop_spec h (Nat.add_sub_of_le hle)
    have hfind : t.fullBucketLoop (t.numBuckets - start) start = t.findNextFullBucket start := rfl
    rw [hfind] at hflat hstop
    have henter : (enter t start : HashIterator getKey hash) =
        ⟨t, t.findNextFullBucket start, if t.findNextFullBucket start < t.numBuckets then
          t.buckets[t.findNextFullBucket start]?.map ListIterator.new else none⟩ := rfl
    rw [hflat, henter]
    rcases hstop with hend | ⟨hge, list, x, xs, hlist, hxs, hholds⟩
    · have hlen : contents.length = t.numBuckets := h.length_eq.symm
      rw [hend, ← hlen, List.drop_length]
      exact beq_iff_eq.mpr hlen
    · have hlt : t.findNextFullBucket start < t.numBuckets :=
        (List.getElem?_eq_some_iff.mp hlist).1
      obtain ⟨hlt', hget⟩ := List.getElem?_eq_some_iff.mp hxs
      have hrest := ih _ (by omega) (t.findNextFullBucket start + 1) hlt rfl
      rw [List.drop_eq_getElem_cons hlt', hget, List.flatten_cons, if_pos hlt, hlist]
      exact yields_bucket hlt (ListIterator.yields hholds) hrest

theorem yields_new (h : List.Forall₂ NodeList.Holds t.buckets contents) :
    cursor.Yields (new t) contents.flatten :=
  yields_enter h 0 (Nat.zero_le _)

/--
The loop over a table has as many rounds as there are items, calls nothing on a `NULL` or finished
iterator, and looks at every stored item once, bucket after bucket.
-/
theorem visit_eq_contents [DecidableEq κ] (h : t.Holds contents) {fuel : Nat}
    (hfuel : t.numItems ≤ fuel) :
    cursor.visit fuel (new t) = some contents.flatten ∧ contents.flatten.Nodup ∧
      contents.flatten.length = t.numItems ∧
      ∀ item, item ∈ contents.flatten ↔ t.find (getKey item) = some (some item) := by
  rw [h.numItems] at hfuel
  refine ⟨Cursor.visit_eq (yields_new h.lists) (Int.ofNat_le.mp hfuel), h.keys.of_map getKey,
    h.numItems.symm, fun item => ?_⟩
  obtain ⟨found, hfind, hfound⟩ := h.toPlaced.find (getKey item)
  rw [hfind, Option.some.injEq, hfound]
  exact (and_iff_left rfl).symm

/-- Three items, in the buckets 1 and 3 of four. -/
def threeItems : Option (HashTable (fun x : Nat × Nat => x.1) (BitVec.ofNat 32)) := do
  let t ← HashTable.new.insert (3, 30)
  let t ← t.insert (1, 10)
  t.insert (7, 70)

theorem visit_eq_contents_three :
    ∃ (t : HashTable (fun x : Nat × Nat => x.1) (BitVec.ofNat 32))
      (contents : List (List (Nat × Nat))),
      threeItems = some t ∧ t.Holds contents ∧
      t.buckets.map NodeList.isEmpty = [true, false, true, false] ∧
      cursor.visit 3 (new t) = some [(1, 10), (3, 30), (7, 70)] ∧
      contents.flatten = [(1, 10), (3, 30), (7, 70)] := by
  have hnew := HashTable.holds_new (fun x : Nat × Nat => x.1) (BitVec.ofNat 32)
  obtain ⟨t₁, contents₁, hinsert₁, hholds₁, hperm₁⟩ :=
    hnew.insert (show (3, 30).1 ∉ _ by simp)
  rw [List.flatten_replicate_nil] at hperm₁
  obtain ⟨t₂, contents₂, hinsert₂, hholds₂, hperm₂⟩ :=
    hholds₁.insert (show (1, 10).1 ∉ _ by rw [(hperm₁.map _).mem_iff]; decide)
  obtain ⟨t, contents, hinsert, hholds, hperm⟩ :=
    hholds₂.insert (show (7, 70).1 ∉ _ by
      rw [((hperm₂.trans (hperm₁.cons _)).map _).mem_iff]; decide)
  have ht : threeItems = some t := by
    rw [threeItems, hinsert₁]
    show (t₁.insert (1, 10)).bind _ = _
    rw [hinsert₂]
    exact hinsert
  have hfuel : t.numItems ≤ (3 : Nat) := by
    rw [hholds.numItems, (hperm.trans ((hperm₂.trans (hperm₁.cons _)).cons _)).length_eq]
    exact Int.le_refl _
  have hvisit : threeItems.map (fun t => (t.buckets.map NodeList.isEmpty, cursor.visit 3 (new t))) =
    some ([true, false, true, false], some [(1, 10), (3, 30), (7, 70)]) := by decide
  rw [ht, Option.map_some, Option.some.injEq, Prod.mk.injEq] at hvisit
  obtain ⟨hflat, -⟩ := visit_eq_contents hholds hfuel
  exact ⟨t, contents, ht, hholds, hvisit.1, hvisit.2,
    Option.some.inj (hflat.symm.trans hvisit.2)⟩

end HashIterator

end Contents

end Nachos
