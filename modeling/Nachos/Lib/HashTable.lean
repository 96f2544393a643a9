import Nachos.Base.Buckets
import Nachos.Lib.ListSequence

/-!
# Hash tables (`lib/hash.h`, `lib/hash.cc`)

The class `HashTable`: an array of lists, and an item is on the list that the hash of its key
selects. An insertion first moves everything into an array four times as long if there are three
items for each bucket.

`numBuckets` is the length of the array, `InitBuckets` sets both. `getKey` and `hash` are what the
constructor is called with; they do not change. `none` is a failed assertion, or what is `none` for
the lists.

* `Placed` — the lists are well formed, each item is on its list, and no two items have one key
* `HashTable.Holds` — and `numItems` counts them
* `Placed.moveLoop` — `ReHash` moves every item
* `runReplies_eq_map` — whole runs are those of a finite map
-/

namespace Nachos

open Base

/-- The class `HashTable`. -/
structure HashTable {κ α : Type*} (getKey : α → κ) (hash : κ → BitVec 32) where
  buckets : List (NodeList α)
  numItems : Int

namespace HashTable

/-- How big a hash table do we start with. -/
def initialBuckets : Nat := 4

/-- When do we grow the hash table. -/
def resizeRatio : Int := 3

/-- How much do we grow the table when needed. -/
def increaseSizeBy : Nat := 4

variable {κ α : Type*} {getKey : α → κ} {hash : κ → BitVec 32}

def numBuckets (t : HashTable getKey hash) : Nat := t.buckets.length

/-- `HashTable::InitBuckets`. -/
def initBuckets (sz : Nat) : List (NodeList α) := List.replicate sz NodeList.empty

/-- `HashTable::HashTable`. -/
def new : HashTable getKey hash := { buckets := initBuckets initialBuckets, numItems := 0 }

/-- `HashTable::IsEmpty`. -/
def isEmpty (t : HashTable getKey hash) : Bool := t.numItems == 0

/-- `HashTable::HashValue`. -/
def hashValue (t : HashTable getKey hash) (key : κ) : Option Nat :=
  let result := (hash key).toNat % t.numBuckets
  if result < t.numBuckets then some result else none

/-- `buckets[HashValue(getKey(item))]->Append(item)`. -/
def appendItem [DecidableEq α] (t : HashTable getKey hash) (item : α) :
    Option (HashTable getKey hash) :=
  (t.hashValue (getKey item)).bind fun bucket =>
    t.buckets[bucket]?.bind fun list =>
      (list.append item).map fun list => { t with buckets := t.buckets.set bucket list }

/-- `HashTable::FindInBucket`; `some none` is `NULL`. -/
def findInBucket [DecidableEq κ] (t : HashTable getKey hash) (bucket : Nat) (key : κ) :
    Option (Option α) :=
  t.buckets[bucket]?.bind fun list =>
    ListIterator.cursor.find (fun item => key = getKey item) list.memory.size
      (ListIterator.new list)

/-- `HashTable::Find`. -/
def find [DecidableEq κ] (t : HashTable getKey hash) (key : κ) : Option (Option α) :=
  (t.hashValue key).bind fun bucket => t.findInBucket bucket key

/-- `HashTable::IsInTable`. -/
def isInTable [DecidableEq κ] (t : HashTable getKey hash) (key : κ) : Option Bool :=
  (t.find key).map (·.isSome)

/--
The bucket `i` in `HashTable::SanityCheck`. The loop goes to the end if it finds no item that does
not hash to `i`.
-/
def checkBucket (t : HashTable getKey hash) (i : Nat) (list : NodeList α) : Bool :=
  list.sanityCheck &&
    match ListIterator.cursor.find (fun item => t.hashValue (getKey item) ≠ some i)
      list.memory.size (ListIterator.new list) with
    | some none => true
    | _ => false

/-- `HashTable::SanityCheck`: whether all its assertions hold. -/
def sanityCheck (t : HashTable getKey hash) : Bool :=
  (t.buckets.zipIdx.all fun (list, i) => t.checkBucket i list) &&
    t.numItems == t.buckets.foldl (fun numFound list => numFound + list.numInList) 0

/-- `ReHash` empties one of the old lists. -/
def drainLoop [DecidableEq α] :
    Nat → NodeList α → HashTable getKey hash → Option (HashTable getKey hash)
  | 0, list, t => if list.isEmpty then some t else none
  | fuel + 1, list, t =>
    if list.isEmpty then some t
    else
      list.removeFront.bind fun (item, list) =>
        (t.appendItem item).bind fun t => drainLoop fuel list t

/-- `ReHash` goes through the old lists. -/
def moveLoop [DecidableEq α] :
    List (NodeList α) → HashTable getKey hash → Option (HashTable getKey hash)
  | [], t => some t
  | list :: oldTable, t => (drainLoop list.memory.size list t).bind fun t => moveLoop oldTable t

/-- `HashTable::ReHash`. -/
def reHash [DecidableEq α] (t : HashTable getKey hash) : Option (HashTable getKey hash) :=
  if t.sanityCheck then
    let oldTable := t.buckets
    let t := { t with buckets := initBuckets (t.numBuckets * increaseSizeBy) }
    (moveLoop oldTable t).bind fun t => if t.sanityCheck then some t else none
  else none

/-- `HashTable::Insert`. -/
def insert [DecidableEq κ] [DecidableEq α] (t : HashTable getKey hash) (item : α) :
    Option (HashTable getKey hash) :=
  let key := getKey item
  if t.isInTable key ≠ some false then none
  else
    (if resizeRatio ≤ t.numItems.tdiv t.numBuckets then t.reHash else some t).bind fun t =>
      (t.appendItem item).bind fun t =>
        let t := { t with numItems := t.numItems + 1 }
        if t.isInTable key = some true then some t else none

/-- `HashTable::Remove`. -/
def remove [DecidableEq κ] [DecidableEq α] (t : HashTable getKey hash) (key : κ) :
    Option (α × HashTable getKey hash) :=
  (t.hashValue key).bind fun bucket =>
    (t.findInBucket bucket key).bind fun found =>
      found.bind fun item =>
        t.buckets[bucket]?.bind fun list =>
          (list.remove item).bind fun list =>
            let t := { t with buckets := t.buckets.set bucket list, numItems := t.numItems - 1 }
            if t.isInTable key = some false then some (item, t) else none

/-! ## What is in a table -/

/-- The bucket that a key belongs into. -/
def bucketOf (t : HashTable getKey hash) (key : κ) : Nat := (hash key).toNat % t.numBuckets

/-- The lists hold `contents`, each item where its key belongs, and no two items have one key. -/
structure Placed (t : HashTable getKey hash) (contents : List (List α)) : Prop where
  lists : List.Forall₂ NodeList.Holds t.buckets contents
  pos : 0 < t.numBuckets
  inPlace : InPlace (fun item => t.bucketOf (getKey item)) contents
  keys : (contents.flatten.map getKey).Nodup

/-- And the items are counted. -/
structure Holds (t : HashTable getKey hash) (contents : List (List α)) : Prop
    extends Placed t contents where
  numItems : t.numItems = contents.flatten.length

section Contents

variable {t : HashTable getKey hash} {contents : List (List α)} {item : α} {key : κ}

theorem holds_new (getKey : α → κ) (hash : κ → BitVec 32) :
    Holds (new : HashTable getKey hash) (List.replicate initialBuckets []) where
  lists := by
    show List.Forall₂ _ (List.replicate initialBuckets _) (List.replicate initialBuckets _)
    simp [List.forall₂_iff_get, NodeList.holds_empty]
  pos := by simp [numBuckets, new, initBuckets, initialBuckets]
  inPlace := inPlace_replicate _ _
  keys := by simp
  numItems := by simp [new]

theorem bucketOf_lt (hpos : 0 < t.numBuckets) (key : κ) : t.bucketOf key < t.numBuckets :=
  Nat.mod_lt _ hpos

theorem hashValue_eq (hpos : 0 < t.numBuckets) (key : κ) :
    t.hashValue key = some (t.bucketOf key) :=
  if_pos (bucketOf_lt hpos key)

/-- The list of a key. -/
theorem Placed.bucket (h : Placed t contents) (key : κ) :
    ∃ list xs, t.buckets[t.bucketOf key]? = some list ∧ contents[t.bucketOf key]? = some xs ∧
      list.Holds xs :=
  forall₂_getElem? h.lists (bucketOf_lt h.pos key)

/-- `HashValue` says of every item where it is. -/
theorem Placed.hashValue {i : Nat} {xs : List α} (h : Placed t contents)
    (hxs : contents[i]? = some xs) (hitem : item ∈ xs) : t.hashValue (getKey item) = some i := by
  have hplace : t.bucketOf (getKey item) = i := h.inPlace i xs hxs item hitem
  rw [hashValue_eq h.pos, hplace]

theorem Placed.nodup_of_mem {xs : List α} (h : Placed t contents) (hxs : xs ∈ contents) :
    xs.Nodup ∧ (xs.map getKey).Nodup := by
  have hkeys := ((List.sublist_flatten_of_mem hxs).map getKey).nodup h.keys
  exact ⟨hkeys.of_map getKey, hkeys⟩

theorem Placed.find [DecidableEq κ] (h : Placed t contents) (key : κ) :
    ∃ found, t.find key = some found ∧
      ∀ item, found = some item ↔ item ∈ contents.flatten ∧ getKey item = key := by
  obtain ⟨list, xs, hlist, hxs, hholds⟩ := h.bucket key
  refine ⟨xs.find? fun item => key = getKey item, ?_, fun item => ?_⟩
  · rw [HashTable.find, hashValue_eq h.pos, Option.bind_some, findInBucket, hlist,
      Option.bind_some]
    exact Cursor.find_eq (ListIterator.yields hholds) hholds.length_le_size _
  · rw [find?_key_iff (h.nodup_of_mem (List.mem_of_getElem? hxs)).2, h.inPlace.mem_iff hxs]
    constructor
    · rintro ⟨⟨hmem, -⟩, hkey⟩
      exact ⟨hmem, hkey⟩
    · rintro ⟨hmem, rfl⟩
      exact ⟨⟨hmem, rfl⟩, rfl⟩

theorem Placed.isInTable [DecidableEq κ] (h : Placed t contents) (key : κ) :
    t.isInTable key = some (decide (key ∈ contents.flatten.map getKey)) := by
  obtain ⟨found, hfind, hfound⟩ := h.find key
  rw [HashTable.isInTable, hfind, Option.map_some, Option.some.injEq, Bool.eq_iff_iff,
    decide_eq_true_iff, Option.isSome_iff_exists, List.mem_map]
  exact exists_congr hfound

/-! ## Putting an item on its list -/

theorem Placed.set {list : NodeList α} {i : Nat} {ys : List α} (h : Placed t contents)
    (hlist : list.Holds ys) (hplace : ∀ x ∈ ys, t.bucketOf (getKey x) = i)
    (hkeys : ((contents.set i ys).flatten.map getKey).Nodup) (numItems : Int) :
    Placed (⟨t.buckets.set i list, numItems⟩ : HashTable getKey hash) (contents.set i ys) := by
  have hlen : (t.buckets.set i list).length = t.buckets.length := List.length_set
  refine ⟨forall₂_set h.lists hlist i, ?_, ?_, hkeys⟩
  · show 0 < (t.buckets.set i list).length
    rw [hlen]
    exact h.pos
  · have hplaces := h.inPlace.set hplace
    unfold bucketOf numBuckets at hplaces ⊢
    simpa only [hlen] using hplaces

theorem Placed.appendItem [DecidableEq α] (h : Placed t contents)
    (hnew : getKey item ∉ contents.flatten.map getKey) :
    ∃ t' contents', t.appendItem item = some t' ∧ Placed t' contents' ∧
      contents'.flatten.Perm (item :: contents.flatten) ∧ t'.numItems = t.numItems := by
  obtain ⟨list, xs, hlist, hxs, hholds⟩ := h.bucket (getKey item)
  have hout : item ∉ xs := by
    intro hmem
    exact hnew (List.mem_map_of_mem (List.mem_flatten.mpr ⟨xs, List.mem_of_getElem? hxs, hmem⟩))
  obtain ⟨list', hlist', hholds'⟩ := hholds.append hout
  have hperm := put_perm hxs item
  refine ⟨{ t with buckets := t.buckets.set (t.bucketOf (getKey item)) list' }, _, ?_,
    h.set hholds' ?_ ?_ t.numItems, hperm, rfl⟩
  · rw [HashTable.appendItem, hashValue_eq h.pos, Option.bind_some, hlist, Option.bind_some,
      hlist']
    rfl
  · intro x hx
    rcases List.mem_append.mp hx with hx | hx
    · exact h.inPlace _ _ hxs x hx
    · rw [List.mem_singleton.mp hx]
  · rw [(hperm.map getKey).nodup_iff]
    exact List.nodup_cons.mpr ⟨hnew, h.keys⟩

/-! ## `ReHash` -/

theorem Placed.drainLoop [DecidableEq α] {list : NodeList α} {xs : List α} {fuel : Nat}
    (h : Placed t contents) (hlist : list.Holds xs) (hfuel : xs.length ≤ fuel)
    (hkeys : ((xs ++ contents.flatten).map getKey).Nodup) :
    ∃ t' contents', HashTable.drainLoop fuel list t = some t' ∧ Placed t' contents' ∧
      contents'.flatten.Perm (xs ++ contents.flatten) ∧ t'.numItems = t.numItems := by
  induction xs generalizing fuel list t contents with
  | nil =>
    refine ⟨t, contents, ?_, h, List.Perm.refl _, rfl⟩
    have hempty : list.isEmpty = true := hlist.isEmpty
    cases fuel with
    | zero => exact if_pos hempty
    | succ fuel => exact if_pos hempty
  | cons x xs ih =>
    obtain ⟨fuel, rfl⟩ := Nat.exists_eq_add_one_of_ne_zero (Nat.ne_zero_of_lt hfuel)
    obtain ⟨list', hremove, hlist'⟩ := hlist.removeFront
    have hempty : list.isEmpty = false := hlist.isEmpty
    rw [List.cons_append, List.map_cons, List.nodup_cons] at hkeys
    have hnew : getKey x ∉ contents.flatten.map getKey := fun hmem =>
      hkeys.1 (by rw [List.map_append]; exact List.mem_append_right _ hmem)
    obtain ⟨t₁, contents₁, ht₁, hplaced₁, hperm₁, hcount₁⟩ := h.appendItem hnew
    -- no item is in between: what is still on the old list and what has been moved are all
    have hperm : (xs ++ contents₁.flatten).Perm (x :: (xs ++ contents.flatten)) :=
      (hperm₁.append_left xs).trans List.perm_middle
    have hkeys₁ : ((xs ++ contents₁.flatten).map getKey).Nodup := by
      rw [(hperm.map getKey).nodup_iff, List.map_cons]
      exact List.nodup_cons.mpr hkeys
    obtain ⟨t', contents', ht', hplaced', hperm', hcount'⟩ :=
      ih hplaced₁ hlist' (Nat.le_of_succ_le_succ hfuel) hkeys₁
    refine ⟨t', contents', ?_, hplaced', hperm'.trans hperm, hcount'.trans hcount₁⟩
    rw [HashTable.drainLoop, if_neg (by simp [hempty]), hremove, Option.bind_some]
    show (t.appendItem x).bind _ = _
    rw [ht₁, Option.bind_some, ht']

theorem Placed.moveLoop [DecidableEq α] {oldTable : List (NodeList α)} {old : List (List α)}
    (h : Placed t contents) (hold : List.Forall₂ NodeList.Holds oldTable old)
    (hkeys : ((old.flatten ++ contents.flatten).map getKey).Nodup) :
    ∃ t' contents', HashTable.moveLoop oldTable t = some t' ∧ Placed t' contents' ∧
      contents'.flatten.Perm (old.flatten ++ contents.flatten) ∧ t'.numItems = t.numItems := by
  induction hold generalizing t contents with
  | nil => exact ⟨t, contents, rfl, h, List.Perm.refl _, rfl⟩
  | @cons list xs oldTable old hlist _ ih =>
    rw [List.flatten_cons, List.append_assoc] at hkeys
    have hswap : (xs ++ (old.flatten ++ contents.flatten)).Perm
        (old.flatten ++ (xs ++ contents.flatten)) := List.perm_append_comm_assoc ..
    rw [(hswap.map getKey).nodup_iff] at hkeys
    have hfirst : ((xs ++ contents.flatten).map getKey).Nodup := by
      rw [List.map_append] at hkeys
      exact (List.nodup_append.mp hkeys).2.1
    obtain ⟨t₁, contents₁, ht₁, hplaced₁, hperm₁, hcount₁⟩ :=
      h.drainLoop hlist hlist.length_le_size hfirst
    have hperm := hperm₁.append_left old.flatten
    have hkeys₁ : ((old.flatten ++ contents₁.flatten).map getKey).Nodup := by
      rwa [(hperm.map getKey).nodup_iff]
    obtain ⟨t', contents', ht', hplaced', hperm', hcount'⟩ := ih hplaced₁ hkeys₁
    refine ⟨t', contents', ?_, hplaced', ?_, hcount'.trans hcount₁⟩
    · rw [HashTable.moveLoop, ht₁, Option.bind_some, ht']
    · rw [List.flatten_cons, List.append_assoc]
      exact hperm'.trans (hperm.trans hswap.symm)

theorem foldl_numInList {buckets : List (NodeList α)}
    (h : List.Forall₂ NodeList.Holds buckets contents) (numFound : Int) :
    buckets.foldl (fun numFound list => numFound + list.numInList) numFound =
      numFound + contents.flatten.length := by
  induction h generalizing numFound with
  | nil => exact (Int.add_zero numFound).symm
  | cons hlist _ ih =>
    rw [List.foldl_cons, ih, hlist.numInList, List.flatten_cons, List.length_append]
    omega

theorem Holds.sanityCheck (h : Holds t contents) : t.sanityCheck = true := by
  rw [HashTable.sanityCheck, Bool.and_eq_true, List.all_eq_true]
  constructor
  · rintro ⟨list, i⟩ hmem
    rw [List.mem_zipIdx_iff_getElem?] at hmem
    obtain ⟨hlt, -⟩ := List.getElem?_eq_some_iff.mp hmem
    obtain ⟨list', xs, hlist', hxs, hholds⟩ := forall₂_getElem? h.lists hlt
    obtain rfl := Option.some.inj (hmem.symm.trans hlist')
    have hnone : xs.find? (fun item => t.hashValue (getKey item) ≠ some i) = none := by
      refine List.find?_eq_none.mpr fun item hitem => ?_
      simp [h.toPlaced.hashValue hxs hitem]
    show t.checkBucket i list = true
    rw [checkBucket, hholds.sanityCheck,
      Cursor.find_eq (ListIterator.yields hholds) hholds.length_le_size, hnone]
    rfl
  · rw [beq_iff_eq, foldl_numInList h.lists, h.numItems, Int.zero_add]

theorem placed_initBuckets (getKey : α → κ) (hash : κ → BitVec 32) {sz : Nat} (hpos : 0 < sz)
    (numItems : Int) :
    Placed (⟨initBuckets sz, numItems⟩ : HashTable getKey hash) (List.replicate sz []) where
  lists := by simp [List.forall₂_iff_get, initBuckets, NodeList.holds_empty]
  pos := by simpa [numBuckets, initBuckets] using hpos
  inPlace := inPlace_replicate _ _
  keys := by simp

/-- `ReHash` keeps exactly the items that are stored. -/
theorem Holds.reHash [DecidableEq α] (h : Holds t contents) :
    ∃ t' contents', t.reHash = some t' ∧ Holds t' contents' ∧
      contents'.flatten.Perm contents.flatten := by
  have hpos : 0 < t.numBuckets * increaseSizeBy := Nat.mul_pos h.pos (Nat.succ_pos 3)
  have hempty := placed_initBuckets getKey hash hpos t.numItems
  obtain ⟨t', contents', ht', hplaced, hperm, hcount⟩ :=
    hempty.moveLoop h.lists (by simpa using h.keys)
  rw [List.flatten_replicate_nil, List.append_nil] at hperm
  have hholds : Holds t' contents' :=
    ⟨hplaced, hcount.trans (h.numItems.trans (by rw [hperm.length_eq]))⟩
  refine ⟨t', contents', ?_, hholds, hperm⟩
  rw [HashTable.reHash, if_pos h.sanityCheck]
  show (HashTable.moveLoop t.buckets _).bind _ = _
  rw [ht', Option.bind_some, if_pos hholds.sanityCheck]

/-! ## `Insert` and `Remove` -/

theorem Holds.insert [DecidableEq κ] [DecidableEq α] (h : Holds t contents)
    (hnew : getKey item ∉ contents.flatten.map getKey) :
    ∃ t' contents', t.insert item = some t' ∧ Holds t' contents' ∧
      contents'.flatten.Perm (item :: contents.flatten) := by
  obtain ⟨t₁, contents₁, ht₁, hholds₁, hperm₁⟩ : ∃ t₁ contents₁,
      (if resizeRatio ≤ t.numItems.tdiv t.numBuckets then t.reHash else some t) = some t₁ ∧
      Holds t₁ contents₁ ∧ contents₁.flatten.Perm contents.flatten := by
    split
    · exact h.reHash
    · exact ⟨t, contents, rfl, h, List.Perm.refl _⟩
  have hnew₁ : getKey item ∉ contents₁.flatten.map getKey := by
    rwa [(hperm₁.map getKey).mem_iff]
  obtain ⟨t₂, contents₂, ht₂, hplaced₂, hperm₂, hcount₂⟩ := hholds₁.appendItem hnew₁
  let t' : HashTable getKey hash := { t₂ with numItems := t₂.numItems + 1 }
  have hholds' : Holds t' contents₂ := by
    refine ⟨⟨hplaced₂.lists, hplaced₂.pos, hplaced₂.inPlace, hplaced₂.keys⟩, ?_⟩
    show t₂.numItems + 1 = _
    rw [hcount₂, hholds₁.numItems, hperm₂.length_eq]
    rfl
  have hmem : getKey item ∈ contents₂.flatten.map getKey :=
    List.mem_map_of_mem (hperm₂.mem_iff.mpr List.mem_cons_self)
  refine ⟨t', contents₂, ?_, hholds', hperm₂.trans (hperm₁.cons item)⟩
  simp only [HashTable.insert]
  rw [h.isInTable, if_neg (by simpa using hnew), ht₁, Option.bind_some, ht₂, Option.bind_some]
  exact if_pos (by rw [hholds'.isInTable, decide_eq_true hmem])

theorem Holds.remove [DecidableEq κ] [DecidableEq α] (h : Holds t contents)
    (hitem : item ∈ contents.flatten) :
    ∃ t' contents', t.remove (getKey item) = some (item, t') ∧ Holds t' contents' ∧
      contents.flatten.Perm (item :: contents'.flatten) := by
  obtain ⟨list, xs, hlist, hxs, hholds⟩ := h.bucket (getKey item)
  obtain ⟨hnodup, hkeys⟩ := h.nodup_of_mem (List.mem_of_getElem? hxs)
  have hmem : item ∈ xs := (h.inPlace.mem_iff hxs).mpr ⟨hitem, rfl⟩
  obtain ⟨list', hlist', hholds'⟩ := hholds.remove hnodup hmem
  have hperm := take_perm hxs hmem
  -- no other item has the key, so `ASSERT(!IsInTable(key))` holds at the end
  have hkeys' := (hperm.map getKey).nodup_iff.mp h.keys
  rw [List.map_cons, List.nodup_cons] at hkeys'
  let t' : HashTable getKey hash :=
    { buckets := t.buckets.set (t.bucketOf (getKey item)) list', numItems := t.numItems - 1 }
  have hplaced : Placed t' (contents.set (t.bucketOf (getKey item)) (xs.erase item)) := by
    refine h.set hholds' (fun x hx => ?_) hkeys'.2 _
    exact h.inPlace _ _ hxs x (List.mem_of_mem_erase hx)
  refine ⟨t', _, ?_, ⟨hplaced, ?_⟩, hperm⟩
  · have hfound : t.findInBucket (t.bucketOf (getKey item)) (getKey item) = some (some item) := by
      rw [findInBucket, hlist, Option.bind_some,
        Cursor.find_eq (ListIterator.yields hholds) hholds.length_le_size,
        (find?_key_iff hkeys).mpr ⟨hmem, rfl⟩]
    rw [HashTable.remove, hashValue_eq h.pos, Option.bind_some, hfound, Option.bind_some,
      Option.bind_some, hlist, Option.bind_some, hlist', Option.bind_some]
    exact if_pos (by rw [hplaced.isInTable, decide_eq_false hkeys'.1])
  · show t.numItems - 1 = _
    rw [h.numItems, hperm.length_eq, List.length_cons]
    omega

/-! ## Runs -/

/-- The calls of a hash table. -/
inductive Call (κ α : Type*) where
  | insert (item : α)
  | remove (key : κ)
  | find (key : κ)
  | isInTable (key : κ)
  | sanityCheck

/-- What they return; `found none` is `NULL`. -/
inductive Answer (α : Type*) where
  | done
  | item (x : α)
  | found (x : Option α)
  | truth (b : Bool)

/-- The call of a table. `none`: it does not return. -/
def step [DecidableEq κ] [DecidableEq α] (t : HashTable getKey hash) :
    Call κ α → Option (HashTable getKey hash × Answer α)
  | .insert item => (t.insert item).map fun t => (t, .done)
  | .remove key => (t.remove key).map fun (item, t) => (t, .item item)
  | .find key => (t.find key).map fun found => (t, .found found)
  | .isInTable key => (t.isInTable key).map fun found => (t, .truth found)
  | .sanityCheck => if t.sanityCheck then some (t, .done) else none

/-- The same call on a finite map from the keys to the items. -/
def mapStep [DecidableEq κ] (getKey : α → κ) (m : κ → Option α) :
    Call κ α → (κ → Option α) × Answer α
  | .insert item => (Function.update m (getKey item) (some item), .done)
  | .remove key => (Function.update m key none, (m key).elim .done .item)
  | .find key => (m, .found (m key))
  | .isInTable key => (m, .truth (m key).isSome)
  | .sanityCheck => (m, .done)

/-- What the calls ask for: a key that is new to insert, a key that is there to remove. -/
def Admits (getKey : α → κ) (m : κ → Option α) : Call κ α → Prop
  | .insert item => m (getKey item) = none
  | .remove key => m key ≠ none
  | .find _ => True
  | .isInTable _ => True
  | .sanityCheck => True

/-- The items of the table are those of the map. -/
def Represents (t : HashTable getKey hash) (m : κ → Option α) : Prop :=
  ∃ contents, Holds t contents ∧
    ∀ key item, m key = some item ↔ item ∈ contents.flatten ∧ getKey item = key

variable {m : κ → Option α}

theorem represents_new (getKey : α → κ) (hash : κ → BitVec 32) :
    Represents (new : HashTable getKey hash) fun _ => none :=
  ⟨_, holds_new getKey hash, fun key item => by simp⟩

theorem Represents.find [DecidableEq κ] (h : Represents t m) (key : κ) :
    t.find key = some (m key) := by
  obtain ⟨contents, hholds, hmap⟩ := h
  obtain ⟨found, hfind, hfound⟩ := hholds.find key
  rw [hfind]
  refine congrArg some (Option.ext fun item => ?_)
  rw [hfound, hmap]

theorem Represents.insert [DecidableEq κ] [DecidableEq α] (h : Represents t m)
    (hnew : m (getKey item) = none) :
    ∃ t', t.insert item = some t' ∧
      Represents t' (Function.update m (getKey item) (some item)) := by
  obtain ⟨contents, hholds, hmap⟩ := h
  have hout : ∀ x ∈ contents.flatten, getKey x ≠ getKey item := by
    intro x hx hkey
    rw [(hmap (getKey item) x).mpr ⟨hx, hkey⟩] at hnew
    cases hnew
  have hkey : getKey item ∉ contents.flatten.map getKey := by
    rintro hmem
    obtain ⟨x, hx, hxk⟩ := List.mem_map.mp hmem
    exact hout x hx hxk
  obtain ⟨t', contents', ht', hholds', hperm⟩ := hholds.insert hkey
  refine ⟨t', ht', contents', hholds', fun key x => ?_⟩
  rw [hperm.mem_iff, List.mem_cons]
  by_cases hk : key = getKey item
  · subst hk
    rw [Function.update_self, Option.some.injEq]
    constructor
    · rintro rfl
      exact ⟨Or.inl rfl, rfl⟩
    · rintro ⟨rfl | hx, hxk⟩
      · rfl
      · exact absurd hxk (hout x hx)
  · rw [Function.update_of_ne hk, hmap]
    constructor
    · rintro ⟨hx, hxk⟩
      exact ⟨Or.inr hx, hxk⟩
    · rintro ⟨rfl | hx, hxk⟩
      · exact absurd hxk.symm hk
      · exact ⟨hx, hxk⟩

theorem Represents.remove [DecidableEq κ] [DecidableEq α] (h : Represents t m)
    (hitem : m key = some item) :
    ∃ t', t.remove key = some (item, t') ∧ Represents t' (Function.update m key none) := by
  obtain ⟨contents, hholds, hmap⟩ := h
  obtain ⟨hmem, rfl⟩ := (hmap key item).mp hitem
  obtain ⟨t', contents', ht', hholds', hperm⟩ := hholds.remove hmem
  have hkeys := (hperm.map getKey).nodup_iff.mp hholds.keys
  rw [List.map_cons, List.nodup_cons] at hkeys
  refine ⟨t', ht', contents', hholds', fun key x => ?_⟩
  by_cases hk : key = getKey item
  · subst hk
    rw [Function.update_self]
    refine iff_of_false (Option.some_ne_none x).symm ?_
    rintro ⟨hx, hxk⟩
    exact hkeys.1 (List.mem_map.mpr ⟨x, hx, hxk⟩)
  · rw [Function.update_of_ne hk, hmap, hperm.mem_iff, List.mem_cons]
    constructor
    · rintro ⟨rfl | hx, hxk⟩
      · exact absurd hxk.symm hk
      · exact ⟨hx, hxk⟩
    · rintro ⟨hx, hxk⟩
      exact ⟨Or.inr hx, hxk⟩

theorem step_eq_mapStep [DecidableEq κ] [DecidableEq α] (t : HashTable getKey hash)
    (m : κ → Option α) (call : Call κ α) (h : Represents t m) (hadmits : Admits getKey m call) :
    ∃ t', t.step call = some (t', (mapStep getKey m call).2) ∧
      Represents t' (mapStep getKey m call).1 := by
  cases call with
  | insert item =>
    obtain ⟨t', ht', hrep⟩ := h.insert hadmits
    exact ⟨t', by rw [step, ht']; rfl, hrep⟩
  | remove key =>
    obtain ⟨item, hitem⟩ := Option.ne_none_iff_exists'.mp hadmits
    obtain ⟨t', ht', hrep⟩ := h.remove hitem
    exact ⟨t', by rw [step, ht', mapStep, hitem]; rfl, hrep⟩
  | find key => exact ⟨t, by rw [step, h.find]; rfl, h⟩
  | isInTable key => exact ⟨t, by rw [step, HashTable.isInTable, h.find]; rfl, h⟩
  | sanityCheck =>
    obtain ⟨contents, hholds, -⟩ := id h
    exact ⟨t, by rw [step, if_pos hholds.sanityCheck]; rfl, h⟩

/--
From the empty table, as long as the calls get what they ask for, the table answers like a finite
map. Each item is stored once, in the bucket of its key, and a `ReHash` would keep them all.
-/
theorem runReplies_eq_map [DecidableEq κ] [DecidableEq α] (calls : List (Call κ α))
    (hadmits : AllSteps (fun m call => some (mapStep getKey m call).1) (Admits getKey)
      (fun _ => none) calls) :
    ∃ (t : HashTable getKey hash) (contents : List (List α)),
      runReplies step new calls =
        some (t, (runAnswers (mapStep getKey) (fun _ => none) calls).2) ∧
      List.Forall₂ NodeList.Holds t.buckets contents ∧
      (∀ i xs, contents[i]? = some xs → ∀ x ∈ xs, t.hashValue (getKey x) = some i) ∧
      contents.flatten.Nodup ∧ t.numItems = contents.flatten.length ∧
      (∀ key item, (runAnswers (mapStep getKey) (fun _ => none) calls).1 key = some item ↔
        item ∈ contents.flatten ∧ getKey item = key) ∧
      (∀ key, t.find key =
        some ((runAnswers (mapStep getKey) (fun _ => none) calls).1 key)) ∧
      t.sanityCheck = true ∧
      ∃ t' contents', t.reHash = some t' ∧ Holds t' contents' ∧
        contents'.flatten.Perm contents.flatten := by
  obtain ⟨t, hrun, hrep⟩ :=
    runReplies_relation step_eq_mapStep (represents_new getKey hash) hadmits
  obtain ⟨contents, hholds, hmap⟩ := id hrep
  exact ⟨t, contents, hrun, hholds.lists, fun i xs hxs x hx => hholds.toPlaced.hashValue hxs hx,
    hholds.keys.of_map getKey, hholds.numItems, hmap, hrep.find, hholds.sanityCheck,
    hholds.reHash⟩

/-- Thirteen insertions into four buckets, and what comes after the `ReHash` in the last of them. -/
def growingCalls : List (Call Nat (Nat × Nat)) :=
  (List.range 13).map (fun i => .insert (i, 10 * i)) ++
    [.find 5, .remove 1, .insert (1, 11), .find 1, .find 99]

theorem runReplies_eq_map_rehash :
    ∃ (t : HashTable (fun x : Nat × Nat => x.1) (BitVec.ofNat 32))
      (contents : List (List (Nat × Nat))),
      runReplies step new growingCalls =
        some (t, List.replicate 13 .done ++ [.found (some (5, 50)), .item (1, 10), .done,
          .found (some (1, 11)), .found none]) ∧
      t.numBuckets = 16 ∧ contents.flatten.Nodup ∧ t.numItems = contents.flatten.length ∧
      t.sanityCheck = true := by
  obtain ⟨t, contents, hrun, -, -, hnodup, hcount, -, -, hsane, -⟩ :=
    @runReplies_eq_map Nat (Nat × Nat) (fun x => x.1) (BitVec.ofNat 32) _ _ growingCalls
      (by simp [growingCalls, List.range, List.range.loop, AllSteps, mapStep, Admits])
  have hbuckets : (runReplies step (new : HashTable (fun x : Nat × Nat => x.1) (BitVec.ofNat 32))
    growingCalls).map (fun r => r.1.numBuckets) = some 16 := by decide +kernel
  rw [hrun] at hbuckets
  exact ⟨t, contents, hrun, Option.some.inj hbuckets, hnodup, hcount, hsane⟩

end Contents

end HashTable

end Nachos
