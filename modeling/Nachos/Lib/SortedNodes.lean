import Nachos.Base.StableSort
import Nachos.Lib.ListSequence

/-!
# Sorted lists (`lib/list.h`, `lib/list.cc`)

`SortedList::Insert` and `List::SortedInsert` over the pointers of a list.
-/

namespace Nachos

open Base

namespace NodeList

variable {α : Type*} {l : NodeList α} {nodes pre post : List (Nat × ListElement α)} {a : Nat}
  {e : ListElement α} {xs : List α} {item : α}

/-! ## The place of a new element -/

/-- The new element is linked in between `p` and `b`. -/
theorem Loose.linkBetween {p b : Nat} {v w : ListElement α}
    (h : Loose l (pre ++ (p, v) :: (b, w) :: post) a e) :
    ∃ l₁ l', l.setNext (some a) (some b) = some l₁ ∧ l₁.setNext (some p) (some a) = some l' ∧
      Linked l' (pre ++ (p, v) :: (a, e) :: (b, w) :: post) ∧ l'.numInList = l.numInList := by
  obtain ⟨next, hp, hpost⟩ := h.node
  obtain ⟨rfl, -⟩ := id hpost
  obtain ⟨m, hset, hread⟩ := exists_setNext h.read (some b)
  have hnodup := h.chain.nodup
  have hout := h.notMem
  simp only [addresses_append, addresses_cons, List.nodup_append, List.nodup_cons,
    List.mem_cons, List.mem_append, not_or] at hnodup hout
  obtain ⟨-, ⟨⟨hpb, hpr⟩, -⟩, hpre⟩ := hnodup
  obtain ⟨hapre, hap, hab, har⟩ := hout
  have hp' : m.read p = some ⟨v, some b⟩ := by rw [hread, if_neg (Ne.symm hap), hp]
  obtain ⟨m', hset', hread'⟩ := exists_setNext (l := { l with memory := m }) hp' (some a)
  have hsame : ∀ c, c ≠ p → c ≠ a → m'.read c = l.memory.read c := by
    intro c hcp hca
    rw [hread', if_neg hcp, hread, if_neg hca]
  refine ⟨_, { l with memory := m' }, hset, hset', ?_, rfl⟩
  refine h.toLinked.splice rfl (fun c hc => ?_) (q := some a) ?_ ?_ ?_
  · exact hsame c (hpre c hc p (Or.inl rfl)) (ne_of_mem_of_not_mem hc hapre)
  · rw [hread', if_pos rfl]
  · refine ⟨rfl, some b, ?_, hpost.frame fun c hc => ?_⟩
    · rw [hread', if_neg hap, hread, if_pos rfl]
    · rcases List.mem_cons.mp hc with rfl | hc
      · exact hsame _ (Ne.symm hpb) (Ne.symm hab)
      · exact hsame c (ne_of_mem_of_not_mem hc hpr) (ne_of_mem_of_not_mem hc har)
  · show l.last = _
    rw [h.last, List.getLast?_append_of_ne_nil _ (List.cons_ne_nil _ _)]
    simp only [List.getLast?_cons_cons]

/-- The loop stands at the element `p`, behind the elements `pre`. -/
theorem Loose.insertLoop (pre : List (Nat × ListElement α)) (before : ListElement α → Bool)
    {p fuel : Nat} {v : ListElement α} (h : Loose l (pre ++ (p, v) :: post) a e)
    (hfuel : post.length < fuel) :
    (∃ l', l.insertLoop a before fuel (some p) = some (some l') ∧
      Linked l' (pre ++ (p, v) :: insertBefore (fun n => before n.2) (a, e) post) ∧
      l'.numInList = l.numInList) ∨
    (l.insertLoop a before fuel (some p) = some none ∧
      insertBefore (fun n => before n.2) (a, e) post = post ++ [(a, e)]) := by
  induction post generalizing pre p v fuel with
  | nil =>
    obtain ⟨fuel, rfl⟩ := Nat.exists_eq_add_one_of_ne_zero (Nat.ne_zero_of_lt hfuel)
    obtain ⟨next, hp, hnext⟩ := h.node
    obtain rfl : next = none := hnext
    refine Or.inr ⟨?_, rfl⟩
    rw [NodeList.insertLoop, node, Option.bind_some, hp]
    rfl
  | cons n rest ih =>
    obtain ⟨b, w⟩ := n
    obtain ⟨fuel, rfl⟩ := Nat.exists_eq_add_one_of_ne_zero (Nat.ne_zero_of_lt hfuel)
    obtain ⟨next, hp, rfl, next, hb, -⟩ := h.node
    unfold NodeList.insertLoop
    simp only [node, Option.bind_some, hp, hb, Option.bind_eq_bind]
    by_cases hbefore : before w = true
    · left
      obtain ⟨l₁, l', hset, hset', hlinked, hcount⟩ := h.linkBetween
      refine ⟨l', ?_, ?_, hcount⟩
      · rw [if_pos hbefore, hset, Option.bind_some, hset']
        rfl
      · rwa [insertBefore, if_pos hbefore]
    · rw [if_neg hbefore, insertBefore, if_neg hbefore]
      rw [List.append_cons] at h
      rcases ih (pre ++ [(p, v)]) h (Nat.lt_of_succ_lt_succ hfuel) with
        ⟨l', hl', hlinked, hcount⟩ | ⟨hl', heq⟩
      · rw [← List.append_cons] at hlinked
        exact Or.inl ⟨l', hl', hlinked, hcount⟩
      · exact Or.inr ⟨hl', congrArg _ heq⟩

theorem Loose.place (h : Loose l nodes a e) (before : ListElement α → Bool)
    (hne : l.isEmpty = false → nodes ≠ []) :
    ∃ l' early, l.place a before = some (l', early) ∧
      Linked l'
        (if l.isEmpty then [(a, e)] else insertBefore (fun n => before n.2) (a, e) nodes) ∧
      l'.numInList = l.numInList := by
  unfold NodeList.place
  split
  · exact ⟨_, _, rfl, h.alone, rfl⟩
  · next hempty =>
    obtain ⟨⟨p, v⟩, post, rfl⟩ :=
      List.exists_cons_of_ne_nil (hne (Bool.not_eq_true _ ▸ hempty))
    obtain ⟨next, hp, -⟩ := h.node_first
    simp only [node, h.first_eq, Option.bind_some, hp, Option.bind_eq_bind]
    by_cases hbefore : before v = true
    · obtain ⟨l', hl', hlinked, hcount⟩ := h.linkFirst (List.cons_ne_nil _ _)
      refine ⟨l', false, ?_, ?_, hcount⟩
      · rw [if_pos hbefore, hl']
        rfl
      · rwa [insertBefore, if_pos hbefore]
    · rw [insertBefore, if_neg hbefore, if_neg hbefore]
      have hfuel : post.length < l.memory.size := h.chain.length_le_size
      rcases Loose.insertLoop [] before h hfuel with
        ⟨l', hl', hlinked, hcount⟩ | ⟨hl', heq⟩
      · refine ⟨l', true, ?_, hlinked, hcount⟩
        rw [hl']
        rfl
      · obtain ⟨l', hlast, hlinked, hcount⟩ := h.linkLast (List.cons_ne_nil _ _)
        refine ⟨l', false, ?_, heq ▸ hlinked, hcount⟩
        rw [hl']
        simp [hlast]

/-- The chain after an insertion of the new element `n`. -/
def inserted (l : NodeList α) (before : ListElement α → Bool) (n : Nat × ListElement α)
    (nodes : List (Nat × ListElement α)) : List (Nat × ListElement α) :=
  if l.isEmpty then [n] else insertBefore (fun n => before n.2) n nodes

theorem mem_inserted (l : NodeList α) (before : ListElement α → Bool)
    (n : Nat × ListElement α) (nodes : List (Nat × ListElement α)) :
    n ∈ inserted l before n nodes := by
  unfold inserted
  split
  · exact List.mem_singleton_self n
  · exact (insertBefore_perm _ n nodes).mem_iff.mpr List.mem_cons_self

theorem Linked.insert [DecidableEq α] (h : Linked l nodes) (compare : α → α → Int)
    (hnew : item ∉ itemsOf nodes) (hne : l.isEmpty = false → nodes ≠ []) :
    ∃ l' a, l.insert compare item = some l' ∧
      Linked l' (inserted l (fun e => compare item e.item < 0) (a, ⟨item, none⟩) nodes) ∧
      l'.numInList = l.numInList + 1 := by
  have hloose := h.new { item := item, key := none }
  obtain ⟨l', early, hl', hlinked, hcount⟩ :=
    hloose.place (fun e => compare item e.item < 0) hne
  have hcounted : Linked { l' with numInList := l'.numInList + 1 } _ :=
    ⟨hlinked.chain, hlinked.last⟩
  have hmem := List.mem_map_of_mem (f := fun n => n.2.item)
    (mem_inserted l (fun e => compare item e.item < 0) (l.memory.size, ⟨item, none⟩) nodes)
  refine ⟨_, _, ?_, hcounted, congrArg (· + 1) hcount⟩
  simp only [NodeList.insert]
  rw [hloose.isInList, if_neg (by simpa using hnew), hl']
  simp only [Option.bind_eq_bind, Option.bind_some]
  rw [if_pos (Or.inr ?_)]
  rw [hcounted.isInList, decide_eq_true]
  exact hmem

theorem Linked.sortedInsert (h : Linked l nodes) (garbage : α → Int) (item : α) (sortKey : Int)
    (hne : l.isEmpty = false → nodes ≠ []) :
    ∃ l' a, l.sortedInsert garbage item sortKey = some l' ∧
      Linked l' (inserted l (fun e => sortKey < e.key.getD (garbage e.item))
        (a, ⟨item, some sortKey⟩) nodes) ∧
      l'.numInList = l.numInList := by
  have hloose := h.new { item := item, key := some sortKey }
  obtain ⟨l', early, hl', hlinked, hcount⟩ :=
    hloose.place (fun e => sortKey < e.key.getD (garbage e.item)) hne
  refine ⟨l', _, ?_, hlinked, hcount⟩
  rw [NodeList.sortedInsert, hl']
  rfl

/-- If the counter and the chain disagree on whether there is an element, `first` is `NULL`. -/
theorem Loose.place_eq_none (h : Loose l [] a e) (before : ListElement α → Bool)
    (hcount : l.isEmpty = false) : l.place a before = none := by
  rw [NodeList.place, if_neg (by simp [hcount]), node, h.eq_nil_iff.mp rfl]
  rfl

/-! ## Sorted lists -/

/-- `compare` is negative, zero or positive when the first item is less, equal or greater. -/
structure Comparison (compare : α → α → Int) : Prop where
  trans : ∀ x y z, compare x y ≤ 0 → compare y z ≤ 0 → compare x z ≤ 0
  swap : ∀ x y, compare x y < 0 ↔ 0 < compare y x

/-- The total preorder of a comparison. -/
def AtMost (compare : α → α → Int) (x y : α) : Prop := compare x y ≤ 0

instance (compare : α → α → Int) : DecidableRel (AtMost compare) := fun x y =>
  inferInstanceAs (Decidable (compare x y ≤ 0))

section Sorted

variable {compare : α → α → Int} {kept : List α}

theorem Comparison.isTrans (h : Comparison compare) : IsTrans α (AtMost compare) := ⟨h.trans⟩

theorem Comparison.total (h : Comparison compare) : Std.Total (AtMost compare) where
  total := fun x y => by
    have hswap := h.swap y x
    unfold AtMost
    omega

theorem Comparison.tie_iff (h : Comparison compare) (x y : α) :
    AtMost compare x y ∧ AtMost compare y x ↔ compare x y = 0 := by
  have hxy := h.swap x y
  have hyx := h.swap y x
  unfold AtMost
  omega

/-- The place of `SortedList::Insert` is the one behind all items that are not greater. -/
theorem Comparison.stableSort_insert (h : Comparison compare)
    (hsort : StableSort (AtMost compare) kept xs) (item : α) :
    StableSort (AtMost compare) (kept ++ [item])
      (insertBefore (fun y => compare item y < 0) item xs) := by
  have htrans := h.isTrans
  have htotal := h.total
  obtain ⟨pre, post, rfl, heq, hpre, hpost⟩ :=
    insertBefore_eq (fun y => compare item y < 0) item xs
  rw [heq]
  refine hsort.insert (fun y hy => ?_) (fun y hy hle => ?_)
  · have hge := of_decide_eq_false (hpre y hy)
    rw [h.swap] at hge
    exact Int.not_lt.mp hge
  · -- the first one behind the place is greater, and so are those behind it
    obtain ⟨z, rest, rfl⟩ := List.exists_cons_of_ne_nil (List.ne_nil_of_mem hy)
    have hz : 0 < compare z item := (h.swap item z).mp (of_decide_eq_true (hpost z rfl))
    refine absurd ?_ (Int.not_le.mpr hz)
    rcases List.mem_cons.mp hy with rfl | hy
    · exact hle
    · have hzy := (List.pairwise_append.mp hsort.sorted).2.1
      exact h.trans z y item ((List.pairwise_cons.mp hzy).1 y hy) hle

theorem Holds.insert [DecidableEq α] (h : Holds l xs) (compare : α → α → Int)
    (hnew : item ∉ xs) :
    ∃ l', l.insert compare item = some l' ∧
      Holds l' (insertBefore (fun y => compare item y < 0) item xs) := by
  obtain ⟨nodes, hwell, rfl⟩ := h
  obtain ⟨l', a, hl', hlinked, hcount⟩ := hwell.toLinked.insert compare hnew hwell.ne_nil
  have hnodes : inserted l (fun e => compare item e.item < 0) (a, ⟨item, none⟩) nodes =
      insertBefore (fun n => compare item n.2.item < 0) (a, ⟨item, none⟩) nodes := by
    unfold inserted
    split
    · next hempty =>
      rw [hwell.isEmpty_iff.mp hempty]
      rfl
    · rfl
  rw [hnodes] at hlinked
  refine ⟨l', hl', _, ⟨hlinked, ?_⟩, ?_⟩
  · rw [hcount, hwell.numInList, (insertBefore_perm _ _ nodes).length_eq]
    rfl
  · exact map_insertBefore (fun n : Nat × ListElement α => n.2.item)
      (fun y => compare item y < 0) (a, ⟨item, none⟩) nodes

/-- The loop of `SortedList::SanityCheck`. -/
def orderLoop (compare : α → α → Int) (l : NodeList α) : Nat → Option Nat → Option Nat → Bool
  | _, _, none => true
  | 0, _, some _ => false
  | fuel + 1, prev, some ptr =>
    match l.node prev, l.memory.read ptr with
    | some prevNode, some node =>
      compare prevNode.value.item node.value.item ≤ 0 &&
        l.orderLoop compare fuel (some ptr) node.next
    | _, _ => false

/-- `SortedList::SanityCheck`. -/
def sortedSanityCheck (compare : α → α → Int) (l : NodeList α) : Bool :=
  l.sanityCheck &&
    if l.first = l.last then true
    else
      match l.node l.first with
      | none => false
      | some node => l.orderLoop compare l.memory.size l.first node.next

theorem orderLoop_iff {p fuel : Nat} {v : ListElement α} {ptr : Option Nat}
    (hp : l.memory.read p = some ⟨v, ptr⟩) (hptr : Chain l.memory ptr post none)
    (hfuel : post.length ≤ fuel) :
    l.orderLoop compare fuel (some p) ptr = true ↔
      (v.item :: itemsOf post).IsChain (AtMost compare) := by
  induction post generalizing p v ptr fuel with
  | nil =>
    obtain rfl : ptr = none := hptr
    cases fuel <;> simp [orderLoop]
  | cons n rest ih =>
    obtain ⟨rfl, next, hn, hrest⟩ := hptr
    obtain ⟨fuel, rfl⟩ := Nat.exists_eq_add_one_of_ne_zero (Nat.ne_zero_of_lt hfuel)
    rw [orderLoop, node, Option.bind_some, hp, hn, itemsOf_cons, List.isChain_cons_cons]
    show (decide _ && l.orderLoop compare fuel (some n.1) next) = true ↔ _
    rw [Bool.and_eq_true, ih hn hrest (Nat.le_of_succ_le_succ hfuel), decide_eq_true_iff]
    rfl

/-- `SanityCheck` passes on exactly the sorted lists among the well-formed ones. -/
theorem WellFormed.sortedSanityCheck_iff (h : WellFormed l nodes) :
    l.sortedSanityCheck compare = true ↔ (itemsOf nodes).IsChain (AtMost compare) := by
  rw [sortedSanityCheck, Bool.and_eq_true, and_iff_right (sanityCheck_iff.mpr ⟨nodes, h⟩)]
  rcases nodes with _ | ⟨⟨p, v⟩, _ | ⟨n, rest⟩⟩
  · simp [h.eq_nil_iff.mp rfl, h.last]
  · simp [h.first_eq, h.last_eq_first]
  · obtain ⟨next, hp, hnext⟩ := h.node_first
    have hfirst : l.first ≠ l.last := h.first_eq ▸ h.last ▸ h.chain.first_ne_last
    have hfuel := (Nat.le_succ _).trans h.chain.length_le_size
    rw [if_neg hfirst, h.first_eq, node, Option.bind_some, hp]
    exact orderLoop_iff hp hnext hfuel

/-! ## Runs of sorted lists -/

/-- The calls of a sorted list. -/
inductive SortedCall (α : Type*) where
  | insert (item : α)
  | removeFront
  | remove (item : α)
  | isInList (item : α)
  | isEmpty
  | sanityCheck

/-- The call of a sorted list. `none`: it does not return. -/
def sortedStep [DecidableEq α] (compare : α → α → Int) (l : NodeList α) :
    SortedCall α → Option (NodeList α × Answer α)
  | .insert item => (l.insert compare item).map fun l => (l, .done)
  | .removeFront => l.removeFront.map fun (thing, l) => (l, .item thing)
  | .remove item => (l.remove item).map fun l => (l, .done)
  | .isInList item => (l.isInList item).map fun found => (l, .truth found)
  | .isEmpty => some (l, .truth l.isEmpty)
  | .sanityCheck => if l.sortedSanityCheck compare then some (l, .done) else none

/-- The first item that is not above any other one. -/
def firstMinimum (compare : α → α → Int) (kept : List α) : Option α :=
  kept.find? fun x => ∀ y ∈ kept, AtMost compare x y

/-- The same call on the items that were inserted and not removed, in the order of insertion. -/
def keptStep [DecidableEq α] (compare : α → α → Int) (kept : List α) :
    SortedCall α → List α × Answer α
  | .insert item => (kept ++ [item], .done)
  | .removeFront =>
    match firstMinimum compare kept with
    | none => (kept, .done)
    | some minimum => (kept.erase minimum, .item minimum)
  | .remove item => (kept.erase item, .done)
  | .isInList item => (kept, .truth (decide (item ∈ kept)))
  | .isEmpty => (kept, .truth kept.isEmpty)
  | .sanityCheck => (kept, .done)

/-- What the calls ask for. -/
def AdmitsSorted (kept : List α) : SortedCall α → Prop
  | .insert item => item ∉ kept
  | .removeFront => kept ≠ []
  | .remove item => item ∈ kept
  | .isInList _ => True
  | .isEmpty => True
  | .sanityCheck => True

/-- The list is well formed and has the items `kept`, sorted, ties in their order of insertion. -/
def HoldsSorted (compare : α → α → Int) (l : NodeList α) (kept : List α) : Prop :=
  ∃ xs, Holds l xs ∧ StableSort (AtMost compare) kept xs ∧ kept.Nodup

theorem HoldsSorted.sanityCheck (h : HoldsSorted compare l kept) :
    l.sortedSanityCheck compare = true := by
  obtain ⟨xs, ⟨nodes, hwell, rfl⟩, hsort, -⟩ := h
  exact hwell.sortedSanityCheck_iff.mpr hsort.sorted.isChain

theorem HoldsSorted.insert [DecidableEq α] (hc : Comparison compare)
    (h : HoldsSorted compare l kept) (hnew : item ∉ kept) :
    ∃ l', l.insert compare item = some l' ∧ HoldsSorted compare l' (kept ++ [item]) := by
  obtain ⟨xs, hholds, hsort, hnodup⟩ := h
  obtain ⟨l', hl', hholds'⟩ := hholds.insert compare (mt hsort.perm.mem_iff.mp hnew)
  refine ⟨l', hl', _, hholds', hc.stableSort_insert hsort item, ?_⟩
  exact (List.perm_append_singleton item kept).nodup_iff.mpr (List.nodup_cons.mpr ⟨hnew, hnodup⟩)

theorem HoldsSorted.remove [DecidableEq α] (h : HoldsSorted compare l kept) (hitem : item ∈ kept) :
    ∃ l', l.remove item = some l' ∧ HoldsSorted compare l' (kept.erase item) := by
  obtain ⟨xs, hholds, hsort, hnodup⟩ := h
  obtain ⟨l', hl', hholds'⟩ :=
    hholds.remove (hsort.perm.nodup_iff.mpr hnodup) (hsort.perm.mem_iff.mpr hitem)
  exact ⟨l', hl', _, hholds', hsort.erase hnodup item, hnodup.erase item⟩

theorem HoldsSorted.removeFront [DecidableEq α] (hc : Comparison compare)
    (h : HoldsSorted compare l kept) (hne : kept ≠ []) :
    ∃ l' minimum, l.removeFront = some (minimum, l') ∧ firstMinimum compare kept = some minimum ∧
      HoldsSorted compare l' (kept.erase minimum) := by
  have htrans := hc.isTrans
  have htotal := hc.total
  rcases h with ⟨_ | ⟨minimum, xs⟩, hholds, hsort, hnodup⟩
  · exact absurd hsort.perm.nil_eq.symm hne
  · obtain ⟨l', hl', hholds'⟩ := hholds.removeFront
    have herase := hsort.erase hnodup minimum
    rw [List.erase_cons_head] at herase
    exact ⟨l', minimum, hl', hsort.find_min, xs, hholds', herase, hnodup.erase minimum⟩

theorem sortedStep_eq_keptStep [DecidableEq α] (hc : Comparison compare) (l : NodeList α)
    (kept : List α) (call : SortedCall α) (h : HoldsSorted compare l kept)
    (hadmits : AdmitsSorted kept call) :
    ∃ l', l.sortedStep compare call = some (l', (keptStep compare kept call).2) ∧
      HoldsSorted compare l' (keptStep compare kept call).1 := by
  cases call with
  | insert item =>
    obtain ⟨l', hl', hsorted⟩ := h.insert hc hadmits
    exact ⟨l', by rw [sortedStep, hl']; rfl, hsorted⟩
  | removeFront =>
    obtain ⟨l', minimum, hl', hmin, hsorted⟩ := h.removeFront hc hadmits
    rw [keptStep, hmin, sortedStep, hl']
    exact ⟨l', rfl, hsorted⟩
  | remove item =>
    obtain ⟨l', hl', hsorted⟩ := h.remove hadmits
    exact ⟨l', by rw [sortedStep, hl']; rfl, hsorted⟩
  | isInList item =>
    obtain ⟨xs, hholds, hsort, -⟩ := id h
    refine ⟨l, ?_, h⟩
    rw [sortedStep, hholds.isInList, decide_eq_decide.mpr hsort.perm.mem_iff]
    rfl
  | isEmpty =>
    obtain ⟨xs, hholds, hsort, -⟩ := id h
    refine ⟨l, ?_, h⟩
    rw [sortedStep, hholds.isEmpty, hsort.perm.isEmpty_eq]
    rfl
  | sanityCheck =>
    exact ⟨l, by rw [sortedStep, if_pos h.sanityCheck]; rfl, h⟩

/--
From the empty list, as long as the calls get what they ask for, the list stays well formed and
sorted, items that compare equal stay in the order of their insertion, and `RemoveFront` returns the
first minimum.
-/
theorem sorted_stable [DecidableEq α] (hc : Comparison compare) (calls : List (SortedCall α))
    (hadmits : AllSteps (fun kept call => some (keptStep compare kept call).1) AdmitsSorted []
      calls) :
    ∃ l nodes, runReplies (sortedStep compare) (empty : NodeList α) calls =
        some (l, (runAnswers (keptStep compare) [] calls).2) ∧
      WellFormed l nodes ∧
      (itemsOf nodes).Pairwise (fun x y => compare x y ≤ 0) ∧
      (itemsOf nodes).Perm (runAnswers (keptStep compare) [] calls).1 ∧
      (∀ x, (itemsOf nodes).filter (fun y => compare x y = 0) =
        (runAnswers (keptStep compare) [] calls).1.filter fun y => compare x y = 0) ∧
      (∀ front l', l.removeFront = some (front, l') →
        ∀ y ∈ (runAnswers (keptStep compare) [] calls).1, compare front y ≤ 0) ∧
      l.sortedSanityCheck compare = true := by
  have hempty : HoldsSorted compare (empty : NodeList α) [] :=
    ⟨[], holds_empty, StableSort.nil, List.nodup_nil⟩
  obtain ⟨l, hrun, hsorted⟩ := runReplies_relation (sortedStep_eq_keptStep hc) hempty hadmits
  obtain ⟨xs, ⟨nodes, hwell, rfl⟩, hsort, -⟩ := id hsorted
  have hties : ∀ x, (fun y => decide (AtMost compare x y ∧ AtMost compare y x)) =
      fun y => decide (compare x y = 0) :=
    fun x => funext fun y => decide_eq_decide.mpr (hc.tie_iff x y)
  refine ⟨l, nodes, hrun, hwell, hsort.sorted, hsort.perm, fun x => ?_, ?_, hsorted.sanityCheck⟩
  · have heq := hsort.ties x
    rw [tiesOf, tiesOf, hties] at heq
    exact heq
  · intro front l' hfront y hy
    have hne : (runAnswers (keptStep compare) [] calls).1 ≠ [] := List.ne_nil_of_mem hy
    obtain ⟨l₂, minimum, hl₂, hmin, -⟩ := hsorted.removeFront hc hne
    rw [hfront] at hl₂
    obtain ⟨rfl, -⟩ := Prod.mk.inj (Option.some.inj hl₂)
    have hfirst := List.find?_some (show List.find? _ _ = _ from hmin)
    exact of_decide_eq_true hfirst y hy

theorem sorted_stable_pairs :
    ∃ l nodes, runReplies (sortedStep fun x y : Int × Nat => x.1 - y.1) empty
        [.insert (2, 0), .insert (1, 0), .insert (2, 1), .insert (1, 1), .removeFront,
          .remove (2, 0), .insert (2, 2)] =
        some (l, [.done, .done, .done, .done, .item (1, 0), .done, .done]) ∧
      WellFormed l nodes ∧ (itemsOf nodes).Perm [(2, 1), (1, 1), (2, 2)] ∧
      (itemsOf nodes).filter (fun y => 2 - y.1 = 0) = [(2, 1), (2, 2)] := by
  have hc : Comparison fun x y : Int × Nat => x.1 - y.1 :=
    ⟨fun _ _ _ _ _ => by omega, fun _ _ => by omega⟩
  obtain ⟨l, nodes, hrun, hwell, -, hperm, hties, -⟩ := sorted_stable hc
    [.insert (2, 0), .insert (1, 0), .insert (2, 1), .insert (1, 1), .removeFront,
      .remove (2, 0), .insert (2, 2)]
    (by simp [AllSteps, keptStep, AdmitsSorted, firstMinimum, AtMost])
  exact ⟨l, nodes, hrun, hwell, hperm, hties (2, 0)⟩

end Sorted

end NodeList

end Nachos
