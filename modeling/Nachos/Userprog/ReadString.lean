import Nachos.Userprog.UserStrings

/-!
# Reading a line (`userprog/ksyscall.h`)

`SysReadString` fills a buffer of the kernel from the console, puts a terminator behind what it has
read, and copies at most as many bytes to user space as it was allowed to read. When the line is at
least that long, the terminator is not among them.

* `sysReadString` — with the characters that the console delivers
* `readString_exact_iff` — when the user's buffer is terminated
-/

namespace Nachos

open Base CallOutcome

variable {n : Nat}

/-- The character ends a line. -/
def endsLine (ch : BitVec 8) : Bool := ch == 10 || ch == 0

/--
The first loop of `SysReadString` from index `idx` on, with `k` passes left: the buffer, `idx` where
it stops, and the characters that are left. `none`: it waits for a character that does not come.
-/
def readLine (sysBuff : KernelBuf) (idx : Nat) (input : List (BitVec 8)) :
    Nat → Option (KernelBuf × Nat × List (BitVec 8))
  | 0 => some (sysBuff, idx, input)
  | k + 1 =>
    match input with
    | [] => none
    | ch :: input =>
      if endsLine ch then some (Function.update sysBuff idx 0, idx, input)
      else readLine (Function.update sysBuff idx ch) (idx + 1) input k

/-- `SysReadString`. It has no `return`, and its caller wants no answer. -/
def sysReadString (m : Machine n) (addr length : BitVec 32) (junk : KernelBuf)
    (input : List (BitVec 8)) : Option (CallOutcome (Machine n × List (BitVec 8))) :=
  if (length + 1).toInt < 0 then some .aborted
  else
    (readLine junk 0 input length.toInt.toNat).map fun (sysBuff, idx, input) =>
      let sysBuff := Function.update sysBuff idx 0
      ofAccess (system2User m addr length.toInt sysBuff) fun m => .returned (m, input)

/-- The characters before the end of the line. -/
def line (input : List (BitVec 8)) : List (BitVec 8) := input.takeWhile fun ch => !endsLine ch

/-- What the buffer holds behind the loop, with the terminator. -/
def filled (sysBuff : KernelBuf) (idx : Nat) (input : List (BitVec 8)) (k : Nat) : KernelBuf :=
  fun j => if idx ≤ j ∧ j < idx + k then input.getD (j - idx) 0
    else if j = idx + k then 0 else sysBuff j

theorem line_cons_of_not {ch : BitVec 8} {input : List (BitVec 8)} (h : endsLine ch = false) :
    line (ch :: input) = ch :: line input := by
  unfold line
  rw [List.takeWhile_cons_of_pos (by rw [h]; rfl)]

theorem line_cons_of {ch : BitVec 8} {input : List (BitVec 8)} (h : endsLine ch = true) :
    line (ch :: input) = [] := by
  unfold line
  rw [List.takeWhile_cons_of_neg (by rw [h]; decide)]

theorem filled_zero (sysBuff : KernelBuf) (idx : Nat) (input : List (BitVec 8)) :
    filled sysBuff idx input 0 = Function.update sysBuff idx 0 := by
  funext j
  unfold filled
  rw [if_neg (by omega), Nat.add_zero, Function.update_apply]

theorem filled_succ (sysBuff : KernelBuf) (idx : Nat) (ch : BitVec 8) (input : List (BitVec 8))
    (k : Nat) : filled (Function.update sysBuff idx ch) (idx + 1) input k =
      filled sysBuff idx (ch :: input) (k + 1) := by
  funext j
  unfold filled
  rw [Function.update_apply]
  rcases Nat.lt_trichotomy j idx with hlt | rfl | hgt
  · rw [if_neg (by omega), if_neg (by omega), if_neg (by omega), if_neg (by omega),
      if_neg (by omega)]
  · rw [if_neg (by omega), if_neg (by omega), if_pos rfl, if_pos (by omega), Nat.sub_self]
    rfl
  · have hsub : j - idx = j - (idx + 1) + 1 := by omega
    have hadd : idx + 1 + k = idx + (k + 1) := by omega
    have hiff : (idx + 1 ≤ j ∧ j < idx + (k + 1)) ↔ idx ≤ j ∧ j < idx + (k + 1) := by omega
    rw [hsub, List.getD_cons_succ, if_neg (by omega : ¬ j = idx), hadd]
    simp only [hiff]

/--
The loop takes the characters of the line, as many as it may, and the one that ends the line if it
gets there.
-/
theorem readLine_eq {sysBuff : KernelBuf} {idx k : Nat} {input : List (BitVec 8)}
    (h : k ≤ input.length ∨ (line input).length < input.length) :
    ∃ buff, readLine sysBuff idx input k =
        some (buff, idx + min (line input).length k,
          input.drop (if (line input).length < k then (line input).length + 1 else k)) ∧
      Function.update buff (idx + min (line input).length k) 0 =
        filled sysBuff idx input (min (line input).length k) := by
  induction k generalizing sysBuff idx input with
  | zero =>
    rw [Nat.min_zero, if_neg (Nat.not_lt_zero _), filled_zero]
    exact ⟨sysBuff, rfl, rfl⟩
  | succ k ih =>
    cases input with
    | nil =>
      rcases h with h | h
      · exact absurd h (Nat.not_succ_le_zero k)
      · exact absurd h (Nat.not_lt_zero _)
    | cons ch input =>
      unfold readLine
      dsimp only
      cases hends : endsLine ch with
      | true =>
        rw [line_cons_of hends, List.length_nil, Nat.zero_min, if_pos rfl, if_pos (Nat.succ_pos k),
          filled_zero]
        exact ⟨_, rfl, Function.update_idem _ _ _⟩
      | false =>
        have hlength : (line (ch :: input)).length = (line input).length + 1 := by
          rw [line_cons_of_not hends, List.length_cons]
        rw [hlength, List.length_cons] at h
        obtain ⟨buff, hread, hbuff⟩ := @ih (Function.update sysBuff idx ch) (idx + 1) input
          (h.imp Nat.le_of_succ_le_succ Nat.lt_of_succ_lt_succ)
        rw [filled_succ, Nat.add_right_comm, Nat.add_assoc] at hbuff
        rw [hlength, if_neg Bool.false_ne_true, Nat.succ_min_succ]
        refine ⟨buff, ?_, hbuff⟩
        rw [hread, Nat.add_right_comm, Nat.add_assoc]
        by_cases hlt : (line input).length < k
        · rw [if_pos hlt, if_pos (by omega)]
          rfl
        · rw [if_neg hlt, if_neg (by omega)]
          rfl

theorem ne_zero_of_lt_line {input : List (BitVec 8)} {j : Nat} (h : j < (line input).length) :
    input.getD j 0 ≠ 0 := by
  have hget : (line input)[j] = input.getD j 0 := by
    have hpre : (line input).IsPrefix input := List.takeWhile_prefix _
    rw [hpre.getElem h, List.getD_eq_getElem]
  have hends : endsLine (line input)[j] = false := by
    have := List.mem_takeWhile_imp (List.getElem_mem h)
    rwa [Bool.not_eq_true'] at this
  rw [← hget]
  intro hzero
  rw [hzero] at hends
  cases hends

theorem endsAt_filled (junk : KernelBuf) {input : List (BitVec 8)} {k N : Nat}
    (hk : k = min (line input).length N) : EndsAt (filled junk 0 input k) N k := by
  refine ⟨by omega, fun j hj => ?_, fun _ => ?_⟩
  · unfold filled
    rw [if_pos (by omega), Nat.sub_zero]
    exact ne_zero_of_lt_line (by omega)
  · unfold filled
    rw [if_neg (by omega), if_pos (by omega)]

section ReadString

variable {m : Machine n} {g : FlatStore n} {addr length : BitVec 32} {junk : KernelBuf}
  {input : List (BitVec 8)} {N : Nat}

/-- The call returns, and has copied the line as far as `N` bytes go. -/
theorem sysReadString_eq (h : Sees m g) (hlength : length.toInt = N) (hN : 1 ≤ N)
    (hmapped : ∀ j ≤ N, g.Permits (addr + BitVec.ofNat 32 j) .byte)
    (hinput : N ≤ input.length ∨ (line input).length < input.length) :
    ∃ m' g', sysReadString m addr length junk input = some (.returned (m',
        input.drop (if (line input).length < N then (line input).length + 1 else N))) ∧
      Sees m' g' ∧
      (∀ j < min N (min (line input).length N + 1), g'.Holds (addr + BitVec.ofNat 32 j)
        (filled junk 0 input (min (line input).length N) j)) ∧
      ∀ a, (∀ j < min N (min (line input).length N + 1), a ≠ addr + BitVec.ofNat 32 j) →
        g'.read a .byte = g.read a .byte := by
  have hsize : N + 1 ≤ memorySize :=
    length_le_memorySize h fun j hj => ⟨_, FlatStore.holds_byteAt (hmapped j (by omega))⟩
  have hmem : memorySize = 16384 := rfl
  have hone : ¬ (length + 1).toInt < 0 := by
    rw [toInt_add_one (by omega)]
    omega
  obtain ⟨buff, hread, hbuff⟩ := @readLine_eq junk 0 N input hinput
  rw [Nat.zero_add] at hread hbuff
  generalize hk : min (line input).length N = k at *
  have hcopied : copied (filled junk 0 input k) 0 N = min N (k + 1) :=
    (endsAt_filled junk hk.symm).copied_eq
  obtain ⟨m', hloop⟩ := system2UserLoop_done (b := filled junk 0 input k) (i := 0) (k := N) h
    fun j hj => by
      rw [Nat.zero_add]
      exact hmapped j (by omega)
  obtain ⟨g', h', hcopy, hother⟩ := system2UserLoop_effect h (by omega) hloop
  rw [hcopied, Nat.zero_add] at hcopy hother
  refine ⟨m', g', ?_, h', fun j hj => hcopy j (Nat.zero_le j) hj,
    fun a ha => hother a fun j _ hj => ha j hj⟩
  unfold sysReadString
  rw [if_neg hone, hlength, Int.toNat_natCast, hread, Option.map_some]
  dsimp only
  rw [hbuff, system2User, if_neg (by omega), Int.toNat_natCast, hloop]
  rfl

/--
`ReadString` leaves the line in the user's buffer, as far as it fits, with a terminator behind it
and nothing else changed, if and only if the line is shorter than the buffer or there was a zero
byte behind the buffer before.
-/
theorem readString_exact_iff (h : Sees m g) (hlength : length.toInt = N) (hN : 1 ≤ N)
    (hmapped : ∀ j ≤ N, g.Permits (addr + BitVec.ofNat 32 j) .byte)
    (hinput : N ≤ input.length ∨ (line input).length < input.length) :
    (∃ m', sysReadString m addr length junk input = some (.returned (m',
        input.drop (if (line input).length < N then (line input).length + 1 else N))) ∧
      (∀ j < min (line input).length N,
        UserByte m' (addr + BitVec.ofNat 32 j) (input.getD j 0)) ∧
      UserByte m' (addr + BitVec.ofNat 32 (min (line input).length N)) 0 ∧
      ∀ a b, (∀ j ≤ N, a ≠ addr + BitVec.ofNat 32 j) → (UserByte m' a b ↔ UserByte m a b)) ↔
    (line input).length < N ∨ UserByte m (addr + BitVec.ofNat 32 N) 0 := by
  obtain ⟨m', g', hcall, h', hcopy, hother⟩ :=
    @sysReadString_eq n m g addr length junk input N h hlength hN hmapped hinput
  have hsame : ∀ a b, (∀ j < min N (min (line input).length N + 1),
      a ≠ addr + BitVec.ofNat 32 j) → (UserByte m' a b ↔ UserByte m a b) := by
    intro a b ha
    rw [h'.userByte_iff, h.userByte_iff]
    unfold FlatStore.Holds
    rw [hother a ha]
  have hlast : N ≤ (line input).length →
      (UserByte m' (addr + BitVec.ofNat 32 N) 0 ↔ UserByte m (addr + BitVec.ofNat 32 N) 0) := by
    intro hle
    have hlt := BitVec.toInt_lt (x := length)
    exact hsame _ _ fun j hj => offset_ne (by omega) (by omega) (by omega)
  have hbytes : ∀ j < min N (min (line input).length N + 1), UserByte m' (addr + BitVec.ofNat 32 j)
      (filled junk 0 input (min (line input).length N) j) :=
    fun j hj => h'.userByte_iff.mpr (hcopy j hj)
  constructor
  · rintro ⟨m₁, hcall₁, _, hzero, _⟩
    rw [hcall] at hcall₁
    cases hcall₁
    rcases Nat.lt_or_ge (line input).length N with hlt | hge
    · exact .inl hlt
    · rw [Nat.min_eq_right hge] at hzero
      exact .inr ((hlast hge).mp hzero)
  · intro hcond
    refine ⟨m', hcall, ?_, ?_, fun a b ha => hsame a b fun j hj => ha j (by omega)⟩
    · intro j hj
      have hbyte := hbytes j (by omega)
      unfold filled at hbyte
      rwa [if_pos (by omega), Nat.sub_zero] at hbyte
    · rcases Nat.lt_or_ge (line input).length N with hlt | hge
      · have hbyte := hbytes (min (line input).length N) (by omega)
        unfold filled at hbyte
        rwa [if_neg (by omega), if_pos (by omega)] at hbyte
      · rw [Nat.min_eq_right hge]
        exact (hlast hge).mpr (hcond.resolve_left (by omega))

/-- The line `"a"` fits into a buffer for two. -/
theorem readString_exact_short :
    ∃ m', sysReadString (bufferPage [5, 5, 5]) 0 2 (fun _ => 1) [97, 10, 98] =
        some (.returned (m', [98])) ∧ UserByte m' (0 + BitVec.ofNat 32 1) 0 := by
  obtain ⟨g, hg, hbytes⟩ := bufferPage_holds [5, 5, 5]
  have hlength : (2 : BitVec 32).toInt = (2 : Nat) := rfl
  have hmapped : ∀ j ≤ 2, g.Permits (0 + BitVec.ofNat 32 j) .byte :=
    fun j hj => (hbytes j (lt_of_le_of_lt hj (by decide))).1
  have hinput : 2 ≤ ([97, 10, 98] : List (BitVec 8)).length := by decide
  obtain ⟨m', hcall, _, hzero, _⟩ :=
    (readString_exact_iff hg hlength (by decide) hmapped (.inl hinput)).mpr (.inl (by decide))
  exact ⟨m', hcall, hzero⟩

/-- The line `"ab"` fills it, and the byte behind it stays. -/
theorem readString_full_line :
    ∃ m', sysReadString (bufferPage [5, 5, 5]) 0 2 (fun _ => 1) [97, 98, 10] =
        some (.returned (m', [10])) ∧ ¬ UserByte m' (0 + BitVec.ofNat 32 2) 0 := by
  refine ⟨_, rfl, fun hzero => ?_⟩
  exact absurd (hzero.unique (c := 5) ⟨_, rfl⟩) (by decide)

end ReadString

end Nachos
