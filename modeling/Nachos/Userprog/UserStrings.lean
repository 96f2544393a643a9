import Nachos.Threads.PTable
import Nachos.Userprog.FileBytes
import Mathlib.Data.List.GetD

/-!
# Strings on their way between user and kernel space (`userprog/ksyscall.h`, `threads/pcb.cc`)

`User2System` allocates one byte more than it copies, for the terminator, but does not write one.
When the limit cuts the string off, the byte behind it is what the heap held there. `SysExec` cuts
names off at 33 characters, and `PCB::SetFileName` copies them into an array of 32.

* `user2System_exact_iff` — when the copy is the string of the user
* `copies_inverse_iff` — what `System2User` has written is read back
-/

namespace Nachos

open Base CallOutcome

variable {n : Nat}

/-! ## From user space -/

/-- The buffer `junk` after the bytes of `b` up to the first zero, and at most `k`, went into it. -/
def copiedOver (b junk : KernelBuf) (k : Nat) : KernelBuf :=
  fun j => if j < copied b 0 k then b j else junk j

/-- The copy has a terminator, and is the string in `b`, cut off after `limit` characters. -/
def ExactCopy (b : KernelBuf) (limit : Nat) : Access (Machine n × KernelBuf) → Prop
  | .done (_, kernelBuf) =>
    (∃ k ≤ limit, kernelBuf k = 0) ∧ cString kernelBuf (limit + 1) = cString b limit
  | _ => False

section User2System

variable {m : Machine n} {f : FlatStore n} {addr limit : BitVec 32} {b junk : KernelBuf} {k : Nat}

theorem user2System_eq (junk : KernelBuf) (h : Sees m f) (hlimit : limit.toInt = k)
    (hk : k ≠ 2 ^ 31 - 1) (hb : ∀ j < copied b 0 k, f.Holds (addr + BitVec.ofNat 32 j) (b j)) :
    ∃ m', user2System m addr limit junk = .done (m', copiedOver b junk k) ∧ Sees m' f := by
  have hlt := BitVec.toInt_lt (x := limit)
  have hone : ¬ (limit + 1).toInt < 0 := by
    rw [toInt_add_one (by omega)]
    omega
  obtain ⟨m', hloop, h'⟩ := user2SystemLoop_spec (i := 0) (k := k) junk h fun j hj => by
    rw [Nat.zero_add]
    exact hb j hj
  refine ⟨m', ?_, h'⟩
  have hbuf : (fun j => if 0 ≤ j ∧ j < 0 + copied b 0 k then b j else junk j) =
      copiedOver b junk k := by
    funext j
    simp only [Nat.zero_le, true_and, Nat.zero_add]
    rfl
  rw [user2System, if_neg hone, hlimit, Int.toNat_natCast, hloop, hbuf]

theorem user2System_overflow (junk : KernelBuf) (hlimit : limit.toInt = k)
    (hk : k = 2 ^ 31 - 1) : user2System m addr limit junk = .aborted := by
  have hneg : (limit + 1).toInt < 0 := by
    rw [BitVec.toInt_add, hlimit, hk]
    decide
  rw [user2System, if_pos hneg]

theorem copiedOver_of_lt {j : Nat} (h : j < copied b 0 k) : copiedOver b junk k j = b j :=
  if_pos h

/-- The string survives if a zero byte was copied, or was there behind the limit. -/
theorem exactCopy_done_iff (m : Machine n) :
    ExactCopy b k (.done (m, copiedOver b junk k)) ↔ junk k = 0 ∨ ∃ j < k, b j = 0 := by
  obtain ⟨z, hz⟩ := exists_endsAt b k
  have hcopied := hz.copied_eq
  have hle := hz.le
  have hfront : ∀ j < z, copiedOver b junk k j = b j :=
    fun j hj => copiedOver_of_lt (by rw [hcopied]; omega)
  have hlast : copiedOver b junk k k = junk k := if_neg (by rw [hcopied]; omega)
  have hexact : copiedOver b junk k z = 0 → ExactCopy b k (.done (m, copiedOver b junk k)) := by
    intro hzero
    have hcopy : EndsAt (copiedOver b junk k) (k + 1) z :=
      ⟨by omega, fun j hj => hfront j hj ▸ hz.ne_zero j hj, fun _ => hzero⟩
    refine ⟨⟨z, hle, hzero⟩, ?_⟩
    rw [hcopy.cString_eq, hz.cString_eq]
    exact List.map_congr_left fun j hj => hfront j (List.mem_range.mp hj)
  rw [hz.exists_zero_iff]
  by_cases hzk : z < k
  · refine iff_of_true (hexact ?_) (.inr hzk)
    rw [copiedOver_of_lt (by rw [hcopied]; omega)]
    exact hz.zero hzk
  · obtain rfl : z = k := by omega
    rw [hlast] at hexact
    constructor
    · rintro ⟨⟨j, hj, hzero⟩, _⟩
      rcases Nat.lt_or_eq_of_le hj with hlt | rfl
      · rw [hfront j hlt] at hzero
        exact absurd hzero (hz.ne_zero j hlt)
      · rw [hlast] at hzero
        exact .inl hzero
    · rintro (hjunk | hlt)
      · exact hexact hjunk
      · exact absurd hlt hzk

end User2System

/-! ## Exec -/

/-- `MAX_FILE_LENGTH`. -/
def maxFileLength : BitVec 32 := 32

/-- `PCB::SetFileName`. `none`: the name goes on behind the end of `FileName`. -/
def setFileName (fileName : Bytes fileNameSize) (fn : KernelBuf) : Option (Bytes fileNameSize) :=
  strcpy fileName fn

/--
`SysExec` up to `SetFileName`, with the name of the process behind it if there is one. `found` is
the answer of `Open`, and `refuses` what `ExecUpdate` finds out before it makes a PCB: the name is
that of the caller, or there is no free slot.
-/
def sysExec (m : Machine n) (virtAddr : BitVec 32) (junk : KernelBuf)
    (found refuses : KernelBuf → Bool) (fileName : Bytes fileNameSize) :
    CallOutcome (Machine n × Option (Bytes fileNameSize)) :=
  ofAccess (user2System m virtAddr (maxFileLength + 1) junk) fun (m, name) =>
    if !found name then .returned (m, none)
    else if refuses name then .returned (m, none)
    else
      match setFileName fileName name with
      | none => .wild
      | some fileName => .returned (m, some fileName)

section SysExec

variable {m : Machine n} {f : FlatStore n} {addr : BitVec 32} {b junk : KernelBuf}
  {found refuses : KernelBuf → Bool} {fileName : Bytes fileNameSize}

/-- As long as no zero byte comes, the copy has the bytes of the user. -/
theorem copiedOver_ne_zero_iff {size k : Nat} (hsize : size ≤ k) :
    (∀ j < size, copiedOver b junk k j ≠ 0) ↔ ∀ j < size, b j ≠ 0 := by
  have hfront : ∀ j < size, (∀ l < j, b l ≠ 0) → copiedOver b junk k j = b j := by
    intro j hj hall
    refine copiedOver_of_lt (lt_copied_iff.mpr ⟨by omega, fun l hl => ?_⟩)
    rw [Nat.zero_add]
    exact hall l hl
  constructor
  · intro hall j
    induction j using Nat.strong_induction_on with
    | _ j ih =>
      intro hj
      rw [← hfront j hj fun l hl => ih l hl (by omega)]
      exact hall j hj
  · intro hall j hj
    rw [hfront j hj fun l hl => hall l (by omega)]
    exact hall j hj

/-- The name overruns `FileName` if it is handed over and has 32 characters or more. -/
theorem sysExec_wild_iff (h : Sees m f)
    (hb : ∀ j < copied b 0 33, f.Holds (addr + BitVec.ofNat 32 j) (b j)) :
    sysExec m addr junk found refuses fileName = .wild ↔
      found (copiedOver b junk 33) = true ∧ refuses (copiedOver b junk 33) = false ∧
        ∀ j < fileNameSize, b j ≠ 0 := by
  have hlimit : (maxFileLength + 1).toInt = (33 : Nat) := rfl
  obtain ⟨m', hcopy, _⟩ := user2System_eq junk h hlimit (by omega) hb
  have hname : setFileName fileName (copiedOver b junk 33) = none ↔
      ∀ j < fileNameSize, b j ≠ 0 := by
    have hsize : fileNameSize ≤ 33 := by decide
    exact strcpy_eq_none.trans (copiedOver_ne_zero_iff hsize)
  unfold sysExec
  rw [hcopy]
  simp only [ofAccess, ← hname]
  cases found (copiedOver b junk 33) with
  | false => simp
  | true =>
    cases refuses (copiedOver b junk 33) with
    | true => simp
    | false =>
      cases setFileName fileName (copiedOver b junk 33) with
      | none => simp
      | some name => simp

/--
The copy of `User2System` is exact if and only if a zero byte is copied or the heap has one behind
the limit, and the size of the buffer does not overflow. The names that `SysExec` hands over fit if
and only if they are shorter than 32 characters.
-/
theorem user2System_exact_iff (h : Sees m f) :
    (∀ (limit : BitVec 32) (k : Nat), limit.toInt = k →
      (∀ j < copied b 0 k, f.Holds (addr + BitVec.ofNat 32 j) (b j)) →
      (ExactCopy b k (user2System m addr limit junk) ↔
        k ≠ 2 ^ 31 - 1 ∧ (junk k = 0 ∨ ∃ j < k, b j = 0))) ∧
    ((∀ j < copied b 0 33, f.Holds (addr + BitVec.ofNat 32 j) (b j)) →
      ∀ found refuses fileName, sysExec m addr junk found refuses fileName ≠ .wild ↔
        (found (copiedOver b junk 33) = true → refuses (copiedOver b junk 33) = false →
          ∃ j < fileNameSize, b j = 0)) := by
  constructor
  · intro limit k hlimit hb
    by_cases hk : k = 2 ^ 31 - 1
    · rw [user2System_overflow junk hlimit hk]
      exact iff_of_false (fun hexact => hexact) (fun hand => hand.1 hk)
    · obtain ⟨m', hcopy, _⟩ := user2System_eq junk h hlimit hk hb
      rw [hcopy, exactCopy_done_iff]
      exact (and_iff_right hk).symm
  · intro hb found refuses fileName
    rw [ne_eq, sysExec_wild_iff h hb]
    push Not
    rfl

/-- The string `"ab"` at address 0. -/
theorem user2System_exact_ab :
    ExactCopy (fun j => [97, 98].getD j 0) 5
        (user2System (bufferPage [97, 98]) 0 5 fun _ => 1) ∧
      sysExec (bufferPage [97, 98]) 0 (fun _ => 1) (fun _ => true) (fun _ => false)
        (fun _ => 0) ≠ .wild := by
  obtain ⟨f, hf, hbytes⟩ := bufferPage_holds [97, 98]
  have hexact := @user2System_exact_iff 1 _ f 0 (fun j => [97, 98].getD j 0) (fun _ => 1) hf
  have hb : ∀ j < 3, f.Holds (0 + BitVec.ofNat 32 j) ([97, 98].getD j 0) :=
    fun j hj => (hbytes j (hj.trans (by decide))).2
  constructor
  · exact (hexact.1 5 5 rfl hb).mpr ⟨by decide, .inr ⟨2, by decide, rfl⟩⟩
  · exact (hexact.2 hb _ _ _).mpr fun _ _ => ⟨2, by decide, rfl⟩

/-- Bytes without a zero among them: the copy has no terminator, and `FileName` is overrun. -/
theorem user2System_no_terminator :
    ¬ ExactCopy (fun _ => 97) 1
        (user2System (bufferPage (List.replicate 33 97)) 0 1 fun _ => 97) ∧
      sysExec (bufferPage (List.replicate 33 97)) 0 (fun _ => 0) (fun _ => true) (fun _ => false)
        (fun _ => 0) = .wild := by
  have hd : ∀ j < 33, (List.replicate 33 (97 : BitVec 8)).getD j 0 = 97 := by decide
  obtain ⟨f, hf, hbytes⟩ := bufferPage_holds (List.replicate 33 97)
  have hb : ∀ j < 33, f.Holds (0 + BitVec.ofNat 32 j) 97 := by
    intro j hj
    rw [← hd j hj]
    exact (hbytes j (hj.trans (by decide))).2
  constructor
  · have hlimit : (1 : BitVec 32).toInt = (1 : Nat) := rfl
    obtain ⟨m', hcopy, _⟩ := user2System_eq (fun _ => 97) hf hlimit (by decide)
      fun j hj => hb j ((lt_copied_iff.mp hj).1.trans (by decide))
    rw [hcopy, exactCopy_done_iff]
    decide
  · exact (sysExec_wild_iff hf fun j hj => hb j (lt_copied_iff.mp hj).1).mpr
      ⟨rfl, rfl, fun _ _ => by decide⟩

end SysExec

/-! ## To user space and back -/

/-- The loop of `System2User` from index `i` on, with `k` bytes left, and its answer. -/
def system2UserFrom (virtAddr : BitVec 32) (buffer : KernelBuf) (m : Machine n) (i : Nat) :
    Nat → Access (Machine n × Nat)
  | 0 => .done (m, i)
  | k + 1 =>
    let oneChar := (buffer i).signExtend 32
    (m.writeMem (virtAddr + BitVec.ofNat 32 i) 1 oneChar).bind fun m =>
      if oneChar = 0 then .done (m, i + 1) else system2UserFrom virtAddr buffer m (i + 1) k

/-- `System2User` with its answer. -/
def system2UserAnswer (m : Machine n) (virtAddr : BitVec 32) (len : Int) (buffer : KernelBuf) :
    Access (Machine n × Int) :=
  if len < 0 then .done (m, -1)
  else if len = 0 then .done (m, len)
  else (system2UserFrom virtAddr buffer m 0 len.toNat).map fun (m, i) => (m, (i : Int))

section System2User

variable {m : Machine n} {f : FlatStore n} {addr : BitVec 32} {buffer junk : KernelBuf}

/-- The answer is the number of bytes that were copied. -/
theorem system2UserFrom_eq (m : Machine n) (i k : Nat) :
    system2UserFrom addr buffer m i k =
      (system2UserLoop addr buffer m i k).map fun m => (m, i + copied buffer i k) := by
  induction k generalizing m i with
  | zero => rfl
  | succ k ih =>
    unfold system2UserFrom system2UserLoop copied
    simp only [signExtend_eq_zero]
    cases m.writeMem (addr + BitVec.ofNat 32 i) 1 ((buffer i).signExtend 32) with
    | done m₁ =>
      simp only [Access.bind]
      by_cases hz : buffer i = 0
      · rw [if_pos hz, if_pos hz, if_pos hz]
        rfl
      · rw [if_neg hz, if_neg hz, if_neg hz, ih, Nat.add_right_comm, Nat.add_assoc i]
    | raised e => rfl
    | aborted => rfl

theorem system2UserAnswer_fst (m : Machine n) (len : Int) :
    (system2UserAnswer m addr len buffer).map Prod.fst = system2User m addr len buffer := by
  unfold system2UserAnswer system2User
  by_cases hneg : len < 0
  · rw [if_pos hneg, if_pos hneg.le]
    rfl
  · by_cases hzero : len = 0
    · rw [if_neg hneg, if_pos hzero, if_pos hzero.le]
      rfl
    · rw [if_neg hneg, if_neg hzero, if_neg (by omega), Access.map_map, system2UserFrom_eq,
        Access.map_map]
      cases system2UserLoop addr buffer m 0 len.toNat <;> rfl

/-- A buffer with the string `s` and its terminator. -/
def HoldsString (buffer : KernelBuf) (s : List (BitVec 8)) : Prop :=
  ∀ j ≤ s.length, buffer j = s.getD j 0

theorem HoldsString.endsAt {s : List (BitVec 8)} (h : HoldsString buffer s)
    (hs : ∀ c ∈ s, c ≠ 0) {k : Nat} (hk : s.length < k) : EndsAt buffer k s.length := by
  refine ⟨hk.le, fun j hj => ?_, fun _ => ?_⟩
  · rw [h j hj.le, List.getD_eq_getElem s 0 hj]
    exact hs _ (List.getElem_mem hj)
  · rw [h _ (le_refl _)]
    exact List.getD_eq_default _ _ (le_refl _)

/-- The string goes to user space with its terminator, and nothing else changes there. -/
theorem system2UserAnswer_string (h : Sees m f) {s : List (BitVec 8)} (hs : ∀ c ∈ s, c ≠ 0)
    (hbuffer : HoldsString buffer s)
    (hmapped : ∀ j ≤ s.length, f.Permits (addr + BitVec.ofNat 32 j) .byte) :
    ∃ m' f', system2UserAnswer m addr (s.length + 1) buffer = .done (m', s.length + 1) ∧
      Sees m' f' ∧ (∀ j ≤ s.length, f'.Holds (addr + BitVec.ofNat 32 j) (s.getD j 0)) ∧
      ∀ a, (∀ j ≤ s.length, a ≠ addr + BitVec.ofNat 32 j) → f'.read a .byte = f.read a .byte := by
  have hcopied : copied buffer 0 (s.length + 1) = s.length + 1 := by
    rw [(hbuffer.endsAt hs (Nat.lt_succ_self _)).copied_eq, Nat.min_self]
  have hsize : s.length + 1 ≤ memorySize :=
    length_le_memorySize h fun j hj => ⟨_, FlatStore.holds_byteAt (hmapped j (by omega))⟩
  have hrange : 0 + (s.length + 1) ≤ 2 ^ 32 := by
    have hmem : memorySize = 16384 := rfl
    omega
  obtain ⟨m', hloop⟩ := system2UserLoop_done (b := buffer) (i := 0) (k := s.length + 1) h
    fun j hj => by
      rw [Nat.zero_add]
      exact hmapped j (by omega)
  obtain ⟨f', h', hcopy, hother⟩ := system2UserLoop_effect h hrange hloop
  rw [hcopied] at hcopy hother
  refine ⟨m', f', ?_, h', ?_, ?_⟩
  · have hnat : ((s.length : Int) + 1).toNat = s.length + 1 := rfl
    unfold system2UserAnswer
    rw [if_neg (by omega), if_neg (by omega), hnat, system2UserFrom_eq, hloop, hcopied]
    simp [Access.map]
  · intro j hj
    rw [← hbuffer j hj]
    exact hcopy j (Nat.zero_le j) (by omega)
  · intro a ha
    exact hother a fun j _ hj => ha j (by omega)

/--
`System2User` answers the number of bytes of the string, with its terminator, and changes no other
byte of user space; `User2System` then gives the string back, if the size of its buffer does not
overflow.
-/
theorem copies_inverse_iff (h : Sees m f) {s : List (BitVec 8)} (hs : ∀ c ∈ s, c ≠ 0)
    (hbuffer : HoldsString buffer s)
    (hmapped : ∀ j ≤ s.length, f.Permits (addr + BitVec.ofNat 32 j) .byte) {limit : BitVec 32}
    (hlimit : s.length < limit.toInt) :
    (∃ m₁ f₁, system2UserAnswer m addr (s.length + 1) buffer = .done (m₁, s.length + 1) ∧
      Sees m₁ f₁ ∧
      (∀ a, (∀ j ≤ s.length, a ≠ addr + BitVec.ofNat 32 j) →
        f₁.read a .byte = f.read a .byte) ∧
      ∃ m₂ kernelBuf, user2System m₁ addr limit junk = .done (m₂, kernelBuf) ∧
        HoldsString kernelBuf s) ↔
    limit.toInt ≠ 2 ^ 31 - 1 := by
  obtain ⟨k, hk⟩ := Int.eq_ofNat_of_zero_le (show 0 ≤ limit.toInt by omega)
  obtain ⟨m', f', hanswer, h', hcopy, hother⟩ :=
    system2UserAnswer_string h hs hbuffer hmapped
  constructor
  · rintro ⟨m₁, _, _, _, _, m₂, kernelBuf, hback, _⟩ hmax
    rw [user2System_overflow junk hk (by omega)] at hback
    cases hback
  · intro hmax
    have hend := hbuffer.endsAt hs (show s.length < k by omega)
    have hcopied := hend.copied_eq
    obtain ⟨m₂, hback, _⟩ := user2System_eq (b := buffer) junk h' hk (by omega) fun j hj => by
      rw [hbuffer j (by omega)]
      exact hcopy j (by omega)
    refine ⟨m', f', hanswer, h', hother, m₂, _, hback, fun j hj => ?_⟩
    rw [copiedOver_of_lt (by omega)]
    exact hbuffer j hj

/-- The string `"ab"` goes to address 3 and comes back. -/
theorem copies_inverse_ab :
    ∃ m₁, system2UserAnswer (bufferPage []) 3 3 (fun j => [97, 98].getD j 0) = .done (m₁, 3) ∧
      ∃ m₂ kernelBuf, user2System m₁ 3 10 (fun _ => 1) = .done (m₂, kernelBuf) ∧
        HoldsString kernelBuf [97, 98] := by
  obtain ⟨f, hf, hbytes⟩ := bufferPage_holds []
  have hmapped : ∀ j ≤ 2, f.Permits (3 + BitVec.ofNat 32 j) .byte := by
    intro j hj
    rcases (by omega : j = 0 ∨ j = 1 ∨ j = 2) with rfl | rfl | rfl
    · exact (hbytes 3 (by decide)).1
    · exact (hbytes 4 (by decide)).1
    · exact (hbytes 5 (by decide)).1
  have hnonzero : ∀ c ∈ ([97, 98] : List (BitVec 8)), c ≠ 0 := by decide
  have hlimit : (2 : Nat) < (10 : BitVec 32).toInt := by decide
  obtain ⟨m₁, _, hanswer, _, _, hback⟩ :=
    (copies_inverse_iff hf hnonzero (fun _ _ => rfl) hmapped hlimit).mpr (by decide)
  exact ⟨m₁, hanswer, hback⟩

/-- With the greatest limit there is no buffer. -/
theorem copies_greatest_limit :
    ∃ m₁, system2UserAnswer (bufferPage []) 3 3 (fun j => [97, 98].getD j 0) = .done (m₁, 3) ∧
      user2System m₁ 3 (BitVec.intMax 32) (fun _ => 1) = .aborted :=
  ⟨_, rfl, rfl⟩

end System2User

end Nachos
