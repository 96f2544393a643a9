import Nachos.Machine.UserMemory
import Nachos.Userprog.FileTable

/-!
# What a file gives back

`Write` copies the user's bytes into a buffer of the kernel and from there to the file; `Read` goes
the other way. Both copies stop behind the first zero byte, while the file accesses move as many
bytes as they were asked for.

* `user2SystemLoop_spec`, `system2UserLoop_effect` — what the copies do
* `file_bytes_exact_iff` — when bytes survive the way to the file and back
-/

namespace Nachos

open Base CallOutcome

variable {n : Nat}

/-! ## The two copies -/

/-- Room for one byte more, as the calls ask for it. -/
theorem toInt_add_one {size : BitVec 32} (h : size.toInt ≠ 2 ^ 31 - 1) :
    (size + 1).toInt = size.toInt + 1 := by
  have hlt := BitVec.toInt_lt (x := size)
  have hle := BitVec.le_toInt (x := size)
  rw [BitVec.toInt_add]
  exact Int.bmod_eq_of_le (by simp; omega) (by simp; omega)

/-- `User2System` copies the bytes up to and including the first zero. -/
theorem user2SystemLoop_spec {m : Machine n} {f : FlatStore n} {addr : BitVec 32} {b : KernelBuf}
    {i k : Nat} (kernelBuf : KernelBuf) (h : Sees m f)
    (hb : ∀ j < copied b i k, f.Holds (addr + BitVec.ofNat 32 (i + j)) (b (i + j))) :
    ∃ m', user2SystemLoop addr m kernelBuf i k =
        .done (m', fun j => if i ≤ j ∧ j < i + copied b i k then b j else kernelBuf j) ∧
      Sees m' f := by
  induction k generalizing m kernelBuf i with
  | zero =>
    have hzero : copied b i 0 = 0 := rfl
    have hsame : (fun j => if i ≤ j ∧ j < i + copied b i 0 then b j else kernelBuf j)
        = kernelBuf := by
      funext j
      rw [if_neg (by omega)]
    rw [hsame]
    exact ⟨m, rfl, h⟩
  | succ k ih =>
    have hfirst : f.Holds (addr + BitVec.ofNat 32 i) (b i) :=
      hb 0 (lt_copied_iff.mpr ⟨by omega, fun l hl => by omega⟩)
    rcases h.readMem (addr + BitVec.ofNat 32 i) .byte with ⟨m₁, value, hf, hm, h₁⟩ | ⟨e, hf, _⟩
    · rw [hfirst] at hf
      obtain rfl := Access.done.inj hf
      rw [show Width.byte.size = 1 from rfl] at hm
      simp only [user2SystemLoop, hm, Access.bind, setWidth_signExtend, signExtend_eq_zero]
      by_cases hz : b i = 0
      · have hone : copied b i (k + 1) = 1 := by rw [copied, if_pos hz]
        rw [if_pos hz, hone]
        refine ⟨m₁, ?_, h₁⟩
        congr 2
        funext j
        by_cases hj : j = i
        · rw [hj, Function.update_self, if_pos (by omega)]
        · rw [Function.update_of_ne hj, if_neg (by omega)]
      · have hsucc : copied b i (k + 1) = copied b (i + 1) k + 1 := by rw [copied, if_neg hz]
        rw [if_neg hz, hsucc]
        have hrest : ∀ j < copied b (i + 1) k,
            f.Holds (addr + BitVec.ofNat 32 (i + 1 + j)) (b (i + 1 + j)) := by
          intro j hj
          rw [show i + 1 + j = i + (j + 1) by omega]
          exact hb (j + 1) (by rw [hsucc]; omega)
        obtain ⟨m₂, hloop, h₂⟩ := ih _ h₁ hrest
        refine ⟨m₂, ?_, h₂⟩
        rw [hloop]
        congr 2
        funext j
        by_cases hj : j = i
        · rw [hj, Function.update_self, if_neg (by omega), if_pos (by omega)]
        · rw [Function.update_of_ne hj]
          by_cases hc : i + 1 ≤ j ∧ j < i + 1 + copied b (i + 1) k
          · rw [if_pos hc, if_pos (by omega)]
          · rw [if_neg hc, if_neg (by omega)]
    · rw [hfirst] at hf
      simp at hf

/-- A byte that cannot be read ends `User2System` when no zero byte comes before it. -/
theorem user2SystemLoop_raised {m : Machine n} {f : FlatStore n} {addr : BitVec 32}
    {b kernelBuf : KernelBuf} {i k l : Nat} (h : Sees m f) (hl : l < k)
    (hb : ∀ j < l, f.Holds (addr + BitVec.ofNat 32 (i + j)) (b (i + j)) ∧ b (i + j) ≠ 0)
    (hend : ∀ c, ¬ f.Holds (addr + BitVec.ofNat 32 (i + l)) c) :
    ∃ e, user2SystemLoop addr m kernelBuf i k = .raised e := by
  induction k generalizing m kernelBuf i l with
  | zero => omega
  | succ k ih =>
    rcases h.readMem (addr + BitVec.ofNat 32 i) .byte with ⟨m₁, value, hf, hm, h₁⟩ | ⟨e, _, hm⟩
    · cases l with
      | zero =>
        -- whatever byte is read at `addr + i`, it is not there
        obtain ⟨c, hc⟩ := FlatStore.exists_holds hf
        exact absurd hc (hend c)
      | succ l =>
        obtain ⟨hfirst, hnz⟩ := hb 0 (by omega)
        rw [Nat.add_zero] at hfirst hnz
        rw [hfirst] at hf
        obtain rfl := Access.done.inj hf
        rw [show Width.byte.size = 1 from rfl] at hm
        simp only [user2SystemLoop, hm, Access.bind, signExtend_eq_zero, hnz, if_false]
        refine ih h₁ (show l < k by omega) ?_ ?_
        · intro j hj
          rw [show i + 1 + j = i + (j + 1) by omega]
          exact hb (j + 1) (by omega)
        · rw [show i + 1 + l = i + (l + 1) by omega]
          exact hend
    · refine ⟨e, ?_⟩
      rw [show Width.byte.size = 1 from rfl] at hm
      simp only [user2SystemLoop, hm, Access.bind]

theorem byteOf_signExtend (b : BitVec 8) : byteOf (b.signExtend 32) 0 = b := by
  unfold byteOf
  rw [Nat.mul_zero, BitVec.ushiftRight_zero, setWidth_signExtend]

/-- `System2User` gets through when it may write the bytes it copies. -/
theorem system2UserLoop_done {m : Machine n} {f : FlatStore n} {addr : BitVec 32} {b : KernelBuf}
    {i k : Nat} (h : Sees m f)
    (hw : ∀ j < copied b i k, f.Permits (addr + BitVec.ofNat 32 (i + j)) .byte) :
    ∃ m', system2UserLoop addr b m i k = .done m' := by
  induction k generalizing m f i with
  | zero => exact ⟨m, rfl⟩
  | succ k ih =>
    have hfirst : f.Permits (addr + BitVec.ofNat 32 i) .byte :=
      hw 0 (lt_copied_iff.mpr ⟨by omega, fun l hl => by omega⟩)
    obtain ⟨m₁, f₁, hf, hm, h₁⟩ | ⟨e, _, hm⟩ :=
      h.writeMem (addr + BitVec.ofNat 32 i) .byte ((b i).signExtend 32)
    · rw [show Width.byte.size = 1 from rfl] at hm
      simp only [system2UserLoop, hm, Access.bind, signExtend_eq_zero]
      by_cases hz : b i = 0
      · rw [if_pos hz]
        exact ⟨m₁, rfl⟩
      · rw [if_neg hz]
        refine ih h₁ ?_
        intro j hj
        rw [FlatStore.permits_write hf, show i + 1 + j = i + (j + 1) by omega]
        exact hw (j + 1) (by rw [copied, if_neg hz]; omega)
    · obtain ⟨m', hm'⟩ := h.userWritable_iff.mpr hfirst ((b i).signExtend 32)
      rw [show (1 : Nat) = Width.byte.size from rfl, hm] at hm'
      simp at hm'

/-- What `System2User` leaves: the copied bytes, and everything else as it was. -/
theorem system2UserLoop_effect {m m' : Machine n} {f : FlatStore n} {addr : BitVec 32}
    {b : KernelBuf} {i k : Nat} (h : Sees m f) (hk : i + k ≤ 2 ^ 32)
    (hloop : system2UserLoop addr b m i k = .done m') :
    ∃ f', Sees m' f' ∧
      (∀ j, i ≤ j → j < i + copied b i k → f'.Holds (addr + BitVec.ofNat 32 j) (b j)) ∧
      ∀ a, (∀ j, i ≤ j → j < i + copied b i k → a ≠ addr + BitVec.ofNat 32 j) →
        f'.read a .byte = f.read a .byte := by
  induction k generalizing m f i with
  | zero =>
    obtain rfl := Access.done.inj hloop
    exact ⟨f, h, fun j hj hj' => by simp only [copied] at hj'; omega, fun a _ => rfl⟩
  | succ k ih =>
    obtain ⟨m₁, f₁, hf, hm, h₁⟩ | ⟨e, _, hm⟩ :=
      h.writeMem (addr + BitVec.ofNat 32 i) .byte ((b i).signExtend 32)
    · rw [show Width.byte.size = 1 from rfl] at hm
      simp only [system2UserLoop, hm, Access.bind, signExtend_eq_zero] at hloop
      have hread := FlatStore.write_byte hf
      rw [byteOf_signExtend] at hread
      by_cases hz : b i = 0
      · have hone : copied b i (k + 1) = 1 := by rw [copied, if_pos hz]
        rw [if_pos hz] at hloop
        obtain rfl := Access.done.inj hloop
        rw [hone]
        refine ⟨f₁, h₁, ?_, ?_⟩
        · intro j hj hj'
          rw [show j = i by omega]
          exact (hread _).trans (if_pos rfl)
        · intro a ha
          rw [hread, if_neg (ha i (by omega) (by omega))]
      · have hsucc : copied b i (k + 1) = copied b (i + 1) k + 1 := by rw [copied, if_neg hz]
        rw [if_neg hz] at hloop
        obtain ⟨f₂, h₂, hcopied, hother⟩ := ih h₁ (by omega) hloop
        refine ⟨f₂, h₂, ?_, ?_⟩
        · intro j hj hj'
          by_cases hji : j = i
          · -- the later bytes go to other addresses
            have hlen : copied b (i + 1) k ≤ k := by
              by_contra hlt
              exact absurd (lt_copied_iff.mp (show k < copied b (i + 1) k by omega)).1 (by omega)
            rw [hji]
            unfold FlatStore.Holds
            rw [hother, hread, if_pos rfl]
            exact fun l hl hl' => offset_ne (by omega) (by omega) (by omega)
          · exact hcopied j (by omega) (by omega)
        · intro a ha
          rw [hother, hread, if_neg (ha i (by omega) (by omega))]
          intro j hj hj'
          exact ha j (by omega) (by omega)
    · rw [show Width.byte.size = 1 from rfl] at hm
      simp only [system2UserLoop, hm, Access.bind] at hloop
      simp at hloop

/-! ## The file -/

/-- `Seek` to a position inside the file. -/
theorem sysSeek_of_open {s : FileState} {pos id : BitVec 32} {i : Fin numOpenFiles} {f : OpenFile}
    (hid : id.toInt = i) (hi : 2 ≤ i.val) (hopen : s.fs.openFiles i = some f)
    (hlen : (s.files f.file).length ≤ maxFileSize) (hpos : 0 ≤ pos.toInt)
    (hle : pos.toInt ≤ (s.files f.file).length) :
    sysSeek s pos id = .returned
      ({ s with fs := s.fs.setFile i (some { f with currentOffset := pos.toInt }) },
        pos.toInt) := by
  have hlt : (i : Nat) < 10 := i.isLt
  obtain ⟨h0, h1⟩ := ne_console hid hi
  have hend : ¬ pos.toInt = -1 := by omega
  have hin : ¬ (pos.toInt > (s.files f.file).length ∨ pos.toInt < 0) := by omega
  have hnat : ((pos.toInt.toNat : Nat) : Int) = pos.toInt := Int.toNat_of_nonneg hpos
  have hrange : ¬ (id.toInt < 0 ∨ id.toInt > 14) := by omega
  simp only [sysSeek, hrange, atIndex_of_eq hid, hopen, h0, h1, or_self, if_false, seekSlot,
    OpenFile.length, hlen, if_true, ofOption, hend, hin, OpenFile.seek, lseek, hpos,
    Option.bind_eq_bind, Option.bind_some, Option.pure_def, hnat]

/-- `Read` through an open slot behind the consoles. -/
theorem sysRead_of_open {m : Machine n} {s : FileState} {virtualAddr charcount id : BitVec 32}
    {junk : KernelBuf} {input : Nat → BitVec 8} {i : Fin numOpenFiles} {f : OpenFile}
    (hid : id.toInt = i) (hi : 2 ≤ i.val) (hopen : s.fs.openFiles i = some f) :
    sysRead m s virtualAddr charcount id junk input =
      if (charcount + 1).toInt < 0 then .aborted
      else readSlot m s virtualAddr charcount i f junk := by
  have hlt : (i : Nat) < 10 := i.isLt
  obtain ⟨h0, h1⟩ := ne_console hid hi
  have hrange : ¬ (id.toInt > 9 ∨ id.toInt < 0) := by omega
  simp only [sysRead, hrange, atIndex_of_eq hid, hopen, h0, h1, if_false]

/-- The bytes of the file behind its position. -/
def fileByte (s : FileState) (f : OpenFile) (j : Nat) : BitVec 8 :=
  (s.files f.file).getD (f.currentOffset.toNat + j) 0

/--
What a `Read` with a positive answer leaves in user memory: the bytes of the file up to the first
zero among them, and behind it what was there before.
-/
theorem readSlot_effect {m m' : Machine n} {s s' : FileState} {g : FlatStore n}
    {virtualAddr charcount : BitVec 32} {i : Fin numOpenFiles} {f : OpenFile} {junk : KernelBuf}
    {k : Int} (h : Sees m g)
    (hread : readSlot m s virtualAddr charcount i f junk = .returned (m', s', k)) (hk : 0 < k) :
    ∃ g', Sees m' g' ∧
      (∀ j < copied (fileByte s f) 0 k.toNat,
        g'.Holds (virtualAddr + BitVec.ofNat 32 j) (fileByte s f j)) ∧
      ∀ j < k.toNat, ¬ j < copied (fileByte s f) 0 k.toNat → ∀ b,
        (g'.Holds (virtualAddr + BitVec.ofNat 32 j) b ↔
          g.Holds (virtualAddr + BitVec.ofNat 32 j) b) := by
  obtain ⟨⟨f', bytes, size⟩, hbytes, hread⟩ := ofOption_eq_returned hread
  simp only at hread
  split at hread
  · next hsize =>
    obtain ⟨m₁, hcopy, hread⟩ := ofAccess_eq_returned hread
    simp only [CallOutcome.returned.injEq, Prod.mk.injEq] at hread
    obtain ⟨rfl, _, rfl⟩ := hread
    -- the bytes that were read are those of the file
    have hfile : size.toNat = bytes.length ∧ size.toNat < 2 ^ 31 ∧
        ∀ j < size.toNat, fillBuffer junk bytes j = fileByte s f j := by
      simp only [OpenFile.read, OpenFile.readAt, lseek, Option.bind_eq_bind,
        Option.bind_eq_some_iff] at hbytes
      obtain ⟨⟨bytes₁, size₁⟩, ⟨pos, hpos, hat⟩, hbytes⟩ := hbytes
      simp only [Option.pure_def, Option.some.injEq, Prod.mk.injEq] at hbytes
      obtain ⟨_, rfl, rfl⟩ := hbytes
      split at hpos
      · next h0 =>
        obtain rfl := Option.some.inj hpos
        split at hat
        · simp only [Option.pure_def, Option.some.injEq, Prod.mk.injEq] at hat
          omega
        · simp only [Option.pure_def, Option.some.injEq, Prod.mk.injEq] at hat
          obtain ⟨rfl, rfl⟩ := hat
          have hlt := BitVec.toInt_lt (x := charcount)
          have hlen : (hostRead (s.files f.file) f.currentOffset.toNat charcount.toInt.toNat).length
              ≤ charcount.toInt.toNat := by
            simp [hostRead]
          refine ⟨by omega, by omega, ?_⟩
          intro j hj
          have hj' : j < charcount.toInt.toNat := by omega
          have hj'' : j < (hostRead (s.files f.file) f.currentOffset.toNat
              charcount.toInt.toNat).length := by omega
          simp only [fillBuffer, fileByte, hostRead, List.getD_eq_getElem?_getD,
            List.getElem?_take_of_lt hj', List.getElem?_drop]
          have hsome : f.currentOffset.toNat + j < (s.files f.file).length := by
            simp only [hostRead, List.length_take, List.length_drop] at hj''
            omega
          simp [hsome]
      · simp at hpos
    obtain ⟨_, hlt, hfile⟩ := hfile
    have hsame : copied (fillBuffer junk bytes) 0 size.toNat
        = copied (fileByte s f) 0 size.toNat := by
      refine copied_congr ?_
      intro j hj
      rw [Nat.zero_add]
      exact hfile j (lt_copied_iff.mp hj).1
    rw [system2User, if_neg (by omega)] at hcopy
    obtain ⟨g', h', hcopied, hother⟩ := system2UserLoop_effect h (by omega) hcopy
    rw [hsame] at hcopied hother
    refine ⟨g', h', ?_, ?_⟩
    · intro j hj
      rw [← hfile j (lt_copied_iff.mp hj).1]
      exact hcopied j (by omega) (by omega)
    · intro j hj hnot b
      unfold FlatStore.Holds
      rw [hother]
      exact fun l _ hl => offset_ne (by omega) (by omega) (by omega)
  · simp only [CallOutcome.returned.injEq, Prod.mk.injEq] at hread
    omega

/-! ## To the file and back -/

/-- `Seek(p, id); Write(buf, size, id); Seek(p, id); Read(buf2, size, id)`. -/
def writeThenRead (m : Machine n) (s : FileState) (p id size buf buf2 : BitVec 32)
    (junk junk' : KernelBuf) (input : Nat → BitVec 8) :
    CallOutcome (Machine n × FileState × Int) :=
  (sysSeek s p id).bind fun (s, _) =>
    (sysWrite m s buf size id junk).bind fun (m, s, _) =>
      (sysSeek s p id).bind fun (s, _) =>
        sysRead m s buf2 size id junk' input

/-- No process has more bytes than main memory. -/
theorem length_le_memorySize {m : Machine n} {g : FlatStore n} (h : Sees m g) {buf : BitVec 32}
    {N : Nat} (hd : ∀ j < N, ∃ b, g.Holds (buf + BitVec.ofNat 32 j) b) : N ≤ memorySize := by
  obtain ⟨pageTable, frame, _, _, _, hinj, _⟩ := h
  have hpages : n ≤ numPhysPages := by
    have := Fintype.card_le_of_injective frame hinj
    rwa [Fintype.card_fin, Fintype.card_fin] at this
  have hsize : n * pageSize ≤ memorySize := Nat.mul_le_mul_right pageSize hpages
  have hmem : memorySize = 16384 := rfl
  -- some address of the buffer is not below `memorySize`
  have hread : ∀ addr b, g.Holds addr b → addr.toNat < memorySize := by
    intro addr b hb
    unfold FlatStore.Holds at hb
    rw [FlatStore.read_byte] at hb
    split at hb
    · omega
    · simp at hb
  by_contra hN
  by_cases hbuf : buf.toNat < memorySize
  · obtain ⟨b, hb⟩ := hd (memorySize - buf.toNat) (by omega)
    have := hread _ b hb
    simp only [BitVec.toNat_add, BitVec.toNat_ofNat] at this
    omega
  · obtain ⟨b, hb⟩ := hd 0 (by omega)
    have := hread _ b hb
    simp only [BitVec.toNat_add, BitVec.toNat_ofNat] at this
    have := buf.isLt
    omega

section RoundTrip

variable {m : Machine n} {s : FileState} {g : FlatStore n} {p id size buf buf2 : BitVec 32}
  {junk junk' : KernelBuf} {input : Nat → BitVec 8} {i : Fin numOpenFiles} {f : OpenFile}
  {d : List (BitVec 8)}

/-- The bytes that `User2System` looks at: those of `d`, and the one behind them. -/
def withNext (d : List (BitVec 8)) (next : BitVec 8) (j : Nat) : BitVec 8 := d.getD j next

theorem withNext_of_lt {j : Nat} (hj : j < d.length) (next : BitVec 8) :
    withNext d next j = d.getD j 0 := by
  simp [withNext, List.getD_eq_getElem?_getD, hj]

theorem withNext_length (d : List (BitVec 8)) (next : BitVec 8) :
    withNext d next d.length = next := by
  simp [withNext]

theorem mem_zero_iff : (0 : BitVec 8) ∈ d ↔ ∃ j, j < d.length ∧ d.getD j 0 = 0 := by
  rw [List.mem_iff_getElem]
  constructor
  · rintro ⟨j, hj, hz⟩
    exact ⟨j, hj, by simp [List.getD_eq_getElem?_getD, hj, hz]⟩
  · rintro ⟨j, hj, hz⟩
    exact ⟨j, hj, by simpa [List.getD_eq_getElem?_getD, hj] using hz⟩

/-- The sizes that `SysWrite` and `User2System` compute do not overflow. -/
theorem toInt_add_two {N : Nat} (hsize : size.toInt = N) (hmem : N ≤ memorySize) :
    (size + 1).toInt = N + 1 ∧ (size + 1 + 1).toInt = N + 2 := by
  have h16 : memorySize = 16384 := rfl
  have hone : (size + 1).toInt = N + 1 := by rw [toInt_add_one (by omega), hsize]
  refine ⟨hone, ?_⟩
  rw [toInt_add_one (by omega), hone]
  omega

/-- `User2System` on a buffer that holds `d`, when it gets through. -/
theorem user2System_of_holds (next : BitVec 8) (h : Sees m g) (hsize : size.toInt = d.length)
    (hd : ∀ j < d.length, g.Holds (buf + BitVec.ofNat 32 j) (d.getD j 0))
    (hnext : 0 ∈ d ∨ g.Holds (buf + BitVec.ofNat 32 d.length) next) :
    ∃ m' sysBuff, user2System m buf (size + 1) junk = .done (m', sysBuff) ∧ Sees m' g ∧
      ∀ j < copied (fun j => d.getD j 0) 0 d.length, sysBuff j = d.getD j 0 := by
  obtain ⟨hone, htwo⟩ :=
    toInt_add_two hsize (length_le_memorySize h fun j hj => ⟨_, hd j hj⟩)
  have hholds : ∀ j < copied (withNext d next) 0 (d.length + 1),
      g.Holds (buf + BitVec.ofNat 32 (0 + j)) (withNext d next (0 + j)) := by
    intro j hj
    obtain ⟨hlt, hnz⟩ := lt_copied_iff.mp hj
    rw [Nat.zero_add]
    by_cases hjd : j < d.length
    · rw [withNext_of_lt hjd]
      exact hd j hjd
    · obtain rfl : j = d.length := by omega
      rcases hnext with hzero | hnext
      · obtain ⟨l, hl, hz⟩ := mem_zero_iff.mp hzero
        refine absurd ?_ (hnz l hl)
        rw [Nat.zero_add, withNext_of_lt hl, hz]
      · rw [withNext_length]
        exact hnext
  obtain ⟨m', hloop, h'⟩ := user2SystemLoop_spec junk h hholds
  have hcopy : user2System m buf (size + 1) junk
      = user2SystemLoop buf m junk 0 (d.length + 1) := by
    rw [user2System, if_neg (by omega), hone]
    rfl
  refine ⟨m', _, hcopy.trans hloop, h', ?_⟩
  intro j hj
  obtain ⟨hlt, hnz⟩ := lt_copied_iff.mp hj
  rw [if_pos, withNext_of_lt hlt]
  refine ⟨by omega, ?_⟩
  rw [Nat.zero_add, lt_copied_iff]
  refine ⟨by omega, ?_⟩
  intro l hl
  rw [Nat.zero_add, withNext_of_lt (by omega)]
  have := hnz l hl
  rwa [Nat.zero_add] at this

/-- Without a zero byte in `d`, the byte behind it has to be readable. -/
theorem user2System_raised (junk : KernelBuf) (h : Sees m g) (hsize : size.toInt = d.length)
    (hd : ∀ j < d.length, g.Holds (buf + BitVec.ofNat 32 j) (d.getD j 0))
    (hzero : 0 ∉ d) (hnext : ∀ c, ¬ g.Holds (buf + BitVec.ofNat 32 d.length) c) :
    ∃ e, user2System m buf (size + 1) junk = .raised e := by
  obtain ⟨hone, htwo⟩ :=
    toInt_add_two hsize (length_le_memorySize h fun j hj => ⟨_, hd j hj⟩)
  rw [user2System, if_neg (by omega), hone]
  refine user2SystemLoop_raised (b := withNext d 0) (l := d.length) h (by omega) ?_ ?_
  · intro j hj
    rw [Nat.zero_add, withNext_of_lt hj]
    exact ⟨hd j hj, fun hz => hzero (mem_zero_iff.mpr ⟨j, hj, hz⟩)⟩
  · rw [Nat.zero_add]
    exact hnext

/-- Seek back and read, after `sysBuff` was written at `p`. -/
theorem seekThenRead_of_written {m₁ : Machine n} {s₂ : FileState} {f₂ : OpenFile}
    {content : List (BitVec 8)} {sysBuff : KernelBuf} {N : Nat} (h : Sees m₁ g)
    (hid : id.toInt = i) (hi : 2 ≤ i.val) (hopen : s₂.fs.openFiles i = some f₂)
    (hsize : size.toInt = N) (hN : 0 < N) (hmem : N ≤ memorySize) (hpos : 0 ≤ p.toInt)
    (hle : p.toInt.toNat ≤ content.length) (hlen : content.length ≤ maxFileSize)
    (hfits : p.toInt.toNat + N ≤ maxFileSize)
    (hfile : s₂.files f₂.file = hostWrite content p.toInt.toNat (bufferBytes sysBuff N))
    (hw : ∀ j < N, g.Permits (buf2 + BitVec.ofNat 32 j) .byte) :
    ∃ m' s' g', ((sysSeek s₂ p id).bind fun (s, _) => sysRead m₁ s buf2 size id junk' input)
        = .returned (m', s', N) ∧ Sees m' g' ∧
      (∀ j < copied sysBuff 0 N, g'.Holds (buf2 + BitVec.ofNat 32 j) (sysBuff j)) ∧
      ∀ j < N, ¬ j < copied sysBuff 0 N → ∀ b,
        (g'.Holds (buf2 + BitVec.ofNat 32 j) b ↔ g.Holds (buf2 + BitVec.ofNat 32 j) b) := by
  have hlen₂ : (s₂.files f₂.file).length = max content.length (p.toInt.toNat + N) := by
    rw [hfile, hostWrite_length hle, length_bufferBytes]
  have hseek := sysSeek_of_open hid hi hopen (by omega) hpos (by omega)
  have hone : ¬ (size + 1).toInt < 0 := by
    rw [(toInt_add_two hsize hmem).1]
    omega
  -- the state in which `Read` is called, and what it finds in the file
  let f₃ : OpenFile := { f₂ with currentOffset := p.toInt }
  let s₃ : FileState := { s₂ with fs := s₂.fs.setFile i (some f₃) }
  have hread : sysRead m₁ s₃ buf2 size id junk' input = readSlot m₁ s₃ buf2 size i f₃ junk' := by
    rw [sysRead_of_open hid hi (FileSystem.setFile_self s₂.fs i (some f₃)), if_neg hone]
  have hbytes : hostRead (s₃.files f₃.file) f₃.currentOffset.toNat size.toInt.toNat
      = bufferBytes sysBuff N := by
    have hback : hostRead (hostWrite content p.toInt.toNat (bufferBytes sysBuff N))
        p.toInt.toNat (bufferBytes sysBuff N).length = bufferBytes sysBuff N :=
      hostRead_hostWrite hle
    rw [length_bufferBytes] at hback
    simp only [s₃, f₃, hfile, hsize, Int.toNat_natCast]
    exact hback
  have hfileByte : ∀ j < N, fileByte s₃ f₃ j = sysBuff j := by
    intro j hj
    have hget := congrArg (fun l => l.getD j 0) hbytes
    simp only [hostRead, hsize, Int.toNat_natCast, List.getD_eq_getElem?_getD,
      List.getElem?_take_of_lt hj, List.getElem?_drop] at hget
    simpa [fileByte, bufferBytes, List.getD_eq_getElem?_getD, hj] using hget
  have hcopied : copied (fileByte s₃ f₃) 0 N = copied sysBuff 0 N := by
    refine copied_congr ?_
    intro j hj
    rw [Nat.zero_add]
    exact hfileByte j (lt_copied_iff.mp hj).1
  obtain ⟨m', hcopy⟩ := system2UserLoop_done (b := fillBuffer junk' (bufferBytes sysBuff N))
    (i := 0) (k := N) h fun j hj => by
      rw [Nat.zero_add]
      exact hw j (lt_copied_iff.mp hj).1
  have hreturned : ∃ s', readSlot m₁ s₃ buf2 size i f₃ junk' = .returned (m', s', (N : Int)) := by
    rw [readSlot, OpenFile.read_of_nonneg hpos (by omega), hbytes, length_bufferBytes]
    have hpos' : (0 : Int) < N := by omega
    have hnot : ¬ ((N : Int) ≤ 0) := by omega
    simp only [ofOption, hpos', if_true, system2User, hnot, if_false, Int.toNat_natCast, hcopy,
      ofAccess]
    exact ⟨_, rfl⟩
  obtain ⟨s', hreturned⟩ := hreturned
  obtain ⟨g', h', hin, hout⟩ := readSlot_effect h hreturned (by omega)
  rw [Int.toNat_natCast, hcopied] at hin hout
  refine ⟨m', s', g', ?_, h', ?_, hout⟩
  · rw [hseek]
    exact hread.trans hreturned
  · intro j hj
    rw [← hfileByte j (lt_copied_iff.mp hj).1]
    exact hin j hj

/-- The sequence up to the write: `Seek` succeeds, and `User2System` decides how it goes on. -/
theorem writeThenRead_eq (hid : id.toInt = i) (hi : 2 ≤ i.val) (hopen : s.fs.openFiles i = some f)
    (htype : s.fs.type i = 0) (hlen : (s.files f.file).length ≤ maxFileSize)
    (hpos : 0 ≤ p.toInt) (hle : p.toInt ≤ (s.files f.file).length) :
    writeThenRead m s p id size buf buf2 junk junk' input =
      (ofAccess (user2System m buf (size + 1) junk) fun x =>
        writeSlot x.1 { s with fs := s.fs.setFile i (some { f with currentOffset := p.toInt }) }
          size i { f with currentOffset := p.toInt } x.2).bind fun (m, s, _) =>
        (sysSeek s p id).bind fun (s, _) => sysRead m s buf2 size id junk' input := by
  have htype' : s.fs.type i ≠ 1 := by
    rw [htype]
    decide
  have hwrite : ∀ f', sysWrite m { s with fs := s.fs.setFile i (some f') } buf size id junk =
      ofAccess (user2System m buf (size + 1) junk) fun x =>
        writeSlot x.1 { s with fs := s.fs.setFile i (some f') } size i f' x.2 :=
    fun f' => sysWrite_of_open hid hi (FileSystem.setFile_self s.fs i (some f')) htype'
  rw [writeThenRead, sysSeek_of_open hid hi hopen hlen hpos hle, bind_returned]
  simp only [hwrite]

/-- The whole sequence, when the copy and the write get through. -/
theorem writeThenRead_returned {m₁ : Machine n} {sysBuff : KernelBuf} {N : Nat}
    (junk' : KernelBuf) (input : Nat → BitVec 8) (h : Sees m₁ g) (hid : id.toInt = i)
    (hi : 2 ≤ i.val) (hopen : s.fs.openFiles i = some f)
    (htype : s.fs.type i = 0) (hlen : (s.files f.file).length ≤ maxFileSize)
    (hpos : 0 ≤ p.toInt) (hle : p.toInt ≤ (s.files f.file).length) (hsize : size.toInt = N)
    (hN : 0 < N) (hmem : N ≤ memorySize) (hfits : p.toInt.toNat + N ≤ maxFileSize)
    (hcopy : user2System m buf (size + 1) junk = .done (m₁, sysBuff))
    (hw : ∀ j < N, g.Permits (buf2 + BitVec.ofNat 32 j) .byte) :
    ∃ m' s' g', writeThenRead m s p id size buf buf2 junk junk' input
        = .returned (m', s', N) ∧ Sees m' g' ∧
      (∀ j < copied sysBuff 0 N, g'.Holds (buf2 + BitVec.ofNat 32 j) (sysBuff j)) ∧
      ∀ j < N, ¬ j < copied sysBuff 0 N → ∀ b,
        (g'.Holds (buf2 + BitVec.ofNat 32 j) b ↔ g.Holds (buf2 + BitVec.ofNat 32 j) b) := by
  rw [writeThenRead_eq hid hi hopen htype hlen hpos hle, hcopy]
  simp only [ofAccess, writeSlot]
  rw [OpenFile.write_of_nonneg hpos (by omega), if_pos (by simp only [hsize]; omega)]
  simp only [ofOption, CallOutcome.bind]
  have hwritten : Function.update s.files f.file (hostWrite (s.files f.file) p.toInt.toNat
      (bufferBytes sysBuff size.toInt.toNat)) f.file
      = hostWrite (s.files f.file) p.toInt.toNat (bufferBytes sysBuff N) := by
    rw [Function.update_self, hsize, Int.toNat_natCast]
  exact seekThenRead_of_written h hid hi (FileSystem.setFile_self _ i _) hsize hN hmem hpos
    (by omega) hlen hfits hwritten hw

/-- The host does not write behind the largest position. -/
theorem writeThenRead_aborted {m₁ : Machine n} {sysBuff : KernelBuf} {N : Nat}
    (hid : id.toInt = i) (hi : 2 ≤ i.val) (hopen : s.fs.openFiles i = some f)
    (htype : s.fs.type i = 0) (hlen : (s.files f.file).length ≤ maxFileSize)
    (hpos : 0 ≤ p.toInt) (hle : p.toInt ≤ (s.files f.file).length) (hsize : size.toInt = N)
    (hfits : ¬ p.toInt.toNat + N ≤ maxFileSize)
    (hcopy : user2System m buf (size + 1) junk = .done (m₁, sysBuff)) :
    writeThenRead m s p id size buf buf2 junk junk' input = .aborted := by
  rw [writeThenRead_eq hid hi hopen htype hlen hpos hle, hcopy]
  simp only [ofAccess, writeSlot]
  rw [OpenFile.write_of_nonneg hpos (by omega), if_neg (by simp only [hsize]; omega)]
  rfl

/--
**When bytes survive the way to a file and back.**

After `Seek(p)`, `Write` of `d`, `Seek(p)` and `Read`, the second buffer holds `d` exactly when the
file may grow that far, the byte behind the first buffer can be read (or a zero byte of `d` stops
the copy before it), and every byte of `d` behind a zero byte was in the second buffer already. A
`Read` that answers `k` has copied the `k` bytes of the file exactly when those behind a zero byte
were there already.
-/
theorem file_bytes_exact_iff (h : Sees m g) (hid : id.toInt = i) (hi : 2 ≤ i.val)
    (hopen : s.fs.openFiles i = some f) (htype : s.fs.type i = 0)
    (hlen : (s.files f.file).length ≤ maxFileSize) (hpos : 0 ≤ p.toInt)
    (hle : p.toInt ≤ (s.files f.file).length) (hd : d ≠ []) (hsize : size.toInt = d.length)
    (hbuf : ∀ j < d.length, UserByte m (buf + BitVec.ofNat 32 j) (d.getD j 0))
    (hbuf2 : ∀ j < d.length, UserWritable m (buf2 + BitVec.ofNat 32 j)) :
    ((∃ m' s', writeThenRead m s p id size buf buf2 junk junk' input
          = .returned (m', s', d.length) ∧
        ∀ j < d.length, UserByte m' (buf2 + BitVec.ofNat 32 j) (d.getD j 0)) ↔
      p.toInt + d.length ≤ maxFileSize ∧
        (0 ∈ d ∨ ∃ c, UserByte m (buf + BitVec.ofNat 32 d.length) c) ∧
        ∀ j < d.length, (∃ l < j, d.getD l 0 = 0) →
          UserByte m (buf2 + BitVec.ofNat 32 j) (d.getD j 0)) ∧
    ∀ {n : Nat} {m m' : Machine n} {s s' : FileState} {g : FlatStore n}
      {virtualAddr charcount id : BitVec 32} {i : Fin numOpenFiles} {f : OpenFile} {k : Int},
      Sees m g → id.toInt = i → 2 ≤ i.val → s.fs.openFiles i = some f →
      sysRead m s virtualAddr charcount id junk input = .returned (m', s', k) → 0 < k →
      ((∀ j < k.toNat, UserByte m' (virtualAddr + BitVec.ofNat 32 j) (fileByte s f j)) ↔
        ∀ j < k.toNat, (∃ l < j, fileByte s f l = 0) →
          UserByte m (virtualAddr + BitVec.ofNat 32 j) (fileByte s f j)) := by
  constructor
  · simp only [h.userByte_iff] at hbuf ⊢
    simp only [h.userWritable_iff] at hbuf2
    have hN : 0 < d.length := List.length_pos_iff.mpr hd
    have hmem : d.length ≤ memorySize := length_le_memorySize h fun j hj => ⟨_, hbuf j hj⟩
    by_cases hnext : 0 ∈ d ∨ ∃ c, g.Holds (buf + BitVec.ofNat 32 d.length) c
    · obtain ⟨m₁, sysBuff, hcopy, h₁, hsame⟩ : ∃ m₁ sysBuff,
          user2System m buf (size + 1) junk = .done (m₁, sysBuff) ∧ Sees m₁ g ∧
          ∀ j < copied (fun j => d.getD j 0) 0 d.length, sysBuff j = d.getD j 0 := by
        rcases hnext with hzero | ⟨c, hc⟩
        · exact user2System_of_holds 0 h hsize hbuf (.inl hzero)
        · exact user2System_of_holds c h hsize hbuf (.inr hc)
      have hcopied : copied sysBuff 0 d.length = copied (fun j => d.getD j 0) 0 d.length := by
        refine copied_congr ?_
        intro j hj
        rw [Nat.zero_add]
        exact hsame j hj
      by_cases hfits : p.toInt.toNat + d.length ≤ maxFileSize
      · obtain ⟨m', s', g', hrun, h', hin, hout⟩ := writeThenRead_returned junk' input h₁ hid hi
          hopen htype hlen hpos hle hsize hN hmem hfits hcopy hbuf2
        rw [hcopied] at hin hout
        have hbehind : ∀ j < d.length,
            ¬ j < copied (fun j => d.getD j 0) 0 d.length ↔ ∃ l < j, d.getD l 0 = 0 := by
          intro j hj
          rw [lt_copied_iff]
          simp [hj]
        constructor
        · rintro ⟨m₂, s₂, hrun₂, hbytes⟩
          rw [hrun] at hrun₂
          simp only [CallOutcome.returned.injEq, Prod.mk.injEq] at hrun₂
          obtain ⟨rfl, rfl, _⟩ := hrun₂
          refine ⟨by omega, hnext, ?_⟩
          intro j hj hz
          exact (hout j hj ((hbehind j hj).mpr hz) _).mp (h'.userByte_iff.mp (hbytes j hj))
        · rintro ⟨_, _, htail⟩
          refine ⟨m', s', hrun, ?_⟩
          intro j hj
          rw [h'.userByte_iff]
          by_cases hc : j < copied (fun j => d.getD j 0) 0 d.length
          · rw [← hsame j hc]
            exact hin j hc
          · exact (hout j hj hc _).mpr (htail j hj ((hbehind j hj).mp hc))
      · refine iff_of_false ?_ ?_
        · rintro ⟨m', s', hrun, _⟩
          rw [writeThenRead_aborted hid hi hopen htype hlen hpos hle hsize hfits hcopy] at hrun
          simp at hrun
        · rintro ⟨hfits', _⟩
          omega
    · have hzero : 0 ∉ d := fun hz => hnext (.inl hz)
      have hend : ∀ c, ¬ g.Holds (buf + BitVec.ofNat 32 d.length) c :=
        fun c hc => hnext (.inr ⟨c, hc⟩)
      refine iff_of_false ?_ (fun hc => hnext hc.2.1)
      rintro ⟨m', s', hrun, _⟩
      obtain ⟨e, hraised⟩ := user2System_raised junk h hsize hbuf hzero hend
      rw [writeThenRead_eq hid hi hopen htype hlen hpos hle, hraised] at hrun
      simp [ofAccess, CallOutcome.bind] at hrun
  · intro n m m' s s' g virtualAddr charcount id i f k h hid hi hopen hread hk
    rw [sysRead_of_open hid hi hopen] at hread
    split at hread
    · simp at hread
    · obtain ⟨g', h', hin, hout⟩ := readSlot_effect h hread hk
      simp only [h.userByte_iff, h'.userByte_iff]
      have hbehind : ∀ j < k.toNat,
          ¬ j < copied (fileByte s f) 0 k.toNat ↔ ∃ l < j, fileByte s f l = 0 := by
        intro j hj
        rw [lt_copied_iff]
        simp [hj]
      constructor
      · intro hall j hj hz
        exact (hout j hj ((hbehind j hj).mpr hz) _).mp (hall j hj)
      · intro htail j hj
        by_cases hc : j < copied (fileByte s f) 0 k.toNat
        · exact hin j hc
        · exact (hout j hj hc _).mpr (htail j hj ((hbehind j hj).mp hc))

end RoundTrip

/-! ## Two buffers -/

/-- One page of memory with the bytes `d` at its start. -/
def bufferPage (d : List (BitVec 8)) : Machine 1 where
  mainMemory := fun j => d.getD j.val 0
  tlb := none
  pageTable := some fun _ =>
    { virtualPage := 0, physicalPage := 0, valid := true, readOnly := false, use := false,
      dirty := false }

/-- An empty file in slot 2, opened with type 0. -/
def emptyFileOpen : FileState where
  files := fun _ => []
  fs := (FileSystem.new 0 1).setFile ⟨2, by decide⟩ (some (.new 7))

theorem bufferPage_sees (d : List (BitVec 8)) : ∃ g, Sees (bufferPage d) g := by
  refine ⟨_, _, fun _ => ⟨0, by decide⟩, rfl, rfl, ?_, ?_, rfl⟩
  · intro p
    rfl
  · exact fun p q _ => Subsingleton.elim p q

/-- The bytes of the page, one by one. -/
theorem bufferPage_holds (d : List (BitVec 8)) :
    ∃ g, Sees (bufferPage d) g ∧ ∀ j < pageSize, g.Permits (0 + BitVec.ofNat 32 j) .byte ∧
      g.Holds (0 + BitVec.ofNat 32 j) (d.getD j 0) := by
  let frame : Fin 1 → Fin numPhysPages := fun _ => ⟨0, by decide⟩
  have hinj : Function.Injective frame := fun p q _ => Subsingleton.elim p q
  refine ⟨_, ⟨_, frame, rfl, rfl, fun p => rfl, hinj, rfl⟩, ?_⟩
  intro j hj
  have hzero : (0 : BitVec 32) + BitVec.ofNat 32 j = BitVec.ofNat 32 j := BitVec.zero_add _
  rw [hzero]
  have hnat : (BitVec.ofNat 32 j).toNat = j := by
    rw [BitVec.toNat_ofNat]
    exact Nat.mod_eq_of_lt (hj.trans (by decide))
  have hlt : (BitVec.ofNat 32 j).toNat < 1 * pageSize := by omega
  refine ⟨⟨Nat.mod_one _, hlt, rfl, rfl⟩, ?_⟩
  have hphys : (phys frame ⟨(BitVec.ofNat 32 j).toNat, hlt⟩ : Nat) = j := by
    rw [phys_val]
    show 0 * pageSize + (BitVec.ofNat 32 j).toNat % pageSize = j
    rw [hnat, Nat.mod_eq_of_lt hj, Nat.zero_mul, Nat.zero_add]
  have hbyte : (bufferPage d).mainMemory (phys frame ⟨(BitVec.ofNat 32 j).toNat, hlt⟩) =
      d.getD j 0 := congrArg (fun k => d.getD k 0) hphys
  unfold FlatStore.Holds
  rw [FlatStore.read_byte, dif_pos hlt, ← hbyte]
  rfl

/-- The bytes 97, 98, 0 go to the file and come back: the zero byte is the last one. -/
theorem file_bytes_exact_zero_last :
    ∃ m' s', writeThenRead (bufferPage [97, 98, 0, 5, 5, 5]) emptyFileOpen 0 2 3 0 3
        (fun _ => 1) (fun _ => 1) (fun _ => 1) = .returned (m', s', 3) ∧
      ∀ j < 3, UserByte m' (3 + BitVec.ofNat 32 j) ([97, 98, 0].getD j 0) := by
  obtain ⟨g, hg⟩ := bufferPage_sees [97, 98, 0, 5, 5, 5]
  refine (file_bytes_exact_iff (i := ⟨2, by decide⟩) (f := .new 7) (d := [97, 98, 0]) hg rfl
    (by decide) rfl rfl (by decide) (by decide) (by decide) (by decide) rfl ?_ ?_).1.mpr ?_
  · intro j hj
    have : j = 0 ∨ j = 1 ∨ j = 2 := by simp at hj; omega
    rcases this with rfl | rfl | rfl
    · exact ⟨_, rfl⟩
    · exact ⟨_, rfl⟩
    · exact ⟨_, rfl⟩
  · intro j hj value
    have : j = 0 ∨ j = 1 ∨ j = 2 := by simp at hj; omega
    rcases this with rfl | rfl | rfl
    · exact ⟨_, rfl⟩
    · exact ⟨_, rfl⟩
    · exact ⟨_, rfl⟩
  · refine ⟨by decide, .inl (by decide), ?_⟩
    rintro j hj ⟨l, hl, hz⟩
    have : j = 0 ∨ j = 1 ∨ j = 2 := by simp at hj; omega
    have : l = 0 ∨ l = 1 := by omega
    rcases this with rfl | rfl
    · simp at hz
    · simp at hz

/-- The bytes 97, 0, 98 do not: the buffer keeps a 5 where 98 should be. -/
theorem zero_byte_not_exact :
    ∃ m' s', writeThenRead (bufferPage [97, 0, 98, 5, 5, 5]) emptyFileOpen 0 2 3 0 3
        (fun _ => 1) (fun _ => 1) (fun _ => 1) = .returned (m', s', 3) ∧
      UserByte m' 5 5 ∧ ¬ UserByte m' 5 98 := by
  refine ⟨_, _, rfl, ⟨_, rfl⟩, ?_⟩
  intro h
  exact absurd (h.unique (c := 5) ⟨_, rfl⟩) (by decide)

end Nachos
