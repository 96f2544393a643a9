import Nachos.Base.Buffer

/-!
# Packets and mail (`network/post.h`, `network/post.cc`, `machine/network.h`, `machine/network.cc`)

A message crosses the wire under two headers: the post office puts a `MailHeader` in front of the
data, and the network puts a `PacketHeader` in front of that. The receiver takes them apart again,
with assertions of its own at each layer. A failed assertion aborts its machine; here it is `none`.

Buffers come uninitialized, so their contents are parameters.

* `PostOfficeOutput.datagram` — what `Send` puts on the wire
* `NetworkInput.callBack`, `NetworkInput.receive`, `PostOfficeInput.deliver` — the way back
* `letterIn` — the message in a buffer, and that each layer keeps it
* `received_iff` — the messages that the receiver's assertions let through
-/

namespace Nachos

open Base

/-- The classes `PacketHeader` and `MailHeader`, which have the same fields. -/
structure Header where
  /-- `to`. -/
  dest : BitVec 32
  /-- `from`. -/
  sender : BitVec 32
  length : BitVec 32
deriving DecidableEq

/-- `sizeof(PacketHeader)`, and `sizeof(MailHeader)`. -/
def headerSize : Nat := 12

/-- `MaxWireSize`. -/
def maxWireSize : Nat := 64

/-- `MaxPacketSize`. -/
def maxPacketSize : Nat := maxWireSize - headerSize

/-- `MaxMailSize`. -/
def maxMailSize : Nat := maxPacketSize - headerSize

/-- The header in the first bytes of a buffer. -/
def headerAt (b : Buffer) : Header where
  dest := wordAt b 0
  sender := wordAt b 4
  length := wordAt b 8

/-- A header is written to the first bytes of a buffer. -/
def putHeader (b : Buffer) (h : Header) : Buffer :=
  putWord (putWord (putWord b 0 h.dest) 4 h.sender) 8 h.length

/-- The class `Mail`. -/
structure Mail where
  pktHdr : Header
  mailHdr : Header
  data : Buffer

/-! ## Sending -/

/-- `NetworkOutput::Send` of a packet that is not lost: the datagram. -/
def NetworkOutput.send (hostName : BitVec 32) (sendBusy : Bool) (hdr : Header)
    (data wire : Buffer) : Option Buffer :=
  if sendBusy = false ∧ 0 < hdr.length.toNat ∧ hdr.length.toNat ≤ maxPacketSize ∧
      hdr.sender = hostName then
    some (bcopy data 0 (putHeader wire hdr) headerSize hdr.length.toNat)
  else none

/-- `PostOfficeOutput::Send` up to `sendLock`: the packet header and the packet. -/
def PostOfficeOutput.packet (hostName : BitVec 32) (pktHdr mailHdr : Header)
    (data buffer : Buffer) : Option (Header × Buffer) :=
  if mailHdr.length.toNat ≤ maxMailSize ∧ 0 ≤ mailHdr.dest.toInt then
    some ({ pktHdr with
        sender := hostName
        length := mailHdr.length + BitVec.ofNat 32 headerSize },
      bcopy data 0 (putHeader buffer mailHdr) headerSize mailHdr.length.toNat)
  else none

/-- What `PostOfficeOutput::Send` puts on the wire. -/
def PostOfficeOutput.datagram (hostName : BitVec 32) (sendBusy : Bool) (pktHdr mailHdr : Header)
    (data buffer wire : Buffer) : Option Buffer := do
  let (pktHdr, packet) ← packet hostName pktHdr mailHdr data buffer
  NetworkOutput.send hostName sendBusy pktHdr packet wire

/-! ## Receiving -/

/-- `NetworkInput::CallBack` with a datagram: `inHdr` and `inbox`. -/
def NetworkInput.callBack (hostName : BitVec 32) (wire inbox : Buffer) : Option (Header × Buffer) :=
  let inHdr := headerAt wire
  if inHdr.dest = hostName ∧ inHdr.length.toNat ≤ maxPacketSize then
    some (inHdr, bcopy wire headerSize inbox 0 inHdr.length.toNat)
  else none

/-- `NetworkInput::Receive`: the header, `inHdr` after it, and `data`. -/
def NetworkInput.receive (inHdr : Header) (inbox data : Buffer) : Header × Header × Buffer :=
  (inHdr, { inHdr with length := 0 },
    if inHdr.length ≠ 0 then bcopy inbox 0 data 0 inHdr.length.toNat else data)

/-- `Mail::Mail`. -/
def Mail.new (pktHdr mailHdr : Header) (msgData data : Buffer) : Option Mail :=
  if mailHdr.length.toNat ≤ maxMailSize then
    some ⟨pktHdr, mailHdr, bcopy msgData 0 data 0 mailHdr.length.toNat⟩
  else none

/-- `PostOfficeInput::PostalDelivery` after `Receive`: the box, and the mail that is put into it. -/
def PostOfficeInput.deliver (numBoxes : Int) (pktHdr : Header) (buffer data : Buffer) :
    Option (Int × Mail) := do
  let mailHdr := headerAt buffer
  if 0 ≤ mailHdr.dest.toInt ∧ mailHdr.dest.toInt < numBoxes ∧
      mailHdr.length.toNat ≤ maxMailSize then
    let mail ← Mail.new pktHdr mailHdr (fun k => buffer (headerSize + k)) data
    return (mailHdr.dest.toInt, mail)
  else none

/-- The way of a datagram from `CallBack` into a box. -/
def PostOfficeInput.receive (hostName : BitVec 32) (numBoxes : Int)
    (wire inbox buffer data : Buffer) : Option (Int × Mail) := do
  let (inHdr, inbox) ← NetworkInput.callBack hostName wire inbox
  let (pktHdr, _, buffer) := NetworkInput.receive inHdr inbox buffer
  deliver numBoxes pktHdr buffer data

/-! ## Letters -/

/-- What a message says. -/
structure Letter where
  pktHdr : Header
  mailHdr : Header
  payload : List (BitVec 8)
deriving DecidableEq

/-- The box that it is for. -/
def Letter.box (letter : Letter) : Int := letter.mailHdr.dest.toInt

/-- The message that `PostOfficeOutput::Send` is called for, on the machine `hostName`. -/
def letterSent (hostName : BitVec 32) (pktHdr mailHdr : Header) (data : Buffer) : Letter where
  pktHdr := { pktHdr with
    sender := hostName
    length := mailHdr.length + BitVec.ofNat 32 headerSize }
  mailHdr := mailHdr
  payload := (List.range mailHdr.length.toNat).map data

/-- The message in a packet. -/
def letterIn (pktHdr : Header) (buffer : Buffer) : Letter where
  pktHdr := pktHdr
  mailHdr := headerAt buffer
  payload := (List.range (headerAt buffer).length.toNat).map fun k => buffer (headerSize + k)

/-- The message in a mail. -/
def Mail.letter (mail : Mail) : Letter where
  pktHdr := mail.pktHdr
  mailHdr := mail.mailHdr
  payload := (List.range mail.mailHdr.length.toNat).map mail.data

theorem headerAt_congr {b c : Buffer} (h : ∀ k < headerSize, c k = b k) :
    headerAt c = headerAt b := by
  have hword : ∀ i, i + 4 ≤ headerSize → wordAt c i = wordAt b i :=
    fun i hi => wordAt_congr fun j hj => h (i + j) (by omega)
  unfold headerAt
  rw [hword 0 (by decide), hword 4 (by decide), hword 8 (by decide)]

theorem headerAt_putHeader (b : Buffer) (h : Header) : headerAt (putHeader b h) = h := by
  have hdest : wordAt (putHeader b h) 0 = h.dest := by
    refine (wordAt_congr fun j hj => ?_).trans (wordAt_putWord b 0 h.dest)
    unfold putHeader
    rw [putWord_of_lt (by omega), putWord_of_lt (by omega)]
  have hsender : wordAt (putHeader b h) 4 = h.sender := by
    refine (wordAt_congr fun j hj => ?_).trans (wordAt_putWord (putWord b 0 h.dest) 4 h.sender)
    unfold putHeader
    rw [putWord_of_lt (by omega)]
  have hlength : wordAt (putHeader b h) 8 = h.length := wordAt_putWord _ 8 h.length
  unfold headerAt
  rw [hdest, hsender, hlength]

/-- A packet says the same in every buffer with the same first bytes. -/
theorem letterIn_congr {pktHdr : Header} {b c : Buffer} {n : Nat}
    (hn : headerSize + (headerAt b).length.toNat ≤ n) (h : ∀ k < n, c k = b k) :
    letterIn pktHdr c = letterIn pktHdr b := by
  have hheader : headerAt c = headerAt b := headerAt_congr fun k hk => h k (by omega)
  unfold letterIn
  rw [hheader]
  congr 1
  refine List.map_congr_left fun k hk => h _ ?_
  have := List.mem_range.mp hk
  omega

/-! ### From the sender to the wire -/

section Wire

variable {hostName : BitVec 32} {sendBusy : Bool} {pktHdr mailHdr : Header}
  {data buffer wire datagram : Buffer}

/-- The datagram is a packet of the right length, with the message in it. -/
structure Carries (datagram : Buffer) (letter : Letter) : Prop where
  pktHdr : headerAt datagram = letter.pktHdr
  content : letterIn letter.pktHdr (fun k => datagram (headerSize + k)) = letter
  size : letter.pktHdr.length.toNat = headerSize + letter.mailHdr.length.toNat
  fits : letter.mailHdr.length.toNat ≤ maxMailSize

/-- What the sender's assertions say, and what the datagram carries. -/
theorem PostOfficeOutput.carries_datagram
    (h : PostOfficeOutput.datagram hostName sendBusy pktHdr mailHdr data buffer wire =
      some datagram) :
    Carries datagram (letterSent hostName pktHdr mailHdr data) ∧ 0 ≤ mailHdr.dest.toInt := by
  unfold PostOfficeOutput.datagram PostOfficeOutput.packet at h
  split at h
  next hmail =>
    obtain ⟨hlength, hdest⟩ := hmail
    have hsize : (mailHdr.length + BitVec.ofNat 32 headerSize).toNat =
        headerSize + mailHdr.length.toNat := by
      rw [BitVec.toNat_add, BitVec.toNat_ofNat]
      unfold maxMailSize maxPacketSize maxWireSize headerSize at *
      omega
    simp only [Option.bind_eq_bind, Option.bind_some, NetworkOutput.send] at h
    split at h
    next =>
      obtain rfl := Option.some.inj h
      refine ⟨⟨?_, ?_, hsize, hlength⟩, hdest⟩
      · refine (headerAt_congr fun k hk => bcopy_of_lt hk).trans (headerAt_putHeader _ _)
      · -- the mail header and the payload, out of the two copies
        have hbytes : ∀ k < headerSize + mailHdr.length.toNat,
            bcopy (bcopy data 0 (putHeader buffer mailHdr) headerSize mailHdr.length.toNat) 0
              (putHeader wire { pktHdr with
                sender := hostName
                length := mailHdr.length + BitVec.ofNat 32 headerSize }) headerSize
              (mailHdr.length + BitVec.ofNat 32 headerSize).toNat (headerSize + k) =
            bcopy data 0 (putHeader buffer mailHdr) headerSize mailHdr.length.toNat k := by
          intro k hk
          rw [bcopy_add (by omega), Nat.zero_add]
        have hheader : headerAt (bcopy data 0 (putHeader buffer mailHdr) headerSize
            mailHdr.length.toNat) = mailHdr :=
          (headerAt_congr fun k hk => bcopy_of_lt hk).trans (headerAt_putHeader _ _)
        refine (letterIn_congr (by rw [hheader]) hbytes).trans ?_
        unfold letterIn letterSent
        rw [hheader]
        congr 1
        refine List.map_congr_left fun k hk => ?_
        rw [bcopy_add (List.mem_range.mp hk), Nat.zero_add]
    next => cases h
  next => cases h

end Wire

/-! ### From the wire into a box -/

section Arrival

variable {hostName : BitVec 32} {numBoxes : Int} {letter : Letter} {wire inbox buffer data : Buffer}

/-- `CallBack` passes its assertion, and the letter is in `inbox`. -/
theorem NetworkInput.callBack_of_carries (h : Carries wire letter)
    (hdest : letter.pktHdr.dest = hostName) (inbox : Buffer) :
    ∃ inbox', callBack hostName wire inbox = some (letter.pktHdr, inbox') ∧
      letterIn letter.pktHdr inbox' = letter := by
  have hmax : letter.pktHdr.length.toNat ≤ maxPacketSize := by
    rw [h.size]
    have := h.fits
    unfold maxMailSize maxPacketSize maxWireSize headerSize at *
    omega
  refine ⟨bcopy wire headerSize inbox 0 letter.pktHdr.length.toNat, ?_, ?_⟩
  · unfold callBack
    rw [h.pktHdr]
    exact if_pos ⟨hdest, hmax⟩
  · have hheader := congrArg Letter.mailHdr h.content
    refine (letterIn_congr (n := letter.pktHdr.length.toNat) ?_ fun k hk => ?_).trans h.content
    · rw [h.size]
      exact Nat.le_of_eq (congrArg (headerSize + ·) (congrArg (BitVec.toNat ·.length) hheader))
    · exact bcopy_zero hk

/-- `Receive` copies the letter out of `inbox`. -/
theorem NetworkInput.receive_of_letter (h : letterIn letter.pktHdr inbox = letter)
    (hsize : letter.pktHdr.length.toNat = headerSize + letter.mailHdr.length.toNat)
    (data : Buffer) :
    letterIn letter.pktHdr (receive letter.pktHdr inbox data).2.2 = letter := by
  have hne : letter.pktHdr.length ≠ 0 := by
    intro hzero
    rw [hzero] at hsize
    change 0 = 12 + _ at hsize
    omega
  unfold receive
  rw [if_pos hne]
  have hheader := congrArg Letter.mailHdr h
  refine (letterIn_congr (n := letter.pktHdr.length.toNat) ?_ fun k hk => ?_).trans h
  · rw [hsize]
    exact Nat.le_of_eq (congrArg (headerSize + ·) (congrArg (BitVec.toNat ·.length) hheader))
  · exact (bcopy_zero hk).trans (congrArg inbox (Nat.zero_add k))

/-- `PostalDelivery` passes its assertions exactly for a box that is there. -/
theorem PostOfficeInput.deliver_of_letter (h : letterIn letter.pktHdr buffer = letter)
    (hfits : letter.mailHdr.length.toNat ≤ maxMailSize) (hdest : 0 ≤ letter.mailHdr.dest.toInt)
    (hbox : letter.mailHdr.dest.toInt < numBoxes) (data : Buffer) :
    ∃ mail, deliver numBoxes letter.pktHdr buffer data =
        some (letter.mailHdr.dest.toInt, mail) ∧ mail.letter = letter := by
  have hheader : headerAt buffer = letter.mailHdr := congrArg Letter.mailHdr h
  refine ⟨⟨letter.pktHdr, letter.mailHdr, bcopy (fun k => buffer (headerSize + k)) 0 data 0
    letter.mailHdr.length.toNat⟩, ?_, ?_⟩
  · unfold deliver Mail.new
    rw [hheader, if_pos ⟨hdest, hbox, hfits⟩, if_pos hfits]
    rfl
  · refine Eq.trans ?_ h
    unfold Mail.letter letterIn
    rw [hheader]
    congr 1
    refine List.map_congr_left fun k hk => ?_
    have hlt : k < letter.mailHdr.length.toNat := List.mem_range.mp hk
    show bcopy (fun k => buffer (headerSize + k)) 0 data 0 letter.mailHdr.length.toNat k = _
    rw [bcopy_zero hlt, Nat.zero_add]

theorem PostOfficeInput.deliver_of_not_lt (h : letterIn letter.pktHdr buffer = letter)
    (hbox : ¬ letter.mailHdr.dest.toInt < numBoxes) (data : Buffer) :
    deliver numBoxes letter.pktHdr buffer data = none := by
  have hheader : headerAt buffer = letter.mailHdr := congrArg Letter.mailHdr h
  unfold deliver
  rw [hheader, if_neg fun hall => hbox hall.2.1]

theorem PostOfficeInput.receive_of_callBack {inHdr : Header} {inbox' : Buffer}
    (h : NetworkInput.callBack hostName wire inbox = some (inHdr, inbox')) :
    receive hostName numBoxes wire inbox buffer data =
      deliver numBoxes inHdr (NetworkInput.receive inHdr inbox' buffer).2.2 data := by
  unfold receive
  rw [h, Option.bind_eq_bind, Option.bind_some]
  rfl

/-- The receiver's assertions, for a datagram that carries a letter. -/
theorem PostOfficeInput.receive_isSome_iff (h : Carries wire letter)
    (hdest : 0 ≤ letter.mailHdr.dest.toInt) :
    (receive letter.pktHdr.dest numBoxes wire inbox buffer data).isSome ↔
      letter.mailHdr.dest.toInt < numBoxes := by
  obtain ⟨inbox', hcall, hinbox⟩ := NetworkInput.callBack_of_carries h rfl inbox
  have hbuffer := NetworkInput.receive_of_letter hinbox h.size buffer
  rw [receive_of_callBack hcall]
  by_cases hbox : letter.mailHdr.dest.toInt < numBoxes
  · obtain ⟨mail, hmail, -⟩ := deliver_of_letter hbuffer h.fits hdest hbox data
    rw [hmail]
    exact iff_of_true rfl hbox
  · rw [deliver_of_not_lt hbuffer hbox data]
    exact iff_of_false Bool.false_ne_true hbox

end Arrival

/--
**A message that `Send` accepts is received** by the machine that it is addressed to exactly if
that machine has the box.

`Send` has no way to know the receiver's `numBoxes`, and asserts only that the box number is not
negative; all other assertions of the receiver hold of every datagram.
-/
theorem received_iff {hostName : BitVec 32} {sendBusy : Bool} {pktHdr mailHdr : Header}
    {data buffer wire datagram : Buffer}
    (h : PostOfficeOutput.datagram hostName sendBusy pktHdr mailHdr data buffer wire =
      some datagram)
    (numBoxes : Int) (inbox buffer' data' : Buffer) :
    (PostOfficeInput.receive pktHdr.dest numBoxes datagram inbox buffer' data').isSome ↔
      mailHdr.dest.toInt < numBoxes := by
  obtain ⟨hcarries, hdest⟩ := PostOfficeOutput.carries_datagram h
  exact PostOfficeInput.receive_isSome_iff hcarries hdest

/-- A message of two bytes from machine 0 to box 3 of machine 1, which has ten boxes. -/
theorem received_iff_box_three :
    ∃ datagram, PostOfficeOutput.datagram 0 false ⟨1, 7, 7⟩ ⟨3, 2, 2⟩ (fun _ => 0x41) (fun _ => 0)
        (fun _ => 0) = some datagram ∧
      ∀ inbox buffer data, (PostOfficeInput.receive 1 10 datagram inbox buffer data).isSome := by
  have hsend : PostOfficeOutput.datagram 0 false ⟨1, 7, 7⟩ ⟨3, 2, 2⟩ (fun _ => 0x41) (fun _ => 0)
    (fun _ => 0) = some _ := rfl
  refine ⟨_, hsend, fun inbox buffer data => ?_⟩
  exact (received_iff hsend 10 inbox buffer data).mpr (by decide)

/-- The same message to box 10: `Send` accepts it, and the receiver aborts. -/
theorem accepted_not_received :
    ∃ datagram, PostOfficeOutput.datagram 0 false ⟨1, 7, 7⟩ ⟨10, 2, 2⟩ (fun _ => 0x41) (fun _ => 0)
        (fun _ => 0) = some datagram ∧
      PostOfficeInput.receive 1 10 datagram (fun _ => 0) (fun _ => 0) (fun _ => 0) = none := by
  refine ⟨_, rfl, ?_⟩
  rfl

end Nachos
