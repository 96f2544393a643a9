import Nachos.Network.Packet
import Nachos.Threads.SynchList

/-!
# Mail delivery (`network/post.cc`, `machine/network.cc`)

The way of the mail on the receiving machine has two stations. `NetworkInput::CallBack` polls the
socket and buffers one packet in `inbox`, with `inHdr.length` as the mark that it is there, and
calls `V`. The postal worker comes back from `P`, takes the packet and puts a `Mail` into a box,
which is a `SynchList`. A UNIX socket delivers datagrams in order, or not at all.

A `Mail *` is an index into `mails`, where every `Mail` stays as it was made. Fields that are not
in the program: `sent` and `read` collect the letters that other machines sent here, lost ones
included, and those read from the socket; `log` is what happened in each box, and `given` what the
calls of `Receive` gave to their callers.

* `PostOffice.step` — a `Send` somewhere, a poll, a step of the worker or of a receiver
* `Delivered` — intact, once and in order
* `run_mail_delivered` — along every run
-/

namespace Nachos

open Base

/-- Where the postal worker is in `PostalDelivery`. -/
inductive Worker where
  /-- In `messageAvailable->P()`. -/
  | waiting
  /-- `P` has returned. -/
  | taken
  /-- In `boxes[box].Put`. -/
  | putting (box : Int)
deriving DecidableEq

/-- What can happen next. -/
inductive PostEvent (τ : Type*) where
  /-- `PostOfficeOutput::Send` on the machine `sender`; `lost`: the packet is dropped. -/
  | send (sender : BitVec 32) (pktHdr mailHdr : Header) (data buffer wire : Buffer) (lost : Bool)
  /-- `NetworkInput::CallBack`. -/
  | poll
  /-- The postal worker goes on; `data` is the memory of a new `Mail`. -/
  | work (data : Buffer)
  /-- Thread `t` calls `PostOfficeInput::Receive`. -/
  | receive (t : τ) (box : Int)
  /-- Thread `t` goes on in it; `data` is the memory of its caller's buffer. -/
  | run (t : τ) (box : Int) (data : Buffer)

/-- The letters that are sent to this machine, whether they arrive or not. -/
def PostEvent.letters {τ : Type*} (hostName : BitVec 32) :
    PostEvent τ → List Letter
  | .send sender pktHdr mailHdr data _ _ _ =>
    if pktHdr.dest = hostName then [letterSent sender pktHdr mailHdr data] else []
  | _ => []

/-- What is sent to this machine is for one of its boxes. -/
def PostEvent.BoxBelow {τ : Type*} (hostName : BitVec 32) (numBoxes : Int) :
    PostEvent τ → Prop
  | .send _ pktHdr mailHdr _ _ _ _ => pktHdr.dest = hostName → mailHdr.dest.toInt < numBoxes
  | _ => True

/-- The classes `NetworkInput` and `PostOfficeInput`. The postal worker is the thread `none`. -/
structure PostOffice (τ : Type*) where
  /-- The datagrams that can be read from `sock`. -/
  socket : List Buffer
  inHdr : Header
  inbox : Buffer
  messageAvailable : Semaphore Unit
  worker : Worker
  /-- The worker's `buffer`. -/
  buffer : Buffer
  mails : List Mail
  boxes : Int → SynchList (Option τ) Nat
  /-- An assertion has failed. -/
  failed : Bool
  sent : List Letter
  read : List Letter
  log : Int → List (SynchList.SynchNote (Option τ) Nat)
  given : Int → List (τ × Mail)

namespace PostOffice

variable {τ : Type*} [DecidableEq τ]

/-- A new post office. The memory comes uninitialized, except for `inHdr.length`. -/
def start (inHdr : Header) (inbox buffer : Buffer) : PostOffice τ where
  socket := []
  inHdr := { inHdr with length := 0 }
  inbox := inbox
  messageAvailable := .new 0
  worker := .waiting
  buffer := buffer
  mails := []
  boxes := fun _ => .start
  failed := false
  sent := []
  read := []
  log := fun _ => []
  given := fun _ => []

/-! ## The steps -/

/-- An assertion fails. -/
def fail (s : PostOffice τ) : PostOffice τ := { s with failed := true }

/-- The letter in a datagram. -/
def wireLetter (wire : Buffer) : Letter :=
  letterIn (headerAt wire) fun k => wire (headerSize + k)

/-- `Send` on some machine. Nothing there ever sets `sendBusy`. -/
def send (hostName : BitVec 32) (s : PostOffice τ) (sender : BitVec 32) (pktHdr mailHdr : Header)
    (data buffer wire : Buffer) (lost : Bool) : Option (PostOffice τ) :=
  (PostOfficeOutput.datagram sender false pktHdr mailHdr data buffer wire).map fun datagram =>
    if pktHdr.dest = hostName then
      { s with
        socket := if lost then s.socket else s.socket ++ [datagram]
        sent := s.sent ++ [letterSent sender pktHdr mailHdr data] }
    else s

/-- `NetworkInput::CallBack`, and `PostOfficeInput::CallBack`. -/
def poll (hostName : BitVec 32) (s : PostOffice τ) : PostOffice τ :=
  if s.inHdr.length ≠ 0 then s
  else
    match s.socket with
    | [] => s
    | wire :: socket =>
      (NetworkInput.callBack hostName wire s.inbox).elim s.fail fun (inHdr, inbox) =>
        { s with
          socket := socket
          inHdr := inHdr
          inbox := inbox
          messageAvailable := s.messageAvailable.v
          read := s.read ++ [wireLetter wire] }

/-- Something happens in a box. -/
def inBox (s : PostOffice τ) (box : Int) (e : SynchEvent (Option τ) Nat) : Option (PostOffice τ) :=
  ((s.boxes box).step e).map fun b =>
    { s with
      boxes := Function.update s.boxes box b
      log := Function.update s.log box (s.log box ++ (s.boxes box).notes e) }

/-- `PostalDelivery` after `P`, up to the `Acquire` in `Append`. -/
def deliver (numBoxes : Int) (s : PostOffice τ) (data : Buffer) : Option (PostOffice τ) :=
  let (pktHdr, inHdr, buffer) := NetworkInput.receive s.inHdr s.inbox s.buffer
  (PostOfficeInput.deliver numBoxes pktHdr buffer data).elim (some s.fail) fun (box, mail) =>
    ({ s with
        inHdr := inHdr
        buffer := buffer
        mails := s.mails ++ [mail]
        worker := .putting box } : PostOffice τ).inBox box (.append none s.mails.length)

/-- The postal worker goes on. -/
def work (numBoxes : Int) (s : PostOffice τ) (data : Buffer) : Option (PostOffice τ) :=
  match s.worker with
  | .waiting =>
    if () ∈ s.messageAvailable.queue then none
    else
      match s.messageAvailable.p () with
      | (sem, false) => some { s with messageAvailable := sem }
      | (sem, true) =>
        some { s with
          messageAvailable := sem
          worker := .taken }
  | .taken => s.deliver numBoxes data
  | .putting box =>
    if (s.boxes box).place none = .idle then some { s with worker := .waiting }
    else s.inBox box (.run none)

/-- `MailBox::Get` after `RemoveFront`, and the assertion of `Receive`. -/
def get (mail : Mail) (data : Buffer) : Option Mail :=
  if mail.mailHdr.length.toNat ≤ maxMailSize then
    some ⟨mail.pktHdr, mail.mailHdr, bcopy mail.data 0 data 0 mail.mailHdr.length.toNat⟩
  else none

/-- What `Receive` gives to its caller, with the pointer that `RemoveFront` has returned. -/
def received (s : PostOffice τ) (pointer : Nat) (data : Buffer) : Option Mail := do
  let mail ← s.mails[pointer]?
  get mail data

/-- Thread `t` goes on in `Receive`. After `RemoveFront` it goes to the end. -/
def receive (s : PostOffice τ) (t : τ) (box : Int) (data : Buffer) :
    Option (PostOffice τ × Option Mail) :=
  match (s.boxes box).result (some t) with
  | none => (s.inBox box (.run (some t))).map fun s => (s, none)
  | some pointer =>
    match s.received pointer data with
    | none => some (s.fail, none)
    | some got => (s.inBox box (.run (some t))).map fun s =>
        ({ s with given := Function.update s.given box (s.given box ++ [(t, got)]) }, some got)

/-- One step. -/
def step (hostName : BitVec 32) (numBoxes : Int) (s : PostOffice τ) :
    PostEvent τ → Option (PostOffice τ)
  | .send sender pktHdr mailHdr data buffer wire lost =>
    if s.failed then none else s.send hostName sender pktHdr mailHdr data buffer wire lost
  | .poll => if s.failed then none else some (s.poll hostName)
  | .work data => if s.failed then none else s.work numBoxes data
  | .receive t box =>
    if s.failed = false ∧ 0 ≤ box ∧ box < numBoxes then s.inBox box (.removeFront (some t))
    else none
  | .run t box data => if s.failed then none else (s.receive t box data).map Prod.fst

/-! ## What the receivers get -/

/-- The letter behind a `Mail *`. -/
def letterAt (s : PostOffice τ) (mail : Nat) : Option Letter := s.mails[mail]?.map Mail.letter

/-- The letters behind some pointers. -/
def letters (s : PostOffice τ) (pointers : List Nat) : List Letter := pointers.filterMap s.letterAt

/-- The letters that the postal worker has taken out of `inbox`. -/
def taken (s : PostOffice τ) : List Letter := s.mails.map Mail.letter

/-- The letter that waits in `inbox`. -/
def buffered (s : PostOffice τ) : List Letter :=
  if s.inHdr.length = 0 then [] else [letterIn s.inHdr s.inbox]

/-- The letters in a box, those included that were taken out again. -/
def put (s : PostOffice τ) (box : Int) : List Letter :=
  s.letters (SynchList.appended (s.log box))

/-- The letter that the postal worker is about to append to the list of a box. -/
def inHand (s : PostOffice τ) (box : Int) : List Letter :=
  s.letters ((s.boxes box).pending none)

/-- The letters that receivers have taken out of a box. -/
def obtained (s : PostOffice τ) (box : Int) : List Letter :=
  s.letters (SynchList.removed (s.log box))

/-- The letters that thread `t` has taken out of a box. -/
def obtainedBy (s : PostOffice τ) (t : τ) (box : Int) : List Letter :=
  s.letters (SynchList.removedBy (some t) (s.log box))

/-- The letters for thread `t` among what `Receive` has given to its callers. -/
def lettersFor (t : τ) (given : List (τ × Mail)) : List Letter :=
  given.filterMap fun p => if p.1 = t then some p.2.letter else none

/-- The letters that `Receive` has given to thread `t`, from a box. -/
def givenTo (s : PostOffice τ) (t : τ) (box : Int) : List Letter := lettersFor t (s.given box)

/-- The letter that thread `t` has taken out of a box, and that `Receive` has yet to give to it. -/
def onTheWay (s : PostOffice τ) (t : τ) (box : Int) : List Letter :=
  s.letters ((s.boxes box).returning (some t))

/-- The mail is delivered intact, once and in order. -/
structure Delivered (s : PostOffice τ) : Prop where
  failed : s.failed = false
  aborted : ∀ box, (s.boxes box).failed = false ∧ (s.boxes box).monitor.aborted = false
  /-- What is read is what was sent. -/
  read : List.Sublist s.read s.sent
  /-- A packet is taken before the next one is read. -/
  taken : s.read = s.taken ++ s.buffered
  /-- A mail is put into its box, once. -/
  put : ∀ box, s.put box ++ s.inHand box = s.taken.filter fun l => l.box = box
  obtained : ∀ box, s.obtained box <+: s.put box
  order : ∀ box, List.Sublist (s.obtained box) (s.sent.filter fun l => l.box = box)
  /-- A receiver is given what it takes out of the box, letter by letter. -/
  given : ∀ box t, s.obtainedBy t box = s.givenTo t box ++ s.onTheWay t box
  inOrder : ∀ box t, List.Sublist (s.givenTo t box) (s.sent.filter fun l => l.box = box)
  /-- The receiver gets the letter, and passes its own assertion. -/
  copied : ∀ mail ∈ s.mails, ∀ data, ∃ got, get mail data = some got ∧ got.letter = mail.letter
  /-- The postal worker does not sleep while there is a packet. -/
  awake : s.inHdr.length ≠ 0 → () ∉ s.messageAvailable.queue

/-! ## The invariant -/

/-- A letter that the receiver accepts. -/
structure Legal (hostName : BitVec 32) (numBoxes : Int) (letter : Letter) : Prop where
  dest : letter.pktHdr.dest = hostName
  size : letter.pktHdr.length.toNat = headerSize + letter.mailHdr.length.toNat
  fits : letter.mailHdr.length.toNat ≤ maxMailSize
  nonneg : 0 ≤ letter.box
  lt : letter.box < numBoxes

/-- The socket, the buffered packet, and the worker's way to it. -/
structure Arrivals (hostName : BitVec 32) (numBoxes : Int) (s : PostOffice τ) : Prop where
  failed : s.failed = false
  socket : ∀ wire ∈ s.socket,
    Carries wire (wireLetter wire) ∧ Legal hostName numBoxes (wireLetter wire)
  sent : List.Sublist (s.read ++ s.socket.map wireLetter) s.sent
  read : s.read = s.taken ++ s.buffered
  legal : ∀ l ∈ s.read, Legal hostName numBoxes l
  value : s.messageAvailable.value = if s.inHdr.length = 0 ∨ s.worker = .taken then 0 else 1
  full : s.worker = .taken → s.inHdr.length ≠ 0
  queue : s.messageAvailable.queue = [] ∨
    s.messageAvailable.queue = [()] ∧ s.worker = .waiting ∧ s.inHdr.length = 0

/-- The pointers to the mails for a box. -/
def mailsFor (s : PostOffice τ) (box : Int) : List Nat :=
  (s.mails.zipIdx.filter fun p => p.1.letter.box = box).map Prod.snd

/-- The boxes, and what was put into them. -/
structure Filed (s : PostOffice τ) : Prop where
  put : ∀ box, SynchList.called (s.log box) = s.mailsFor box
  boxes : ∀ box, SynchList.Agrees (s.boxes box) (s.log box)
  lone : ∀ box, SynchList.Lone none (s.boxes box) (s.log box)
  returns : ∀ box, SynchList.Returns (s.boxes box) (s.log box)
  /-- What `RemoveFront` has returned to a thread is what `Receive` has given to it. -/
  given : ∀ box t, (SynchList.returnedBy (some t) (s.log box)).map s.letterAt =
    (s.givenTo t box).map some
  idle : ∀ box, s.worker ≠ .putting box → (s.boxes box).place none = .idle

section Steps

variable {hostName : BitVec 32} {numBoxes : Int} {s s' : PostOffice τ} {box : Int}

/-! ### The pointers to the mails -/

section Pointers

omit [DecidableEq τ]

theorem letters_mailsFor (s : PostOffice τ) (box : Int) :
    s.letters (s.mailsFor box) = s.taken.filter fun l => l.box = box := by
  have hat : ∀ p ∈ s.mails.zipIdx.filter (fun p => p.1.letter.box = box),
      s.letterAt p.2 = some p.1.letter := by
    intro p hp
    have hget := List.mem_zipIdx_iff_getElem?.mp (List.mem_of_mem_filter hp)
    rw [letterAt, hget]
    rfl
  have hfilter : (s.mails.zipIdx.filter fun p => p.1.letter.box = box).map (fun p => p.1.letter) =
      s.taken.filter fun l => l.box = box := by
    conv_rhs => rw [taken, ← List.zipIdx_map_fst 0 s.mails, List.map_map, List.filter_map]
    rfl
  rw [letters, mailsFor, List.filterMap_map, ← hfilter]
  refine (List.filterMap_congr hat).trans ?_
  exact congrFun (List.filterMap_eq_map' (f := fun p : Mail × Nat => p.1.letter)) _

theorem nodup_mailsFor (s : PostOffice τ) (box : Int) : (s.mailsFor box).Nodup := by
  have hsub : List.Sublist (s.mailsFor box) (s.mails.zipIdx.map Prod.snd) :=
    List.filter_sublist.map _
  rw [List.zipIdx_map_snd] at hsub
  exact hsub.nodup List.nodup_range'

/-- A new mail. -/
theorem mailsFor_append {mail : Mail} (h : s'.mails = s.mails ++ [mail]) (box : Int) :
    s'.mailsFor box =
      s.mailsFor box ++ if mail.letter.box = box then [s.mails.length] else [] := by
  unfold mailsFor
  rw [h, List.zipIdx_append, List.filter_append, List.map_append]
  congr 1
  by_cases hbox : mail.letter.box = box
  · simp [hbox]
  · simp [hbox]

/-- A mail stays where it is when another one is made. -/
theorem letterAt_append {mail : Mail} (h : s'.mails = s.mails ++ [mail]) {pointers : List Nat}
    {letters : List Letter} (hletters : pointers.map s.letterAt = letters.map some) :
    pointers.map s'.letterAt = letters.map some := by
  rw [← hletters]
  refine List.map_congr_left fun p hp => ?_
  have hmem : s.letterAt p ∈ letters.map some := by
    rw [← hletters]
    exact List.mem_map_of_mem hp
  obtain ⟨letter, -, hletter⟩ := List.mem_map.mp hmem
  obtain ⟨m, hm, -⟩ := Option.map_eq_some_iff.mp hletter.symm
  unfold letterAt
  rw [h, List.getElem?_append_left (List.getElem?_eq_some_iff.mp hm).1]

theorem letters_of_map {pointers : List Nat} {letters : List Letter}
    (h : pointers.map s.letterAt = letters.map some) : s.letters pointers = letters := by
  have hid : s.letters pointers = (pointers.map s.letterAt).filterMap id := by
    rw [List.filterMap_map]
    rfl
  rw [hid, h, List.filterMap_map]
  exact List.filterMap_some

end Pointers

theorem Filed.logInv (h : Filed s) (box : Int) :
    SynchList.LogInv (s.boxes box) (s.log box) := by
  refine h.boxes box ?_
  rw [h.put]
  exact nodup_mailsFor s box

/-! ### Steps in the boxes -/

theorem inBox_eq_some {e : SynchEvent (Option τ) Nat} (hs : s.inBox box e = some s') :
    ∃ b, (s.boxes box).step e = some b ∧ s' = { s with
      boxes := Function.update s.boxes box b
      log := Function.update s.log box (s.log box ++ (s.boxes box).notes e) } := by
  obtain ⟨b, hb, rfl⟩ := Option.map_eq_some_iff.mp hs
  exact ⟨b, hb, rfl⟩

/-- What a step in a box keeps, when only the postal worker appends. -/
theorem Filed.update (h : Filed s) {e : SynchEvent (Option τ) Nat} {b : SynchList (Option τ) Nat}
    (hlone : ∀ u x, e = .append u x → u = none) (hb : (s.boxes box).step e = some b)
    (box' : Int) :
    SynchList.Agrees (Function.update s.boxes box b box')
        (Function.update s.log box (s.log box ++ (s.boxes box).notes e) box') ∧
      SynchList.Lone none (Function.update s.boxes box b box')
        (Function.update s.log box (s.log box ++ (s.boxes box).notes e) box') ∧
      SynchList.Returns (Function.update s.boxes box b box')
        (Function.update s.log box (s.log box ++ (s.boxes box).notes e) box') := by
  by_cases hbox : box' = box
  · rw [hbox, Function.update_self, Function.update_self]
    exact ⟨SynchList.logInv_step _ e _ _ (h.boxes box) hb,
      SynchList.lone_step (h.lone box) hlone hb, SynchList.returns_step _ e _ _ (h.returns box) hb⟩
  · rw [Function.update_of_ne hbox, Function.update_of_ne hbox]
    exact ⟨h.boxes box', h.lone box', h.returns box'⟩

/-- Nothing is appended. `extra` is what `Receive` gives to its caller in this step. -/
theorem Filed.inBox_given (h : Filed s) {e : SynchEvent (Option τ) Nat}
    (he : ∀ u x, e ≠ .append u x) (hthread : e.thread ≠ none ∨ s.worker = .putting box)
    {b : SynchList (Option τ) Nat} (hb : (s.boxes box).step e = some b) (extra : List (τ × Mail))
    (hextra : ∀ t, (SynchList.returnedBy (some t) ((s.boxes box).notes e)).map s.letterAt =
      (lettersFor t extra).map some) :
    Filed { s with
      boxes := Function.update s.boxes box b
      log := Function.update s.log box (s.log box ++ (s.boxes box).notes e)
      given := Function.update s.given box (s.given box ++ extra) } := by
  have hupdate := h.update (fun u x hux => absurd hux (he u x)) hb
  have hcalled : SynchList.called ((s.boxes box).notes e) = [] := by
    cases e with
    | append u x => exact absurd rfl (he u x)
    | removeFront u => rfl
    | run u => exact SynchList.called_notes_run _ u
  refine ⟨fun box' => ?_, fun box' => (hupdate box').1, fun box' => (hupdate box').2.1,
    fun box' => (hupdate box').2.2, fun box' t => ?_, fun box' hworker => ?_⟩
  · show SynchList.called (Function.update s.log box _ box') = s.mailsFor box'
    rw [← h.put box']
    by_cases hbox : box' = box
    · rw [hbox, Function.update_self, SynchList.called_append, hcalled, List.append_nil]
    · rw [Function.update_of_ne hbox]
  · show (SynchList.returnedBy (some t) (Function.update s.log box _ box')).map s.letterAt =
      (lettersFor t (Function.update s.given box _ box')).map some
    by_cases hbox : box' = box
    · rw [hbox, Function.update_self, Function.update_self, SynchList.returnedBy_append,
        List.map_append, h.given box t, hextra t, ← List.map_append]
      exact congrArg _ List.filterMap_append.symm
    · rw [Function.update_of_ne hbox, Function.update_of_ne hbox]
      exact h.given box' t
  · show (Function.update s.boxes box b box').place none = .idle
    by_cases hbox : box' = box
    · subst hbox
      obtain ⟨p, hp⟩ := SynchList.step_place hb
      have hne : none ≠ e.thread := Ne.symm (hthread.resolve_right hworker)
      rw [Function.update_self, hp, Function.update_of_ne hne]
      exact h.idle box' hworker
    · rw [Function.update_of_ne hbox]
      exact h.idle box' hworker

/-- Nothing is appended, and nothing is given to a receiver. -/
theorem Filed.inBox (h : Filed s) {e : SynchEvent (Option τ) Nat} (he : ∀ u x, e ≠ .append u x)
    (hthread : e.thread ≠ none ∨ s.worker = .putting box)
    (hreturned : ∀ t, SynchList.returnedBy (some t) ((s.boxes box).notes e) = [])
    (hs : s.inBox box e = some s') : Filed s' := by
  obtain ⟨b, hb, rfl⟩ := inBox_eq_some hs
  have hfiled := h.inBox_given he hthread hb [] fun t => by
    rw [hreturned t]
    rfl
  rwa [List.append_nil, Function.update_eq_self] at hfiled

/-- The postal worker calls `Append` with a new mail. -/
theorem Filed.append (h : Filed s) (hworker : s.worker = .taken) {mail : Mail} {inHdr : Header}
    {buffer : Buffer} (hmail : mail.letter.box = box)
    (hs : ({ s with
        inHdr := inHdr
        buffer := buffer
        mails := s.mails ++ [mail]
        worker := .putting box } : PostOffice τ).inBox box (.append none s.mails.length) =
      some s') : Filed s' := by
  obtain ⟨b, hb, rfl⟩ := inBox_eq_some hs
  have hupdate := h.update (fun u x hux => by cases hux; rfl) hb
  have hreturned : ∀ box' t, SynchList.returnedBy (some t) (Function.update s.log box
      (s.log box ++ (s.boxes box).notes (.append none s.mails.length)) box') =
        SynchList.returnedBy (some t) (s.log box') := by
    intro box' t
    by_cases hbox : box' = box
    · rw [hbox, Function.update_self, SynchList.returnedBy_append]
      exact List.append_nil _
    · rw [Function.update_of_ne hbox]
  refine ⟨fun box' => ?_, fun box' => (hupdate box').1, fun box' => (hupdate box').2.1,
    fun box' => (hupdate box').2.2, fun box' t => ?_, fun box' hbox => ?_⟩
  · show SynchList.called (Function.update s.log box _ box') = _
    rw [show mailsFor _ box' = _ from mailsFor_append (s := s) rfl box', ← h.put box', hmail]
    by_cases hbox : box' = box
    · rw [hbox, Function.update_self, SynchList.called_append, if_pos rfl]
      rfl
    · rw [Function.update_of_ne hbox, if_neg (Ne.symm hbox), List.append_nil]
  · refine letterAt_append (s := s) rfl ?_
    exact (congrArg _ (hreturned box' t)).trans (h.given box' t)
  · show (Function.update s.boxes box b box').place none = .idle
    have hne : box' ≠ box := fun heq => hbox (by rw [heq])
    rw [Function.update_of_ne hne]
    exact h.idle box' (by rw [hworker]; simp)

/-! ### The way to the boxes -/

section Arrivals

omit [DecidableEq τ]

theorem wireLetter_of_carries {wire : Buffer} {letter : Letter} (h : Carries wire letter) :
    wireLetter wire = letter := by
  unfold wireLetter
  rw [h.pktHdr]
  exact h.content

theorem buffered_of_zero (h : s.inHdr.length = 0) : s.buffered = [] := if_pos h

theorem buffered_of_ne (h : s.inHdr.length ≠ 0) : s.buffered = [letterIn s.inHdr s.inbox] :=
  if_neg h

theorem Arrivals.legal_buffered (h : Arrivals hostName numBoxes s) (hfull : s.inHdr.length ≠ 0) :
    Legal hostName numBoxes (letterIn s.inHdr s.inbox) := by
  refine h.legal _ ?_
  rw [h.read, buffered_of_ne hfull]
  exact List.mem_append_right _ List.mem_cons_self

/-- A packet is in `inbox`, or `V` has been called for none. -/
theorem Arrivals.value_waiting (h : Arrivals hostName numBoxes s) (hworker : s.worker ≠ .taken) :
    s.messageAvailable.value = if s.inHdr.length = 0 then 0 else 1 := by
  rw [h.value]
  simp only [hworker, or_false]

theorem Arrivals.send (h : Arrivals hostName numBoxes s) {sender : BitVec 32}
    {pktHdr mailHdr : Header} {data buffer wire : Buffer} {lost : Bool}
    (hbox : pktHdr.dest = hostName → mailHdr.dest.toInt < numBoxes)
    (hs : s.send hostName sender pktHdr mailHdr data buffer wire lost = some s') :
    Arrivals hostName numBoxes s' := by
  obtain ⟨datagram, hsend, rfl⟩ := Option.map_eq_some_iff.mp hs
  obtain ⟨hcarries, hnonneg⟩ := PostOfficeOutput.carries_datagram hsend
  split
  next hdest =>
    have hletter := wireLetter_of_carries hcarries
    refine ⟨h.failed, ?_, ?_, h.read, h.legal, h.value, h.full, h.queue⟩
    · intro w hw
      cases lost with
      | true => exact h.socket w hw
      | false =>
        rcases List.mem_append.mp hw with hw | hw
        · exact h.socket w hw
        · obtain rfl := List.mem_singleton.mp hw
          rw [hletter]
          exact ⟨hcarries, hdest, hcarries.size, hcarries.fits, hnonneg, hbox hdest⟩
    · cases lost with
      | true => exact h.sent.trans (List.sublist_append_left _ _)
      | false =>
        show List.Sublist (s.read ++ (s.socket ++ [datagram]).map wireLetter) _
        rw [List.map_append, ← List.append_assoc, List.map_singleton, hletter]
        exact h.sent.append (List.Sublist.refl _)
  next => exact h

theorem poll_of_full (h : s.inHdr.length ≠ 0) : s.poll hostName = s := if_pos h

theorem poll_of_empty (hzero : s.inHdr.length = 0) (hsocket : s.socket = []) :
    s.poll hostName = s := by
  unfold PostOffice.poll
  rw [if_neg (not_not.mpr hzero), hsocket]

theorem poll_of_callBack (hzero : s.inHdr.length = 0) {wire inbox : Buffer} {socket : List Buffer}
    {inHdr : Header} (hsocket : s.socket = wire :: socket)
    (hcall : NetworkInput.callBack hostName wire s.inbox = some (inHdr, inbox)) :
    s.poll hostName = { s with
      socket := socket
      inHdr := inHdr
      inbox := inbox
      messageAvailable := s.messageAvailable.v
      read := s.read ++ [wireLetter wire] } := by
  unfold PostOffice.poll
  rw [if_neg (not_not.mpr hzero), hsocket]
  dsimp only
  rw [hcall]
  rfl

theorem Legal.length_ne {letter : Letter} (h : Legal hostName numBoxes letter) :
    letter.pktHdr.length ≠ 0 := by
  intro hlen
  have hsize := h.size
  rw [hlen] at hsize
  change 0 = 12 + _ at hsize
  omega

/-- The next packet is read when the last one was taken. -/
theorem Arrivals.poll (h : Arrivals hostName numBoxes s) :
    Arrivals hostName numBoxes (s.poll hostName) := by
  by_cases hzero : s.inHdr.length = 0
  · cases hsocket : s.socket with
    | nil =>
      rw [poll_of_empty hzero hsocket]
      exact h
    | cons wire socket =>
      obtain ⟨hcarries, hlegal⟩ := h.socket wire (by rw [hsocket]; exact List.mem_cons_self)
      obtain ⟨inbox', hcall, hinbox⟩ :=
        NetworkInput.callBack_of_carries hcarries hlegal.dest s.inbox
      rw [poll_of_callBack hzero hsocket hcall]
      have hworker : s.worker ≠ .taken := fun htaken => h.full htaken hzero
      have hvalue : s.messageAvailable.value = 0 := by
        rw [h.value_waiting hworker, if_pos hzero]
      have hfull := hlegal.length_ne
      have hsent := h.sent
      have hread := h.read
      rw [hsocket, List.map_cons] at hsent
      rw [buffered_of_zero hzero, List.append_nil] at hread
      refine ⟨h.failed, ?_, ?_, ?_, ?_, ?_, fun _ => hfull, .inl ?_⟩
      · intro w hw
        exact h.socket w (by rw [hsocket]; exact List.mem_cons_of_mem _ hw)
      · rw [List.append_assoc]
        exact hsent
      · refine congrArg₂ _ hread ?_
        rw [buffered, if_neg hfull, hinbox]
      · intro l hl
        rcases List.mem_append.mp hl with hl | hl
        · exact h.legal l hl
        · rw [List.mem_singleton.mp hl]
          exact hlegal
      · rw [if_neg (not_or.mpr ⟨hfull, hworker⟩), Semaphore.v_value_of_zero hvalue]
      · rw [Semaphore.v_queue]
        rcases h.queue with hqueue | ⟨hqueue, -⟩
        · rw [hqueue]
          rfl
        · rw [hqueue]
          rfl
  · rw [poll_of_full hzero]
    exact h

end Arrivals

/-- One pass through the test of `messageAvailable->P()`. -/
theorem Arrivals.waiting (h : Arrivals hostName numBoxes s) (hworker : s.worker = .waiting)
    {data : Buffer} (hs : s.work numBoxes data = some s') : Arrivals hostName numBoxes s' := by
  have hvalue := h.value_waiting (by rw [hworker]; simp)
  unfold PostOffice.work at hs
  rw [hworker] at hs
  dsimp only at hs
  split at hs
  next => cases hs
  next hawake =>
    have hqueue : s.messageAvailable.queue = [] := by
      rcases h.queue with hqueue | ⟨hqueue, -⟩
      · exact hqueue
      · exact absurd (by rw [hqueue]; exact List.mem_cons_self) hawake
    by_cases hzero : s.inHdr.length = 0
    · rw [if_pos hzero] at hvalue
      rw [Semaphore.p_of_zero hvalue] at hs
      obtain rfl := Option.some.inj hs
      refine ⟨h.failed, h.socket, h.sent, h.read, h.legal, ?_, ?_, .inr ⟨?_, rfl, hzero⟩⟩
      · show s.messageAvailable.value = _
        rw [hvalue, if_pos (Or.inl hzero)]
      · intro htaken
        cases htaken
      · show s.messageAvailable.queue ++ [()] = [()]
        rw [hqueue]
        rfl
    · rw [if_neg hzero] at hvalue
      rw [Semaphore.p_of_ne_zero (by rw [hvalue]; simp)] at hs
      obtain rfl := Option.some.inj hs
      refine ⟨h.failed, h.socket, h.sent, h.read, h.legal, ?_, fun _ => hzero, .inl hqueue⟩
      show toInt32 (s.messageAvailable.value - 1) = _
      rw [hvalue, if_pos (Or.inr rfl)]
      rfl

/-- The postal worker takes the packet, and its assertions hold. -/
theorem Arrivals.deliver_eq (h : Arrivals hostName numBoxes s) (hworker : s.worker = .taken)
    (data : Buffer) :
    ∃ mail inHdr buffer, inHdr.length = 0 ∧ mail.letter = letterIn s.inHdr s.inbox ∧
      s.deliver numBoxes data = ({ s with
        inHdr := inHdr
        buffer := buffer
        mails := s.mails ++ [mail]
        worker := .putting mail.letter.box } : PostOffice τ).inBox mail.letter.box
          (.append none s.mails.length) := by
  have hlegal := h.legal_buffered (h.full hworker)
  have hletter : letterIn (letterIn s.inHdr s.inbox).pktHdr s.inbox =
    letterIn s.inHdr s.inbox := rfl
  have hbuffer := NetworkInput.receive_of_letter hletter hlegal.size s.buffer
  obtain ⟨mail, hmail, hsame⟩ :=
    PostOfficeInput.deliver_of_letter hbuffer hlegal.fits hlegal.nonneg hlegal.lt data
  refine ⟨mail, (NetworkInput.receive s.inHdr s.inbox s.buffer).2.1,
    (NetworkInput.receive s.inHdr s.inbox s.buffer).2.2, rfl, hsame, ?_⟩
  have hbox : mail.letter.box = (letterIn s.inHdr s.inbox).mailHdr.dest.toInt :=
    congrArg Letter.box hsame
  have hmail' : PostOfficeInput.deliver numBoxes (NetworkInput.receive s.inHdr s.inbox s.buffer).1
      (NetworkInput.receive s.inHdr s.inbox s.buffer).2.2 data = some (mail.letter.box, mail) := by
    rw [hbox]
    exact hmail
  unfold PostOffice.deliver
  dsimp only
  rw [hmail']
  rfl

theorem Arrivals.inBox (h : Arrivals hostName numBoxes s) {e : SynchEvent (Option τ) Nat}
    (hs : s.inBox box e = some s') : Arrivals hostName numBoxes s' := by
  obtain ⟨b, -, rfl⟩ := inBox_eq_some hs
  exact ⟨h.failed, h.socket, h.sent, h.read, h.legal, h.value, h.full, h.queue⟩

omit [DecidableEq τ] in
/-- The packet that was taken makes room for the next one. -/
theorem Arrivals.take (h : Arrivals hostName numBoxes s) (hworker : s.worker = .taken)
    {mail : Mail} {inHdr : Header} (buffer : Buffer) (hzero : inHdr.length = 0)
    (hletter : mail.letter = letterIn s.inHdr s.inbox) :
    Arrivals hostName numBoxes ({ s with
      inHdr := inHdr
      buffer := buffer
      mails := s.mails ++ [mail]
      worker := .putting box } : PostOffice τ) := by
  have hfull := h.full hworker
  refine ⟨h.failed, h.socket, h.sent, ?_, h.legal, ?_, ?_, .inl ?_⟩
  · show s.read = (s.mails ++ [mail]).map Mail.letter ++ _
    rw [buffered, if_pos hzero, List.append_nil, List.map_append, List.map_singleton, hletter,
      h.read, buffered_of_ne hfull]
    rfl
  · show s.messageAvailable.value = _
    rw [h.value, if_pos (Or.inr hworker), if_pos (Or.inl hzero)]
  · intro htaken
    cases htaken
  · rcases h.queue with hqueue | ⟨-, hwaiting, -⟩
    · exact hqueue
    · rw [hworker] at hwaiting
      cases hwaiting

omit [DecidableEq τ] in
/-- `Put` returns. -/
theorem Arrivals.again (h : Arrivals hostName numBoxes s) (hworker : s.worker = .putting box) :
    Arrivals hostName numBoxes ({ s with worker := .waiting } : PostOffice τ) := by
  refine ⟨h.failed, h.socket, h.sent, h.read, h.legal, ?_, ?_, ?_⟩
  · show s.messageAvailable.value = _
    rw [h.value_waiting (by rw [hworker]; simp)]
    simp
  · intro htaken
    cases htaken
  · rcases h.queue with hqueue | ⟨-, hwaiting, -⟩
    · exact .inl hqueue
    · rw [hworker] at hwaiting
      cases hwaiting

/-! ### The steps of the post office -/

/-- What holds of the whole post office. -/
structure Inv (hostName : BitVec 32) (numBoxes : Int) (s : PostOffice τ) : Prop where
  arrivals : Arrivals hostName numBoxes s
  filed : Filed s

theorem Filed.of_eq (h : Filed s) (hmails : s'.mails = s.mails) (hboxes : s'.boxes = s.boxes)
    (hlog : s'.log = s.log) (hgiven : s'.given = s.given)
    (hworker : ∀ box, s'.worker ≠ .putting box → (s.boxes box).place none = .idle) : Filed s' where
  put := by
    intro box
    rw [mailsFor, hlog, hmails]
    exact h.put box
  boxes := by
    intro box
    rw [hboxes, hlog]
    exact h.boxes box
  lone := by
    intro box
    rw [hboxes, hlog]
    exact h.lone box
  returns := by
    intro box
    rw [hboxes, hlog]
    exact h.returns box
  given := by
    intro box t
    rw [hlog, givenTo, hgiven, show s'.letterAt = s.letterAt from funext fun p => by
      rw [letterAt, hmails, letterAt]]
    exact h.given box t
  idle := by
    intro box hne
    rw [hboxes]
    exact hworker box hne

theorem inv_start (inHdr : Header) (inbox buffer : Buffer) :
    Inv hostName numBoxes (start inHdr inbox buffer : PostOffice τ) where
  arrivals := by
    refine ⟨rfl, ?_, List.Sublist.refl _, rfl, ?_, rfl, ?_, .inl rfl⟩
    · intro wire hwire
      cases hwire
    · intro l hl
      cases hl
    · intro htaken
      cases htaken
  filed :=
    ⟨fun _ => rfl, fun _ _ => SynchList.logInv_start, fun _ => SynchList.lone_start none,
      fun _ _ => rfl, fun _ _ => rfl, fun _ _ => rfl⟩

theorem Inv.send (h : Inv hostName numBoxes s) {sender : BitVec 32} {pktHdr mailHdr : Header}
    {data buffer wire : Buffer} {lost : Bool}
    (hbox : pktHdr.dest = hostName → mailHdr.dest.toInt < numBoxes)
    (hs : s.send hostName sender pktHdr mailHdr data buffer wire lost = some s') :
    Inv hostName numBoxes s' := by
  refine ⟨h.arrivals.send hbox hs, ?_⟩
  obtain ⟨datagram, -, rfl⟩ := Option.map_eq_some_iff.mp hs
  split
  next => exact h.filed.of_eq rfl rfl rfl rfl h.filed.idle
  next => exact h.filed

theorem Inv.poll (h : Inv hostName numBoxes s) : Inv hostName numBoxes (s.poll hostName) := by
  refine ⟨h.arrivals.poll, ?_⟩
  unfold PostOffice.poll
  split
  next => exact h.filed
  next =>
    split
    next => exact h.filed
    next wire socket hsocket =>
      cases NetworkInput.callBack hostName wire s.inbox with
      | none => exact h.filed.of_eq rfl rfl rfl rfl h.filed.idle
      | some p => exact h.filed.of_eq rfl rfl rfl rfl h.filed.idle

theorem Inv.work (h : Inv hostName numBoxes s) {data : Buffer}
    (hs : s.work numBoxes data = some s') : Inv hostName numBoxes s' := by
  cases hworker : s.worker with
  | waiting =>
    refine ⟨h.arrivals.waiting hworker hs, ?_⟩
    have hidle : ∀ box, (s.boxes box).place none = .idle := fun box =>
      h.filed.idle box (by rw [hworker]; simp)
    unfold PostOffice.work at hs
    rw [hworker] at hs
    dsimp only at hs
    split at hs
    next => cases hs
    next =>
      split at hs
      next =>
        obtain rfl := Option.some.inj hs
        exact h.filed.of_eq rfl rfl rfl rfl fun box _ => hidle box
      next =>
        obtain rfl := Option.some.inj hs
        exact h.filed.of_eq rfl rfl rfl rfl fun box _ => hidle box
  | taken =>
    obtain ⟨mail, inHdr, buffer, hzero, hletter, heq⟩ := h.arrivals.deliver_eq hworker data
    unfold PostOffice.work at hs
    rw [hworker] at hs
    have hbox := heq.symm.trans hs
    exact ⟨(h.arrivals.take hworker buffer hzero hletter).inBox hbox,
      h.filed.append hworker rfl hbox⟩
  | putting box =>
    unfold PostOffice.work at hs
    rw [hworker] at hs
    dsimp only at hs
    split at hs
    next hidle =>
      obtain rfl := Option.some.inj hs
      refine ⟨h.arrivals.again hworker, h.filed.of_eq rfl rfl rfl rfl fun box' _ => ?_⟩
      by_cases hbox : box' = box
      · rw [hbox]
        exact hidle
      · refine h.filed.idle box' ?_
        rw [hworker]
        exact fun heq => hbox (Worker.putting.inj heq).symm
    next =>
      obtain ⟨b, hb, -⟩ := inBox_eq_some hs
      exact ⟨h.arrivals.inBox hs, h.filed.inBox (fun u x hux => by cases hux) (.inr hworker)
        (fun t => SynchList.returnedBy_run_of_not hb fun ht => by cases ht) hs⟩

theorem get_of_fits {mail : Mail} (h : mail.letter.mailHdr.length.toNat ≤ maxMailSize)
    (data : Buffer) : ∃ got, get mail data = some got ∧ got.letter = mail.letter := by
  refine ⟨_, if_pos h, ?_⟩
  unfold Mail.letter
  congr 1
  refine List.map_congr_left fun k hk => ?_
  have hlt : k < mail.mailHdr.length.toNat := List.mem_range.mp hk
  show bcopy mail.data 0 data 0 mail.mailHdr.length.toNat k = mail.data k
  rw [bcopy_zero hlt, Nat.zero_add]

/-- The pointer that `RemoveFront` returns was removed from the list. -/
theorem Filed.removed_of_result (h : Filed s) {t : τ} {pointer : Nat}
    (hresult : (s.boxes box).result (some t) = some pointer) :
    pointer ∈ SynchList.removed (s.log box) := by
  have hreturning : (s.boxes box).returning (some t) = [pointer] := by
    rw [SynchList.returning, (SynchList.result_eq_some hresult).2]
    rfl
  have hremovedBy : pointer ∈ SynchList.removedBy (some t) (s.log box) := by
    rw [h.returns box (some t), hreturning]
    exact List.mem_append_right _ List.mem_cons_self
  exact (SynchList.removedBy_sublist _ _).subset hremovedBy

/-- It points to a mail. -/
theorem Filed.mem_of_result (h : Filed s) {t : τ} {pointer : Nat}
    (hresult : (s.boxes box).result (some t) = some pointer) :
    ∃ mail ∈ s.mails, s.mails[pointer]? = some mail := by
  have hremoved := h.removed_of_result hresult
  have happended : pointer ∈ SynchList.appended (s.log box) := by
    rw [(h.logInv box).fifo]
    exact List.mem_append_left _ hremoved
  have hcalled := (h.logInv box).subset pointer happended
  rw [h.put, mailsFor] at hcalled
  obtain ⟨⟨mail, p⟩, hp, rfl⟩ := List.mem_map.mp hcalled
  have hget := List.mem_zipIdx_iff_getElem?.mp (List.mem_of_mem_filter hp)
  exact ⟨mail, List.mem_of_getElem? hget, hget⟩

/-- `RemoveFront` returns a pointer, and the letter behind it is given to the receiver. -/
theorem Inv.received (h : Inv hostName numBoxes s) {t : τ} {pointer : Nat}
    (hresult : (s.boxes box).result (some t) = some pointer) (data : Buffer) :
    ∃ got, s.received pointer data = some got ∧ s.letterAt pointer = some got.letter := by
  obtain ⟨mail, hmem, hget⟩ := h.filed.mem_of_result hresult
  have hlegal : Legal hostName numBoxes mail.letter := by
    refine h.arrivals.legal mail.letter ?_
    rw [h.arrivals.read]
    exact List.mem_append_left _ (List.mem_map_of_mem hmem)
  obtain ⟨got, hgot, hletter⟩ := get_of_fits hlegal.fits data
  refine ⟨got, ?_, ?_⟩
  · rw [PostOffice.received, hget]
    exact hgot
  · rw [letterAt, hget, hletter]
    rfl

/-- A receiver goes on. -/
theorem Inv.receive (h : Inv hostName numBoxes s) {t : τ} {data : Buffer}
    {p : PostOffice τ × Option Mail} (hs : s.receive t box data = some p) :
    Inv hostName numBoxes p.1 := by
  have hthread : (SynchEvent.run (some t) : SynchEvent (Option τ) Nat).thread ≠ none ∨
    s.worker = .putting box := .inl (Option.some_ne_none t)
  unfold PostOffice.receive at hs
  cases hresult : (s.boxes box).result (some t) with
  | none =>
    rw [hresult] at hs
    obtain ⟨s', hs', rfl⟩ := Option.map_eq_some_iff.mp hs
    obtain ⟨b, hb, -⟩ := inBox_eq_some hs'
    refine ⟨h.arrivals.inBox hs', h.filed.inBox (fun u x hux => by cases hux) hthread ?_ hs'⟩
    intro u
    refine SynchList.returnedBy_run_of_not hb fun hu => ?_
    rw [hu, hresult]
  | some pointer =>
    obtain ⟨got, hgot, hletter⟩ := h.received hresult data
    rw [hresult] at hs
    dsimp only at hs
    rw [hgot] at hs
    obtain ⟨s', hs', rfl⟩ := Option.map_eq_some_iff.mp hs
    have harrivals := h.arrivals.inBox hs'
    obtain ⟨b, hb, rfl⟩ := inBox_eq_some hs'
    refine ⟨⟨harrivals.failed, harrivals.socket, harrivals.sent, harrivals.read, harrivals.legal,
      harrivals.value, harrivals.full, harrivals.queue⟩,
      h.filed.inBox_given (fun u x hux => by cases hux) hthread hb [(t, got)] fun u => ?_⟩
    by_cases hu : u = t
    · subst hu
      rw [SynchList.returnedBy_notes_run, hresult]
      simp [lettersFor, hletter]
    · rw [SynchList.returnedBy_run_of_not hb fun heq => absurd (Option.some.inj heq) hu]
      simp [lettersFor, Ne.symm hu]

theorem inv_step (s : PostOffice τ) (e : PostEvent τ) (s' : PostOffice τ)
    (h : Inv hostName numBoxes s) (hbox : e.BoxBelow hostName numBoxes)
    (hs : s.step hostName numBoxes e = some s') : Inv hostName numBoxes s' := by
  have hfailed : ¬ s.failed = true := by
    rw [h.arrivals.failed]
    exact Bool.false_ne_true
  cases e with
  | send sender pktHdr mailHdr data buffer wire lost =>
    simp only [step, if_neg hfailed] at hs
    exact h.send hbox hs
  | poll =>
    simp only [step, if_neg hfailed] at hs
    obtain rfl := Option.some.inj hs
    exact h.poll
  | work data =>
    simp only [step, if_neg hfailed] at hs
    exact h.work hs
  | receive t box =>
    simp only [step] at hs
    split at hs
    next =>
      exact ⟨h.arrivals.inBox hs,
        h.filed.inBox (e := .removeFront (some t)) (fun u x hux => by cases hux)
          (.inl (Option.some_ne_none t)) (fun _ => rfl) hs⟩
    next => cases hs
  | run t box data =>
    simp only [step, if_neg hfailed] at hs
    obtain ⟨p, hp, rfl⟩ := Option.map_eq_some_iff.mp hs
    exact h.receive hp

/-! ### What the invariant says about the mail -/

theorem Filed.put_eq (h : Filed s) (box : Int) :
    s.put box ++ s.inHand box = s.taken.filter fun l => l.box = box := by
  rw [← letters_mailsFor, ← h.put, (h.lone box).called, letters, List.filterMap_append]
  rfl

theorem Filed.obtained_prefix (h : Filed s) (box : Int) : s.obtained box <+: s.put box := by
  rw [PostOffice.put, (h.logInv box).fifo, letters, List.filterMap_append]
  exact List.prefix_append _ _

/-- What is taken out of a box was sent to it, in this order. -/
theorem Inv.order (h : Inv hostName numBoxes s) (box : Int) :
    List.Sublist (s.obtained box) (s.sent.filter fun l => l.box = box) := by
  have hput : List.Sublist (s.put box) (s.taken.filter fun l => l.box = box) := by
    rw [← h.filed.put_eq]
    exact List.sublist_append_left _ _
  have hread : List.Sublist s.taken s.read := by
    rw [h.arrivals.read]
    exact List.sublist_append_left _ _
  have hsent : List.Sublist s.read s.sent :=
    (List.sublist_append_left _ _).trans h.arrivals.sent
  exact (h.filed.obtained_prefix box).sublist.trans (hput.trans ((hread.trans hsent).filter _))

/-- What `Receive` gives to its caller was sent to the box. -/
theorem Inv.mem_of_receive (h : Inv hostName numBoxes s) {t : τ} {data : Buffer} {mail : Mail}
    (hs : s.receive t box data = some (s', some mail)) :
    mail.letter ∈ s.sent.filter fun l => l.box = box := by
  unfold PostOffice.receive at hs
  cases hresult : (s.boxes box).result (some t) with
  | none =>
    rw [hresult] at hs
    obtain ⟨_, -, heq⟩ := Option.map_eq_some_iff.mp hs
    cases heq
  | some pointer =>
    obtain ⟨got, hgot, hletter⟩ := h.received hresult data
    rw [hresult] at hs
    dsimp only at hs
    rw [hgot] at hs
    obtain ⟨_, -, heq⟩ := Option.map_eq_some_iff.mp hs
    obtain rfl : got = mail := Option.some.inj (Prod.mk.inj heq).2
    have hremoved := h.filed.removed_of_result hresult
    exact (h.order box).subset (List.mem_filterMap.mpr ⟨pointer, hremoved, hletter⟩)

/-- A receiver is given what it takes out of the box, letter by letter. -/
theorem Filed.given_eq (h : Filed s) (box : Int) (t : τ) :
    s.obtainedBy t box = s.givenTo t box ++ s.onTheWay t box := by
  rw [obtainedBy, h.returns box (some t), letters, List.filterMap_append]
  congr 1
  exact letters_of_map (h.given box t)

theorem Filed.givenTo_sublist (h : Filed s) (box : Int) (t : τ) :
    List.Sublist (s.givenTo t box) (s.obtained box) := by
  have hby : List.Sublist (s.obtainedBy t box) (s.obtained box) :=
    (SynchList.removedBy_sublist (some t) (s.log box)).filterMap _
  rw [h.given_eq] at hby
  exact (List.sublist_append_left _ _).trans hby

theorem Inv.delivered (h : Inv hostName numBoxes s) : Delivered s where
  failed := h.arrivals.failed
  aborted := fun box => ⟨(h.filed.logInv box).good.failed, (h.filed.logInv box).good.aborted⟩
  read := (List.sublist_append_left _ _).trans h.arrivals.sent
  taken := h.arrivals.read
  put := h.filed.put_eq
  obtained := h.filed.obtained_prefix
  order := h.order
  given := h.filed.given_eq
  inOrder := fun box t => (h.filed.givenTo_sublist box t).trans (h.order box)
  copied := by
    intro mail hmail data
    refine get_of_fits (h.arrivals.legal mail.letter ?_).fits data
    rw [h.arrivals.read]
    exact List.mem_append_left _ (List.mem_map_of_mem hmail)
  awake := by
    intro hfull
    rcases h.arrivals.queue with hqueue | ⟨-, -, hzero⟩
    · rw [hqueue]
      exact List.not_mem_nil
    · exact absurd hzero hfull

end Steps

/-! ## Whole runs -/

section Sent

variable {hostName : BitVec 32} {numBoxes : Int} {s s' : PostOffice τ}

theorem inBox_sent {box : Int} {e : SynchEvent (Option τ) Nat} (hs : s.inBox box e = some s') :
    s'.sent = s.sent := by
  obtain ⟨b, -, rfl⟩ := inBox_eq_some hs
  rfl

omit [DecidableEq τ] in
theorem poll_sent (s : PostOffice τ) : (s.poll hostName).sent = s.sent := by
  unfold PostOffice.poll
  split
  next => rfl
  next =>
    split
    next => rfl
    next wire socket _ =>
      cases NetworkInput.callBack hostName wire s.inbox with
      | none => rfl
      | some p => rfl

theorem deliver_sent {data : Buffer} (hs : s.deliver numBoxes data = some s') :
    s'.sent = s.sent := by
  unfold PostOffice.deliver at hs
  dsimp only at hs
  generalize PostOfficeInput.deliver numBoxes _ _ data = result at hs
  cases result with
  | none =>
    obtain rfl := Option.some.inj hs
    rfl
  | some p => exact (inBox_sent hs).trans rfl

theorem work_sent {data : Buffer} (hs : s.work numBoxes data = some s') : s'.sent = s.sent := by
  unfold PostOffice.work at hs
  split at hs
  next =>
    split at hs
    next => cases hs
    next =>
      split at hs
      all_goals
        obtain rfl := Option.some.inj hs
        rfl
  next => exact deliver_sent hs
  next =>
    split at hs
    next =>
      obtain rfl := Option.some.inj hs
      rfl
    next => exact inBox_sent hs

theorem receive_sent {t : τ} {box : Int} {data : Buffer} {p : PostOffice τ × Option Mail}
    (hs : s.receive t box data = some p) : p.1.sent = s.sent := by
  unfold PostOffice.receive at hs
  split at hs
  next =>
    obtain ⟨s', hs', rfl⟩ := Option.map_eq_some_iff.mp hs
    exact inBox_sent hs'
  next =>
    split at hs
    next =>
      obtain rfl := Option.some.inj hs
      rfl
    next =>
      obtain ⟨s', hs', rfl⟩ := Option.map_eq_some_iff.mp hs
      exact (inBox_sent hs' :)

theorem step_sent {e : PostEvent τ} (hs : s.step hostName numBoxes e = some s') :
    s'.sent = s.sent ++ e.letters hostName := by
  have hquiet : s'.sent = s.sent → s'.sent = s.sent ++ [] :=
    fun h => h.trans (List.append_nil _).symm
  cases e with
  | send sender pktHdr mailHdr data buffer wire lost =>
    simp only [step] at hs
    split at hs
    next => cases hs
    next =>
      obtain ⟨datagram, -, rfl⟩ := Option.map_eq_some_iff.mp hs
      by_cases hdest : pktHdr.dest = hostName
      · simp only [PostEvent.letters, if_pos hdest]
      · simp only [PostEvent.letters, if_neg hdest, List.append_nil]
  | poll =>
    simp only [step] at hs
    split at hs
    next => cases hs
    next =>
      obtain rfl := Option.some.inj hs
      exact hquiet (poll_sent s)
  | work data =>
    simp only [step] at hs
    split at hs
    next => cases hs
    next => exact hquiet (work_sent hs)
  | receive t box =>
    simp only [step] at hs
    split at hs
    next => exact hquiet (inBox_sent hs)
    next => cases hs
  | run t box data =>
    simp only [step] at hs
    split at hs
    next => cases hs
    next =>
      obtain ⟨p, hp, rfl⟩ := Option.map_eq_some_iff.mp hs
      exact hquiet (receive_sent hp)

theorem run_sent {es : List (PostEvent τ)} (h : run (step hostName numBoxes) s es = some s') :
    s'.sent = s.sent ++ es.flatMap (PostEvent.letters hostName) := by
  induction es generalizing s with
  | nil =>
    obtain rfl := Option.some.inj h
    exact (List.append_nil _).symm
  | cons e es ih =>
    obtain ⟨m, hm, hrest⟩ := run_cons_eq_some.mp h
    rw [ih hrest, step_sent hm, List.flatMap_cons, List.append_assoc]

end Sent

/--
**Mail is delivered intact, once and in order**, along every run of sends, polls, steps of the
postal worker and of receivers, if what is sent here is for boxes that are there.

`sent` are the letters of the `Send`s, those that are lost included. The letters that are read are
some of them, in their order; all are taken, each before the next one is read, and put into their
boxes in this order. What is obtained from a box are the first ones put into it, and each receiver
is given, by its calls of `Receive`, what it has obtained.
-/
theorem run_mail_delivered {hostName : BitVec 32} {numBoxes : Int} {inHdr : Header}
    {inbox buffer : Buffer} {es : List (PostEvent τ)} {s : PostOffice τ}
    (hboxes : ∀ e ∈ es, e.BoxBelow hostName numBoxes)
    (h : run (step hostName numBoxes) (start inHdr inbox buffer) es = some s) :
    s.sent = es.flatMap (PostEvent.letters hostName) ∧ Delivered s := by
  refine ⟨(run_sent h).trans (List.nil_append _), ?_⟩
  have hinv : Inv hostName numBoxes s := by
    refine (run_guarded (P := fun _ _ => True) (Q := fun _ e => e.BoxBelow hostName numBoxes)
      ?_ (inv_start inHdr inbox buffer) (allSteps_of_forall hboxes) h).1
    exact fun s e t hs hq ht => ⟨inv_step s e t hs hq ht, trivial⟩
  exact hinv.delivered

/-- Two bytes from machine 0 for box 3 of machine 1, where thread 7 receives them. -/
def twoBytes : List (PostEvent Nat) :=
  [.send 0 ⟨1, 7, 7⟩ ⟨3, 2, 2⟩ (fun _ => 0x41) (fun _ => 0) (fun _ => 0) false, .poll] ++
    List.replicate 8 (.work fun _ => 0) ++ .receive 7 3 :: List.replicate 5 (.run 7 3 fun _ => 0)

theorem run_mail_delivered_two_bytes :
    ∃ s : PostOffice Nat,
      run (step 1 10) (start ⟨0, 0, 0⟩ (fun _ => 0) (fun _ => 0)) twoBytes = some s ∧
      Delivered s ∧ (s.givenTo 7 3).map Letter.payload = [[0x41, 0x41]] := by
  have hrun : run (step 1 10) (start ⟨0, 0, 0⟩ (fun _ => 0) (fun _ => 0) : PostOffice Nat)
    twoBytes = some _ := rfl
  refine ⟨_, hrun, (run_mail_delivered ?_ hrun).2, rfl⟩
  intro e he
  simp only [twoBytes, List.mem_append, List.mem_cons, List.mem_replicate, List.not_mem_nil,
    or_false] at he
  rcases he with ((rfl | rfl) | ⟨-, rfl⟩) | rfl | ⟨-, rfl⟩
  · exact fun _ => by decide
  all_goals exact trivial

end PostOffice

end Nachos
