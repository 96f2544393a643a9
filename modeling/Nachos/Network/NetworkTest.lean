import Nachos.Network.PostOffice

/-!
# The test of the network (`threads/kernel.cc`)

`Kernel::NetworkTest` runs on the machines 0 and 1. Each says hello to the other, waits for the
hello of the other, acknowledges it to the box that the hello names for replies, and waits for the
acknowledgement of its own hello. The network may lose any packet, and then somebody waits for ever.
But a machine that has come to the end knows that its hello has arrived.

Each machine has its post office, with a postal worker of its own, and one thread `()` that runs the
test.

* `NetworkTest.step` — a poll, a step of a postal worker, or a step of the test on one machine
* `networkTest_acknowledged` — what a machine knows at the end
-/

namespace Nachos

open Base

/-- `hostName`. -/
def hostName : Bool → BitVec 32
  | false => 0
  | true => 1

/-- The argument of `PostOfficeInput`. -/
def numMailBoxes : Int := 10

/-- The bytes of a string, with its terminator. What comes behind it is not sent. -/
def textBuffer (text : List (BitVec 8)) : Buffer := fun k => text.getD k 0

/-- `data`: `Hello there!`. -/
def helloText : List (BitVec 8) :=
  [0x48, 0x65, 0x6c, 0x6c, 0x6f, 0x20, 0x74, 0x68, 0x65, 0x72, 0x65, 0x21, 0]

/-- `ack`: `Got it!`. -/
def ackText : List (BitVec 8) := [0x47, 0x6f, 0x74, 0x20, 0x69, 0x74, 0x21, 0]

/-- Where a machine is in the test, with the letters it has got. -/
inductive TestPlace where
  | sendHello
  /-- Before the first `Receive`. -/
  | callHello
  /-- In it. -/
  | inHello
  | sendAck (hello : Letter)
  /-- Before the second `Receive`. -/
  | callAck (hello : Letter)
  /-- In it. -/
  | inAck (hello : Letter)
  | done (hello ack : Letter)

/-- The two machines. -/
structure NetworkTest where
  office : Bool → PostOffice Unit
  place : Bool → TestPlace

/-- What can happen. -/
inductive TestEvent where
  | poll (host : Bool)
  | work (host : Bool) (data : Buffer)
  /--
  The test goes on. `outPktHdr` is not initialised but for `to`; `data` is the memory of the
  buffer that `Receive` is called with; `lost`: a packet is dropped.
  -/
  | go (host : Bool) (outPktHdr : Header) (buffer wire data : Buffer) (lost : Bool)

namespace NetworkTest

/-- The machines when the test begins. -/
def start (inHdr : Bool → Header) (inbox buffer : Bool → Buffer) : NetworkTest where
  office := fun host => .start (inHdr host) (inbox host) (buffer host)
  place := fun _ => .sendHello

/-! ## The steps -/

/-- Something happens in the post office of a machine. -/
def inOffice (s : NetworkTest) (host : Bool) (e : PostEvent Unit) (place : TestPlace) :
    Option NetworkTest :=
  ((s.office host).step (hostName host) numMailBoxes e).map fun office =>
    { office := Function.update s.office host office
      place := Function.update s.place host place }

/-- A packet is sent: it goes to the machine that it names. -/
def send (s : NetworkTest) (host : Bool) (e : PostEvent Unit) (place : TestPlace) :
    Option NetworkTest := do
  let zero ← (s.office false).step (hostName false) numMailBoxes e
  let one ← (s.office true).step (hostName true) numMailBoxes e
  return {
    office := fun k => if k then one else zero
    place := Function.update s.place host place }

/-- In `Receive`: the test goes on at `next` when it returns, with the letter that it gives. -/
def inReceive (s : NetworkTest) (host : Bool) (box : Int) (data : Buffer) (place : TestPlace)
    (next : Letter → TestPlace) : Option NetworkTest :=
  if (s.office host).failed then none
  else ((s.office host).receive () box data).map fun (office, got) =>
    { office := Function.update s.office host office
      place := Function.update s.place host (got.elim place fun mail => next mail.letter) }

/-- The test on a machine goes on. -/
def go (s : NetworkTest) (host : Bool) (outPktHdr : Header) (buffer wire data : Buffer)
    (lost : Bool) : Option NetworkTest :=
  match s.place host with
  | .sendHello =>
    let outPktHdr := { outPktHdr with dest := hostName !host }
    let outMailHdr : Header := ⟨0, 1, BitVec.ofNat 32 helloText.length⟩
    s.send host
      (.send (hostName host) outPktHdr outMailHdr (textBuffer helloText) buffer wire lost)
      .callHello
  | .callHello => s.inOffice host (.receive () 0) .inHello
  | .inHello => s.inReceive host 0 data .inHello .sendAck
  | .sendAck hello =>
    let outPktHdr := { outPktHdr with dest := hello.pktHdr.sender }
    let outMailHdr : Header := ⟨hello.mailHdr.sender, 1, BitVec.ofNat 32 ackText.length⟩
    s.send host
      (.send (hostName host) outPktHdr outMailHdr (textBuffer ackText) buffer wire lost)
      (.callAck hello)
  | .callAck hello => s.inOffice host (.receive () 1) (.inAck hello)
  | .inAck hello => s.inReceive host 1 data (.inAck hello) (.done hello)
  | .done _ _ => none

/-- One step. -/
def step (s : NetworkTest) : TestEvent → Option NetworkTest
  | .poll host => s.inOffice host .poll (s.place host)
  | .work host data => s.inOffice host (.work data) (s.place host)
  | .go host outPktHdr buffer wire data lost => s.go host outPktHdr buffer wire data lost

/-! ## The letters -/

/-- The hello of a machine. -/
def helloLetter (host : Bool) : Letter :=
  letterSent (hostName host) ⟨hostName !host, 0, 0⟩ ⟨0, 1, BitVec.ofNat 32 helloText.length⟩
    (textBuffer helloText)

/-- Its acknowledgement of the hello of the other machine. -/
def ackLetter (host : Bool) : Letter :=
  letterSent (hostName host) ⟨hostName !host, 0, 0⟩ ⟨1, 1, BitVec.ofNat 32 ackText.length⟩
    (textBuffer ackText)

/-- What a machine has sent, where it is. -/
def sentBy (host : Bool) : TestPlace → List Letter
  | .sendHello => []
  | .callHello | .inHello | .sendAck _ => [helloLetter host]
  | .callAck _ | .inAck _ | .done _ _ => [helloLetter host, ackLetter host]

/-- The machine has sent its acknowledgement for this hello. -/
def Acknowledged (hello : Letter) : TestPlace → Prop
  | .callAck hello' | .inAck hello' | .done hello' _ => hello' = hello
  | _ => False

/-- The letters that a machine has got are those that the other one has sent. -/
def Knows (host : Bool) : TestPlace → Prop
  | .sendHello | .callHello | .inHello => True
  | .sendAck hello | .callAck hello | .inAck hello => hello = helloLetter !host
  | .done hello ack => hello = helloLetter (!host) ∧ ack = ackLetter !host

/-! ## The invariant -/

structure Inv (s : NetworkTest) : Prop where
  offices : ∀ host, (s.office host).Inv (hostName host) numMailBoxes
  /-- A machine is sent what the other one sends. -/
  sent : ∀ host, (s.office host).sent = sentBy (!host) (s.place !host)
  knows : ∀ host, Knows host (s.place host)
  /-- Nobody gets to the end before the other one has acknowledged. -/
  acknowledged : ∀ host hello ack, s.place host = .done hello ack →
    Acknowledged (helloLetter host) (s.place !host)

theorem hostName_inj {k l : Bool} : hostName k = hostName l ↔ k = l := by
  cases k <;> cases l <;> decide

theorem inv_start (inHdr : Bool → Header) (inbox buffer : Bool → Buffer) :
    (start inHdr inbox buffer).Inv where
  offices := fun host => PostOffice.inv_start (inHdr host) (inbox host) (buffer host)
  sent := fun _ => rfl
  knows := fun _ => trivial
  acknowledged := fun _ _ _ h => by cases h

section Steps

variable {s t : NetworkTest} {host : Bool}

/-- A machine goes on to `place`, and sends the letters `extra`. -/
theorem Inv.moved (h : s.Inv) {office : Bool → PostOffice Unit} {place : TestPlace}
    (extra : List Letter) (hoffices : ∀ k, (office k).Inv (hostName k) numMailBoxes)
    (hextra : sentBy host place = sentBy host (s.place host) ++ extra)
    (hsent : ∀ k, (office k).sent = (s.office k).sent ++ if k = !host then extra else [])
    (hknows : Knows host place)
    (hkeep : ∀ hello, Acknowledged hello (s.place host) → Acknowledged hello place)
    (hdone : ∀ hello ack, place = .done hello ack →
      Acknowledged (helloLetter host) (s.place !host)) :
    Inv { office := office, place := Function.update s.place host place } where
  offices := hoffices
  sent := by
    intro k
    dsimp only
    rw [hsent, h.sent]
    by_cases hk : k = !host
    · obtain rfl : host = !k := by rw [hk, Bool.not_not]
      rw [if_pos hk, Function.update_self, hextra]
    · obtain rfl : k = host := by simpa using hk
      rw [if_neg hk, List.append_nil, Function.update_of_ne (Bool.not_ne_self k)]
  knows := by
    intro k
    dsimp only
    by_cases hk : k = host
    · subst hk
      rw [Function.update_self]
      exact hknows
    · rw [Function.update_of_ne hk]
      exact h.knows k
  acknowledged := by
    intro k hello ack hk
    dsimp only at hk ⊢
    by_cases hhost : k = host
    · subst hhost
      rw [Function.update_self] at hk
      rw [Function.update_of_ne (Bool.not_ne_self k)]
      exact hdone hello ack hk
    · have hother : host = !k := (Bool.eq_not_of_ne (Ne.symm hhost))
      rw [Function.update_of_ne hhost] at hk
      subst hother
      rw [Function.update_self]
      exact hkeep _ (h.acknowledged k hello ack hk)

/-- A machine that does not get a letter and does not send one. -/
theorem Inv.inOffice (h : s.Inv) {e : PostEvent Unit} {place : TestPlace}
    (hs : s.inOffice host e place = some t) (hbox : e.BoxBelow (hostName host) numMailBoxes)
    (hletters : e.letters (hostName host) = [])
    (hextra : sentBy host place = sentBy host (s.place host)) (hknows : Knows host place)
    (hkeep : ∀ hello, Acknowledged hello (s.place host) → Acknowledged hello place)
    (hdone : ∀ hello ack, place = .done hello ack →
      Acknowledged (helloLetter host) (s.place !host)) : t.Inv := by
  obtain ⟨office, hoffice, rfl⟩ := Option.map_eq_some_iff.mp hs
  refine h.moved [] ?_ (by rw [hextra, List.append_nil]) ?_ hknows hkeep hdone
  · intro k
    by_cases hk : k = host
    · subst hk
      rw [Function.update_self]
      exact PostOffice.inv_step _ e _ (h.offices k) hbox hoffice
    · rw [Function.update_of_ne hk]
      exact h.offices k
  · intro k
    rw [ite_self, List.append_nil]
    by_cases hk : k = host
    · subst hk
      rw [Function.update_self, PostOffice.step_sent hoffice, hletters, List.append_nil]
    · rw [Function.update_of_ne hk]

/-- A machine sends a letter to the other one. -/
theorem Inv.send (h : s.Inv) {pktHdr mailHdr : Header} {data buffer wire : Buffer} {lost : Bool}
    {place : TestPlace}
    (hs : s.send host (.send (hostName host) pktHdr mailHdr data buffer wire lost) place = some t)
    (hdest : pktHdr.dest = hostName !host)
    (hbox : mailHdr.dest.toInt < numMailBoxes)
    (hextra : sentBy host place =
      sentBy host (s.place host) ++ [letterSent (hostName host) pktHdr mailHdr data])
    (hknows : Knows host place)
    (hkeep : ∀ hello, Acknowledged hello (s.place host) → Acknowledged hello place)
    (hdone : ∀ hello ack, place ≠ .done hello ack) : t.Inv := by
  unfold NetworkTest.send at hs
  simp only [Option.bind_eq_bind, Option.bind_eq_some_iff] at hs
  obtain ⟨zero, hzero, one, hone, heq⟩ := hs
  obtain rfl := Option.some.inj heq
  have hstep : ∀ k, (s.office k).step (hostName k) numMailBoxes
      (.send (hostName host) pktHdr mailHdr data buffer wire lost) =
        some (if k then one else zero) := by
    intro k
    cases k with
    | false => exact hzero
    | true => exact hone
  refine h.moved [letterSent (hostName host) pktHdr mailHdr data] ?_ hextra ?_ hknows
    hkeep fun hello ack heq => absurd heq (hdone hello ack)
  · intro k
    refine PostOffice.inv_step _ _ _ (h.offices k) ?_ (hstep k)
    exact fun _ => hbox
  · intro k
    rw [PostOffice.step_sent (hstep k)]
    unfold PostEvent.letters
    dsimp only
    by_cases hk : k = !host
    · rw [if_pos hk, if_pos (by rw [hdest, hk])]
    · rw [if_neg hk, if_neg (by rw [hdest, hostName_inj]; exact Ne.symm hk)]

theorem box_helloLetter (host : Bool) : (helloLetter host).box = 0 := rfl

theorem box_ackLetter (host : Bool) : (ackLetter host).box = 1 := rfl

/-- In box 0 there are hellos. -/
theorem eq_helloLetter {place : TestPlace} {letter : Letter} (h : letter ∈ sentBy host place)
    (hbox : letter.box = 0) : letter = helloLetter host := by
  have hone : letter ≠ ackLetter host := by
    rintro rfl
    rw [box_ackLetter] at hbox
    exact absurd hbox (by decide)
  cases place with
  | sendHello => cases h
  | callHello | inHello | sendAck => exact List.mem_singleton.mp h
  | callAck | inAck | done =>
    rcases List.mem_pair.mp h with hhello | hack
    · exact hhello
    · exact absurd hack hone

/-- In box 1 there are acknowledgements. -/
theorem eq_ackLetter {place : TestPlace} {letter : Letter} (h : letter ∈ sentBy host place)
    (hbox : letter.box = 1) (hknows : Knows host place) :
    letter = ackLetter host ∧ Acknowledged (helloLetter !host) place := by
  have hzero : letter ≠ helloLetter host := by
    rintro rfl
    rw [box_helloLetter] at hbox
    exact absurd hbox (by decide)
  have hsecond : letter ∈ [helloLetter host, ackLetter host] → letter = ackLetter host := by
    intro hmem
    rcases List.mem_pair.mp hmem with hhello | hack
    · exact absurd hhello hzero
    · exact hack
  cases place with
  | sendHello => cases h
  | callHello | inHello | sendAck => exact absurd (List.mem_singleton.mp h) hzero
  | callAck | inAck => exact ⟨hsecond h, hknows⟩
  | done => exact ⟨hsecond h, hknows.1⟩

/-- In `Receive`. A machine gets a letter that the other one has sent to this box. -/
theorem Inv.inReceive (h : s.Inv) {box : Int} {data : Buffer} {place : TestPlace}
    {next : Letter → TestPlace} (hs : s.inReceive host box data place next = some t)
    (hplace : s.place host = place) (hextra : ∀ l, sentBy host (next l) = sentBy host place)
    (hdone : ∀ hello ack, place ≠ .done hello ack)
    (hkeep : ∀ l hello, Acknowledged hello place → Acknowledged hello (next l))
    (hnext : ∀ l, l ∈ sentBy (!host) (s.place !host) → l.box = box →
      Knows host (next l) ∧ ∀ hello ack, next l = .done hello ack →
        Acknowledged (helloLetter host) (s.place !host)) : t.Inv := by
  unfold NetworkTest.inReceive at hs
  split at hs
  · cases hs
  obtain ⟨⟨office, got⟩, hreceive, rfl⟩ := Option.map_eq_some_iff.mp hs
  have hoffices : ∀ k, (Function.update s.office host office k).Inv (hostName k) numMailBoxes := by
    intro k
    by_cases hk : k = host
    · subst hk
      rw [Function.update_self]
      exact (h.offices k).receive hreceive
    · rw [Function.update_of_ne hk]
      exact h.offices k
  have hsent : ∀ k, (Function.update s.office host office k).sent =
      (s.office k).sent ++ if k = !host then [] else [] := by
    intro k
    rw [ite_self, List.append_nil]
    by_cases hk : k = host
    · subst hk
      rw [Function.update_self]
      exact PostOffice.receive_sent hreceive
    · rw [Function.update_of_ne hk]
  cases got with
  | none =>
    have hknows := h.knows host
    rw [hplace] at hknows
    refine h.moved [] hoffices ?_ hsent hknows ?_ fun hello ack heq => absurd heq (hdone hello ack)
    · rw [List.append_nil, hplace]
      rfl
    · rw [hplace]
      exact fun _ hack => hack
  | some mail =>
    obtain ⟨hmem, hbox⟩ := List.mem_filter.mp ((h.offices host).mem_of_receive hreceive)
    rw [h.sent host] at hmem
    obtain ⟨hknows, hack⟩ := hnext mail.letter hmem (of_decide_eq_true hbox)
    refine h.moved [] hoffices ?_ hsent hknows ?_ hack
    · rw [List.append_nil, hplace]
      exact hextra mail.letter
    · rw [hplace]
      exact hkeep mail.letter

/-- The test on a machine goes on. -/
theorem Inv.go (h : s.Inv) {outPktHdr : Header} {buffer wire data : Buffer} {lost : Bool}
    (hs : s.go host outPktHdr buffer wire data lost = some t) : t.Inv := by
  have hknows := h.knows host
  unfold NetworkTest.go at hs
  cases hplace : s.place host with
  | sendHello =>
    rw [hplace] at hs
    refine h.send hs rfl (by decide) ?_ ?_ ?_ ?_
    · rw [hplace]
      rfl
    · trivial
    · rw [hplace]
      exact fun _ => False.elim
    · exact fun _ _ => nofun
  | callHello =>
    rw [hplace] at hs
    refine h.inOffice hs trivial rfl ?_ ?_ ?_ ?_
    · rw [hplace]
      rfl
    · trivial
    · rw [hplace]
      exact fun _ => False.elim
    · exact fun _ _ => nofun
  | inHello =>
    rw [hplace] at hs
    refine h.inReceive hs hplace (fun _ => rfl) (fun _ _ => nofun) (fun _ _ => False.elim) ?_
    exact fun l hl hbox => ⟨eq_helloLetter hl hbox, fun _ _ => nofun⟩
  | sendAck hello =>
    rw [hplace] at hs hknows
    obtain rfl : hello = helloLetter !host := hknows
    have hbox : (1 : BitVec 32).toInt < numMailBoxes := by decide
    refine h.send hs rfl hbox ?_ rfl ?_ ?_
    · rw [hplace]
      rfl
    · rw [hplace]
      exact fun _ => False.elim
    · exact fun _ _ => nofun
  | callAck hello =>
    rw [hplace] at hs hknows
    refine h.inOffice hs trivial rfl ?_ hknows ?_ ?_
    · rw [hplace]
      rfl
    · rw [hplace]
      exact fun _ heq => heq
    · exact fun _ _ => nofun
  | inAck hello =>
    rw [hplace] at hs hknows
    refine h.inReceive hs hplace (fun _ => rfl) (fun _ _ => nofun) (fun _ _ heq => heq) ?_
    intro l hl hbox
    obtain ⟨hack, hacknowledged⟩ := eq_ackLetter hl hbox (h.knows !host)
    rw [Bool.not_not] at hacknowledged
    exact ⟨⟨hknows, hack⟩, fun _ _ _ => hacknowledged⟩
  | done hello ack =>
    rw [hplace] at hs
    cases hs

theorem inv_step (s : NetworkTest) (e : TestEvent) (t : NetworkTest) (h : s.Inv)
    (hs : s.step e = some t) : t.Inv := by
  have hdone : ∀ k hello ack, s.place k = .done hello ack →
      Acknowledged (helloLetter k) (s.place !k) := h.acknowledged
  cases e with
  | poll host => exact h.inOffice hs trivial rfl rfl (h.knows host) (fun _ h => h) (hdone host)
  | work host data =>
    exact h.inOffice hs trivial rfl rfl (h.knows host) (fun _ h => h) (hdone host)
  | go host outPktHdr buffer wire data lost => exact h.go hs

end Steps

end NetworkTest

open NetworkTest in
/--
A machine at the end of the test knows that its hello has arrived.

In every run, with any packets lost, a machine that has come to the end has got the hello and the
acknowledgement of the other one, and that one has got its hello. No assertion fails on the way.
-/
theorem networkTest_acknowledged {inHdr : Bool → Header} {inbox buffer : Bool → Buffer}
    {events : List TestEvent} {s : NetworkTest}
    (hrun : run NetworkTest.step (start inHdr inbox buffer) events = some s) :
    (∀ host, PostOffice.Delivered (s.office host)) ∧
    ∀ host hello ack, s.place host = .done hello ack →
      hello = helloLetter (!host) ∧ ack = ackLetter (!host) ∧
        Acknowledged (helloLetter host) (s.place !host) := by
  have h : s.Inv := run_invariant NetworkTest.inv_step (inv_start inHdr inbox buffer) hrun
  refine ⟨fun host => (h.offices host).delivered, fun host hello ack hplace => ?_⟩
  have hknows := h.knows host
  rw [hplace] at hknows
  exact ⟨hknows.1, hknows.2, h.acknowledged host hello ack hplace⟩

/-- A machine goes on with the test. -/
def goOn (host : Bool) : TestEvent :=
  .go host ⟨0, 0, 0⟩ (fun _ => 0) (fun _ => 0) (fun _ => 0) false

/-- A packet is taken to its box. -/
def takeIn (host : Bool) : List TestEvent := .poll host :: List.replicate 8 (.work host fun _ => 0)

/-- Both say hello, machine 1 acknowledges, and machine 0 comes to the end. -/
def zeroFirst : List TestEvent :=
  [goOn false, goOn true] ++ takeIn true ++ List.replicate 7 (goOn true) ++ takeIn false ++
    List.replicate 7 (goOn false) ++ takeIn false ++ List.replicate 6 (goOn false)

theorem networkTest_acknowledged_zero_first :
    ∃ s hello ack,
      run NetworkTest.step
          (NetworkTest.start (fun _ => ⟨0, 0, 0⟩) (fun _ _ => 0) (fun _ _ => 0)) zeroFirst =
        some s ∧
      s.place false = .done hello ack ∧ ack.payload = ackText ∧
      NetworkTest.Acknowledged (NetworkTest.helloLetter false) (s.place true) := by
  obtain ⟨s, hello, ack, hrun, hplace⟩ : ∃ s hello ack,
      run NetworkTest.step
          (NetworkTest.start (fun _ => ⟨0, 0, 0⟩) (fun _ _ => 0) (fun _ _ => 0)) zeroFirst =
        some s ∧ s.place false = .done hello ack := ⟨_, _, _, rfl, rfl⟩
  obtain ⟨-, hack, hacknowledged⟩ := (networkTest_acknowledged hrun).2 false hello ack hplace
  exact ⟨s, hello, ack, hrun, hplace, by rw [hack]; rfl, hacknowledged⟩

end Nachos
