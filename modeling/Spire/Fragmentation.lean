import Spire.ItLinkSafety
import Spire.Lib.Segments
import Spire.Reassembly

/-!
# Fragmentation

The sender of a link over time. Messages are forwarded and packed into packets as long as the
window has room, packets are acknowledged, and with `Reintroduce_Messages` an incarnation change
gives the packets that are left new numbers. `Sender` keeps the messages whose packets a receiver
is to get in the present incarnation. `RoundTrip` says that it gets them, and `Reintroduces`
which of them an incarnation change leaves.

The link is there all the time: where it is not, a message that is not packed to its end
is given up.
-/

namespace Spire.ItLink

/-! ## The packets of a message -/

/-- The fragments of some elements, with numbers from `idx` on. -/
def fragments (total idx : Nat) (bodies : List (List UInt8)) : Payload :=
  (bodies.zipIdx idx).map fun x => ⟨x.1, x.2, total⟩

/-- Each element fits into a packet with its fragment header. -/
def Fits (c : Conf) (msg : Message) : Prop :=
  ∀ body ∈ msg.elements, body.length + c.linkHeaderSize + fragmentHeaderSize ≤ maxPacketSize

instance (c : Conf) (msg : Message) : Decidable (Fits c msg) := by
  unfold Fits
  infer_instance

/-- What the outer loop packs from the fragment `idx` on, if it always finds room. -/
def packetsFrom (c : Conf) (msg : Message) : Nat → Nat → List Payload
  | 0, _ => []
  | n + 1, idx =>
    let r := Outbound.packFragments c msg.elements.length (msg.elements.drop (idx - 1)) idx 0
    r.1 :: if msg.elements.length < r.2 then [] else packetsFrom c msg n r.2

/-- The packets of a message. Where its elements fit there are no more of them than elements, or one. -/
def packets (c : Conf) (msg : Message) : List Payload := packetsFrom c msg maxScatterElements 1

/-- The packets that are still to be made of `out_message`. -/
def Outbound.unpacked (c : Conf) (o : Outbound) : List Payload :=
  match o.outMessage with
  | none => []
  | some msg => packetsFrom c msg maxScatterElements o.outFragIdx

/-! ## The sender -/

/-- What happens to the outbound data structures while the link is there: `Forward_Intru_Tol_Data` takes a message,
`Process_IT_Ack` releases packets, may send others and packs on, a packet is sent for the first time, a cell gets its
marks, and `Incarnation_Change` runs with `Reintroduce_Messages`. -/
inductive Action
  | forward (msg : Message) (io : Io)
  | acknowledge (released raised : Nat) (io : Io)
  | send
  | note (seq : Nat) (resent nacked : Bool)
  | incarnationChange (i : Inbound) (io : Io)

/-- The messages of an action. -/
def Action.messages : Action → List Message
  | .forward msg _ => [msg]
  | _ => []

def Action.isChange : Action → Bool
  | .incarnationChange _ _ => true
  | _ => false

/-- All messages that are forwarded. -/
def forwarded (acts : List Action) : List Message := acts.flatMap Action.messages

namespace Outbound

variable (c : Conf) (o : Outbound)

/-- `tcp_head_seq` goes up by some. -/
def raiseBy (n : Nat) : Outbound := { o with tcpHeadSeq := o.tcpHeadSeq + n }

def act : Action → Outbound
  | .forward msg io => if o.outMessage.isSome then o else (LinkEnd.accept o msg).packLoop c io maxSendOnLink
  | .acknowledge n k io =>
    if o.outTailSeq + n ≤ o.tcpHeadSeq ∧ k ≤ o.outHeadSeq - o.tcpHeadSeq then
      ((o.release n).raiseBy k).packLoop c io maxSendOnLink
    else o
  | .send => if o.tcpHeadSeq < o.outHeadSeq then o.raise else o
  | .note seq resent nacked => o.setCell seq { o.outgoing (slot seq) with resent := resent, nacked := nacked }
  | .incarnationChange i io => ((o.resetDigests i).reintroduce io).packLoop c io maxSendOnLink

/-- The packets that were acknowledged. -/
def acked : List Entry := o.placed.take (o.outTailSeq - 1)

end Outbound

/-- A message begins with a packet. -/
def begins (pkt : Payload) : Bool := decide ((pkt.head?.map Fragment.fragIdx) = some 1)

/-- The outbound data structures, and the messages whose packets were placed in this incarnation or are still to be. -/
structure Sender where
  out : Outbound
  messages : List Message

namespace Sender

def start : Sender := ⟨.created, []⟩

/-- With an incarnation change, the messages of which a packet was acknowledged are no longer among them. -/
def step (c : Conf) (s : Sender) (a : Action) : Sender where
  out := s.out.act c a
  messages :=
    match a with
    | .forward msg _ => if s.out.outMessage.isSome then s.messages else s.messages ++ [msg]
    | .incarnationChange _ _ => s.messages.drop ((s.out.acked.map Entry.pkt).countP begins)
    | _ => s.messages

def run (c : Conf) (acts : List Action) : Sender := acts.foldl (step c) start

end Sender

/-! ## What the receiver makes of it -/

/-- The packets of a log arrive, each with any bytes before it in memory. -/
def arrivals (front : Entry → List UInt8) (log : List Entry) : List Arrival :=
  log.map fun x => .packet (front x) (bytesOf x.pkt)

/-- The receiver at the end of a log. -/
def receive (front : Entry → List UInt8) (log : List Entry) : Receiver :=
  (arrivals front log).foldl Receiver.step .start

/-- The elements of the messages that were delivered. -/
def Receiver.messages (r : Receiver) : List (List (List UInt8)) := r.delivered.map (List.map Fragment.body)

/-- A packet is not refused, so that the neighbour is not blacklisted. -/
def Takes (r : Receiver) : Arrival → Prop
  | .packet front pkt => 0 ≤ (buildMessage front r.st pkt).ret
  | .incarnationChange => True

/-- What was placed, with what is still to be, is the packing of the messages. The receiver takes it, and delivers all
messages but the one that is not packed to its end, for which only a full window is the reason. -/
structure RoundTrip (c : Conf) (front : Entry → List UInt8) (s : Sender) : Prop where
  packing : s.out.placed.map Entry.pkt ++ s.out.unpacked c = s.messages.flatMap (packets c)
  taken : Lib.Steps Receiver.step Takes .start (arrivals front s.out.placed)
  delivered : (receive front s.out.placed).messages ++ s.out.outMessage.toList.map Message.elements =
    s.messages.map Message.elements
  full : s.out.outMessage.isSome → s.out.outHeadSeq - s.out.outTailSeq = maxSendOnLink

/-- An incarnation change leaves the messages that were not received, but for at most one, of which some packets were
acknowledged and some were not. -/
def Reintroduces (c : Conf) (front : Entry → List UInt8) (s s' : Sender) : Prop :=
  ∃ received lost, s.messages = received ++ lost ++ s'.messages ∧
    (receive front s.out.acked).messages = received.map Message.elements ∧ lost.length ≤ 1 ∧
    ∀ msg ∈ lost, ∃ k, 0 < k ∧ k < (packets c msg).length ∧
      s.out.acked.map Entry.pkt = received.flatMap (packets c) ++ (packets c msg).take k

end Spire.ItLink
