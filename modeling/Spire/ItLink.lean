import Mathlib
import Spire.Lib.Runs

/-!
# The intrusion-tolerant link

`intrusion_tol_udp.c` of Spines. The fragments of a message are packed into packets, a packet gets the
next number and a random nonce and stays in a window of slots until the neighbour acknowledges it. The
neighbour keeps what comes early in a window of its own and passes packets on in the order of their
numbers. With its `aru` it sends the xor of the nonces of all packets up to there, to show that it has
received them.

Congestion control, the clock and the operating system are left to the run: what `cwnd` is when it is
read, which timers have expired, which packets can be sent and when a timeout fires. So are the random
numbers. The numbers of packets are 64-bit counters that go up by one for each packet, here naturals.
-/

namespace Spire.ItLink

open Function (update)

/-! ## Constants and configuration -/

/-- `MAX_SEND_ON_LINK`. -/
def maxSendOnLink : Nat := 500

/-- `LINK_START_SEQ`. -/
def linkStartSeq : Nat := 1

/-- `MAX_PACKET_SIZE`. -/
def maxPacketSize : Nat := 1472

/-- `MAX_PKTS_PER_MESSAGE`. -/
def maxPktsPerMessage : Nat := 45

/-- `MAX_MESSAGE_SIZE`. -/
def maxMessageSize : Nat := maxPacketSize * maxPktsPerMessage

/-- `MAX_SCATTER_ELEMENTS`. -/
def maxScatterElements : Nat := 100

/-- The sizes of `packet_header`, `fragment_header`, `intru_tol_pkt_tail` and `int64u`. -/
def packetHeaderSize : Nat := 20

def fragmentHeaderSize : Nat := 4

def pktTailSize : Nat := 48

def wordSize : Nat := 8

/-- The size of `packet_body`. -/
def packetBodySize : Nat := maxPacketSize - packetHeaderSize

/-- `Cipher_Blk_Len` and `HMAC_Key_Len`, which are zero where nothing is encrypted. -/
structure Conf where
  crypto : Bool

namespace Conf

variable (c : Conf)

def cipherBlkLen : Nat := if c.crypto then 16 else 0

def hmacKeyLen : Nat := if c.crypto then 32 else 0

/-- `Link_Header_Size(INTRUSION_TOL_LINK)`. -/
def linkHeaderSize : Nat := packetHeaderSize + pktTailSize + wordSize + 2 * c.cipherBlkLen + c.hmacKeyLen

end Conf

/-- The slot of a packet. -/
def slot (seq : Nat) : Nat := seq % maxSendOnLink

/-! ## Packets -/

/-- The bytes of a fragment and the `fragment_header` behind them. -/
structure Fragment where
  body : List UInt8
  fragIdx : Nat
  fragTotal : Nat
deriving DecidableEq, Repr

/-- The data of a packet. -/
abbrev Payload := List Fragment

abbrev Nonce := BitVec 64

/-- `data_len`. -/
def dataLen (pkt : Payload) : Nat := (pkt.map fun frag => frag.body.length + fragmentHeaderSize).sum

/-- A message of the upper layers, a `sys_scatter`: the length of its `packet_header`, and the
elements behind that. -/
structure Message where
  headerLen : Nat
  elements : List (List UInt8)
  elements_lt : elements.length < maxScatterElements

/-- `intru_tol_pkt_tail`, and the NACKs behind it. -/
structure PktTail where
  linkSeq : Nat
  seqNonce : Nonce
  aru : Nat
  aruNonce : Nonce
  incarnation : Nat
  aruIncarnation : Nat
  nacks : List Nat
deriving DecidableEq, Repr

structure Packet where
  payload : Payload
  tail : PktTail
deriving DecidableEq, Repr

/-! ## The ends -/

/-- An entry of the log of what was put into a window, or was taken out of it. -/
structure Entry where
  seq : Nat
  pkt : Payload
  nonce : Nonce
deriving DecidableEq, Repr

/-- `IT_Buffer_Cell`, without a packet once that was released. -/
structure BufferCell where
  pkt : Option Payload
  resent : Bool
  nacked : Bool

/-- `IT_Recv_Cell`. Only a cell with `RECVD_CELL` has a packet. -/
inductive RecvCell
  | empty
  | nack
  | recvd (pkt : Payload)
deriving DecidableEq, Repr

/-- The outbound data structures, and what was placed in the window. -/
structure Outbound where
  outgoing : Nat → BufferCell
  outNonce : Nat → Nonce
  outNonceDigest : Nat → Nonce
  outHeadSeq : Nat
  outTailSeq : Nat
  tcpHeadSeq : Nat
  outMessage : Option Message
  outFragIdx : Nat
  outFragTotal : Nat
  placed : List Entry

/-- The inbound data structures, and what was passed to `Build_Message_From_Fragments_IT`. -/
structure Inbound where
  incoming : Nat → RecvCell
  inNonce : Nat → Nonce
  aruNonceDigest : Nonce
  inHeadSeq : Nat
  inTailSeq : Nat
  passed : List Entry

/-- `Int_Tol_Data` of an end of the link, and what it sent. -/
structure LinkEnd where
  out : Outbound
  inb : Inbound
  myIncarnation : Nat
  ngbrIncarnation : Nat
  sent : List Packet

/-- What an end finds while it works: whether the link is there and can be used, which packets
`IT_Link_Send` succeeds with, for which missing packets `nack_expire` is over, and what `rand` gives
for the packets that get a nonce. -/
structure Io where
  up : Bool
  sends : Nat → Bool
  expired : Nat → Bool
  rand : Nat → Nonce

/-- A call of `Forward_Intru_Tol_Data`. -/
structure Request where
  msg : Message
  cwnd : Nat
  io : Io

/-! ## Packing -/

namespace Outbound

variable (c : Conf) (io : Io) (o : Outbound)

/-- The inner loop of `Pack_Fragments_Into_Packets_IT`, over the fragments from `out_frag_idx` on. -/
def packFragments (total : Nat) : List (List UInt8) → Nat → Nat → Payload × Nat
  | [], idx, _ => ([], idx)
  | body :: rest, idx, len =>
    if len + body.length + c.linkHeaderSize + fragmentHeaderSize ≤ maxPacketSize then
      let r := packFragments total rest (idx + 1) (len + body.length + fragmentHeaderSize)
      (⟨body, idx, total⟩ :: r.1, r.2)
    else ([], idx)

/-- The nonce of a packet, from two calls of `rand`. -/
def nonce (seq : Nat) : Nonce := io.rand (2 * seq) <<< 32 ||| io.rand (2 * seq + 1)

/-- A packet takes the next slot of the window. -/
def place (pkt : Payload) (n : Nonce) : Outbound :=
  let index := slot o.outHeadSeq
  { o with
    outgoing := update o.outgoing index ⟨some pkt, false, false⟩
    outNonce := update o.outNonce index n
    outNonceDigest := update o.outNonceDigest index (n ^^^ o.outNonceDigest (slot (o.outHeadSeq - 1)))
    outHeadSeq := o.outHeadSeq + 1
    placed := o.placed ++ [⟨o.outHeadSeq, pkt, n⟩] }

/-- A round of the outer loop. -/
def packRound (msg : Message) : Outbound :=
  let r := packFragments c o.outFragTotal (msg.elements.drop (o.outFragIdx - 1)) o.outFragIdx 0
  { o.place r.1 (nonce io o.outHeadSeq) with
    outFragIdx := r.2
    outMessage := if o.outFragTotal < r.2 then none else some msg }

/-- The outer loop. A round takes a slot of the window, so that there are no more of them than that
has. -/
def packLoop : Nat → Outbound → Outbound
  | 0, o => o
  | n + 1, o =>
    match o.outMessage with
    | none => o
    | some msg => if o.outHeadSeq - o.outTailSeq < maxSendOnLink then packLoop n (o.packRound c io msg) else o

/-- `Pack_Fragments_Into_Packets_IT`, with no result where that is `BUFF_DROP`. -/
def packFragmentsIntoPackets : Option Outbound :=
  if io.up then some (o.packLoop c io maxSendOnLink) else none

/-- The message is given up. -/
def dropMessage : Outbound := { o with outMessage := none, outFragIdx := 0, outFragTotal := 0 }

/-- `Cleanup_Scatter` of the first packet of the window. -/
def releaseTail : Outbound :=
  let index := slot o.outTailSeq
  { o with
    outgoing := update o.outgoing index { o.outgoing index with pkt := none }
    outTailSeq := o.outTailSeq + 1 }

/-- The loop over the packets that are acknowledged, and `out_tail_seq` goes behind them. -/
def release : Nat → Outbound → Outbound
  | 0, o => o
  | n + 1, o => release n o.releaseTail

/-- `tcp_head_seq` goes up. -/
def raise : Outbound := { o with tcpHeadSeq := o.tcpHeadSeq + 1 }

def setCell (seq : Nat) (cell : BufferCell) : Outbound := { o with outgoing := update o.outgoing (slot seq) cell }

/-- What a NACK marks. -/
def mark (seq : Nat) : Outbound :=
  if o.outTailSeq ≤ seq ∧ seq < o.tcpHeadSeq then o.setCell seq { o.outgoing (slot seq) with nacked := true } else o

end Outbound

/-! ## Receiving into the window -/

namespace Inbound

variable (i : Inbound)

/-- The numbers from the tail to the head. -/
def seqs : List Nat := List.range' i.inTailSeq (i.inHeadSeq - i.inTailSeq)

/-- The numbers `Add_IT_Nacks` finds room for. -/
def addItNacks (c : Conf) (expired : Nat → Bool) (buffLen : Nat) : List Nat :=
  let avail := packetBodySize - buffLen - 2 * c.cipherBlkLen - c.hmacKeyLen
  (i.seqs.filter fun seq => decide (i.incoming (slot seq) = .nack) && expired seq).take
    ((avail - pktTailSize) / wordSize)

/-- The gap up to a packet that came early is marked, and `in_head_seq` goes behind it. -/
def fillGap (seq : Nat) : Inbound :=
  if i.inHeadSeq ≤ seq then
    { i with
      incoming := (List.range' i.inHeadSeq (seq - i.inHeadSeq)).foldl (fun f k => update f (slot k) .nack) i.incoming
      inHeadSeq := seq + 1 }
  else i

/-- A packet is put into its slot. -/
def put (seq : Nat) (n : Nonce) (pkt : Payload) : Inbound :=
  { i with
    incoming := update i.incoming (slot seq) (.recvd pkt)
    inNonce := update i.inNonce (slot seq) n }

/-- The same, unless the packet is old, too far ahead, or there already. -/
def store (seq : Nat) (n : Nonce) (pkt : Payload) : Option Inbound :=
  if seq < i.inTailSeq then none
  else if i.inTailSeq + maxSendOnLink ≤ seq then none
  else
    match i.incoming (slot seq) with
    | .recvd _ => none
    | _ => some ((i.put seq n pkt).fillGap seq)

/-- The packet at the tail is passed on. -/
def pass (pkt : Payload) : Inbound :=
  let index := slot i.inTailSeq
  { i with
    aruNonceDigest := i.aruNonceDigest ^^^ i.inNonce index
    inTailSeq := i.inTailSeq + 1
    inNonce := update i.inNonce index 0
    passed := i.passed ++ [⟨i.inTailSeq, pkt, i.inNonce index⟩] }

/-- The cell of a packet that was passed on is free again. -/
def clear (index : Nat) : Inbound := { i with incoming := update i.incoming index .empty }

end Inbound

/-! ## Sending -/

namespace LinkEnd

variable (c : Conf) (io : Io) (e : LinkEnd)

/-- The tail of a packet with the NACKs there is room for. -/
def tail (seq : Nat) (n : Nonce) (buffLen : Nat) : PktTail :=
  { linkSeq := seq
    seqNonce := n
    aru := e.inb.inTailSeq - 1
    aruNonce := e.inb.aruNonceDigest
    incarnation := e.myIncarnation
    aruIncarnation := e.ngbrIncarnation
    nacks := e.inb.addItNacks c io.expired buffLen }

/-- `Send_IT_Data_Msg`, and whether it returned `BUFF_DROP`. -/
def sendItDataMsg (seq : Nat) : LinkEnd × Bool :=
  match (e.out.outgoing (slot seq)).pkt with
  | none => (e, true)
  | some pkt =>
    if io.up && io.sends seq then
      ({ e with sent := ⟨pkt, e.tail c io seq (e.out.outNonce (slot seq)) (dataLen pkt)⟩ :: e.sent }, false)
    else (e, true)

/-- `Send_IT_Ack`. -/
def sendItAck : LinkEnd :=
  if io.up && io.sends 0 then { e with sent := ⟨[], e.tail c io 0 0 0⟩ :: e.sent } else e

/-- `tcp_head_seq` goes up, and the packets it passes are sent. `stops` says that a packet that cannot
be sent ends the loop. -/
def sendNew (stops : Bool) : Nat → LinkEnd → LinkEnd
  | 0, e => e
  | n + 1, e =>
    let r := sendItDataMsg c io { e with out := e.out.raise } e.out.tcpHeadSeq
    if stops && r.2 then r.1 else sendNew stops n r.1

/-- The packets that `cwnd` allows to send and that were not sent yet. -/
def allowed (o : Outbound) (cwnd : Nat) : Nat := min o.outHeadSeq (o.outTailSeq + cwnd) - o.tcpHeadSeq

/-- The `int16u` that the lengths of the elements are added up in. -/
def msgSize (msg : Message) : Nat := (msg.elements.map List.length).sum % 2 ^ 16

/-- What `Forward_Intru_Tol_Data` drops. A full window is not among it. -/
def Drops (r : Request) : Prop :=
  r.io.up = false ∨ e.out.outMessage.isSome ∨
    maxMessageSize < msgSize r.msg + maxPktsPerMessage * (c.linkHeaderSize + fragmentHeaderSize) ∨
    r.msg.headerLen ≠ packetHeaderSize

instance (r : Request) : Decidable (e.Drops c r) := by
  unfold Drops
  infer_instance

/-- The message of a request, from its first fragment on. -/
def accept (o : Outbound) (msg : Message) : Outbound :=
  { o with outMessage := some msg, outFragIdx := 1, outFragTotal := msg.elements.length }

/-- `Forward_Intru_Tol_Data`. -/
def forwardIntruTolData (r : Request) : LinkEnd :=
  if e.Drops c r then e
  else
    match (accept e.out r.msg).packFragmentsIntoPackets c r.io with
    | none => { e with out := { accept e.out r.msg with outMessage := none } }
    | some o => sendNew c r.io true (allowed o r.cwnd) { e with out := o }

/-- The upper layers forward messages, when they get resources or a message is delivered. -/
def forwardAll (rs : List Request) : LinkEnd := rs.foldl (forwardIntruTolData c) e

/-! ## `Process_IT_Ack` -/

/-- What comes from outside while `Process_IT_Ack` runs: `cwnd`, what `Assign_Resources_IT` makes the
upper layers forward and what they forward when a packet completes a message, whether the
retransmissions are queued already, how many of them may be sent and which are due. -/
structure Turn where
  io : Io
  cwnd : Nat
  assigned : List Request
  delivered : Nat → List Request
  queued : Bool
  batch : Nat
  due : Nat → Bool

variable (t : Turn)

/-- The first part, without a result where the digests differ. -/
def checkAru (k : PktTail) : Option LinkEnd :=
  if e.out.outTailSeq ≤ k.aru ∧ k.aru < e.out.tcpHeadSeq then
    if k.aruNonce ≠ e.out.outNonceDigest (slot k.aru) then none
    else
      let o := e.out.release (k.aru + 1 - e.out.outTailSeq)
      let e := sendNew c t.io false (allowed o t.cwnd) { e with out := o }
      let e := { e with out := (e.out.packFragmentsIntoPackets c t.io).getD e.out.dropMessage }
      some (e.forwardAll c t.assigned)
  else some e

/-- The loop of `Handle_IT_Retransm`. -/
def resend (due : Nat → Bool) : Nat → Nat → Nat → LinkEnd → LinkEnd
  | 0, _, _, e => e
  | n + 1, seq, batch, e =>
    let cell := e.out.outgoing (slot seq)
    if batch = 0 then e
    else if cell.nacked && due seq then
      let o := e.out.setCell seq { cell with resent := true, nacked := false }
      resend due n (seq + 1) (batch - 1) (sendItDataMsg c io { e with out := o } seq).1
    else resend due n (seq + 1) batch e

/-- `Handle_IT_Retransm`. -/
def handleItRetransm (due : Nat → Bool) (batch : Nat) : LinkEnd :=
  resend c io due (e.out.tcpHeadSeq - e.out.outTailSeq) e.out.outTailSeq batch e

/-- The second part, without a result where there are more NACKs than fit into a packet. -/
def checkNacks (k : PktTail) : Option LinkEnd :=
  if k.nacks = [] then some e
  else if packetBodySize < k.nacks.length * wordSize then none
  else
    let e := { e with out := k.nacks.foldl Outbound.mark e.out }
    some (if t.queued then e else e.handleItRetransm c t.io t.due t.batch)

/-- A round of the loop that moves the ARU. -/
def passOn (pkt : Payload) : LinkEnd :=
  let seq := e.inb.inTailSeq
  let e := ({ e with inb := e.inb.pass pkt } : LinkEnd).forwardAll c (t.delivered seq)
  { e with inb := e.inb.clear (slot seq) }

/-- The loop. A round frees a cell, so that there are no more of them than the window has. -/
def moveAru : Nat → LinkEnd → LinkEnd
  | 0, e => e
  | n + 1, e =>
    match e.inb.incoming (slot e.inb.inTailSeq) with
    | .recvd pkt => moveAru n (e.passOn c t pkt)
    | _ => e

/-- The third part. -/
def checkLinkSeq (p : Packet) : LinkEnd :=
  if p.tail.linkSeq = 0 then e
  else
    match e.inb.store p.tail.linkSeq p.tail.seqNonce p.payload with
    | none => e
    | some i => moveAru c t maxSendOnLink { e with inb := i }

/-- `Process_IT_Ack`. -/
def processItAck (p : Packet) : LinkEnd :=
  match e.checkAru c t p.tail with
  | none => e
  | some e =>
    match e.checkNacks c t p.tail with
    | none => e
    | some e => e.checkLinkSeq c t p

/-- `Process_intru_tol_data_packet` and `Process_intru_tol_ack_packet`. -/
def processIntruTolPacket (p : Packet) : LinkEnd :=
  if p.tail.incarnation ≠ e.ngbrIncarnation ∨ p.tail.aruIncarnation ≠ e.myIncarnation then e
  else e.processItAck c t p

/-- `Reliable_IT_Timeout`. -/
def reliableItTimeout : LinkEnd :=
  if e.out.outTailSeq < e.out.tcpHeadSeq then
    let seq := e.out.tcpHeadSeq - 1
    let o := e.out.setCell seq { e.out.outgoing (slot seq) with resent := true }
    (sendItDataMsg c io { e with out := o } seq).1
  else e

end LinkEnd

/-! ## The start of an incarnation -/

/-- What `Create_Link` sets. -/
def Outbound.created : Outbound :=
  { outgoing := fun _ => ⟨none, false, false⟩
    outNonce := fun _ => 0
    outNonceDigest := fun _ => 0
    outHeadSeq := linkStartSeq
    outTailSeq := linkStartSeq
    tcpHeadSeq := linkStartSeq
    outMessage := none
    outFragIdx := 0
    outFragTotal := 0
    placed := [] }

def Inbound.created : Inbound :=
  { incoming := fun _ => .empty
    inNonce := fun _ => 0
    aruNonceDigest := 0
    inHeadSeq := linkStartSeq
    inTailSeq := linkStartSeq
    passed := [] }

def createLink (now : Nat) : LinkEnd :=
  { out := .created, inb := .created, myIncarnation := now, ngbrIncarnation := 0, sent := [] }

/-- The inbound data structures are reset. -/
def Inbound.reset (i : Inbound) : Inbound :=
  { incoming := i.seqs.foldl (fun f k => update f (slot k) .empty) i.incoming
    inNonce := i.seqs.foldl (fun f k => update f (slot k) 0) i.inNonce
    aruNonceDigest := 0
    inHeadSeq := linkStartSeq
    inTailSeq := linkStartSeq
    passed := [] }

namespace Outbound

variable (io : Io) (o : Outbound)

/-- The same loop resets digests, and the first slot gets zero in any case. -/
def resetDigests (i : Inbound) : Outbound :=
  { o with outNonceDigest := update (i.seqs.foldl (fun f k => update f (slot k) 0) o.outNonceDigest) 0 0 }

/-- An empty window. -/
def restart : Outbound :=
  { o with outHeadSeq := linkStartSeq, outTailSeq := linkStartSeq, tcpHeadSeq := linkStartSeq, placed := [] }

/-- The packets of the window, from the first on that a message begins with. -/
def kept : List Payload :=
  ((List.range' o.outTailSeq (o.outHeadSeq - o.outTailSeq)).filterMap fun seq => (o.outgoing (slot seq)).pkt).dropWhile
    fun pkt => decide ((pkt.head?.map Fragment.fragIdx) ≠ some 1)

/-- With `Reintroduce_Messages` they are placed again, and at most one counts as sent. -/
def reintroduce : Outbound :=
  let o := o.kept.foldl (fun o pkt => o.place pkt (nonce io o.outHeadSeq)) o.restart
  { o with tcpHeadSeq := min (linkStartSeq + 1) o.outHeadSeq }

/-- Without it they are given up, with the message. -/
def discard : Outbound := (o.release (o.outHeadSeq - o.outTailSeq)).dropMessage.restart

end Outbound

/-- `Incarnation_Change`, up to the calls of `Reliable_Flood_Neighbor_Transfer` and
`Assign_Resources_IT`. The log of what was sent begins anew, as packets with the old incarnations are
not accepted. -/
def LinkEnd.incarnationChange (c : Conf) (reintroduceMessages : Bool) (io : Io) (newNgbrInc : Nat) (e : LinkEnd) :
    LinkEnd :=
  if io.up then
    let o := e.out.resetDigests e.inb
    { e with
      out :=
        if reintroduceMessages then
          ((o.reintroduce io).packFragmentsIntoPackets c io).getD (o.reintroduce io).dropMessage
        else o.discard
      inb := e.inb.reset
      ngbrIncarnation := newNgbrInc
      sent := [] }
  else e

/-! ## The link -/

/-- What happens at an end. -/
inductive Event
  | forward (r : Request)
  | receive (p : Packet) (t : LinkEnd.Turn)
  | ackTimeout (io : Io)
  | reliableTimeout (io : Io)
  | retransm (io : Io) (due : Nat → Bool) (batch : Nat)

/-- The two ends. -/
abbrev Ends := Bool → LinkEnd

/-- An end handles an event. It receives only what the other end sent, at any time, in any order and
any number of times. -/
def handle (c : Conf) (peer e : LinkEnd) : Event → LinkEnd
  | .forward r => e.forwardIntruTolData c r
  | .receive p t => if p ∈ peer.sent then e.processIntruTolPacket c t p else e
  | .ackTimeout io => e.sendItAck c io
  | .reliableTimeout io => e.reliableItTimeout c io
  | .retransm io due batch => e.handleItRetransm c io due batch

def step (c : Conf) (s : Ends) (x : Bool × Event) : Ends := update s x.1 (handle c (s !x.1) (s x.1) x.2)

end Spire.ItLink
