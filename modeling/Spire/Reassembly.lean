import Spire.ItLink

/-!
# Putting messages together again

`Build_Message_From_Fragments_IT` of `intrusion_tol_udp.c`, and what `Process_IT_Ack` and
`Incarnation_Change` do with the working message around it. A packet is the bytes of its
fragments, each followed by its `fragment_header`. The function walks over them from the
back to the front to find the headers, and then appends the fragments to the working message.

The number, total and length in a header are the sender's, who may be compromised. So the
packet is a list of any bytes here, and `front` are the bytes that lie before it in memory,
nearest first: the walk reads a whole header wherever something is left, also where
less than a header is left. `Built.inside` says that it did not.
-/

namespace Spire.ItLink

open Function (update)

/-! ## Bytes -/

/-- A fragment as it stands in a packet. The `int16u` of the header is little-endian. -/
def Fragment.bytes (frag : Fragment) : List UInt8 :=
  frag.body ++ [UInt8.ofNat (frag.body.length % 256), UInt8.ofNat (frag.body.length / 256), UInt8.ofNat frag.fragIdx,
    UInt8.ofNat frag.fragTotal]

/-- The bytes of a payload. -/
def bytesOf (pkt : Payload) : List UInt8 := pkt.flatMap Fragment.bytes

/-- `fragment_header`. -/
structure FragmentHeader where
  fragLength : Nat
  fragIdx : Nat
  fragTotal : Nat
deriving DecidableEq, Repr

/-- The header in the last four bytes, given last byte first. -/
def fragmentHeader (rest : List UInt8) : FragmentHeader :=
  { fragLength := (rest.getD 3 0).toNat + 256 * (rest.getD 2 0).toNat
    fragIdx := (rest.getD 1 0).toNat
    fragTotal := (rest.getD 0 0).toNat }

/-! ## The code -/

/-- The working message: `scat`, without elements or with a header and these fragments behind it, and
`in_frag_idx` and `in_frag_total`. `released` says that references to the elements were given up. -/
structure Reassembly where
  scat : Option (List Fragment)
  released : Bool
  idx : Nat
  total : Nat
deriving DecidableEq, Repr

/-- A new working message. -/
def Reassembly.empty : Reassembly := ⟨none, false, 1, 0⟩

/-- The variables of the backward loop, with what the pointers of `frag_addr` point to. -/
structure Walk where
  total : Nat
  arrayIdx : Nat
  maxArrayIdx : Nat
  fragAddr : Nat → Fragment
  inside : Bool

def Walk.start (total : Nat) : Walk := ⟨total, 0, 0, fun _ => ⟨[], 0, 0⟩, true⟩

namespace Walk

/-- The first fragment of a packet says where the numbers end. -/
def enter (w : Walk) (fragIdx : Nat) : Walk :=
  if w.arrayIdx = 0 then { w with arrayIdx := fragIdx, maxArrayIdx := fragIdx } else w

/-- The header is noted in `frag_addr`. -/
def note (w : Walk) (frag : Fragment) : Walk :=
  { w with fragAddr := update w.fragAddr frag.fragIdx frag, arrayIdx := w.arrayIdx - 1 }

end Walk

/-- The fragment a header stands for. The bytes are given last byte first. -/
def fragmentAt (fh : FragmentHeader) (rest : List UInt8) : Fragment :=
  { body := ((rest.drop fragmentHeaderSize).take fh.fragLength).reverse
    fragIdx := fh.fragIdx
    fragTotal := fh.fragTotal }

/-- The second half of a round of the backward loop, from the numbers being consecutive. -/
def walkFragment (rest : List UInt8) (fh : FragmentHeader) (w : Walk) : Int × Walk :=
  let w := w.enter fh.fragIdx
  if fh.fragIdx ≠ w.arrayIdx then (-4, w)
  else (if rest.length < fragmentHeaderSize + fh.fragLength then -5 else 0, w.note (fragmentAt fh rest))

/-- A round of the backward loop. The bytes that are not processed are given last byte first. -/
def walkRound (front rest : List UInt8) (w : Walk) : Int × Walk :=
  let fh := fragmentHeader (rest ++ front)
  let w := { w with inside := w.inside && decide (fragmentHeaderSize ≤ rest.length) }
  if fh.fragTotal = 0 ∨ maxScatterElements - 1 < fh.fragTotal then (-1, w)
  else if w.total ≠ 0 ∧ w.total ≠ fh.fragTotal then (-2, w)
  else
    let w := { w with total := fh.fragTotal }
    if fh.fragIdx = 0 ∨ w.total < fh.fragIdx then (-3, w) else walkFragment rest fh w

/-- The backward loop. A round processes four bytes at least, so that there are no more of them than bytes. -/
def walk (front : List UInt8) : Nat → List UInt8 → Walk → Int × Walk
  | 0, _, w => (0, w)
  | n + 1, rest, w =>
    if rest = [] then (0, w)
    else
      let r := walkRound front rest w
      if r.1 < 0 then r
      else walk front n (rest.drop (fragmentHeaderSize + (fragmentHeader (rest ++ front)).fragLength)) r.2

/-- The forward loop over `array_idx`. -/
def appendFragments (fragAddr : Nat → Fragment) : List Nat → Reassembly → Int × Reassembly
  | [], st => (0, st)
  | i :: is, st =>
    if i ≠ st.idx ∨ (fragAddr i).fragIdx ≠ st.idx then (-6, { st with released := true })
    else appendFragments fragAddr is { st with scat := some (st.scat.getD [] ++ [fragAddr i]), idx := st.idx + 1 }

/-- What a call returns and leaves, and whether it read only the packet. -/
structure Built where
  ret : Int
  st : Reassembly
  inside : Bool

/-- `Build_Message_From_Fragments_IT`. -/
def buildMessage (front : List UInt8) (st : Reassembly) (pkt : List UInt8) : Built :=
  let r := walk front pkt.length pkt.reverse (.start st.total)
  let st := { st with total := r.2.total }
  if r.1 < 0 then ⟨r.1, st, r.2.inside⟩
  else
    let a := appendFragments r.2.fragAddr (List.range' (r.2.arrayIdx + 1) (r.2.maxArrayIdx - r.2.arrayIdx))
      { st with scat := some (st.scat.getD []) }
    ⟨if a.1 < 0 then a.1 else if a.2.idx = a.2.total + 1 then 1 else 0, a.2, r.2.inside⟩

/-- What arrives at the working message of a link. A packet has the bytes that lie before it in memory. -/
inductive Arrival
  | packet (front pkt : List UInt8)
  | incarnationChange

/-- The working message of a link, the packets it was put together from, and the messages that were delivered. -/
structure Receiver where
  st : Reassembly
  contributed : List (List UInt8)
  delivered : List (List Fragment)

def Receiver.start : Receiver := ⟨.empty, [], []⟩

/-- A packet that is passed on, as `Process_IT_Ack` has it, and the reset in `Incarnation_Change`. A neighbour that sent
something wrong is only reported by `Blacklist_Neighbor_IT`. -/
def Receiver.step (s : Receiver) : Arrival → Receiver
  | .packet front pkt =>
    let b := buildMessage front s.st pkt
    if b.ret = 1 then { st := .empty, contributed := [], delivered := s.delivered ++ [b.st.scat.getD []] }
    else { s with st := b.st, contributed := if b.ret < 0 then s.contributed else s.contributed ++ [pkt] }
  | .incarnationChange =>
    if s.st.idx ≠ 1 ∨ 0 < s.st.total then { s with st := .empty, contributed := [] } else s

end Spire.ItLink
