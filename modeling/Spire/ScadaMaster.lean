import Mathlib.Algebra.Ring.Int.Defs
import Mathlib.Algebra.Ring.Nat
import Mathlib.Data.Finset.Card
import Mathlib.Logic.Function.Basic

/-!
# The SCADA master

`scada_master.c`: the three scenarios behind a master, what each message from the reliable
channel does to them, and the message that carries the state to another replica.

The grid of the JHU scenario has switches and transformers, which clients set, and
substations and lines, whose status `process` finds by a search from the first substation.
`stat` is the array the HMI is sent. A `Topology` is what `init` reads from its file, which
is the same at all replicas.

State travels as bytes: for each substation a header and the status of the transformer and
of the switches, and after them a header and the fields of the PNNL scenario.
-/

namespace Spire.Scada

/-! ## Constants -/

/-- `NUM_RTU`. -/
def numRtu : Nat := 17

/-- `NUM_SM`. -/
def numSm : Nat := 6

/-- `NUM_BREAKER`. -/
def numBreaker : Nat := 14

/-- `EMS_NUM_GENERATORS`. -/
def emsNumGenerators : Nat := 6

/-- `PNNL_RTU_ID` and `EMS_RTU_ID_BASE`. -/
def pnnlRtuId : Nat := 10

def emsRtuIdBase : Nat := 11

/-- `RTU_DATA_PAYLOAD_LEN - PNNL_DATA_PADDING`. -/
def pnnlLen : Nat := 60

/-- `MAX_LEN`, and the size of a `signed_message` with a `state_xfer_msg`. -/
def maxLen : Nat := 10000

def stateXferSize : Nat := 156 + 856

namespace SubstationType

/-! `substation_type`. A command of the EMS scenario has a target in its place. -/

def switch : Int := 0
def transformer : Int := 1
def breaker : Int := 2
def breakerFlip : Int := 3
def breakerOn : Int := 4

end SubstationType

/-- `EMS_TARGET_SET`. -/
def emsTargetSet : Int := 0

/-! ## The grid -/

/-- `sub`, with its transformer, its switches and its lines by their place in the arrays. -/
structure Sub where
  id : Nat
  txId : Nat
  swList : List Nat
  outLines : List Nat
  inLines : List Nat

/-- `p_link`. -/
structure Link where
  id : Nat
  srcSw : Nat
  destSw : Nat
  srcSub : Nat
  destSub : Nat

/-- What `init` reads: the length of `stat`, the substations, of which each has one
transformer, the ids of the switches, and the lines. -/
structure Topology where
  statLen : Nat
  numSubs : Nat
  sub : Nat → Sub
  numSw : Nat
  swId : Nat → Nat
  numLinks : Nat
  link : Nat → Link

/-- The status of all devices, and `stat`. -/
structure Grid where
  tx : Nat → UInt8
  sw : Nat → UInt8
  sub : Nat → UInt8
  link : Nat → UInt8
  stat : Nat → UInt8

/-- Every status is 1, as after `init` and after a system reset. -/
def Grid.fresh : Grid :=
  { tx := fun _ => 1, sw := fun _ => 1, sub := fun _ => 1, link := fun _ => 1, stat := fun _ => 1 }

/-! ## Which substations have power -/

/-- What the search works on: the status of substations and lines, and the queue. -/
structure Search where
  sub : Nat → UInt8
  link : Nat → UInt8
  queue : List Nat

section Process

variable (t : Topology) (g : Grid)

/-- A line of the substation that is searched, with the substation at its other end. -/
def Search.visit (b : Search) (l far : Nat) : Search :=
  if g.sw (t.link l).srcSw = 1 ∧ g.sw (t.link l).destSw = 1 then
    if b.sub far = 0 then
      { link := Function.update b.link l 1, sub := Function.update b.sub far 1, queue := b.queue ++ [far] }
    else { b with link := Function.update b.link l 1 }
  else b

/-- One round of the search. -/
def Search.round (b : Search) : Search :=
  match b.queue with
  | [] => b
  | i :: queue =>
    if g.tx i = 0 then { b with queue := queue }
    else
      let b := (t.sub i).outLines.foldl (fun b l => b.visit t g l (t.link l).destSub) { b with queue := queue }
      (t.sub i).inLines.foldl (fun b l => b.visit t g l (t.link l).srcSub) b

/-- Only the first substation has power. -/
def Search.start : Search :=
  { sub := fun j => if j = 0 then 1 else 0, link := fun _ => 0, queue := [0] }

/-- The search, with a round for each substation: none is queued twice. -/
def search : Search := (Search.round t g)^[t.numSubs] Search.start

/-- A line is marked where the switch at its source has tripped. -/
def brokenLinks (link : Nat → UInt8) (l : Nat) : UInt8 :=
  if l < t.numLinks ∧ g.sw (t.link l).srcSw = 2 then 2 else link l

/-- The assignments to `stat`, in their order. -/
def statWrites (sub link : Nat → UInt8) : List (Nat × UInt8) :=
  (List.range t.numSw).map (fun i => (t.swId i, g.sw i)) ++
    (List.range t.numLinks).map (fun i => ((t.link i).id, link i)) ++
    (List.range t.numSubs).map (fun i => ((t.sub i).id, sub i)) ++
    (List.range t.numSubs).map fun i => ((t.sub i).txId, g.tx i)

/-- `process`. -/
def process : Grid :=
  let b := search t g
  let link := brokenLinks t g b.link
  { g with
    sub := b.sub
    link := link
    stat := (statWrites t g b.sub link).foldl (fun stat w => Function.update stat w.1 w.2) g.stat }

end Process

/-! ## State and messages -/

/-- `pnnl_fields`: the padding, and the bytes after it. -/
structure Pnnl where
  padd : Nat
  body : Nat → UInt8

/-- `breaker_write[i]` of a `pnnl_fields`, which follows eight points and the breakers read. -/
def Pnnl.breakerWrite (p : Pnnl) (i : Nat) : UInt8 := p.body (32 + numBreaker + i)

/-- `ems_fields`. -/
structure EmsFields where
  id : Nat
  status : Nat
  maxGeneration : Nat
  currGeneration : Nat
  targetGeneration : Nat
  padd : Nat → Nat

/-- The state of a master. `time` is the variable of the main loop that
`read_from_rtu` fills in. -/
structure State where
  grid : Grid
  pnnl : Pnnl
  ems : Nat → EmsFields
  time : Nat × Nat

/-- `seq_pair`. -/
structure SeqPair where
  incarnation : Nat
  seqNum : Nat
deriving DecidableEq, Repr

/-- `scen_type`. -/
inductive Scenario
  | jhu | pnnl | ems
  | unknown (code : Nat)
deriving DecidableEq, Repr

/-- The data of a RTU_DATA, by its `scen_type`. -/
inductive RtuFields
  | jhu (txStatus : Int) (swStatus : Nat → Int)
  | pnnl (pf : Pnnl)
  | ems (ems : EmsFields)

/-- `rtu_data_msg`, with a `scen_type` that `ITRC_Validate_Message` lets pass. -/
structure RtuData where
  seq : SeqPair
  rtuId : Nat
  sec : Nat
  usec : Nat
  data : RtuFields

/-- `hmi_command_msg`. -/
structure HmiCommand where
  seq : SeqPair
  hmiId : Nat
  scenType : Scenario
  type : Int
  ttipPos : Int

/-- `benchmark_msg`. -/
structure Benchmark where
  seq : SeqPair
  sender : Int
  pingSec : Nat
  pingUsec : Nat
  pongSec : Nat
  pongUsec : Nat

/-- `state_request_msg`. -/
structure StateRequest where
  target : Nat
  latestUpdate : List SeqPair

/-- `state_xfer_msg`; the state is as long as `state_size`. -/
structure StateXfer where
  target : Nat
  latestUpdate : List SeqPair
  numClients : Nat
  state : List UInt8

/-- The messages of the main loop. -/
inductive Msg
  | rtuData (payload : RtuData)
  | hmiCommand (payload : HmiCommand)
  | benchmark (ben : Benchmark)
  | stateRequest (sr : StateRequest)
  | stateXfer (st : StateXfer)
  | systemReset

/-- The array of a HMI_UPDATE. -/
inductive Update
  | bytes (l : List UInt8)
  | ems (f : EmsFields)

/-- What the master sends to the reliable channel. -/
inductive Reply
  | hmiUpdate (seq : SeqPair) (scen : Scenario) (sec usec : Nat) (array : Update)
  | rtuFeedback (seq : SeqPair) (scen : Scenario) (type : Int) (sub rtu : Nat) (offset val : Int)
  | benchmark (ben : Benchmark)
  | stateXfer (st : StateXfer)

/-- Failing assertions, and accesses outside `ems_data`. -/
inductive Fault
  | breakerPos | outside | badTarget | stateTooLarge | stateSize
deriving DecidableEq, Repr

/-! ## The code -/

section Code

variable (t : Topology)

/-- A status that a client may set. -/
def setStatus (valid : List Int) (a : Nat → UInt8) (i : Nat) (v : Int) : Nat → UInt8 :=
  if v ∈ valid then Function.update a i (UInt8.ofNat v.toNat) else a

/-- The part of `read_from_rtu` for the JHU scenario. -/
def readJhu (g : Grid) (rtuId : Nat) (txStatus : Int) (swStatus : Nat → Int) : Grid :=
  let sw := (t.sub rtuId).swList.zipIdx.foldl (fun sw p => setStatus [1, 0, 2] sw p.1 (swStatus p.2)) g.sw
  process t { g with sw := sw, tx := setStatus [1, 0] g.tx rtuId txStatus }

/-- `read_from_rtu`. The id is that of the generator, or none where it returns -1. -/
def readFromRtu (s : State) (payload : RtuData) : State × Option Nat :=
  if numRtu ≤ payload.rtuId ∨ payload.seq.seqNum = 0 then (s, none)
  else
    let s := { s with time := (payload.sec, payload.usec) }
    match payload.data with
    | .jhu txStatus swStatus =>
      if t.numSubs ≤ payload.rtuId then (s, some 0)
      else ({ s with grid := readJhu t s.grid payload.rtuId txStatus swStatus }, some 0)
    | .pnnl pf => ({ s with pnnl := pf }, some 0)
    | .ems f => ({ s with ems := Function.update s.ems f.id f }, some f.id)

/-- The main loop on RTU_DATA. -/
def onRtuData (s : State) (payload : RtuData) : Except Fault (State × Option Reply) :=
  let (s, id) := readFromRtu t s payload
  let update scen array := Reply.hmiUpdate payload.seq scen s.time.1 s.time.2 array
  match payload.data with
  | .jhu _ _ => .ok (s, some (update .jhu (.bytes ((List.range t.statLen).map s.grid.stat))))
  | .pnnl _ => .ok (s, some (update .pnnl (.bytes ((List.range pnnlLen).map s.pnnl.body))))
  | .ems _ =>
    match id with
    | some id => if id < emsNumGenerators then .ok (s, some (update .ems (.ems (s.ems id)))) else .error .outside
    | none => .error .outside

/-- The other status of a device. -/
def flip (status : UInt8) : Int := if status = 0 then 1 else 0

/-- `read_from_hmi` on a transformer. -/
def hmiTransformer (s : State) (payload : HmiCommand) : Option Reply :=
  ((List.range t.numSubs).find? fun i => payload.ttipPos = (t.sub i).txId).map fun i =>
    .rtuFeedback payload.seq .jhu SubstationType.transformer i i 0 (flip (s.grid.tx i))

/-- The switches in the order in which `read_from_hmi` looks for one: the substation, the
place in its list, and the place in the array. -/
def switches : List (Nat × Nat × Nat) :=
  (List.range t.numSubs).flatMap fun i => (t.sub i).swList.zipIdx.map fun p => (i, p.2, p.1)

/-- `read_from_hmi` on a switch. Nothing is changed, nor sent, where it has tripped. -/
def hmiSwitch (s : State) (payload : HmiCommand) : Option Reply :=
  match (switches t).find? fun w => payload.ttipPos = t.swId w.2.2 with
  | none => none
  | some (i, z, j) =>
    if s.grid.sw j = 2 then none
    else some (.rtuFeedback payload.seq .jhu SubstationType.switch i i z (flip (s.grid.sw j)))

/-- The value `read_from_hmi` writes to a breaker. -/
def breakerVal (p : Pnnl) (type : Int) (i : Nat) : Int :=
  if type = SubstationType.breakerFlip then flip (p.breakerWrite i)
  else if type = SubstationType.breakerOn then 1
  else 0

/-- `read_from_hmi`. -/
def readFromHmi (s : State) (payload : HmiCommand) : Except Fault (State × Option Reply) :=
  match payload.scenType with
  | .jhu =>
    if payload.type = SubstationType.transformer then .ok (s, hmiTransformer t s payload)
    else if payload.type = SubstationType.switch then .ok (s, hmiSwitch t s payload)
    else .ok (s, none)
  | .pnnl =>
    if 0 ≤ payload.ttipPos ∧ payload.ttipPos < numBreaker then
      .ok (s, some (.rtuFeedback payload.seq .pnnl SubstationType.breaker pnnlRtuId pnnlRtuId payload.ttipPos
        (breakerVal s.pnnl payload.type payload.ttipPos.toNat)))
    else .error .breakerPos
  | .ems =>
    if 0 ≤ payload.ttipPos ∧ payload.ttipPos < emsNumGenerators then
      let gen := payload.ttipPos.toNat
      let target := { s.ems gen with targetGeneration := (payload.type % 2 ^ 32).toNat }
      .ok ({ s with ems := Function.update s.ems gen target },
        some (.rtuFeedback payload.seq .ems emsTargetSet (emsRtuIdBase + gen) (emsRtuIdBase + gen) 0 payload.type))
    else .error .outside
  | .unknown _ => .ok (s, none)

/-! ## State transfer -/

/-- An integer of four bytes in memory, least significant byte first. -/
def int32Bytes (n : Nat) : List UInt8 :=
  [UInt8.ofNat n, UInt8.ofNat (n / 2 ^ 8), UInt8.ofNat (n / 2 ^ 16), UInt8.ofNat (n / 2 ^ 24)]

/-- The integer at the start of some bytes. -/
def readInt32 (l : List UInt8) : Nat :=
  (l.getD 0 0).toNat + 2 ^ 8 * (l.getD 1 0).toNat + 2 ^ 16 * (l.getD 2 0).toNat + 2 ^ 24 * (l.getD 3 0).toNat

/-- The slot of a substation. -/
def subSlot (g : Grid) (i : Nat) : List UInt8 :=
  int32Bytes i ++ int32Bytes (1 + (t.sub i).swList.length) ++ g.tx i :: (t.sub i).swList.map g.sw

/-- The slot of the PNNL scenario. -/
def pnnlSlot (p : Pnnl) : List UInt8 :=
  int32Bytes pnnlRtuId ++ int32Bytes 0 ++ (List.range pnnlLen).map p.body

/-- `package_and_send_state`. -/
def packageState (s : State) (sr : StateRequest) : Except Fault StateXfer :=
  if sr.target = 0 ∨ numSm < sr.target then .error .badTarget
  else
    let state := (List.range t.numSubs).flatMap (subSlot t s.grid) ++ pnnlSlot s.pnnl
    if maxLen < stateXferSize + state.length then .error .stateTooLarge
    else .ok { target := sr.target, latestUpdate := sr.latestUpdate, numClients := t.numSubs + 1, state := state }

/-- The fields of a slot go to the transformer and the switches of a substation. -/
def applyFields (g : Grid) (client numFields : Nat) (fields : List UInt8) : Grid :=
  { g with
    tx := Function.update g.tx client (fields.getD 0 0)
    sw := (List.range (numFields - 1)).foldl
      (fun sw j => Function.update sw ((t.sub client).swList.getD j 0) (fields.getD (j + 1) 0)) g.sw }

/-- The loop over the slots of substations in `apply_state`, with the bytes that are left. -/
def applySlots : Nat → List UInt8 → Grid → Grid × List UInt8
  | 0, bytes, g => (g, bytes)
  | n + 1, bytes, g =>
    let client := readInt32 bytes
    let numFields := readInt32 (bytes.drop 4)
    let fields := bytes.drop 8
    applySlots n (fields.drop numFields) (applyFields t g client numFields fields)

/-- `apply_state` at the replica `me`. -/
def applyState (me : Nat) (s : State) (st : StateXfer) : Except Fault State :=
  if st.target ≠ me then .ok s
  else if maxLen < stateXferSize + st.state.length then .ok s
  else
    let (grid, rest) := applySlots t (st.numClients - 1) st.state s.grid
    let body := rest.drop 8
    let pnnl := { s.pnnl with body := fun i => if i < pnnlLen then body.getD i 0 else s.pnnl.body i }
    if rest.length ≠ 8 + pnnlLen then .error .stateSize
    else .ok { s with grid := process t grid, pnnl := pnnl }

/-- The main loop on one message. -/
def handle (me : Nat) (s : State) : Msg → Except Fault (State × Option Reply)
  | .rtuData payload => onRtuData t s payload
  | .hmiCommand payload => readFromHmi t s payload
  | .benchmark ben => .ok (s, some (.benchmark { ben with pongSec := 0, pongUsec := 0 }))
  | .stateRequest sr => (packageState t s sr).map fun st => (s, some (.stateXfer st))
  | .stateXfer st => (applyState t me s st).map fun s => (s, none)
  | .systemReset => .ok ({ s with grid := Grid.fresh, pnnl := { padd := 0, body := fun _ => 0 } }, none)

/-- `ITRC_Validate_Message` on what the channel passes to the master. -/
def Msg.Admitted : Msg → Prop
  | .rtuData payload =>
    payload.rtuId < numRtu ∧ payload.seq.seqNum ≠ 0 ∧ ∀ f, payload.data = .ems f → f.id < emsNumGenerators
  | _ => True

/-- The state after `init`, with what memory there is for the generators. -/
def State.init : State :=
  { grid := Grid.fresh, pnnl := { padd := 0, body := fun _ => 0 }
    ems := fun _ => ⟨0, 0, 0, 0, 0, fun _ => 0⟩, time := (0, 0) }

end Code

/-! ## The search ends -/

section Search

variable {t : Topology} {g : Grid}

/-- The lines of the topology connect its substations. -/
structure Topology.Closed (t : Topology) : Prop where
  pos : 0 < t.numSubs
  out : ∀ i, ∀ l ∈ (t.sub i).outLines, (t.link l).destSub < t.numSubs
  into : ∀ i, ∀ l ∈ (t.sub i).inLines, (t.link l).srcSub < t.numSubs

/-- The substations that can still be queued, with those that are. -/
def Search.left (t : Topology) (b : Search) : Nat :=
  ((Finset.range t.numSubs).filter fun j => b.sub j = 0).card + b.queue.length

theorem Search.left_visit {b : Search} {l far : Nat} (h : far < t.numSubs) :
    (b.visit t g l far).left t = b.left t := by
  unfold Search.visit
  split_ifs with hclosed hdead
  · have herase : ((Finset.range t.numSubs).filter fun j => Function.update b.sub far 1 j = 0) =
        ((Finset.range t.numSubs).filter fun j => b.sub j = 0).erase far := by
      ext j
      by_cases hj : j = far <;> simp [hj]
    have hmem : far ∈ (Finset.range t.numSubs).filter fun j => b.sub j = 0 := by simp [h, hdead]
    have hpos := Finset.card_pos.mpr ⟨far, hmem⟩
    simp only [Search.left, herase, Finset.card_erase_of_mem hmem, List.length_append, List.length_singleton]
    omega
  · rfl
  · rfl

theorem Search.left_foldl {b : Search} {lines : List Nat} {far : Nat → Nat}
    (h : ∀ l ∈ lines, far l < t.numSubs) :
    (lines.foldl (fun b l => b.visit t g l (far l)) b).left t = b.left t := by
  induction lines generalizing b with
  | nil => rfl
  | cons l lines ih =>
    rw [List.foldl_cons, ih fun l' hl => h l' (List.mem_cons_of_mem l hl),
      Search.left_visit (h l List.mem_cons_self)]

/-- Every round takes a substation from the queue for good. -/
theorem Search.left_round (h : t.Closed) {b : Search} (hq : b.queue ≠ []) :
    (b.round t g).left t + 1 = b.left t := by
  unfold Search.round
  split
  · rename_i hnil
    exact absurd hnil hq
  · rename_i i queue hqueue
    have hpop : Search.left t { b with queue := queue } + 1 = b.left t := by
      simp only [Search.left, hqueue, List.length_cons]
      omega
    split_ifs
    · exact hpop
    · dsimp only
      rw [Search.left_foldl (h.into i), Search.left_foldl (h.out i)]
      exact hpop

/-- There are as many rounds as are needed: nothing is left in the queue. -/
theorem search_done (h : t.Closed) : (search t g).queue = [] := by
  have hrounds : ∀ k, ((Search.round t g)^[k] Search.start).queue = [] ∨
      ((Search.round t g)^[k] Search.start).left t + k = Search.start.left t := by
    intro k
    induction k with
    | zero => exact .inr rfl
    | succ k ih =>
      rw [Function.iterate_succ_apply']
      by_cases hq : ((Search.round t g)^[k] Search.start).queue = []
      · exact .inl (by simp [Search.round, hq])
      · have := Search.left_round (g := g) h hq
        exact .inr (by have := ih.resolve_left hq; omega)
  have hstart : Search.start.left t = t.numSubs := by
    have hdead : ((Finset.range t.numSubs).filter fun j => Search.start.sub j = 0) = (Finset.range t.numSubs).erase 0 := by
      ext j
      by_cases hj : j = 0 <;> simp [Search.start, hj]
    show ((Finset.range t.numSubs).filter fun j => Search.start.sub j = 0).card + 1 = t.numSubs
    rw [hdead, Finset.card_erase_of_mem (Finset.mem_range.mpr h.pos), Finset.card_range]
    have := h.pos
    omega
  rcases hrounds t.numSubs with hnil | hleft
  · exact hnil
  · rw [hstart] at hleft
    have hzero : (search t g).left t = 0 := by
      have : (search t g).left t + t.numSubs = t.numSubs := hleft
      omega
    exact List.length_eq_zero_iff.mp (Nat.eq_zero_of_add_eq_zero_left hzero)

end Search

end Spire.Scada
