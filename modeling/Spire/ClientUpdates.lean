import Mathlib.Logic.Function.Basic
import Spire.Accepted
import Spire.Lib.Runs

/-!
# Duplicates among the updates of clients

`PRE_ORDER_Process_Update`: an update is introduced when its number is above that of the last
one introduced, which `intro_client_seq` keeps for each client, and dropped otherwise. The
header of an update names the client that signed it, and the validators look at the header.
The table is indexed by the `server_id` of the body, which they do not look at.

Where both are the same client the code is one counter for each client (`outcomes_of_proper`),
so that clients have no part in each other's updates.
-/

namespace Spire.ClientUpdates

open Lib Lib.Reader Wire Merkle Validate PreOrder

/-! ## Updates -/

/-- The fields of an UPDATE that are validated or processed. -/
structure ClientUpdate where
  machineId : Nat
  incarnation : Nat
  monotonicCounter : Nat
  serverId : Nat
  seqNum : Nat
  /-- The type of the signed message in the contents. -/
  payloadType : Nat
deriving DecidableEq, Repr

namespace ClientUpdate

/-- The update at an address. -/
def read (m : Memory) (mess : Nat) : ClientUpdate :=
  { machineId := SignedMessage.machineId.get m mess
    incarnation := SignedMessage.incarnation.get m mess
    monotonicCounter := SignedMessage.monotonicCounter.get m mess
    serverId := Update.serverId.get m (SignedMessage.content mess)
    seqNum := Update.seqNum.get m (SignedMessage.content mess)
    payloadType := SignedMessage.type.get m (SignedMessage.content mess + Update.size) }

/-- `VAL_Signature_Type` of an UPDATE. -/
def signatureType (c : Config) (u : ClientUpdate) : SigType :=
  if 1 ≤ u.machineId ∧ u.machineId ≤ c.numServers then
    if 0 < u.monotonicCounter then (if u.seqNum = 1 then .tpmServer else .invalid) else .server
  else .client

/-- What `VAL_State_Permits_Message` and `VAL_Validate_Message` check of the fields. That the
signature verifies is what makes `machineId` the signer; `VAL_Validate_Update` only looks at
the size. -/
structure Valid (R : Receiver) (u : ClientUpdate) : Prop where
  permitted : statePermitsMessage R.status .update = true
  signature : u.signatureType R.config ≠ .invalid
  sender : validateSender R (u.signatureType R.config) u.machineId = true
  incarnation : (u.machineId = R.me ∧ u.payloadType = clientStateTransfer) ∨
    (u.signatureType R.config = .server → u.incarnation = R.installedIncarnations u.machineId)

/-- `VAL_Signature_Type` computes the type from these fields. -/
theorem yields_signatureType {R : Receiver} {m : Memory} {mess : Nat}
    (htype : SignedMessage.type.get m mess = PacketType.update.code) {t : SigType} :
    Yields (Validate.signatureType R mess) m t ↔ (read m mess).signatureType R.config = t := by
  have hcode : PacketType.ofCode (SignedMessage.type.get m mess) = some .update := by
    rw [htype, PacketType.ofCode_code]
  simp only [Validate.signatureType, yields_bind, Field.yields_read, exists_eq_left, hcode]
  unfold ClientUpdate.signatureType ClientUpdate.read
  dsimp only
  by_cases hserver : 1 ≤ SignedMessage.machineId.get m mess ∧ SignedMessage.machineId.get m mess ≤ R.config.numServers
  · rw [if_pos hserver, if_pos hserver]
    simp only [yields_bind, Field.yields_read, exists_eq_left]
    by_cases hcounter : 0 < SignedMessage.monotonicCounter.get m mess
    · rw [if_pos hcounter, if_pos hcounter]
      simp only [yields_bind, Field.yields_read, exists_eq_left, yields_pure]
      exact eq_comm
    · rw [if_neg hcounter, if_neg hcounter]
      exact yields_pure.trans eq_comm
  · rw [if_neg hserver, if_neg hserver]
    exact yields_pure.trans eq_comm

/-- What `VAL_Validate_Incarnation` lets pass, of an update that has this signature. -/
theorem yields_validateIncarnation {R : Receiver} {m : Memory} {mess : Nat}
    (htype : SignedMessage.type.get m mess = PacketType.update.code) {t : SigType} :
    Yields (validateIncarnation R t mess) m () ↔
      ((read m mess).machineId = R.me ∧ (read m mess).payloadType = clientStateTransfer) ∨
        (t = .merkle ∨ t = .server → (read m mess).incarnation = R.installedIncarnations (read m mess).machineId) := by
  have hne : PacketType.update.code ≠ PacketType.pendingShare.code := by decide
  have htransfer : ∀ transfer, Yields (if SignedMessage.machineId.get m mess = R.me then do
        let payload ← SignedMessage.type.read (SignedMessage.content mess + Update.size)
        pure (decide (payload = clientStateTransfer))
      else pure false) m transfer ↔
        transfer = decide ((read m mess).machineId = R.me ∧ (read m mess).payloadType = clientStateTransfer) := by
    intro transfer
    split
    next hme =>
      have hread : (read m mess).machineId = R.me := hme
      simp only [yields_bind, Field.yields_read, exists_eq_left, yields_pure, hread, true_and]
      exact Iff.rfl
    next hme =>
      have hread : ¬ (read m mess).machineId = R.me := hme
      simp only [yields_pure, hread, false_and, decide_false]
  simp only [validateIncarnation, yields_bind, Field.yields_read, exists_eq_left, htype, if_neg hne, true_and,
    htransfer]
  by_cases hown : (read m mess).machineId = R.me ∧ (read m mess).payloadType = clientStateTransfer
  · simp only [hown, and_self, decide_true, if_true, true_or, iff_true]
    exact yields_pure.mpr rfl
  · rw [decide_eq_false hown, if_neg Bool.false_ne_true, or_iff_right hown]
    split
    next hkind => exact yields_require.trans ⟨fun h _ => h, fun h => h hkind⟩
    next hkind => exact ⟨fun _ h => absurd h hkind, fun _ => yields_pure.mpr rfl⟩

/-- An update that passes is valid. -/
theorem valid_of_validateMessage {R : Receiver} {m : Memory} {mess n depth : Nat}
    (hpermits : statePermitsMessage R.status .update = true)
    (htype : SignedMessage.type.get m mess = PacketType.update.code)
    (h : Yields (validateMessage R (depth + 1) false mess n) m ()) : (read m mess).Valid R := by
  simp only [validateMessage, yields_bind, exists_unit] at h
  have hsigned := h.1
  simp only [validateSignedMessage, yields_bind, yields_require, Field.yields_read, yields_countDigests,
    exists_eq_left, exists_and_left, exists_unit, Bool.false_eq_true, if_false] at hsigned
  obtain ⟨-, -, -, d, -, -, -, t, ht, hvalid, hsender, hinc, -⟩ := hsigned
  obtain rfl := (yields_signatureType htype).mp ht
  exact ⟨hpermits, hvalid, hsender, ((yields_validateIncarnation htype).mp hinc).imp id fun h hserver => h (.inr hserver)⟩

end ClientUpdate

/-! ## The code -/

/-- What becomes of an update. In `outside` the table is indexed behind its end. -/
inductive Outcome
  | introduced | duplicate | outside
deriving DecidableEq, Repr

/-- `intro_client_seq`, which has `NUM_CLIENTS + 1` entries, and `po_request_dll`, from which
nothing is taken here. -/
structure State where
  introClientSeq : Nat → PoSeqPair
  poRequestDll : List ClientUpdate

/-- `intro_client_seq` after `PRE_ORDER_Initialize_Data_Structure`. -/
def initialSeq (me newIncarnation : Nat) : Nat → PoSeqPair :=
  Function.update (fun _ => PoSeqPair.zero) me ⟨newIncarnation, 0⟩

def State.start (me newIncarnation : Nat) : State :=
  { introClientSeq := initialSeq me newIncarnation, poRequestDll := [] }

section Code

variable (me : Nat)

/-- The server's own request for a state, which gets its number here. -/
def ClientUpdate.Unstamped (u : ClientUpdate) : Prop :=
  u.machineId = me ∧ u.payloadType = clientStateTransfer ∧ u.incarnation = 0 ∧ u.seqNum = 0

instance (u : ClientUpdate) : Decidable (u.Unstamped me) := by
  unfold ClientUpdate.Unstamped
  infer_instance

/-- `ps`, the number an update goes by, where the server's own entry is `own`. -/
def ClientUpdate.pair (own : PoSeqPair) (u : ClientUpdate) : PoSeqPair :=
  if u.Unstamped me then { own with seqNum := wrap32 (own.seqNum + 1) } else ⟨u.incarnation, u.seqNum⟩

/-- `UTIL_DLL_Add_Data_To_Front` for the first update after a recovery, and otherwise
`UTIL_DLL_Add_Data`. -/
def State.introduce (status : RecoveryStatus) (s : State) (u : ClientUpdate) (ps : PoSeqPair) : State :=
  let u := { u with incarnation := ps.incarnation, seqNum := ps.seqNum }
  { introClientSeq := Function.update s.introClientSeq u.serverId ps
    poRequestDll :=
      if u.machineId = me ∧ 0 < u.monotonicCounter ∧ u.seqNum = 1 ∧ status = .recovery then u :: s.poRequestDll
      else s.poRequestDll ++ [u] }

/-- `PRE_ORDER_Process_Update`. -/
def processUpdate (status : RecoveryStatus) (s : State) (u : ClientUpdate) : State × Outcome :=
  let ps := u.pair me (s.introClientSeq me)
  if numClients < u.serverId then (s, .outside)
  else if SeqLe ps (s.introClientSeq u.serverId) then (s, .duplicate)
  else (s.introduce me status u ps, .introduced)

/-- An update and the server that gets it, as far as its validators look. -/
structure Arrival where
  receiver : Receiver
  update : ClientUpdate

/-- The server after a sequence of updates. -/
def run (s : State) (as : List Arrival) : State :=
  as.foldl (fun s a => (processUpdate me a.receiver.status s a.update).1) s

/-- What becomes of each update, with its signer. -/
def outcomes (s : State) : List Arrival → List (Nat × Outcome)
  | [] => []
  | a :: as =>
    (a.update.machineId, (processUpdate me a.receiver.status s a.update).2) ::
      outcomes (processUpdate me a.receiver.status s a.update).1 as

end Code

/-! ## Clients on their own -/

/-- A sequence of valid updates of a class. -/
def Admitted (c : Config) (me : Nat) (admits : ClientUpdate → Prop) (as : List Arrival) : Prop :=
  ∀ a ∈ as, a.receiver.config = c ∧ a.receiver.me = me ∧ a.update.Valid a.receiver ∧ admits a.update

/-- What a client sent. -/
def signedBy (client : Nat) (as : List Arrival) : List ClientUpdate :=
  (as.map Arrival.update).filter fun u => u.machineId = client

/-- What became of it. -/
def fates (client : Nat) (os : List (Nat × Outcome)) : List (Nat × Outcome) := os.filter fun p => p.1 = client

/-- Clients cannot suppress each other with updates of a class: the table is indexed within its
bounds, an update changes no entry but that of its signer, and what becomes of the updates of a
client depends only on these. -/
structure Isolated (c : Config) (me newIncarnation : Nat) (admits : ClientUpdate → Prop) : Prop where
  inside : ∀ as, Admitted c me admits as → ∀ p ∈ outcomes me (State.start me newIncarnation) as, p.2 ≠ .outside
  untouched : ∀ as a, Admitted c me admits (as ++ [a]) → ∀ client, client ≠ a.update.machineId →
    (run me (State.start me newIncarnation) (as ++ [a])).introClientSeq client =
      (run me (State.start me newIncarnation) as).introClientSeq client
  unaffected : ∀ as bs, Admitted c me admits as → Admitted c me admits bs → ∀ client,
    signedBy client as = signedBy client bs →
      fates client (outcomes me (State.start me newIncarnation) as) =
        fates client (outcomes me (State.start me newIncarnation) bs)

/-- The body of an update names its signer, or else a client whose updates it can never come
after. -/
structure Proper (me newIncarnation : Nat) (u : ClientUpdate) : Prop where
  inside : u.serverId ≤ numClients
  own : u.serverId = u.machineId ∨
    ¬u.Unstamped me ∧ SeqLe ⟨u.incarnation, u.seqNum⟩ (initialSeq me newIncarnation u.serverId)

/-- The counter of one client, and what becomes of an update. -/
def count (me : Nat) (last : PoSeqPair) (u : ClientUpdate) : PoSeqPair × Outcome :=
  if u.serverId ≠ u.machineId ∨ SeqLe (u.pair me last) last then (last, .duplicate)
  else (u.pair me last, .introduced)

/-- The counter over all updates of the client. -/
def counts (me : Nat) (last : PoSeqPair) : List ClientUpdate → List (Nat × Outcome)
  | [] => []
  | u :: us => (u.machineId, (count me last u).2) :: counts me (count me last u).1 us

variable {c : Config} {me newIncarnation : Nat} {admits : ClientUpdate → Prop}

/-- The numbers of the table only grow. -/
def Grown (me newIncarnation : Nat) (s : State) : Prop :=
  ∀ i, SeqLe (initialSeq me newIncarnation i) (s.introClientSeq i)

theorem grown_start : Grown me newIncarnation (State.start me newIncarnation) := fun _ => seqLe_refl _

/-- For the entry of its signer a proper update is one for the signer's counter, and no other
entry changes. -/
theorem processUpdate_proper {s : State} (status : RecoveryStatus) {u : ClientUpdate} (hs : Grown me newIncarnation s)
    (hu : Proper me newIncarnation u) :
    (processUpdate me status s u).2 = (count me (s.introClientSeq u.machineId) u).2 ∧
      (processUpdate me status s u).1.introClientSeq =
        Function.update s.introClientSeq u.machineId (count me (s.introClientSeq u.machineId) u).1 := by
  have hin := Nat.not_lt.mpr hu.inside
  by_cases hown : u.serverId = u.machineId
  · -- Only the signer's entry matters, also where the number is that of the server.
    have hpair : u.pair me (s.introClientSeq me) = u.pair me (s.introClientSeq u.machineId) := by
      unfold ClientUpdate.pair
      split
      · rename_i hstamp
        rw [hstamp.1]
      · rfl
    unfold processUpdate count
    rw [if_neg hin, hpair, hown]
    by_cases hle : SeqLe (u.pair me (s.introClientSeq u.machineId)) (s.introClientSeq u.machineId)
    · rw [if_pos hle, if_pos (.inr hle)]
      exact ⟨rfl, (Function.update_eq_self _ _).symm⟩
    · rw [if_neg hle, if_neg (not_or.mpr ⟨not_not.mpr rfl, hle⟩)]
      exact ⟨rfl, by simp only [State.introduce, hown]⟩
  · obtain ⟨hstamp, hle⟩ := hu.own.resolve_left hown
    have hdup : SeqLe (u.pair me (s.introClientSeq me)) (s.introClientSeq u.serverId) := by
      rw [ClientUpdate.pair, if_neg hstamp]
      exact IsTrans.trans _ _ _ hle (hs u.serverId)
    unfold processUpdate count
    rw [if_neg hin, if_pos hdup, if_pos (.inl hown)]
    exact ⟨rfl, (Function.update_eq_self _ _).symm⟩

theorem count_grows (last : PoSeqPair) (u : ClientUpdate) : SeqLe last (count me last u).1 := by
  unfold count
  split_ifs with h
  · exact seqLe_refl last
  · exact (total_of SeqLe last _).resolve_right (not_or.mp h).2

theorem grown_processUpdate {s : State} (status : RecoveryStatus) {u : ClientUpdate} (hs : Grown me newIncarnation s)
    (hu : Proper me newIncarnation u) : Grown me newIncarnation (processUpdate me status s u).1 := by
  intro i
  rw [(processUpdate_proper status hs hu).2]
  by_cases hi : i = u.machineId
  · subst hi
    rw [Function.update_self]
    exact IsTrans.trans _ _ _ (hs u.machineId) (count_grows _ u)
  · rw [Function.update_of_ne hi]
    exact hs i

theorem run_append (s : State) (as : List Arrival) (a : Arrival) :
    run me s (as ++ [a]) = (processUpdate me a.receiver.status (run me s as) a.update).1 := by
  rw [run, run, List.foldl_append]
  rfl

theorem grown_run {as : List Arrival} (has : ∀ a ∈ as, Proper me newIncarnation a.update) :
    Grown me newIncarnation (run me (State.start me newIncarnation) as) :=
  Lib.foldl_inv_of (A := fun a : Arrival => Proper me newIncarnation a.update)
    (fun _ _ ha h => grown_processUpdate _ h ha) has grown_start

/-- **Proper updates are counted for each client alone.** -/
theorem outcomes_of_proper (client : Nat) {as : List Arrival} (has : ∀ a ∈ as, Proper me newIncarnation a.update)
    {s : State} (hs : Grown me newIncarnation s) :
    fates client (outcomes me s as) = counts me (s.introClientSeq client) (signedBy client as) := by
  induction as generalizing s with
  | nil => rfl
  | cons a as ih =>
    obtain ⟨hout, hintro⟩ := processUpdate_proper a.receiver.status hs (has a List.mem_cons_self)
    have hrest := ih (fun b hb => has b (List.mem_cons_of_mem a hb))
      (grown_processUpdate a.receiver.status hs (has a List.mem_cons_self))
    unfold fates signedBy at hrest ⊢
    rw [hintro] at hrest
    by_cases hsigner : a.update.machineId = client
    · rw [outcomes, List.filter_cons_of_pos (by simpa using hsigner), List.map_cons,
        List.filter_cons_of_pos (by simpa using hsigner), hrest, counts, hout, hsigner, Function.update_self]
    · rw [outcomes, List.filter_cons_of_neg (by simpa using hsigner), List.map_cons,
        List.filter_cons_of_neg (by simpa using hsigner), hrest, Function.update_of_ne (Ne.symm hsigner)]

theorem counts_inside (last : PoSeqPair) (us : List ClientUpdate) : ∀ p ∈ counts me last us, p.2 ≠ .outside := by
  induction us generalizing last with
  | nil => exact fun p hp => by cases hp
  | cons u us ih =>
    intro p hp
    rcases List.mem_cons.mp hp with rfl | hp
    · simp only [count]
      split_ifs <;> simp
    · exact ih _ p hp

/-- An update that is introduced changes its entry. -/
theorem seqLe_of_unchanged {s : State} (status : RecoveryStatus) {u : ClientUpdate} (hin : u.serverId ≤ numClients)
    (h : (processUpdate me status s u).1.introClientSeq u.serverId = s.introClientSeq u.serverId) :
    SeqLe (u.pair me (s.introClientSeq me)) (s.introClientSeq u.serverId) := by
  unfold processUpdate at h
  rw [if_neg (Nat.not_lt.mpr hin)] at h
  by_contra hgt
  rw [if_neg hgt] at h
  simp only [State.introduce, Function.update_self] at h
  rw [h] at hgt
  exact hgt (seqLe_refl _)

/-- **Clients are isolated exactly when the updates are proper.** The validators do not ask for
that. -/
theorem clients_isolated_iff (c : Config) (me newIncarnation : Nat) (admits : ClientUpdate → Prop) :
    Isolated c me newIncarnation admits ↔ ∀ a, Admitted c me admits [a] → Proper me newIncarnation a.update := by
  constructor
  · rintro h a ha
    have hin : a.update.serverId ≤ numClients := by
      by_contra hgt
      refine h.inside [a] ha (a.update.machineId, .outside) ?_ rfl
      simp only [outcomes, processUpdate, if_pos (Nat.not_le.mp hgt), List.mem_singleton]
    refine ⟨hin, or_iff_not_imp_left.mpr fun hother => ?_⟩
    have hsame := h.untouched [] a ha a.update.serverId hother
    have hle := seqLe_of_unchanged a.receiver.status hin hsame
    by_cases hstamp : a.update.Unstamped me
    · -- The server's own number is at least one, and every other entry is zero.
      rw [ClientUpdate.pair, if_pos hstamp] at hle
      have hne : a.update.serverId ≠ me := hstamp.1 ▸ hother
      simp only [State.start, initialSeq, Function.update_self, Function.update_of_ne hne, seqLe_iff,
        PoSeqPair.zero, wrap32] at hle
      omega
    · rw [ClientUpdate.pair, if_neg hstamp] at hle
      exact ⟨hstamp, hle⟩
  · intro hproper
    have hall : ∀ as, Admitted c me admits as → ∀ a ∈ as, Proper me newIncarnation a.update := by
      intro as has a ha
      exact hproper a fun b hb => List.mem_singleton.mp hb ▸ has a ha
    refine ⟨fun as has p hp => ?_, fun as a has client hclient => ?_, fun as bs has hbs client hsame => ?_⟩
    · have hmem : p ∈ fates p.1 (outcomes me (State.start me newIncarnation) as) :=
        List.mem_filter.mpr ⟨hp, by simp⟩
      rw [outcomes_of_proper p.1 (hall as has) grown_start] at hmem
      exact counts_inside _ _ p hmem
    · have hold := grown_run fun b hb => hall _ has b (List.mem_append_left [a] hb)
      have hnew := hall _ has a (List.mem_append_right as (List.mem_singleton_self a))
      rw [run_append, (processUpdate_proper _ hold hnew).2, Function.update_of_ne hclient]
    · rw [outcomes_of_proper client (hall as has) grown_start, outcomes_of_proper client (hall bs hbs) grown_start,
        hsame]

/-! ## An update in the name of another client -/

/-- An update of client 8 that names client 7 in its body, and one of client 7. -/
def forgedUpdate : ClientUpdate :=
  { machineId := 8, incarnation := 9, monotonicCounter := 0, serverId := 7, seqNum := 1, payloadType := 0 }

def ownUpdate : ClientUpdate :=
  { machineId := 7, incarnation := 1, monotonicCounter := 0, serverId := 7, seqNum := 1, payloadType := 0 }

/-- They arrive at the first of four servers. -/
def arrivalAt (u : ClientUpdate) : Arrival := { receiver := plainReceiver fourServers.toConfig, update := u }

/-- **The first suppresses the second.** -/
theorem client_suppressed : ¬Isolated fourServers.toConfig 1 1 fun _ => True := by
  intro h
  have hforged : forgedUpdate.Valid (plainReceiver fourServers.toConfig) :=
    ⟨by decide, by decide, by decide, .inr (by decide)⟩
  have hown : ownUpdate.Valid (plainReceiver fourServers.toConfig) :=
    ⟨by decide, by decide, by decide, .inr (by decide)⟩
  have hboth : Admitted fourServers.toConfig 1 (fun _ => True) [arrivalAt forgedUpdate, arrivalAt ownUpdate] := by
    intro a ha
    rcases List.mem_pair.mp ha with rfl | rfl
    · exact ⟨rfl, rfl, hforged, trivial⟩
    · exact ⟨rfl, rfl, hown, trivial⟩
  have halone : Admitted fourServers.toConfig 1 (fun _ => True) [arrivalAt ownUpdate] :=
    fun a ha => hboth a (List.mem_cons_of_mem _ ha)
  have hsame := h.unaffected _ _ hboth halone 7 (by decide)
  exact absurd hsame (by decide)

end Spire.ClientUpdates
