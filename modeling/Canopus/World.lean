import Canopus.Lib.Program
import Canopus.Lib.Table
import Canopus.State

/-! The persisted records (`store.rs`, `config.rs`, `ledger.rs`), the calls that the controller makes
    to its store and its node (`store.rs`, `node.rs`), and what each call does to the world. The store
    follows `MemoryStore`, the node `MockNode`; any call may also fail, at the environment's choice,
    without an effect. -/

namespace Canopus

/-! ### Persisted records -/

/-- The texts that put a channel into the errored state on the host's side. -/
inductive LocalError where
  | addAboveBalance
  | fulfillAfterExpiry
  | emptyFailReason
  | ourSignatureMismatch
  | peerSignatureMismatch
  | forcedParameterOverride
  | hostProposedOverride
  | outlivedDeadline
  | hostedDeliveryFailed
  | hostedHtlcExpired
  deriving DecidableEq, Repr

def LocalError.text : LocalError → String
  | .addAboveBalance => "peer sent update_add_htlc above available balance"
  | .fulfillAfterExpiry => "hosted fulfill arrived after hosted HTLC expiry"
  | .emptyFailReason => "peer sent empty fail reason"
  | .ourSignatureMismatch => "our signature doesn't match in peer lcss"
  | .peerSignatureMismatch => "bad signature in lcss from peer"
  | .forcedParameterOverride => "forced channel parameter override"
  | .hostProposedOverride => "host proposed state override"
  | .outlivedDeadline => "hosted HTLC outlived upstream CLTV safety deadline"
  | .hostedDeliveryFailed => "hosted HTLC delivery failed after upstream acceptance"
  | .hostedHtlcExpired => "hosted HTLC expired before settlement"

def textBytes (s : String) : Bytes := s.toUTF8.data.toList

structure ChannelPolicy where
  channelCapacityMsat : UInt64
  initialClientBalanceMsat : UInt64
  maxHtlcValueInFlightMsat : UInt64
  htlcMinimumMsat : UInt64
  maxAcceptedHtlcs : UInt16
  feeBaseMsat : UInt32
  feeProportionalMillionths : UInt32
  cltvExpiryDelta : UInt16
  deriving DecidableEq

/-- The per-channel policy that the cross-signed state does not cover. -/
structure ChannelRoutingPolicy where
  feeBaseMsat : UInt32
  feeProportionalMillionths : UInt32
  cltvExpiryDelta : UInt16
  htlcMaximumMsat : UInt64
  deriving DecidableEq

def ChannelRoutingPolicy.fromPolicy (p : ChannelPolicy) : ChannelRoutingPolicy where
  feeBaseMsat := p.feeBaseMsat
  feeProportionalMillionths := p.feeProportionalMillionths
  cltvExpiryDelta := p.cltvExpiryDelta
  htlcMaximumMsat := p.channelCapacityMsat

/-- All persisted state of one hosted channel. A remote error is kept as the bytes received. -/
structure ChannelData where
  lcss : LastCrossSignedState
  uncommitted : List UncommittedUpdate
  localErrors : List LocalError
  remoteErrors : List Bytes
  suspended : Bool
  proposedOverride : Option LastCrossSignedState
  lastRefundScriptpubkey : Bytes
  established : Bool
  acceptingResizeSat : Option UInt64
  routingPolicy : Option ChannelRoutingPolicy
  channelUpdatePending : Bool
  deriving DecidableEq

/-- The record with one more uncommitted update. -/
def ChannelData.push (data : ChannelData) (update : UncommittedUpdate) : ChannelData :=
  { data with uncommitted := data.uncommitted ++ [update] }

/-- The link from an incoming HTLC to the outgoing HTLC that continues it. -/
structure ForwardLink where
  incomingScid : UInt64
  incomingHtlcId : UInt64
  outgoingScid : UInt64
  outgoingHtlcId : UInt64
  upstreamCltvExpiry : Option UInt32
  hostedCommitDeadlineUnix : Option UInt64
  paymentHash : Hash
  sharedSecret : Option (ByteVec 32)
  deriving DecidableEq

/-- A one-time secret that grants a channel. -/
structure ChannelSecret where
  capacityMsat : UInt64
  initialBalanceMsat : UInt64
  consumed : Bool
  deriving DecidableEq

structure Meta where
  nextLedgerSeq : UInt64
  currentBlockHeight : UInt32
  deriving DecidableEq

inductive LedgerEventType where
  | channelOpen
  | htlcForwarded
  | htlcFulfilled
  | htlcFailed
  | override
  | resize
  | feeEarned
  deriving DecidableEq, Repr

/-- What an event id says after the peer and the two counters. -/
inductive EventTag where
  | channelOpen
  | override
  | resize (capacityMsat : UInt64)
  | localAdd (id : UInt64)
  | remoteAdd (id : UInt64)
  | localFulfill (id : UInt64)
  | remoteFulfill (id : UInt64)
  | localFail (id : UInt64)
  | remoteFail (id : UInt64)
  deriving DecidableEq, Repr

/-- `peer:local_updates:remote_updates:tag`. -/
structure EventId where
  peer : PublicKey
  localUpdates : UInt32
  remoteUpdates : UInt32
  tag : EventTag
  deriving DecidableEq

structure LedgerEvent where
  seq : UInt64
  eventId : Option EventId
  peerPubkey : PublicKey
  eventType : LedgerEventType
  amountMsat : UInt64
  feeMsat : UInt64
  paymentHash : Option Hash
  timestamp : UInt64
  deriving DecidableEq

/-! ### Configuration -/

structure Branding where
  contactUrl : Option Bytes
  rgbColor : Option (ByteVec 3)
  logo : Option Bytes

structure Config where
  policy : ChannelPolicy
  branding : Branding
  requireSecret : Bool
  chainHash : ByteVec 32

/-- What a controller is built with and never changes. -/
structure Host where
  crypto : Crypto
  config : Config
  nodeSecret : SecretKey
  nodePublic : PublicKey

/-! ### Channel ids (`channel_id.rs`) -/

def sortKeys (a b : PublicKey) : PublicKey × PublicKey := if Bytes.le a.toList b.toList then (a, b) else (b, a)

def channelId (C : Crypto) (a b : PublicKey) : ByteVec 32 :=
  C.sha256 ((sortKeys a b).1.toList ++ (sortKeys a b).2.toList)

/-- The sum of the first `n` big-endian 8-byte chunks. -/
def sumChunks : Nat → Bytes → UInt64
  | 0, _ => 0
  | n + 1, bs => fromBeBytes (bs.take 8) + sumChunks n (bs.drop 8)

/-- The fake short channel id under which the network routes to a hosted channel. -/
def hostedShortChannelId (a b : PublicKey) : UInt64 :=
  sumChunks 8 ((sortKeys a b).1.toList ++ (sortKeys a b).2.toList)

def Host.scid (H : Host) (peer : PublicKey) : UInt64 := hostedShortChannelId H.nodePublic peer

def Host.channelId (H : Host) (peer : PublicKey) : ByteVec 32 := Canopus.channelId H.crypto H.nodePublic peer

/-! ### The namespaces of the store -/

inductive StoreError where
  | notFound
  | generationMismatch (expected actual : Nat)
  | alreadyExists
  | backend (message : String)
  deriving DecidableEq, Repr

inductive NodeError where
  | rpc (message : String)
  deriving DecidableEq, Repr

/-- The subtrees of the store under `canopus`. -/
inductive Ns where
  | channels
  | secrets
  | htlcForwards
  | policy
  | metadata
  | ledger
  | ledgerEventIds
  deriving DecidableEq, Repr

abbrev Ns.Key : Ns → Type
  | .channels => PublicKey
  | .secrets => Bytes
  | .htlcForwards => UInt64 × UInt64
  | .policy => Unit
  | .metadata => Unit
  | .ledger => UInt64
  | .ledgerEventIds => EventId

abbrev Ns.Val : Ns → Type
  | .channels => ChannelData
  | .secrets => ChannelSecret
  | .htlcForwards => ForwardLink
  | .policy => ChannelPolicy
  | .metadata => Meta
  | .ledger => LedgerEvent
  | .ledgerEventIds => Bool

instance (n : Ns) : DecidableEq n.Key :=
  match n with
  | .channels => inferInstanceAs (DecidableEq PublicKey)
  | .secrets => inferInstanceAs (DecidableEq Bytes)
  | .htlcForwards => inferInstanceAs (DecidableEq (UInt64 × UInt64))
  | .policy => inferInstanceAs (DecidableEq Unit)
  | .metadata => inferInstanceAs (DecidableEq Unit)
  | .ledger => inferInstanceAs (DecidableEq UInt64)
  | .ledgerEventIds => inferInstanceAs (DecidableEq EventId)

/-! ### The node -/

/-- `"{scid}/{htlc_id}"`: the key of a pending hook, and the label of an outgoing payment. -/
abbrev HtlcKey := UInt64 × UInt64

inductive PaymentStatus where
  | succeeded (preimage : ByteVec 32)
  | failed (failureOnion : Bytes)
  | pending
  | unknown
  deriving DecidableEq

inductive HtlcResolution where
  | resolve (preimage : ByteVec 32)
  | fail (failureOnion : Bytes)
  | failMessage (code : UInt16) (data : Bytes)
  deriving DecidableEq

structure SendOnionParams where
  onion : Bytes
  paymentHash : Hash
  firstScid : UInt64
  firstAmountMsat : UInt64
  firstDelay : UInt16
  label : HtlcKey
  groupId : UInt64
  partId : UInt64
  deriving DecidableEq

/-- An onion that the node took, with the committed incoming HTLC it forwards. -/
structure SentOnion where
  source : PublicKey
  htlc : UpdateAddHtlc
  params : SendOnionParams
  deriving DecidableEq

inductive Call where
  | get (n : Ns) (k : n.Key)
  | existsKey (n : Ns) (k : n.Key)
  | create (n : Ns) (k : n.Key) (v : n.Val)
  | update (n : Ns) (k : n.Key) (v : n.Val) (generation : Nat)
  | delete (n : Ns) (k : n.Key)
  | listChannels
  | listForwardScids
  | listForwards (scid : UInt64)
  | sendCustomMsg (peer : PublicKey) (encoding : WireEncoding) (msg : HostedMessage)
  | sendOnion (source : PublicKey) (htlc : UpdateAddHtlc) (params : SendOnionParams)
  | inspectOutgoingPayment (paymentHash : Hash) (label : HtlcKey)
  | getBlockHeight
  | resolveHtlc (key : HtlcKey) (resolution : HtlcResolution)
  | storePreimage (paymentHash : Hash) (preimage : ByteVec 32)
  | lookupPreimage (paymentHash : Hash)
  | systemTime
  | sessionKey
  | peerConnection (peer : PublicKey)
  | notePeerConnection (peer : PublicKey) (connected : Bool)
  | peerWireEncoding (peer : PublicKey)
  | noteWireEncoding (peer : PublicKey) (encoding : WireEncoding)
  | forgetWireEncoding (peer : PublicKey)
  | noteSigned (peer : PublicKey) (state : LastCrossSignedState)

abbrev Call.Ans : Call → Type
  | .get n _ => Except StoreError (n.Val × Nat)
  | .existsKey _ _ => Except StoreError Bool
  | .create _ _ _ | .update _ _ _ _ | .delete _ _ => Except StoreError Unit
  | .listChannels => Except StoreError (List PublicKey)
  | .listForwardScids => Except StoreError (List UInt64)
  | .listForwards _ => Except StoreError (List HtlcKey)
  | .sendCustomMsg _ _ _ | .sendOnion _ _ _ | .resolveHtlc _ _ | .storePreimage _ _ => Except NodeError Unit
  | .inspectOutgoingPayment _ _ => Except NodeError PaymentStatus
  | .getBlockHeight => Except NodeError UInt32
  | .lookupPreimage _ => Except NodeError (Option (ByteVec 32))
  | .systemTime => Option UInt64
  | .sessionKey => ByteVec 32
  | .peerConnection _ => Option Bool
  | .peerWireEncoding _ => Option WireEncoding
  | .notePeerConnection _ _ | .noteWireEncoding _ _ | .forgetWireEncoding _ | .noteSigned _ _ => Unit

abbrev iface : Effect.Iface := ⟨Call, Call.Ans⟩

/-! ### The world -/

/-- A committed incoming HTLC that the node is paying onwards, and the channel it left by. -/
structure Outstanding where
  source : PublicKey
  htlc : UpdateAddHtlc
  outgoingScid : UInt64
  deriving DecidableEq

/-- The store, what the node has done, and the controller's memory. `signed` and `outstanding` are
    history variables, which no code reads: the states the host has put its signature to, with the
    peer it did so for, and the HTLCs that were handed to `send_onion` and have not been resolved
    since, that is, that have stayed committed and without a local resolution. -/
structure World where
  store : (n : Ns) → Table n.Key n.Val
  preimages : AList fun _ : Hash => ByteVec 32
  sent : List (PublicKey × HostedMessage)
  onions : List SentOnion
  resolutions : List (HtlcKey × HtlcResolution)
  peerConnections : AList fun _ : PublicKey => Bool
  peerWireEncodings : AList fun _ : PublicKey => WireEncoding
  signed : List (PublicKey × LastCrossSignedState)
  outstanding : List Outstanding

def World.empty : World where
  store _ := Table.empty
  preimages := ∅
  sent := []
  onions := []
  resolutions := []
  peerConnections := ∅
  peerWireEncodings := ∅
  signed := []
  outstanding := []

def hasUncommittedLocalResolution (data : ChannelData) (htlcId : UInt64) : Bool :=
  data.uncommitted.any fun
    | .ofLocal (.fulfill _ id _) | .ofLocal (.fail _ id _) | .ofLocal (.failMalformed _ id _ _) => id == htlcId
    | _ => false

def hasUncommittedRemoteResolution (data : ChannelData) (htlcId : UInt64) : Bool :=
  data.uncommitted.any fun
    | .ofRemote (.fulfill _ id _) | .ofRemote (.fail _ id _) | .ofRemote (.failMalformed _ id _ _) => id == htlcId
    | _ => false

namespace World

def channel (w : World) (peer : PublicKey) : Option ChannelData := (w.store .channels).value? peer

def link (w : World) (key : HtlcKey) : Option ForwardLink := (w.store .htlcForwards).value? key

/-- Whether an HTLC handed to `send_onion` is still to be resolved. -/
def unresolved (w : World) (e : Outstanding) : Bool :=
  match w.channel e.source with
  | some d => d.lcss.incomingHtlcs.contains e.htlc && !hasUncommittedLocalResolution d e.htlc.id
  | none => false

def settle (w : World) : World := { w with outstanding := w.outstanding.filter w.unresolved }

def put (w : World) (n : Ns) (k : n.Key) (v : n.Val) : World :=
  { w with store := Function.update w.store n ((w.store n).put k v) }.settle

def erase (w : World) (n : Ns) (k : n.Key) : World :=
  { w with store := Function.update w.store n ((w.store n).erase k) }.settle

def noteSigned (w : World) (peer : PublicKey) (state : LastCrossSignedState) : World :=
  { w with signed := w.signed ++ [(peer, state)] }

/-- The peers with a channel, in the order of their keys. -/
def peers (w : World) : List PublicKey := (w.store .channels).sortedKeys fun a b => Bytes.le a.toList b.toList

/-- The order of decimal texts. -/
def decimalLe (a b : UInt64) : Bool :=
  Bytes.le ((Nat.toDigits 10 a.toNat).map fun c => UInt8.ofNat c.toNat)
    ((Nat.toDigits 10 b.toNat).map fun c => UInt8.ofNat c.toNat)

/-- The keys of the forward links, in the order of the store. -/
def linkKeys (w : World) : List HtlcKey :=
  (w.store .htlcForwards).sortedKeys fun a b => (decimalLe a.1 b.1 && a.1 != b.1) || (a.1 == b.1 && decimalLe a.2 b.2)

end World

/-- The environment's part in a call: whether it fails, and what the node and the clock say. -/
structure Choice where
  fails : Bool
  height : UInt32
  time : UInt64
  status : PaymentStatus
  key : ByteVec 32

def backendError {α : Type} : Except StoreError α := .error (.backend "backend error")

def rpcError {α : Type} : Except NodeError α := .error (.rpc "rpc error")

/-- The answer to a call and the world after it. -/
def exec (x : Choice) : (c : Call) → World → c.Ans × World
  | .get n k, w =>
    if x.fails then (backendError, w)
    else match (w.store n).lookup k with
      | some (g, v) => (.ok (v, g), w)
      | none => (.error .notFound, w)
  | .existsKey n k, w => if x.fails then (backendError, w) else (.ok ((w.store n).lookup k).isSome, w)
  | .create n k v, w =>
    if x.fails then (backendError, w)
    else match (w.store n).lookup k with
      | some _ => (.error .alreadyExists, w)
      | none => (.ok (), w.put n k v)
  | .update n k v generation, w =>
    if x.fails then (backendError, w)
    else match (w.store n).lookup k with
      | some (g, _) =>
        if g ≠ generation then (.error (.generationMismatch generation g), w) else (.ok (), w.put n k v)
      | none => (.error .notFound, w)
  | .delete n k, w => if x.fails then (backendError, w) else (.ok (), w.erase n k)
  | .listChannels, w => if x.fails then (backendError, w) else (.ok w.peers, w)
  | .listForwardScids, w => if x.fails then (backendError, w) else (.ok (w.linkKeys.map (·.1)).dedup, w)
  | .listForwards scid, w => if x.fails then (backendError, w) else (.ok (w.linkKeys.filter (·.1 == scid)), w)
  | .sendCustomMsg peer _ msg, w =>
    if x.fails then (rpcError, w) else (.ok (), { w with sent := w.sent ++ [(peer, msg)] })
  | .sendOnion source htlc params, w =>
    if x.fails then (rpcError, w)
    else (.ok (), World.settle { w with
      onions := w.onions ++ [⟨source, htlc, params⟩]
      outstanding := w.outstanding ++ [⟨source, htlc, params.firstScid⟩] })
  | .inspectOutgoingPayment _ _, w => if x.fails then (rpcError, w) else (.ok x.status, w)
  | .getBlockHeight, w => if x.fails then (rpcError, w) else (.ok x.height, w)
  | .resolveHtlc key resolution, w =>
    if x.fails then (rpcError, w) else (.ok (), { w with resolutions := w.resolutions ++ [(key, resolution)] })
  | .storePreimage hash preimage, w =>
    if x.fails then (rpcError, w) else (.ok (), { w with preimages := w.preimages.insert hash preimage })
  | .lookupPreimage hash, w => if x.fails then (rpcError, w) else (.ok (w.preimages.lookup hash), w)
  | .systemTime, w => (if x.fails then none else some x.time, w)
  | .sessionKey, w => (x.key, w)
  | .peerConnection peer, w => (w.peerConnections.lookup peer, w)
  | .notePeerConnection peer connected, w =>
    ((), { w with peerConnections := w.peerConnections.insert peer connected })
  | .peerWireEncoding peer, w => (w.peerWireEncodings.lookup peer, w)
  | .noteWireEncoding peer encoding, w =>
    ((), { w with peerWireEncodings := w.peerWireEncodings.insert peer encoding })
  | .forgetWireEncoding peer, w => ((), { w with peerWireEncodings := w.peerWireEncodings.erase peer })
  | .noteSigned peer state, w => ((), w.noteSigned peer state)

/-- The calls that ask and change nothing. -/
def Call.reads : Call → Bool
  | .get _ _ | .existsKey _ _ | .listChannels | .listForwardScids | .listForwards _ | .inspectOutgoingPayment _ _
  | .getBlockHeight | .lookupPreimage _ | .systemTime | .sessionKey | .peerConnection _ | .peerWireEncoding _ => true
  | _ => false

theorem exec_reads (x : Choice) {c : Call} (w : World) (h : c.reads = true) : (exec x c w).2 = w := by
  cases c with
  | get n k =>
    simp only [exec]
    split
    · rfl
    · split <;> rfl
  | existsKey | listChannels | listForwardScids | listForwards | inspectOutgoingPayment | getBlockHeight
  | lookupPreimage =>
    simp only [exec]
    split <;> rfl
  | systemTime | sessionKey | peerConnection | peerWireEncoding => rfl
  | _ => cases h

section
variable {n : Ns} {k : n.Key} {v : n.Val} {generation : Nat} {x : Choice} {w : World}

theorem exec_get_ok (h : (exec x (.get n k) w).1 = .ok (v, generation)) :
    (w.store n).lookup k = some (generation, v) := by
  simp only [exec] at h
  split at h
  · cases h
  · split at h
    · rename_i hentry
      cases h
      exact hentry
    · cases h

theorem exec_create_ok (h : (exec x (.create n k v) w).1 = .ok ()) :
    (w.store n).lookup k = none ∧ (exec x (.create n k v) w).2 = w.put n k v := by
  simp only [exec] at h ⊢
  split at h
  · cases h
  · rename_i hfails
    rw [if_neg hfails]
    split at h
    · cases h
    · rename_i hentry
      exact ⟨hentry, rfl⟩

theorem exec_create_error {e : StoreError} (h : (exec x (.create n k v) w).1 = .error e) :
    (exec x (.create n k v) w).2 = w := by
  simp only [exec] at h ⊢
  split at h
  · rename_i hfails
    rw [if_pos hfails]
  · rename_i hfails
    rw [if_neg hfails]
    split at h
    · rfl
    · cases h

theorem exec_update_ok (h : (exec x (.update n k v generation) w).1 = .ok ()) :
    ∃ u, (w.store n).lookup k = some (generation, u) ∧ (exec x (.update n k v generation) w).2 = w.put n k v := by
  simp only [exec] at h ⊢
  split at h
  · cases h
  · rename_i hfails
    rw [if_neg hfails]
    split at h
    · rename_i g u hentry
      split at h
      · cases h
      · rename_i hgeneration
        obtain rfl := not_ne_iff.mp hgeneration
        exact ⟨u, hentry, by simp⟩
    · cases h

theorem exec_update_error {e : StoreError} (h : (exec x (.update n k v generation) w).1 = .error e) :
    (exec x (.update n k v generation) w).2 = w := by
  simp only [exec] at h ⊢
  split at h
  · rename_i hfails
    rw [if_pos hfails]
  · rename_i hfails
    rw [if_neg hfails]
    split at h
    · rename_i g u hentry
      split at h
      · rename_i hgeneration
        simp [hgeneration]
      · cases h
    · rfl

/-- A write changes nothing, or it does not fail and puts its value. -/
theorem exec_create_world : (exec x (.create n k v) w).2 = w ∨
    x.fails = false ∧ (exec x (.create n k v) w).2 = w.put n k v := by
  by_cases hfails : x.fails = true
  · exact Or.inl (by simp [exec, hfails])
  · cases hr : (exec x (.create n k v) w).1 with
    | error e => exact Or.inl (exec_create_error hr)
    | ok => exact Or.inr ⟨Bool.eq_false_iff.mpr hfails, (exec_create_ok hr).2⟩

theorem exec_update_world : (exec x (.update n k v generation) w).2 = w ∨
    x.fails = false ∧ (exec x (.update n k v generation) w).2 = w.put n k v := by
  by_cases hfails : x.fails = true
  · exact Or.inl (by simp [exec, hfails])
  · cases hr : (exec x (.update n k v generation) w).1 with
    | error e => exact Or.inl (exec_update_error hr)
    | ok =>
      obtain ⟨u, -, hput⟩ := exec_update_ok hr
      exact Or.inr ⟨Bool.eq_false_iff.mpr hfails, hput⟩

theorem exec_delete_world : (exec x (.delete n k) w).2 = w ∨ (exec x (.delete n k) w).2 = w.erase n k := by
  simp only [exec]
  split
  · exact Or.inl rfl
  · exact Or.inr rfl

end

end Canopus
