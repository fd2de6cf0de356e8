import Canopus.World

/-! The controller of hosted channels (`channel.rs`): errors, the status of a channel, access to the
    store, the policies, the ledger, and sending. A function that signs a state takes the peer for
    whose channel it does so, which only the history variable `signed` records. -/

namespace Canopus
open Effect

inductive ChannelError where
  | state (e : StateError)
  | store (e : StoreError)
  | node (e : NodeError)
  | encode (e : EncodeError)
  | notFound (peer : PublicKey)
  | errored
  | chainHashMismatch
  | invalidMessage (text : String)
  | inFlightHtlcs
  deriving DecidableEq

abbrev Ctl (α : Type) := Fallible iface ChannelError α

def ask (c : Call) : Ctl c.Ans := Fallible.ask (I := iface) c

def liftState {α : Type} : Except StateError α → Ctl α
  | .ok a => pure a
  | .error e => throw (.state e)

def liftStore {α : Type} : Except StoreError α → Ctl α
  | .ok a => pure a
  | .error e => throw (.store e)

def liftNode {α : Type} : Except NodeError α → Ctl α
  | .ok a => pure a
  | .error e => throw (.node e)

def liftEncode {α : Type} : EncodeResult α → Ctl α
  | .ok a => pure a
  | .error e => throw (.encode e)

def okOr {α : Type} (e : ChannelError) : Option α → Ctl α
  | some a => pure a
  | none => throw e

/-! ### Status -/

inductive Status where
  | notOpened
  | opening
  | active
  | errored
  | overriding
  | suspended
  deriving DecidableEq, Repr

def deriveStatus (data : ChannelData) : Status :=
  if data.suspended then .suspended
  else if data.proposedOverride.isSome then .overriding
  else if !data.localErrors.isEmpty || !data.remoteErrors.isEmpty then .errored
  else if !data.established then
    if data.lcss.localUpdates == 0 && data.lcss.remoteUpdates == 0 then
      if data.lastRefundScriptpubkey.isEmpty then .notOpened else .opening
    else .opening
  else .active

/-! ### Repeated resolutions -/

/-- The side and the HTLC id of a resolution. -/
def resolutionKey : UncommittedUpdate → Option (Bool × UInt64)
  | .ofLocal (.fulfill _ id _) | .ofLocal (.fail _ id _) | .ofLocal (.failMalformed _ id _ _) => some (true, id)
  | .ofRemote (.fulfill _ id _) | .ofRemote (.fail _ id _) | .ofRemote (.failMalformed _ id _ _) => some (false, id)
  | _ => none

/-- Keeps of the updates each addition and each resolution whose key is not in `seen` yet. -/
def dedupFrom (seen : List (Bool × UInt64)) : List UncommittedUpdate → List UncommittedUpdate
  | [] => []
  | u :: us => match resolutionKey u with
    | none => u :: dedupFrom seen us
    | some key => if seen.contains key then dedupFrom seen us else u :: dedupFrom (key :: seen) us

def deduplicateUncommittedResolutions (updates : List UncommittedUpdate) : List UncommittedUpdate :=
  dedupFrom [] updates

/-! ### The store -/

def getJson (n : Ns) (k : n.Key) : Ctl (Except StoreError (n.Val × Nat)) := ask (.get n k)
def createJson (n : Ns) (k : n.Key) (v : n.Val) : Ctl (Except StoreError Unit) := ask (.create n k v)
def updateJson (n : Ns) (k : n.Key) (v : n.Val) (generation : Nat) : Ctl (Except StoreError Unit) :=
  ask (.update n k v generation)
def deleteKey (n : Ns) (k : n.Key) : Ctl (Except StoreError Unit) := ask (.delete n k)

/-- Reads, applies `f` and writes back, again while another writer gets in between. -/
def casJson (n : Ns) (k : n.Key) (f : n.Val → n.Val) : Nat → Ctl Unit
  | 0 => throw (.store (.backend "CAS retries exhausted"))
  | attempts + 1 => do
    let (v, generation) ← liftStore (← getJson n k)
    match ← updateJson n k (f v) generation with
    | .ok () => pure ()
    | .error (.generationMismatch expected actual) =>
      if attempts = 0 then throw (.store (.generationMismatch expected actual)) else casJson n k f attempts
    | .error e => throw (.store e)

/-- The same with a function that may refuse, and that has a result. -/
def casJsonWith {R : Type} (n : Ns) (k : n.Key) (f : n.Val → Except StoreError (R × n.Val)) : Nat → Ctl R
  | 0 => throw (.store (.backend "CAS retries exhausted"))
  | attempts + 1 => do
    let (v, generation) ← liftStore (← getJson n k)
    let (result, updated) ← liftStore (f v)
    match ← updateJson n k updated generation with
    | .ok () => pure result
    | .error (.generationMismatch expected actual) =>
      if attempts = 0 then throw (.store (.generationMismatch expected actual)) else casJsonWith n k f attempts
    | .error e => throw (.store e)

def maxRetries : Nat := 10

def loadChannel (peer : PublicKey) : Ctl (Option ChannelData) := do
  match ← getJson .channels peer with
  | .ok (data, _) => pure (some data)
  | .error .notFound => pure none
  | .error e => throw (.store e)

/-- Loads a channel that must be there. -/
def loadExisting (peer : PublicKey) : Ctl ChannelData := do okOr (.notFound peer) (← loadChannel peer)

def saveChannel (peer : PublicKey) (data : ChannelData) (existingGen : Option Nat) : Ctl Unit :=
  match existingGen with
  | some generation => do liftStore (← updateJson .channels peer data generation)
  | none => do
    match ← createJson .channels peer data with
    | .ok () => pure ()
    | .error .alreadyExists =>
      -- Someone else created it: read its generation and update.
      let (_, generation) ← liftStore (← getJson .channels peer)
      liftStore (← updateJson .channels peer data generation)
    | .error e => throw (.store e)

def repairDuplicateUncommittedResolutions (peer : PublicKey) (data : ChannelData) : Ctl ChannelData :=
  let deduplicated := deduplicateUncommittedResolutions data.uncommitted
  if deduplicated.length ≠ data.uncommitted.length then do
    saveChannel peer { data with uncommitted := deduplicated } none
    pure { data with uncommitted := deduplicated }
  else pure data

def listChannels : Ctl (List PublicKey) := do liftStore (← ask .listChannels)

def getBlockHeight : Ctl UInt32 := do liftNode (← ask .getBlockHeight)

def currentBlockDay : Ctl UInt32 := do return (← getBlockHeight) / 144

/-! ### Policies -/

variable (H : Host)

def effectivePolicy : Ctl ChannelPolicy := do
  match ← getJson .policy () with
  | .ok (policy, _) => pure policy
  | .error .notFound => pure H.config.policy
  | .error e => throw (.store e)

def setPolicy (policy : ChannelPolicy) : Ctl Unit := do
  match ← createJson .policy () policy with
  | .ok () => pure ()
  | .error .alreadyExists =>
    let (_, generation) ← liftStore (← getJson .policy ())
    liftStore (← updateJson .policy () policy generation)
  | .error e => throw (.store e)

def routingPolicyForData (data : ChannelData) : Ctl ChannelRoutingPolicy :=
  match data.routingPolicy with
  | some policy => pure policy
  | none => do return .fromPolicy (← effectivePolicy H)

/-! ### The ledger (`ledger.rs`) -/

def loadMeta : Ctl (Meta × Nat) := do
  match ← getJson .metadata () with
  | .ok r => pure r
  | .error .notFound => do
    liftStore (← createJson .metadata () ⟨0, 0⟩)
    pure (⟨0, 0⟩, 0)
  | .error e => throw (.store e)

def recordInner (peer : PublicKey) (eventType : LedgerEventType) (amountMsat feeMsat : UInt64)
    (paymentHash : Option Hash) (eventId : Option EventId) : Ctl Unit := do
  let (metadata, generation) ← loadMeta
  let seq := metadata.nextLedgerSeq
  liftStore (← updateJson .metadata () { metadata with nextLedgerSeq := seq + 1 } generation)
  let timestamp := (← ask .systemTime).getD 0
  liftStore (← createJson .ledger seq ⟨seq, eventId, peer, eventType, amountMsat, feeMsat, paymentHash, timestamp⟩)

def record (peer : PublicKey) (eventType : LedgerEventType) (amountMsat feeMsat : UInt64) (paymentHash : Option Hash) :
    Ctl Unit :=
  recordInner peer eventType amountMsat feeMsat paymentHash none

def recordOnce (eventId : EventId) (peer : PublicKey) (eventType : LedgerEventType) (amountMsat feeMsat : UInt64)
    (paymentHash : Option Hash) : Ctl Unit := do
  if ← liftStore (← ask (.existsKey .ledgerEventIds eventId)) then pure ()
  else do
    recordInner peer eventType amountMsat feeMsat paymentHash (some eventId)
    match ← createJson .ledgerEventIds eventId true with
    | .ok () | .error .alreadyExists => pure ()
    | .error e => throw (.store e)

/-- The events of one peer, or of all, by their numbers. The store answers here, and lists them in the order of its keys,
    of which the sort leaves nothing. -/
def World.listEvents (w : World) (peer : Option PublicKey) : List LedgerEvent :=
  ((w.store .ledger).values.filter fun e => peer.all (e.peerPubkey == ·)).insertionSort fun a b => a.seq ≤ b.seq

/-- One round of the loop of `channel_balance`. -/
def LedgerEvent.addTo (balance : UInt64) (e : LedgerEvent) : UInt64 :=
  match e.eventType with
  | .channelOpen | .htlcFulfilled => saturatingAdd balance e.amountMsat
  | .htlcForwarded => saturatingSub balance e.amountMsat
  | .feeEarned => saturatingAdd balance e.feeMsat
  | .htlcFailed | .override | .resize => balance

def World.channelBalance (w : World) (peer : PublicKey) : UInt64 := (w.listEvents (some peer)).foldl LedgerEvent.addTo 0

def recordLedgerOnce (peer : PublicKey) (lcss : LastCrossSignedState) (tag : EventTag) (eventType : LedgerEventType)
    (amountMsat : UInt64) (paymentHash : Option Hash) : Ctl Unit :=
  recordOnce ⟨peer, lcss.localUpdates, lcss.remoteUpdates, tag⟩ peer eventType amountMsat 0 paymentHash

/-- Records a resolution of an HTLC of the old state, if it lists the HTLC. -/
def recordResolution (peer : PublicKey) (new : LastCrossSignedState) (htlcs : List UpdateAddHtlc) (id : UInt64)
    (tag : EventTag) (eventType : LedgerEventType) : Ctl Unit :=
  match htlcs.find? (·.id == id) with
  | some htlc => recordLedgerOnce peer new tag eventType htlc.amountMsat (some htlc.paymentHash)
  | none => pure ()

def recordCommittedUpdateEvents (peer : PublicKey) (updates : List UncommittedUpdate)
    (old new : LastCrossSignedState) : Ctl Unit :=
  Fallible.forEach (fun
    | .ofLocal (.add htlc) =>
      recordLedgerOnce peer new (.localAdd htlc.id) .htlcForwarded htlc.amountMsat (some htlc.paymentHash)
    | .ofRemote (.add htlc) =>
      recordLedgerOnce peer new (.remoteAdd htlc.id) .htlcForwarded htlc.amountMsat (some htlc.paymentHash)
    | .ofLocal (.fulfill _ id _) =>
      recordResolution peer new old.incomingHtlcs id (.localFulfill id) .htlcFulfilled
    | .ofRemote (.fulfill _ id _) =>
      recordResolution peer new old.outgoingHtlcs id (.remoteFulfill id) .htlcFulfilled
    | .ofLocal (.fail _ id _) | .ofLocal (.failMalformed _ id _ _) =>
      recordResolution peer new old.incomingHtlcs id (.localFail id) .htlcFailed
    | .ofRemote (.fail _ id _) | .ofRemote (.failMalformed _ id _ _) =>
      recordResolution peer new old.outgoingHtlcs id (.remoteFail id) .htlcFailed) updates

/-! ### Sending and signing -/

def sendMessage (peer : PublicKey) (msg : HostedMessage) : Ctl Unit := do
  let encoding := (← ask (.peerWireEncoding peer)).getD .strict
  let _ ← liftEncode (msg.encodeWithEncoding encoding)
  liftNode (← ask (.sendCustomMsg peer encoding msg))

def sendError (peer : PublicKey) (text : String) : Ctl Unit :=
  sendMessage peer (.error ⟨H.channelId peer, textBytes text, []⟩)

/-- Signs a state of the peer's channel. -/
def signFor (peer : PublicKey) (state : LastCrossSignedState) : Ctl LastCrossSignedState := do
  let signed ← liftEncode (state.sign H.crypto H.nodeSecret)
  let _ ← ask (.noteSigned peer signed)
  pure signed

/-- The `state_update` message of a signed state. -/
def LastCrossSignedState.stateUpdate (s : LastCrossSignedState) : StateUpdate where
  blockDay := s.blockDay
  localUpdates := s.localUpdates
  remoteUpdates := s.remoteUpdates
  localSigOfRemote := s.localSigOfRemote

def stateOverrideOf (s : LastCrossSignedState) : StateOverride where
  blockDay := s.blockDay
  localBalanceMsat := s.localBalanceMsat
  localUpdates := s.localUpdates
  remoteUpdates := s.remoteUpdates
  localSigOfRemote := s.localSigOfRemote

/-- Folds the uncommitted updates, dates the result and signs it. -/
def signNext (peer : PublicKey) (sm : StateManager) : Ctl LastCrossSignedState := do
  let next ← liftState (sm.lcssNext H.crypto)
  let day ← currentBlockDay
  signFor H peer { next with blockDay := day }

def stateUpdateForUncommitted (peer : PublicKey) (data : ChannelData) : Ctl StateUpdate := do
  let next ← signNext H peer ⟨data.lcss, data.uncommitted⟩
  pure next.stateUpdate

def markErrored (peer : PublicKey) (data : ChannelData) (error : LocalError) : Ctl Unit :=
  saveChannel peer { data with localErrors := data.localErrors ++ [error] } none

def markRemoteErrored (peer : PublicKey) (data : ChannelData) (error : Bytes) : Ctl Unit :=
  saveChannel peer { data with remoteErrors := data.remoteErrors ++ [error] } none

/-! ### Channel updates (`gossip.rs`) -/

/-- The material a `channel_update` signs; an amount that does not encode is left out. -/
def ChannelUpdate.witness (m : ChannelUpdate) : Bytes :=
  m.chainHash.toList ++ writeU64 m.shortChannelId ++ writeU32 m.timestamp ++ writeU8 m.messageFlags ++
    writeU8 m.channelFlags ++ writeU16 m.cltvExpiryDelta ++
    (match writeU64Overflow m.htlcMinimumMsat with | .ok b => b | .error _ => []) ++
    writeU32 m.feeBaseMsat ++ writeU32 m.feeProportionalMillionths ++
    (match writeU64Overflow m.htlcMaximumMsat with | .ok b => b | .error _ => []) ++ m.tlvStream

def channelFlags (node peer : PublicKey) (enabled : Bool) : UInt8 :=
  (if Bytes.le node.toList peer.toList then 0 else 1) ||| (if enabled then 0 else 2)

def phcChannelUpdateSync (peer : PublicKey) (init : InitHostedChannel) (routing : ChannelRoutingPolicy)
    (enabled : Bool) (timestamp : UInt32) : PhcChannelUpdate :=
  let unsigned : ChannelUpdate :=
    { signature := ByteVec.fill 64 0
      chainHash := H.config.chainHash
      shortChannelId := H.scid peer
      timestamp := timestamp
      messageFlags := 1
      channelFlags := channelFlags H.nodePublic peer enabled
      cltvExpiryDelta := routing.cltvExpiryDelta
      htlcMinimumMsat := init.htlcMinimumMsat
      feeBaseMsat := routing.feeBaseMsat
      feeProportionalMillionths := routing.feeProportionalMillionths
      htlcMaximumMsat := routing.htlcMaximumMsat
      tlvStream := [] }
  let digest := H.crypto.sha256 (H.crypto.sha256 unsigned.witness).toList
  ⟨64507, { unsigned with signature := H.crypto.signEcdsa digest H.nodeSecret }⟩

def sendChannelUpdate (peer : PublicKey) : Ctl Unit := do
  let data ← loadExisting peer
  let timestamp := ((← ask .systemTime).getD 0).toUInt32
  let routing ← routingPolicyForData H data
  sendMessage peer (.phcChannelUpdate
    (phcChannelUpdateSync H peer data.lcss.initHostedChannel routing (deriveStatus data == .active) timestamp))

def sendPendingChannelUpdate (peer : PublicKey) : Ctl Unit := do
  let data ← loadExisting peer
  if !data.channelUpdatePending then pure ()
  else do
    sendChannelUpdate H peer
    let newData ← loadExisting peer
    saveChannel peer { newData with channelUpdatePending := false } none

end Canopus
