import Canopus.Channel.Handlers

/-! What the operator and the node ask of the controller (`channel.rs`, and the handlers of `main.rs`
    that call it): channel parameters, overrides, secrets, policies, removal, deadlines, connections,
    and the hooks for an incoming HTLC and for a payment. -/

namespace Canopus
open Effect

variable (H : Host)

/-! ### Channel parameters -/

/-- Allows the peer to resize up to a capacity, or no longer. -/
def acceptResize (peer : PublicKey) (maxCapacitySat : Option UInt64) : Ctl Unit :=
  casJson .channels peer (fun data => { data with acceptingResizeSat := maxCapacitySat }) maxRetries

structure SetChannelParams where
  channelCapacityMsat : Option UInt64
  initialClientBalanceMsat : Option UInt64
  feeBaseMsat : Option UInt32
  feeProportionalMillionths : Option UInt32
  cltvExpiryDelta : Option UInt16
  htlcMinimumMsat : Option UInt64
  htlcMaximumMsat : Option UInt64
  maxAcceptedHtlcs : Option UInt16
  deriving DecidableEq

namespace SetChannelParams

def isEmpty (p : SetChannelParams) : Bool :=
  p.channelCapacityMsat.isNone && p.initialClientBalanceMsat.isNone && p.feeBaseMsat.isNone &&
    p.feeProportionalMillionths.isNone && p.cltvExpiryDelta.isNone && p.htlcMinimumMsat.isNone &&
    p.htlcMaximumMsat.isNone && p.maxAcceptedHtlcs.isNone

def affectsLcss (p : SetChannelParams) : Bool :=
  p.channelCapacityMsat.isSome || p.initialClientBalanceMsat.isSome || p.htlcMinimumMsat.isSome ||
    p.maxAcceptedHtlcs.isSome

def routing (p : SetChannelParams) (r : ChannelRoutingPolicy) : ChannelRoutingPolicy where
  feeBaseMsat := p.feeBaseMsat.getD r.feeBaseMsat
  feeProportionalMillionths := p.feeProportionalMillionths.getD r.feeProportionalMillionths
  cltvExpiryDelta := p.cltvExpiryDelta.getD r.cltvExpiryDelta
  htlcMaximumMsat := p.htlcMaximumMsat.getD r.htlcMaximumMsat

/-- A new capacity is also the new limit of the value in flight. -/
def init (p : SetChannelParams) (i : InitHostedChannel) : InitHostedChannel where
  maxHtlcValueInFlightMsat := p.channelCapacityMsat.getD i.maxHtlcValueInFlightMsat
  htlcMinimumMsat := p.htlcMinimumMsat.getD i.htlcMinimumMsat
  maxAcceptedHtlcs := p.maxAcceptedHtlcs.getD i.maxAcceptedHtlcs
  channelCapacityMsat := p.channelCapacityMsat.getD i.channelCapacityMsat
  initialClientBalanceMsat := p.initialClientBalanceMsat.getD i.initialClientBalanceMsat
  features := i.features

end SetChannelParams

structure ChannelParameters where
  channelCapacityMsat : UInt64
  initialClientBalanceMsat : UInt64
  localBalanceMsat : UInt64
  remoteBalanceMsat : UInt64
  maxHtlcValueInFlightMsat : UInt64
  htlcMinimumMsat : UInt64
  htlcMaximumMsat : UInt64
  maxhtlcs : UInt16
  feebaseMsat : UInt32
  feeppm : UInt32
  cltvExpiryDelta : UInt16
  channelUpdatePending : Bool
  overridePending : Bool
  deriving DecidableEq

def channelParametersForData (data : ChannelData) : Ctl ChannelParameters := do
  let routing ← routingPolicyForData H data
  let lcss := data.proposedOverride.getD data.lcss
  let init := lcss.initHostedChannel
  pure
    { channelCapacityMsat := init.channelCapacityMsat
      initialClientBalanceMsat := init.initialClientBalanceMsat
      localBalanceMsat := lcss.localBalanceMsat
      remoteBalanceMsat := lcss.remoteBalanceMsat
      maxHtlcValueInFlightMsat := init.maxHtlcValueInFlightMsat
      htlcMinimumMsat := init.htlcMinimumMsat
      htlcMaximumMsat := routing.htlcMaximumMsat
      maxhtlcs := init.maxAcceptedHtlcs
      feebaseMsat := routing.feeBaseMsat
      feeppm := routing.feeProportionalMillionths
      cltvExpiryDelta := routing.cltvExpiryDelta
      channelUpdatePending := data.channelUpdatePending
      overridePending := data.proposedOverride.isSome }

/-! ### Overrides -/

/-- A state that the host proposes in place of the current one: no HTLCs, both counters one up. -/
def overrideLcss (data : ChannelData) (init : InitHostedChannel) (blockDay : UInt32)
    (localBalance remoteBalance : UInt64) : LastCrossSignedState where
  isHost := true
  lastRefundScriptpubkey := data.lastRefundScriptpubkey
  initHostedChannel := init
  blockDay := blockDay
  localBalanceMsat := localBalance
  remoteBalanceMsat := remoteBalance
  localUpdates := data.lcss.localUpdates + 1
  remoteUpdates := data.lcss.remoteUpdates + 1
  incomingHtlcs := []
  outgoingHtlcs := []
  remoteSigOfLocal := ByteVec.fill 64 0
  localSigOfRemote := ByteVec.fill 64 0

/-- The record with a proposal; an override without an error gets one. -/
def proposedData (data : ChannelData) (reason : LocalError) (proposal : LastCrossSignedState) : ChannelData :=
  { data with
    localErrors := if data.localErrors.isEmpty then [reason] else data.localErrors
    proposedOverride := some proposal }

/-- Signs and persists a proposal. -/
def proposeState (peer : PublicKey) (data : ChannelData) (reason : LocalError) (proposal : LastCrossSignedState) :
    Ctl ChannelData := do
  let signed ← signFor H peer proposal
  saveChannel peer (proposedData data reason signed) none
  pure (proposedData data reason signed)

/-- Tells the peer of the error and of the proposal. -/
def announceOverride (peer : PublicKey) (data : ChannelData) : Ctl Unit := do
  sendFirstError H peer data
  match data.proposedOverride with
  | some proposal => sendMessage peer (.stateOverride (stateOverrideOf proposal))
  | none => pure ()

/-- Checks a routing policy against the parameters of the channel. -/
def checkRouting (init : InitHostedChannel) (routing : ChannelRoutingPolicy) : Ctl Unit :=
  if routing.htlcMaximumMsat > init.channelCapacityMsat then
    throw (.invalidMessage "htlc_maximum_msat exceeds channel_capacity_msat")
  else if init.htlcMinimumMsat > routing.htlcMaximumMsat then
    throw (.invalidMessage "htlc_minimum_msat exceeds htlc_maximum_msat")
  else pure ()

/-- The override path of `set_channel`: new parameters go through a proposal to the peer. -/
def setChannelOverride (peer : PublicKey) (data : ChannelData) (base : LastCrossSignedState)
    (params : SetChannelParams) (routing : ChannelRoutingPolicy) : Ctl Unit := do
  let init := params.init base.initHostedChannel
  if init.initialClientBalanceMsat > init.channelCapacityMsat then
    throw (.invalidMessage "initial_client_balance_msat exceeds channel_capacity_msat")
  else do
    let remoteBalance := params.initialClientBalanceMsat.getD base.remoteBalanceMsat
    let localBalance ← okOr (.invalidMessage "client balance exceeds channel capacity")
      (checkedSub init.channelCapacityMsat remoteBalance)
    checkRouting init routing
    let day ← currentBlockDay
    let newData ← proposeState H peer { data with routingPolicy := some routing, channelUpdatePending := true }
      .forcedParameterOverride (overrideLcss data init day localBalance remoteBalance)
    -- The peer may be away: both messages are tried, neither has to arrive.
    logged (sendFirstError H peer newData)
    match newData.proposedOverride with
    | some proposal => logged (sendMessage peer (.stateOverride (stateOverrideOf proposal)))
    | none => pure ()

/-- The other path of `set_channel`: only the routing policy changes. -/
def setChannelRouting (peer : PublicKey) (data : ChannelData) (routing : ChannelRoutingPolicy) : Ctl Unit := do
  checkRouting data.lcss.initHostedChannel routing
  saveChannel peer { data with routingPolicy := some routing, channelUpdatePending := true } none
  logged (sendPendingChannelUpdate H peer)

def hasInFlight (data : ChannelData) : Bool :=
  !data.lcss.incomingHtlcs.isEmpty || !data.lcss.outgoingHtlcs.isEmpty || !data.uncommitted.isEmpty

def updateChannel (peer : PublicKey) (data : ChannelData) (params : SetChannelParams) : Ctl Unit := do
  let routing := params.routing (← routingPolicyForData H data)
  if deriveStatus data = .overriding then do
    let base ← okOr (.invalidMessage "overriding channel has no proposed override") data.proposedOverride
    setChannelOverride H peer data base params routing
  else if params.affectsLcss then setChannelOverride H peer data data.lcss params routing
  else setChannelRouting H peer data routing

def setChannel (peer : PublicKey) (params : SetChannelParams) (forceLcssOverride : Bool) :
    Ctl (ChannelParameters × Bool) := do
  let data ← loadExisting peer
  if params.isEmpty then do return (← channelParametersForData H data, false)
  else if deriveStatus data ≠ .active ∧ deriveStatus data ≠ .overriding then
    throw (.invalidMessage "can only update active or overriding channels")
  else if deriveStatus data = .active ∧ hasInFlight data then
    throw (.invalidMessage "cannot update channel with in-flight HTLCs")
  else if deriveStatus data = .active ∧ params.affectsLcss ∧ !forceLcssOverride then
    throw (.invalidMessage "LCSS-backed channel changes require an errored channel reset; active peers ignore state_override proposals")
  else do
    updateChannel H peer data params
    let newData ← loadExisting peer
    return (← channelParametersForData H newData, true)

def Status.text : Status → String
  | .notOpened => "NOT_OPENED"
  | .opening => "OPENING"
  | .active => "ACTIVE"
  | .errored => "ERRORED"
  | .overriding => "OVERRIDING"
  | .suspended => "SUSPENDED"

def proposeOverride (peer : PublicKey) (newLocalBalance : Option UInt64) : Ctl Unit := do
  let data ← loadExisting peer
  if deriveStatus data ≠ .errored ∧ deriveStatus data ≠ .overriding then
    throw (.invalidMessage ("can only override errored/overriding channels, got " ++ (deriveStatus data).text))
  else do
    let localBalance := newLocalBalance.getD data.lcss.localBalanceMsat
    let remoteBalance ← okOr (.invalidMessage "local balance exceeds capacity")
      (checkedSub data.lcss.initHostedChannel.channelCapacityMsat localBalance)
    let day ← currentBlockDay
    let newData ← proposeState H peer data .hostProposedOverride
      (overrideLcss data data.lcss.initHostedChannel day localBalance remoteBalance)
    announceOverride H peer newData

/-! ### Secrets and policies -/

def hexDigit (c : Char) : Option UInt8 :=
  if '0' ≤ c ∧ c ≤ '9' then some (UInt8.ofNat (c.toNat - '0'.toNat))
  else if 'a' ≤ c ∧ c ≤ 'f' then some (UInt8.ofNat (c.toNat - 'a'.toNat + 10))
  else if 'A' ≤ c ∧ c ≤ 'F' then some (UInt8.ofNat (c.toNat - 'A'.toNat + 10))
  else none

def hexDecode : List Char → Option Bytes
  | [] => some []
  | [_] => none
  | a :: b :: rest => do
    let high ← hexDigit a
    let low ← hexDigit b
    let bytes ← hexDecode rest
    return (high * 16 + low) :: bytes

def parseSecretHex (secret : String) : Ctl Bytes :=
  match hexDecode secret.toList with
  | some bytes =>
    if bytes.length = 32 then pure bytes else throw (.invalidMessage "secret must be 32-byte hex")
  | none => throw (.invalidMessage "secret must be 32-byte hex")

def addSecret (secret : String) (capacityMsat initialBalanceMsat : UInt64) : Ctl Unit := do
  let bytes ← parseSecretHex secret
  match ← createJson .secrets bytes ⟨capacityMsat, initialBalanceMsat, false⟩ with
  | .ok () => pure ()
  | .error .alreadyExists => throw (.invalidMessage "secret already exists")
  | .error e => throw (.store e)

def removeSecret (secret : String) : Ctl Unit := do
  let bytes ← parseSecretHex secret
  liftStore (← deleteKey .secrets bytes)

/-- The changes that the operator asks for in the policy of new channels. -/
structure PolicyParams where
  channelCapacityMsat : Option UInt64
  initialClientBalanceMsat : Option UInt64
  maxHtlcValueInFlightMsat : Option UInt64
  htlcMinimumMsat : Option UInt64
  maxAcceptedHtlcs : Option UInt16
  feeBaseMsat : Option UInt32
  feeProportionalMillionths : Option UInt32
  cltvExpiryDelta : Option UInt16
  deriving DecidableEq

def PolicyParams.apply (p : PolicyParams) (policy : ChannelPolicy) : ChannelPolicy where
  channelCapacityMsat := p.channelCapacityMsat.getD policy.channelCapacityMsat
  initialClientBalanceMsat := p.initialClientBalanceMsat.getD policy.initialClientBalanceMsat
  maxHtlcValueInFlightMsat := p.maxHtlcValueInFlightMsat.getD policy.maxHtlcValueInFlightMsat
  htlcMinimumMsat := p.htlcMinimumMsat.getD policy.htlcMinimumMsat
  maxAcceptedHtlcs := p.maxAcceptedHtlcs.getD policy.maxAcceptedHtlcs
  feeBaseMsat := p.feeBaseMsat.getD policy.feeBaseMsat
  feeProportionalMillionths := p.feeProportionalMillionths.getD policy.feeProportionalMillionths
  cltvExpiryDelta := p.cltvExpiryDelta.getD policy.cltvExpiryDelta

def PolicyParams.changes (p : PolicyParams) : Bool :=
  p.channelCapacityMsat.isSome || p.initialClientBalanceMsat.isSome || p.maxHtlcValueInFlightMsat.isSome ||
    p.htlcMinimumMsat.isSome || p.maxAcceptedHtlcs.isSome || p.feeBaseMsat.isSome ||
    p.feeProportionalMillionths.isSome || p.cltvExpiryDelta.isSome

def handlePolicy (params : PolicyParams) : Ctl (ChannelPolicy × Bool) := do
  let policy := params.apply (← effectivePolicy H)
  if policy.initialClientBalanceMsat > policy.channelCapacityMsat then
    throw (.invalidMessage "initial_client_balance_msat exceeds channel_capacity_msat")
  else if params.changes then do
    setPolicy policy
    pure (policy, true)
  else pure (policy, false)

/-! ### Removal -/

def removeChannel (peer : PublicKey) (force : Bool) : Ctl Unit := do
  let data ← loadExisting peer
  let next ← liftState (StateManager.lcssNext H.crypto ⟨data.lcss, data.uncommitted⟩)
  if !force && (!next.incomingHtlcs.isEmpty || !next.outgoingHtlcs.isEmpty || !data.uncommitted.isEmpty) then
    throw .inFlightHtlcs
  else do
    let keys ← liftStore (← ask (.listForwards (H.scid peer)))
    Fallible.forEach (fun key => do liftStore (← deleteKey .htlcForwards key)) keys
    liftStore (← deleteKey .channels peer)
    ask (.forgetWireEncoding peer)

/-! ### Deadlines -/

/-- Errors a channel and fails the HTLC that it has not settled in time. -/
def giveUpOn (peer : PublicKey) (data : ChannelData) (htlc : UpdateAddHtlc) (error : LocalError) (code : UInt16) :
    Ctl Unit := do
  markErrored peer data error
  resolveForwardFail H (H.scid peer) htlc.id (writeU16 code)

/-- The HTLCs that the host has added and the client has not committed to. -/
def uncommittedLocalAdds (data : ChannelData) : List UpdateAddHtlc :=
  data.uncommitted.filterMap fun
    | .ofLocal (.add htlc) => some htlc
    | _ => none

def readLink (key : HtlcKey) : Ctl (Option ForwardLink) := do
  match ← getJson .htlcForwards key with
  | .ok (link, _) => pure (some link)
  | .error .notFound => pure none
  | .error e => throw (.store e)

/-- The first HTLC that the client has not committed to by its deadline. -/
def firstUncommittedLate (scid now : UInt64) : List UpdateAddHtlc → Ctl (Option UpdateAddHtlc)
  | [] => pure none
  | htlc :: htlcs => do
    match ← readLink (scid, htlc.id) with
    | some link =>
      match link.hostedCommitDeadlineUnix with
      | some deadline => if deadline > now then firstUncommittedLate scid now htlcs else pure (some htlc)
      | none => firstUncommittedLate scid now htlcs
    | none => firstUncommittedLate scid now htlcs

/-- The block height, asked for once in a pass over the channels. -/
def cachedHeight : Option UInt32 → Ctl UInt32
  | some height => pure height
  | none => getBlockHeight

/-- The first committed HTLC that has expired, and the block height if it was asked for. -/
def firstExpired (scid : UInt64) : List UpdateAddHtlc → Option UInt32 → Ctl (Option UpdateAddHtlc × Option UInt32)
  | [], height => pure (none, height)
  | htlc :: htlcs, height => do
    match ← readLink (scid, htlc.id) with
    | some link =>
      if link.upstreamCltvExpiry.isNone then firstExpired scid htlcs height
      else do
        let h ← cachedHeight height
        if h < htlc.cltvExpiry then firstExpired scid htlcs (some h) else pure (some htlc, some h)
    | none => firstExpired scid htlcs height

/-- One channel's part of the pass. -/
def enforceDeadlinesOf (peer : PublicKey) (now : UInt64) (height : Option UInt32) : Ctl (Option UInt32) := do
  match ← loadChannel peer with
  | none => pure height
  | some data =>
    if deriveStatus data ≠ .active then pure height
    else do
      match ← firstUncommittedLate (H.scid peer) now (uncommittedLocalAdds data) with
      | some htlc => do
        giveUpOn H peer data htlc .hostedDeliveryFailed 0x1007
        pure height
      | none => do
        let (expired, height) ← firstExpired (H.scid peer) data.lcss.outgoingHtlcs height
        match expired with
        | some htlc => do
          giveUpOn H peer data htlc .hostedHtlcExpired 0x4008
          pure height
        | none => pure height

def enforceDeadlinesFrom (now : UInt64) : List PublicKey → Option UInt32 → Ctl Unit
  | [], _ => pure ()
  | peer :: peers, height => do
    let height ← enforceDeadlinesOf H peer now height
    enforceDeadlinesFrom now peers height

def enforceForwardDeadlinesAt (now : UInt64) : Ctl Unit := do
  let peers ← listChannels
  enforceDeadlinesFrom H now peers none

def enforceForwardDeadlines : Ctl Unit := do
  let now ← okOr (.invalidMessage "system clock is before Unix epoch") (← ask .systemTime)
  enforceForwardDeadlinesAt H now

/-! ### Connections -/

def sendUpdateIfPending (peer : PublicKey) (data : ChannelData) : Ctl Unit :=
  if deriveStatus data = .active ∧ data.channelUpdatePending then sendPendingChannelUpdate H peer else pure ()

def handleConnect (peer : PublicKey) : Ctl Unit := do
  ask (.notePeerConnection peer true)
  match ← loadChannel peer with
  | none => pure ()
  | some data => do
    sendUpdateIfPending H peer data
    recoverChannelHtlcs H peer true

def handleDisconnect (peer : PublicKey) : Ctl Unit := do
  ask (.notePeerConnection peer false)
  ask (.forgetWireEncoding peer)

/-- Takes over the initial snapshot of the connections, where no event was seen before. -/
def noteInitialPeerConnections (connections : List (PublicKey × Bool)) : Ctl Unit :=
  Fallible.forEach (fun (peer, connected) => do
    match ← ask (.peerConnection peer) with
    | some _ => pure ()
    | none => ask (.notePeerConnection peer connected)) connections

/-! ### The hooks -/

/-- A request of the `htlc_accepted` hook: the fields the handler reads, where they are present and
    well formed. -/
structure HtlcAcceptedRequest where
  targetScid : Option UInt64
  amountMsat : Option UInt64
  forwardAmount : Option UInt64
  paymentHash : Option Hash
  cltvExpiry : Option UInt64
  outgoingCltvValue : Option UInt64
  nextOnion : Option Bytes
  htlcId : Option UInt64
  shortChannelId : Option UInt64
  sharedSecret : Option (Option (ByteVec 32))

/-- The answer of a hook; `waitFor` answers with the resolution of the key once there is one. -/
inductive HookReply where
  | continue
  | failTempChannelFailure
  | waitFor (key : HtlcKey)
  deriving DecidableEq

/-- What the handler hands to the controller. -/
structure HtlcAccepted where
  incomingAmountMsat : UInt64
  htlc : UpdateAddHtlc
  incomingScid : UInt64
  incomingHtlcId : UInt64
  sharedSecret : Option (ByteVec 32)
  incomingCltvExpiry : UInt32

/-- Reads a request. The amount to forward is the one the onion names; nothing compares it with the
    incoming one. -/
def HtlcAcceptedRequest.parse (r : HtlcAcceptedRequest) (targetScid : UInt64) : Option HtlcAccepted := do
  let incomingAmountMsat ← r.amountMsat
  let paymentHash ← r.paymentHash
  let incomingCltvExpiry ← r.cltvExpiry
  let nextOnion ← r.nextOnion
  let sharedSecret ← r.sharedSecret
  return {
    incomingAmountMsat := incomingAmountMsat
    htlc :=
      { channelId := ByteVec.fill 32 0
        id := 0
        amountMsat := r.forwardAmount.getD incomingAmountMsat
        paymentHash := paymentHash
        cltvExpiry := (r.outgoingCltvValue.getD incomingCltvExpiry.toUInt32.toUInt64).toUInt32
        onionRoutingPacket := nextOnion
        tlvStream := [] }
    incomingScid := r.shortChannelId.getD targetScid
    incomingHtlcId := r.htlcId.getD 0
    sharedSecret := sharedSecret
    incomingCltvExpiry := incomingCltvExpiry.toUInt32 }

/-- Offers the HTLC of a request that names a hosted channel. -/
def acceptHtlc (peer : PublicKey) (a : HtlcAccepted) : Ctl HookReply := do
  match ← Fallible.attempt (channelHandleHtlcAddWithUpstreamExpiry H peer a.htlc (a.incomingScid, a.incomingHtlcId)
      a.incomingScid a.incomingHtlcId a.sharedSecret (some a.incomingCltvExpiry)) with
  | .ok () => pure (.waitFor (a.incomingScid, a.incomingHtlcId))
  | .error _ => pure .failTempChannelFailure

def handleHtlcAccepted (r : HtlcAcceptedRequest) : Ctl HookReply :=
  match r.targetScid with
  | none => pure .continue
  | some targetScid => do
    match ← Fallible.attempt (peerForHostedScid H targetScid) with
    | .error _ | .ok none => pure .continue
    | .ok (some peer) =>
      match r.parse targetScid with
      | none => pure .failTempChannelFailure
      | some a => acceptHtlc H peer a

/-- A `pay` command: the hosted ids that the invoice's single-hop hints give for this node, and what is
    to be paid. -/
structure PayRequest where
  hints : List UInt64
  amountMsat : UInt64
  paymentHash : Hash
  minFinalCltvExpiryDelta : UInt32
  paymentSecret : ByteVec 32

inductive PayReply where
  | continue
  | complete (preimage : ByteVec 32)
  | sent (htlcId : UInt64)
  | failed
  deriving DecidableEq

/-- The hosted channel that an invoice's hints lead to; the channels are listed anew for each hint. -/
def hostedInvoiceTarget : List UInt64 → Ctl (Option PublicKey)
  | [] => pure none
  | scid :: scids => do
    match ← peerForHostedScid H scid with
    | some peer => pure (some peer)
    | none => hostedInvoiceTarget scids

def payHosted (peer : PublicKey) (r : PayRequest) : Ctl PayReply := do
  match ← ask (.lookupPreimage r.paymentHash) with
  | .ok (some preimage) => pure (.complete preimage)
  | _ => do
    let height ← heightOrZero
    let policy ← effectivePolicy H
    let finalCltv :=
      saturatingAdd32 (saturatingAdd32 height r.minFinalCltvExpiryDelta) policy.cltvExpiryDelta.toUInt32
    return .sent (← sendDirectPayment H peer r.amountMsat r.paymentHash finalCltv (some r.paymentSecret))

/-- The `rpc_command` hook on `pay`. After `sent` the code looks for the preimage up to 600 times. -/
def handlePay (r : PayRequest) : Ctl PayReply := do
  match ← Fallible.attempt (hostedInvoiceTarget H r.hints) with
  | .error _ | .ok none => pure .continue
  | .ok (some peer) => do
    match ← Fallible.attempt (payHosted H peer r) with
    | .ok reply => pure reply
    | .error _ => pure .failed

end Canopus
