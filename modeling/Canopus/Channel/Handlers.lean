import Canopus.Channel.Forward

/-! The handlers of the messages that a peer sends (`channel.rs`). -/

namespace Canopus
open Effect

variable (H : Host)

/-! ### Establishment -/

/-- Takes a one-time secret out of the store and returns the policy it grants. -/
def consumeSecret (secret : Bytes) : Ctl (Option ChannelPolicy) :=
  if secret.length ≠ 32 then pure none
  else do
    match ← getJson .secrets secret with
    | .error .notFound => pure none
    | .error e => throw (.store e)
    | .ok (s, generation) =>
      if s.consumed then pure none
      else do
        let base ← effectivePolicy H
        liftStore (← updateJson .secrets secret { s with consumed := true } generation)
        liftStore (← deleteKey .secrets secret)
        pure (some { base with
          channelCapacityMsat := s.capacityMsat, initialClientBalanceMsat := s.initialBalanceMsat })

/-- The policy a new channel gets, if it gets one: a required secret must be known, one that is not
    required may be. -/
def grantedPolicy (secret : Bytes) : Ctl (Option ChannelPolicy) :=
  if H.config.requireSecret then
    if secret.isEmpty then pure none else consumeSecret H secret
  else if !secret.isEmpty then do
    match ← consumeSecret H secret with
    | some policy => pure (some policy)
    | none => do return some (← effectivePolicy H)
  else do return some (← effectivePolicy H)

def initOf (policy : ChannelPolicy) : InitHostedChannel where
  maxHtlcValueInFlightMsat := policy.maxHtlcValueInFlightMsat
  htlcMinimumMsat := policy.htlcMinimumMsat
  maxAcceptedHtlcs := policy.maxAcceptedHtlcs
  channelCapacityMsat := policy.channelCapacityMsat
  initialClientBalanceMsat := policy.initialClientBalanceMsat
  features := []

def initialLcss (policy : ChannelPolicy) (refundScriptpubkey : Bytes) : LastCrossSignedState where
  isHost := true
  lastRefundScriptpubkey := refundScriptpubkey
  initHostedChannel := initOf policy
  blockDay := 0
  localBalanceMsat := policy.channelCapacityMsat - policy.initialClientBalanceMsat
  remoteBalanceMsat := policy.initialClientBalanceMsat
  localUpdates := 0
  remoteUpdates := 0
  incomingHtlcs := []
  outgoingHtlcs := []
  remoteSigOfLocal := ByteVec.fill 64 0
  localSigOfRemote := ByteVec.fill 64 0

def initialData (policy : ChannelPolicy) (refundScriptpubkey : Bytes) : ChannelData where
  lcss := initialLcss policy refundScriptpubkey
  uncommitted := []
  localErrors := []
  remoteErrors := []
  suspended := false
  proposedOverride := none
  lastRefundScriptpubkey := refundScriptpubkey
  established := false
  acceptingResizeSat := none
  routingPolicy := some (.fromPolicy policy)
  channelUpdatePending := false

def handleNewChannelInvoke (peer : PublicKey) (msg : InvokeHostedChannel) : Ctl Unit := do
  match ← grantedPolicy H msg.secret with
  | none => pure ()
  | some policy => do
    saveChannel peer (initialData policy msg.refundScriptpubkey) none
    sendMessage peer (.initHostedChannel (initOf policy))

/-- The message that tells a peer about a local update again. -/
def replayMessage (peer : PublicKey) : PendingUpdate → HostedMessage
  | .add htlc => .updateAddHtlc { htlc with channelId := H.channelId peer }
  | .fulfill channelId id preimage => .updateFulfillHtlc ⟨channelId, id, preimage, []⟩
  | .fail channelId id reason => .updateFailHtlc ⟨channelId, id, reason, []⟩
  | .failMalformed channelId id sha256OfOnion failureCode =>
    .updateFailMalformedHtlc ⟨channelId, id, sha256OfOnion, failureCode, []⟩

def replayLocal (peer : PublicKey) : UncommittedUpdate → Ctl Unit
  | .ofLocal update => sendMessage peer (replayMessage H peer update)
  | .ofRemote _ => pure ()

def sendStateUpdateIfPending (peer : PublicKey) (data : ChannelData) : Ctl Unit :=
  if data.uncommitted.isEmpty then pure ()
  else do
    let next ← signNext H peer ⟨data.lcss, data.uncommitted⟩
    sendMessage peer (.stateUpdate next.stateUpdate)

def handleReconnectActive (peer : PublicKey) (loaded : ChannelData) : Ctl Unit := do
  let data ← repairDuplicateUncommittedResolutions peer loaded
  sendMessage peer (.lastCrossSignedState data.lcss)
  Fallible.forEach (replayLocal H peer) data.uncommitted
  sendStateUpdateIfPending H peer data
  sendPendingChannelUpdate H peer
  logged (recoverChannelHtlcs H peer true)

/-- Sends the first local error, if there is one. -/
def sendFirstError (peer : PublicKey) (data : ChannelData) : Ctl Unit :=
  match data.localErrors.head? with
  | some e => sendError H peer e.text
  | none => pure ()

def handleReconnectErrored (peer : PublicKey) (data : ChannelData) : Ctl Unit := do
  sendMessage peer (.lastCrossSignedState data.lcss)
  sendFirstError H peer data
  match data.proposedOverride with
  | some proposal => sendMessage peer (.stateOverride (stateOverrideOf proposal))
  | none => pure ()

def handleInvoke (peer : PublicKey) (msg : InvokeHostedChannel) : Ctl Unit :=
  if msg.chainHash ≠ H.config.chainHash then do
    sendError H peer "chain hash mismatch"
    throw .chainHashMismatch
  else do
    match ← loadChannel peer with
    | none => handleNewChannelInvoke H peer msg
    | some data =>
      match deriveStatus data with
      | .notOpened | .suspended => handleNewChannelInvoke H peer msg
      | .errored | .overriding => handleReconnectErrored H peer data
      | .active | .opening => handleReconnectActive H peer data

/-! ### State updates -/

def absDiff (a b : UInt32) : UInt32 := if a < b then b - a else a - b

/-- The first cross-signed state, with the client's signature. -/
def openedLcss (lcss : LastCrossSignedState) (msg : StateUpdate) : LastCrossSignedState :=
  { lcss with
    blockDay := msg.blockDay
    localUpdates := 0
    remoteUpdates := 0
    incomingHtlcs := []
    outgoingHtlcs := []
    remoteSigOfLocal := msg.localSigOfRemote }

def handleOpeningStateUpdate (peer : PublicKey) (data : ChannelData) (msg : StateUpdate) : Ctl Unit := do
  let day ← currentBlockDay
  if absDiff msg.blockDay day > 1 then pure ()
  else if !(openedLcss data.lcss msg).verifyRemoteSig H.crypto peer then pure ()
  else do
    let lcss ← signFor H peer (openedLcss data.lcss msg)
    saveChannel peer { data with lcss := lcss, established := true } none
    recordLedgerOnce peer lcss .channelOpen .channelOpen lcss.remoteBalanceMsat none
    sendMessage peer (.stateUpdate lcss.stateUpdate)
    sendChannelUpdate H peer

/-- The state that a `state_update` commits to, with the peer's signature. -/
def proposedNext (next : LastCrossSignedState) (msg : StateUpdate) : LastCrossSignedState :=
  { next with blockDay := msg.blockDay, remoteSigOfLocal := msg.localSigOfRemote }

/-- Commits the uncommitted updates: persists the new state before any side effect. -/
def commitUpdates (peer : PublicKey) (data : ChannelData) (msg : StateUpdate) : Ctl Unit := do
  let next ← liftState (StateManager.lcssNext H.crypto ⟨data.lcss, data.uncommitted⟩)
  if !(proposedNext next msg).verifyRemoteSig H.crypto peer then pure ()
  else do
    let lcss ← signFor H peer (proposedNext next msg)
    let newData := { data with lcss := lcss, uncommitted := [] }
    saveChannel peer newData none
    recordCommittedUpdateEvents peer data.uncommitted data.lcss lcss
    sendMessage peer (.stateUpdate lcss.stateUpdate)
    dispatchCommittedEffects H peer data newData data.uncommitted

/-- The counters of a `state_update` are those of the next state, seen from the peer. -/
def countersMatch (data : ChannelData) (msg : StateUpdate) : Bool :=
  msg.localUpdates == (StateManager.mk data.lcss data.uncommitted).nextRemoteUpdates &&
    msg.remoteUpdates == (StateManager.mk data.lcss data.uncommitted).nextLocalUpdates

def handleActiveStateUpdate (peer : PublicKey) (loaded : ChannelData) (msg : StateUpdate) : Ctl Unit := do
  let data ← repairDuplicateUncommittedResolutions peer loaded
  if data.uncommitted.isEmpty then pure ()
  -- A peer that is behind and one that is ahead are both ignored.
  else if !countersMatch data msg then pure ()
  else do
    let day ← currentBlockDay
    if msg.blockDay ≠ day then pure () else commitUpdates H peer data msg

/-- The record of a channel whose override the client has accepted. -/
def overriddenData (data : ChannelData) (lcss : LastCrossSignedState) : ChannelData :=
  { data with
    lcss := lcss
    uncommitted := []
    localErrors := []
    remoteErrors := []
    suspended := false
    proposedOverride := none
    established := true }

def handleOverrideAcceptance (peer : PublicKey) (data : ChannelData) (msg : StateUpdate) : Ctl Unit := do
  let proposed ← okOr (.invalidMessage "no proposed override") data.proposedOverride
  if msg.localUpdates ≠ proposed.remoteUpdates ∨ msg.remoteUpdates ≠ proposed.localUpdates then pure ()
  else do
    let day ← currentBlockDay
    if msg.blockDay ≠ day then pure ()
    else if !{ proposed with remoteSigOfLocal := msg.localSigOfRemote }.verifyRemoteSig H.crypto peer then pure ()
    else do
      let lcss ← signFor H peer { proposed with remoteSigOfLocal := msg.localSigOfRemote }
      saveChannel peer (overriddenData data lcss) none
      recordLedgerOnce peer lcss .override .override lcss.localBalanceMsat none
      sendMessage peer (.stateUpdate lcss.stateUpdate)
      if data.channelUpdatePending then sendPendingChannelUpdate H peer else sendChannelUpdate H peer

def handleStateUpdate (peer : PublicKey) (msg : StateUpdate) : Ctl Unit := do
  let data ← loadExisting peer
  match deriveStatus data with
  | .opening => handleOpeningStateUpdate H peer data msg
  | .overriding => handleOverrideAcceptance H peer data msg
  | .active => handleActiveStateUpdate H peer data msg
  | .errored | .notOpened | .suspended => pure ()

/-! ### HTLCs of the peer -/

def handleUpdateAdd (peer : PublicKey) (htlc : UpdateAddHtlc) : Ctl Unit := do
  let data ← loadExisting peer
  if deriveStatus data ≠ .active then
    sendMessage peer (.updateFailHtlc ⟨htlc.channelId, htlc.id, failureOnionForPeerHtlc H htlc 0x1007, []⟩)
  else do
    let next ← liftState (StateManager.lcssNext H.crypto ⟨data.lcss, data.uncommitted⟩)
    if htlc.amountMsat > next.remoteBalanceMsat then do
      markErrored peer data .addAboveBalance
      sendError H peer "update_add_htlc above available balance"
    else saveChannel peer (data.push (.ofRemote (.add htlc))) none

/-- A resolution from the peer is looked at only in an active or an errored channel. -/
def takesResolutions (data : ChannelData) : Bool := deriveStatus data == .active || deriveStatus data == .errored

def handleUpdateFailMalformed (peer : PublicKey) (msg : UpdateFailMalformedHtlc) : Ctl Unit := do
  let data ← loadExisting peer
  if !takesResolutions data then pure ()
  else if data.localErrors.contains .hostedDeliveryFailed then pure ()
  else if hasUncommittedRemoteResolution data msg.id then pure ()
  else if !data.lcss.outgoingHtlcs.any (·.id == msg.id) then pure ()
  else
    saveChannel peer (data.push (.ofRemote (.failMalformed msg.channelId msg.id msg.sha256OfOnion msg.failureCode))) none

/-- Takes a fulfil whose preimage is right and that comes in time: the preimage is stored first. -/
def acceptFulfill (peer : PublicKey) (data : ChannelData) (htlc : UpdateAddHtlc) (msg : UpdateFulfillHtlc) : Ctl Unit := do
  liftNode (← ask (.storePreimage htlc.paymentHash msg.paymentPreimage))
  saveChannel peer (data.push (.ofRemote (.fulfill msg.channelId msg.id msg.paymentPreimage))) none
  resolveForwardFulfill H (H.scid peer) msg.id msg.paymentPreimage

def handleUpdateFulfill (peer : PublicKey) (msg : UpdateFulfillHtlc) : Ctl Unit := do
  let data ← loadExisting peer
  if !takesResolutions data then pure ()
  else if data.localErrors.any fun e => e == .hostedDeliveryFailed || e == .hostedHtlcExpired then pure ()
  else if hasUncommittedRemoteResolution data msg.id then pure ()
  else
    match data.lcss.outgoingHtlcs.find? (·.id == msg.id) with
    | none => pure ()
    | some htlc =>
      if htlc.paymentHash ≠ H.crypto.sha256 msg.paymentPreimage.toList then pure ()
      else do
        if ← hostedSettlementIsSafe H peer htlc then acceptFulfill H peer data htlc msg
        else do
          markErrored peer data .fulfillAfterExpiry
          sendError H peer "hosted fulfill arrived after hosted HTLC expiry"

def handleUpdateFail (peer : PublicKey) (msg : UpdateFailHtlc) : Ctl Unit := do
  let data ← loadExisting peer
  if !takesResolutions data then pure ()
  else if hasUncommittedRemoteResolution data msg.id then pure ()
  else if !data.lcss.outgoingHtlcs.any (·.id == msg.id) then pure ()
  else if msg.reason.isEmpty then markErrored peer data .emptyFailReason
  else saveChannel peer (data.push (.ofRemote (.fail msg.channelId msg.id msg.reason))) none

def handleError (peer : PublicKey) (msg : HcError) : Ctl Unit := do
  let data ← loadExisting peer
  markRemoteErrored peer data msg.data

/-! ### Preimages -/

/-- The preimages that the node knows among the hashes. -/
def knownPreimages : List Hash → Ctl (List (ByteVec 32))
  | [] => pure []
  | hash :: hashes => do
    let preimage ← liftNode (← ask (.lookupPreimage hash))
    let rest ← knownPreimages hashes
    pure (preimage.toList ++ rest)

def handleQueryPreimages (peer : PublicKey) (hashes : List Hash) : Ctl Unit := do
  let preimages ← knownPreimages hashes
  if preimages.isEmpty then pure () else sendMessage peer (.replyPreimages preimages)

def handleReplyPreimages (preimages : List (ByteVec 32)) : Ctl Unit :=
  Fallible.forEach (fun preimage => do
    liftNode (← ask (.storePreimage (H.crypto.sha256 preimage.toList) preimage))) preimages

/-! ### Resizing -/

/-- The host's balance after the capacity changes to `newCapacityMsat`. -/
def resizedLocalBalance (lcss : LastCrossSignedState) (newCapacityMsat : UInt64) : Option UInt64 :=
  let oldCapacityMsat := lcss.initHostedChannel.channelCapacityMsat
  if oldCapacityMsat ≤ newCapacityMsat then checkedAdd lcss.localBalanceMsat (newCapacityMsat - oldCapacityMsat)
  else checkedSub lcss.localBalanceMsat (oldCapacityMsat - newCapacityMsat)

def resizedLcss (lcss : LastCrossSignedState) (newCapacityMsat newLocalBalance : UInt64) : LastCrossSignedState :=
  { lcss with
    initHostedChannel := { lcss.initHostedChannel with
      channelCapacityMsat := newCapacityMsat, maxHtlcValueInFlightMsat := newCapacityMsat }
    localBalanceMsat := newLocalBalance }

/-- Resizes the channel: the host signs the new state, the client's signature stays that of the old one. -/
def applyResize (peer : PublicKey) (data : ChannelData) (newCapacityMsat : UInt64) : Ctl Unit := do
  let newLocalBalance ← okOr (.invalidMessage "resize balance overflow")
    (resizedLocalBalance data.lcss newCapacityMsat)
  let routing ← routingPolicyForData H data
  let lcss ← signFor H peer (resizedLcss data.lcss newCapacityMsat newLocalBalance)
  saveChannel peer { data with
    lcss := lcss
    acceptingResizeSat := none
    routingPolicy := some { routing with htlcMaximumMsat := newCapacityMsat }
    channelUpdatePending := true } none
  recordLedgerOnce peer lcss (.resize newCapacityMsat) .resize newCapacityMsat none
  sendMessage peer (.stateUpdate lcss.stateUpdate)
  logged (sendPendingChannelUpdate H peer)

def handleResizeChannel (peer : PublicKey) (msg : ResizeChannel) : Ctl Unit := do
  let data ← loadExisting peer
  if deriveStatus data ≠ .active || !msg.verifyClientSig H.crypto peer then pure ()
  else
    match data.acceptingResizeSat with
    | none => pure ()
    | some maxCapacitySat =>
      if msg.newCapacitySat > maxCapacitySat then pure ()
      else do
        let newCapacityMsat ← okOr (.invalidMessage "resize capacity overflow") (checkedMul msg.newCapacitySat 1000)
        if newCapacityMsat ≤ data.lcss.remoteBalanceMsat then pure ()
        else applyResize H peer data newCapacityMsat

/-! ### Reconciliation -/

/-- The peer presents its last cross-signed state, in its own view. -/
def handleLcss (peer : PublicKey) (msg : LastCrossSignedState) : Ctl Unit := do
  let data ← loadExisting peer
  if !msg.verifyRemoteSig H.crypto H.nodePublic then do
    markErrored peer data .ourSignatureMismatch
    sendError H peer "bad signature"
    throw .errored
  else if !msg.reverse.verifyRemoteSig H.crypto peer then do
    markErrored peer data .peerSignatureMismatch
    throw .errored
  else if msg.reverse.localUpdates < data.lcss.localUpdates || msg.reverse.remoteUpdates < data.lcss.remoteUpdates then
    -- The host is ahead: the peer should adopt its state.
    sendMessage peer (.lastCrossSignedState data.lcss)
  else if msg.reverse.localUpdates = data.lcss.localUpdates ∧ msg.reverse.remoteUpdates = data.lcss.remoteUpdates then
    sendMessage peer (.lastCrossSignedState data.lcss)
  else do
    saveChannel peer { data with lcss := msg.reverse, uncommitted := [] } none
    sendMessage peer (.lastCrossSignedState msg.reverse)

/-! ### Branding -/

def handleAskBranding (peer : PublicKey) : Ctl Unit :=
  match H.config.branding.contactUrl with
  | none => pure ()
  | some contactUrl => sendMessage peer (.hostedChannelBranding
      { rgbColor := H.config.branding.rgbColor.getD (ByteVec.fill 3 0)
        pngIcon := H.config.branding.logo
        contactInfo := contactUrl })

end Canopus
