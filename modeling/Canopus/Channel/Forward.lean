import Canopus.Channel.Base

/-! Forwarding (`channel.rs`): offering an HTLC on a hosted channel, dispatching the HTLCs that a
    commit has brought in, and carrying the outcome of an outgoing HTLC back to the incoming one. -/

namespace Canopus
open Effect

variable (H : Host)

/-! ### Links -/

/-- The channel that has a hosted short channel id, if there is one. -/
def peerForHostedScid (scid : UInt64) : Ctl (Option PublicKey) := do
  return (← listChannels).find? (H.scid · == scid)

def ForwardLink.comesFrom (link : ForwardLink) (incomingScid incomingHtlcId : UInt64) : Bool :=
  link.incomingScid == incomingScid && link.incomingHtlcId == incomingHtlcId

/-- The first of the links stored under the keys that comes from the given HTLC. -/
def firstLinkAmong (incomingScid incomingHtlcId : UInt64) : List HtlcKey → Ctl (Option ForwardLink)
  | [] => pure none
  | key :: keys => do
    match ← getJson .htlcForwards key with
    | .ok (link, _) =>
      if link.comesFrom incomingScid incomingHtlcId then pure (some link)
      else firstLinkAmong incomingScid incomingHtlcId keys
    | .error .notFound => firstLinkAmong incomingScid incomingHtlcId keys
    | .error e => throw (.store e)

def firstLinkUnder (incomingScid incomingHtlcId : UInt64) : List UInt64 → Ctl (Option ForwardLink)
  | [] => pure none
  | scid :: scids => do
    let keys ← liftStore (← ask (.listForwards scid))
    match ← firstLinkAmong incomingScid incomingHtlcId keys with
    | some link => pure (some link)
    | none => firstLinkUnder incomingScid incomingHtlcId scids

def forwardLinkForIncoming (incomingScid incomingHtlcId : UInt64) : Ctl (Option ForwardLink) := do
  let scids ← liftStore (← ask .listForwardScids)
  firstLinkUnder incomingScid incomingHtlcId scids

/-! ### Failures -/

def failureOnionForPeerHtlc (htlc : UpdateAddHtlc) (failureCode : UInt16) : Bytes :=
  match H.crypto.peelOnion H.nodeSecret htlc.onionRoutingPacket htlc.paymentHash.toList with
  | some peeled => H.crypto.wrapFailure peeled.sharedSecret (writeU16 failureCode)
  | none => writeU16 failureCode

def wrapForwardFailure (link : ForwardLink) (failure : Bytes) : Bytes :=
  match link.sharedSecret with
  | some secret => H.crypto.wrapFailure secret failure
  | none => failure

/-- Answers a pending hook. -/
def resolveUpstream (key : HtlcKey) (resolution : HtlcResolution) : Ctl Unit := do
  liftNode (← ask (.resolveHtlc key resolution))

/-! ### Resolving a committed incoming HTLC -/

/-- Adds a resolution of an HTLC that the committed state lists, signs the state with it, persists it
    and tells the peer. -/
def sendLocalResolution (peer : PublicKey) (htlcId : UInt64) (update : PendingUpdate) (msg : HostedMessage) :
    Ctl Unit := do
  let data ← loadExisting peer
  if !data.lcss.incomingHtlcs.any (·.id == htlcId) then pure ()
  else do
    let newData := data.push (.ofLocal update)
    let stateUpdate ← stateUpdateForUncommitted H peer newData
    saveChannel peer newData none
    sendMessage peer msg
    sendMessage peer (.stateUpdate stateUpdate)

def sendLocalFulfill (peer : PublicKey) (link : ForwardLink) (preimage : ByteVec 32) : Ctl Unit :=
  sendLocalResolution H peer link.incomingHtlcId (.fulfill (H.channelId peer) link.incomingHtlcId preimage)
    (.updateFulfillHtlc ⟨H.channelId peer, link.incomingHtlcId, preimage, []⟩)

def sendLocalFailForHtlc (peer : PublicKey) (htlcId : UInt64) (reason : Bytes) : Ctl Unit :=
  sendLocalResolution H peer htlcId (.fail (H.channelId peer) htlcId reason)
    (.updateFailHtlc ⟨H.channelId peer, htlcId, reason, []⟩)

def sendLocalFail (peer : PublicKey) (link : ForwardLink) (reason : Bytes) : Ctl Unit :=
  sendLocalFailForHtlc H peer link.incomingHtlcId reason

def sendLocalFailMalformedForHtlc (peer : PublicKey) (htlcId : UInt64) (sha256OfOnion : Hash)
    (failureCode : UInt16) : Ctl Unit :=
  sendLocalResolution H peer htlcId (.failMalformed (H.channelId peer) htlcId sha256OfOnion failureCode)
    (.updateFailMalformedHtlc ⟨H.channelId peer, htlcId, sha256OfOnion, failureCode, []⟩)

/-! ### Carrying an outcome back -/

/-- Reads the link of an outgoing HTLC and continues with it; without a link there is nothing to do. -/
def withForwardLink (key : HtlcKey) (f : ForwardLink → Ctl Unit) : Ctl Unit := do
  match ← getJson .htlcForwards key with
  | .ok (link, _) => f link
  | .error .notFound => pure ()
  | .error e => throw (.store e)

/-- Deletes a link, whether or not the store does so. -/
def dropForwardLink (key : HtlcKey) : Ctl Unit := do
  let _ ← deleteKey .htlcForwards key
  pure ()

/-- Tells whoever the HTLC of a link came from: the hosted channel if there is one with its id, the
    node otherwise. -/
def answerIncoming (link : ForwardLink) (toPeer : PublicKey → Ctl Unit) (toNode : HtlcResolution) : Ctl Unit := do
  match ← peerForHostedScid H link.incomingScid with
  | some source => toPeer source
  | none => resolveUpstream (link.incomingScid, link.incomingHtlcId) toNode

def resolveForwardFulfill (outgoingScid outgoingHtlcId : UInt64) (preimage : ByteVec 32) : Ctl Unit :=
  withForwardLink (outgoingScid, outgoingHtlcId) fun link => do
    answerIncoming H link (fun source => sendLocalFulfill H source link preimage) (.resolve preimage)
    dropForwardLink (outgoingScid, outgoingHtlcId)

def resolveForwardFail (outgoingScid outgoingHtlcId : UInt64) (failure : Bytes) : Ctl Unit :=
  withForwardLink (outgoingScid, outgoingHtlcId) fun link => do
    let failureOnion := wrapForwardFailure H link failure
    answerIncoming H link (fun source => sendLocalFail H source link failureOnion) (.fail failureOnion)
    dropForwardLink (outgoingScid, outgoingHtlcId)

def handleOutgoingPaymentResult (outgoingScid outgoingHtlcId : UInt64) (status : PaymentStatus) : Ctl Unit :=
  withForwardLink (outgoingScid, outgoingHtlcId) fun link => do
    match ← peerForHostedScid H link.incomingScid with
    | none => pure ()
    | some peer =>
      match status with
      | .succeeded preimage => do
        liftNode (← ask (.storePreimage link.paymentHash preimage))
        sendLocalFulfill H peer link preimage
        dropForwardLink (outgoingScid, outgoingHtlcId)
      | .failed failureOnion => do
        sendLocalFail H peer link (wrapForwardFailure H link failureOnion)
        dropForwardLink (outgoingScid, outgoingHtlcId)
      | .pending | .unknown => pure ()

/-! ### Offering an HTLC -/

def hostedCommitTimeoutSecs : UInt64 := 30

def sumAmounts (htlcs : List UpdateAddHtlc) : UInt64 := htlcs.foldl (fun sum h => sum + h.amountMsat) 0

/-- The id of the next HTLC that the host adds. -/
def nextHtlcId (data : ChannelData) : UInt64 :=
  (StateManager.mk data.lcss data.uncommitted).nextLocalUpdates.toUInt64 + 1

/-- The next state has no room for an HTLC: by its balance, the number of HTLCs or their sum. -/
def hasNoRoom (policy : InitHostedChannel) (next : LastCrossSignedState) (amountMsat : UInt64) : Bool :=
  amountMsat > next.localBalanceMsat ||
    next.incomingHtlcs.length + next.outgoingHtlcs.length + 1 > policy.maxAcceptedHtlcs.toNat ||
    saturatingAdd (sumAmounts (next.incomingHtlcs ++ next.outgoingHtlcs)) amountMsat >
      policy.maxHtlcValueInFlightMsat

/-- The unix time by which the client has to commit to an HTLC offered now. -/
def hostedCommitDeadline : Ctl UInt64 := do
  let now ← okOr (.invalidMessage "system clock is before Unix epoch") (← ask .systemTime)
  okOr (.invalidMessage "hosted commit deadline overflow") (checkedAdd now hostedCommitTimeoutSecs)

def createForwardLink (key : HtlcKey) (link : ForwardLink) : Ctl Unit := do
  match ← createJson .htlcForwards key link with
  | .ok () | .error .alreadyExists => pure ()
  | .error e => throw (.store e)

/-- Sends to the peer; a failure errors the channel. -/
def deliver (peer : PublicKey) (data : ChannelData) (msg : HostedMessage) : Ctl Unit := do
  match ← Fallible.attempt (sendMessage peer msg) with
  | .ok () => pure ()
  | .error e => do
    markErrored peer data .hostedDeliveryFailed
    throw e

/-- Offers an HTLC that has passed the checks: its link, its place among the uncommitted updates, and
    the two messages to the client. -/
def offerHtlc (peer : PublicKey) (data : ChannelData) (htlc : UpdateAddHtlc) (incomingScid incomingHtlcId : UInt64)
    (sharedSecret : Option (ByteVec 32)) (upstreamCltvExpiry : Option UInt32) : Ctl Unit := do
  let htlc := { htlc with channelId := H.channelId peer, id := nextHtlcId data }
  let deadline ← hostedCommitDeadline
  createForwardLink (H.scid peer, htlc.id)
    { incomingScid := incomingScid
      incomingHtlcId := incomingHtlcId
      outgoingScid := H.scid peer
      outgoingHtlcId := htlc.id
      upstreamCltvExpiry := upstreamCltvExpiry
      hostedCommitDeadlineUnix := some deadline
      paymentHash := htlc.paymentHash
      sharedSecret := sharedSecret }
  let newData := data.push (.ofLocal (.add htlc))
  saveChannel peer newData none
  deliver peer newData (.updateAddHtlc htlc)
  let next ← signNext H peer ⟨newData.lcss, newData.uncommitted⟩
  deliver peer newData (.stateUpdate next.stateUpdate)

/-- The upstream HTLC leaves less than the channel's CLTV delta over the hosted one. Only the expiry
    of an HTLC from a normal channel is checked. -/
def cltvTooClose (normalSource : Bool) (upstreamCltvExpiry : Option UInt32) (cltvExpiry : UInt32) (delta : UInt16) :
    Ctl Bool :=
  match upstreamCltvExpiry with
  | some upstream =>
    if normalSource then do
      let required ← okOr (.invalidMessage "hosted CLTV expiry overflow") (checkedAdd32 cltvExpiry delta.toUInt32)
      return upstream < required
    else pure false
  | none => pure false

/-- Checks the parameters of an HTLC against the channel's policies and offers it. -/
def checkAndOffer (peer : PublicKey) (data : ChannelData) (htlc : UpdateAddHtlc) (resultKey : HtlcKey)
    (incomingScid incomingHtlcId : UInt64) (sharedSecret : Option (ByteVec 32)) (upstreamCltvExpiry : Option UInt32) :
    Ctl Unit := do
  let policy := data.lcss.initHostedChannel
  let routing ← routingPolicyForData H data
  let normalSource := (← peerForHostedScid H incomingScid).isNone
  if ← cltvTooClose normalSource upstreamCltvExpiry htlc.cltvExpiry routing.cltvExpiryDelta then
    resolveUpstream resultKey (.failMessage 0x100d [])
  else if htlc.amountMsat < policy.htlcMinimumMsat then resolveUpstream resultKey (.failMessage 0x400e [])
  else if htlc.amountMsat > routing.htlcMaximumMsat then resolveUpstream resultKey (.failMessage 0x1007 [])
  else do
    let next ← liftState (StateManager.lcssNext H.crypto ⟨data.lcss, data.uncommitted⟩)
    if hasNoRoom policy next htlc.amountMsat then resolveUpstream resultKey (.failMessage 0x1007 [])
    else offerHtlc H peer data htlc incomingScid incomingHtlcId sharedSecret upstreamCltvExpiry

def channelHandleHtlcAddWithUpstreamExpiry (peer : PublicKey) (htlc : UpdateAddHtlc) (resultKey : HtlcKey)
    (incomingScid incomingHtlcId : UInt64) (sharedSecret : Option (ByteVec 32)) (upstreamCltvExpiry : Option UInt32) :
    Ctl Unit := do
  let data ← loadExisting peer
  if deriveStatus data ≠ .active then throw .errored
  else if (← ask (.peerConnection peer)) = some false then
    resolveUpstream resultKey (.failMessage 0x1007 [])
  else do
    -- A known preimage settles the HTLC at once; a lookup that fails counts as no preimage.
    match ← ask (.lookupPreimage htlc.paymentHash) with
    | .ok (some preimage) => resolveUpstream resultKey (.resolve preimage)
    | _ => checkAndOffer H peer data htlc resultKey incomingScid incomingHtlcId sharedSecret upstreamCltvExpiry

def channelHandleHtlcAdd (peer : PublicKey) (htlc : UpdateAddHtlc) (resultKey : HtlcKey)
    (incomingScid incomingHtlcId : UInt64) (sharedSecret : Option (ByteVec 32)) : Ctl Unit :=
  channelHandleHtlcAddWithUpstreamExpiry H peer htlc resultKey incomingScid incomingHtlcId sharedSecret
    (some htlc.cltvExpiry)

def liftSphinx {α : Type} : Except String α → Ctl α
  | .ok a => pure a
  | .error text => throw (.invalidMessage text)

def sendDirectPayment (peer : PublicKey) (amountMsat : UInt64) (paymentHash : Hash) (finalCltvExpiry : UInt32)
    (paymentSecret : Option (ByteVec 32)) : Ctl UInt64 := do
  let data ← loadExisting peer
  if deriveStatus data ≠ .active then throw .errored
  else do
    let next ← liftState (StateManager.lcssNext H.crypto ⟨data.lcss, data.uncommitted⟩)
    if amountMsat > next.localBalanceMsat then throw (.invalidMessage "insufficient hosted balance")
    else do
      let sessionKey ← ask .sessionKey
      let onion ← liftSphinx
        (H.crypto.createSingleHopOnion sessionKey peer amountMsat finalCltvExpiry paymentSecret paymentHash)
      let htlc : UpdateAddHtlc :=
        { channelId := H.channelId peer
          id := nextHtlcId data
          amountMsat := amountMsat
          paymentHash := paymentHash
          cltvExpiry := finalCltvExpiry
          onionRoutingPacket := onion
          tlvStream := [] }
      let newData := data.push (.ofLocal (.add htlc))
      let stateUpdate ← stateUpdateForUncommitted H peer newData
      saveChannel peer newData none
      sendMessage peer (.updateAddHtlc htlc)
      sendMessage peer (.stateUpdate stateUpdate)
      pure htlc.id

/-! ### Dispatching committed HTLCs -/

/-- The block height, or 0 if the node does not say. -/
def heightOrZero : Ctl UInt32 := do
  match ← ask .getBlockHeight with
  | .ok height => pure height
  | .error _ => pure 0

/-- The fee the target channel asks for: the proportional part counts whole millions only. -/
def requiredFee (amtToForward : UInt64) (routing : ChannelRoutingPolicy) : UInt64 :=
  saturatingAdd (saturatingMul (amtToForward / 1000000) routing.feeProportionalMillionths.toUInt64)
    routing.feeBaseMsat.toUInt64

/-- The committed state breaks the limits of the channel's own policy. -/
def exceedsLimits (lcss : LastCrossSignedState) (htlc : UpdateAddHtlc) : Bool :=
  htlc.amountMsat < lcss.initHostedChannel.htlcMinimumMsat ||
    lcss.incomingHtlcs.length + lcss.outgoingHtlcs.length > lcss.initHostedChannel.maxAcceptedHtlcs.toNat ||
    sumAmounts (lcss.incomingHtlcs ++ lcss.outgoingHtlcs) > lcss.initHostedChannel.maxHtlcValueInFlightMsat

def failDispatched (peer : PublicKey) (htlc : UpdateAddHtlc) : Ctl Unit :=
  sendLocalFailForHtlc H peer htlc.id (failureOnionForPeerHtlc H htlc 0x1007)

/-- The terms that the onion asks for do not satisfy the target channel. -/
def refusesTerms (htlc : UpdateAddHtlc) (peeled : PeeledOnion) (routing : ChannelRoutingPolicy) (height : UInt32) : Bool :=
  peeled.outgoingCltvValue < saturatingAdd32 height 2 ||
    htlc.amountMsat < saturatingAdd peeled.amtToForward (requiredFee peeled.amtToForward routing) ||
    htlc.cltvExpiry < saturatingAdd32 peeled.outgoingCltvValue routing.cltvExpiryDelta.toUInt32

/-- Fails a dispatched HTLC whose delivery to another hosted channel failed, and drops its link. -/
def undoHostedForward (peer : PublicKey) (htlc : UpdateAddHtlc) : Ctl Unit := do
  failDispatched H peer htlc
  match ← forwardLinkForIncoming (H.scid peer) htlc.id with
  | some link => do liftStore (← deleteKey .htlcForwards (link.outgoingScid, link.outgoingHtlcId))
  | none => pure ()

/-- Forwards to another hosted channel. -/
def forwardToHosted (peer target : PublicKey) (htlc : UpdateAddHtlc) (peeled : PeeledOnion) : Ctl Unit := do
  if target = peer then throw (.invalidMessage "cannot forward hosted HTLC back to same channel")
  else do
    let targetData ← loadExisting target
    let routing ← routingPolicyForData H targetData
    let height ← heightOrZero
    if refusesTerms htlc peeled routing height then failDispatched H peer htlc
    else do
      let outgoing : UpdateAddHtlc :=
        { channelId := H.channelId target
          id := 0
          amountMsat := peeled.amtToForward
          paymentHash := htlc.paymentHash
          cltvExpiry := peeled.outgoingCltvValue
          onionRoutingPacket := peeled.nextOnion
          tlvStream := [] }
      match ← Fallible.attempt (channelHandleHtlcAdd H target outgoing (H.scid peer, htlc.id) (H.scid peer) htlc.id
          (some peeled.sharedSecret)) with
      | .ok () => pure ()
      | .error _ => undoHostedForward H peer htlc

def firstDelay (outgoingCltvValue height : UInt32) : UInt16 :=
  let delay := saturatingSub32 (saturatingSub32 outgoingCltvValue height) 1
  if delay < 65535 then delay.toUInt16 else 65535

/-- Forwards over the node's own channels, under the id that the HTLC has in its source channel. -/
def forwardToNode (peer : PublicKey) (htlc : UpdateAddHtlc) (peeled : PeeledOnion) : Ctl Unit := do
  let key : HtlcKey := (peeled.shortChannelId, htlc.id)
  createForwardLink key
    { incomingScid := H.scid peer
      incomingHtlcId := htlc.id
      outgoingScid := peeled.shortChannelId
      outgoingHtlcId := htlc.id
      upstreamCltvExpiry := none
      hostedCommitDeadlineUnix := none
      paymentHash := htlc.paymentHash
      sharedSecret := some peeled.sharedSecret }
  let height ← heightOrZero
  match ← ask (.sendOnion peer htlc
      { onion := peeled.nextOnion
        paymentHash := htlc.paymentHash
        firstScid := peeled.shortChannelId
        firstAmountMsat := peeled.amtToForward
        firstDelay := firstDelay peeled.outgoingCltvValue height
        label := key
        groupId := peeled.shortChannelId / 100
        partId := htlc.id }) with
  | .ok () => pure ()
  | .error _ => do
    failDispatched H peer htlc
    dropForwardLink key

def dispatchCommittedIncomingHtlc (peer : PublicKey) (committed : ChannelData) (htlc : UpdateAddHtlc) : Ctl Unit :=
  if exceedsLimits committed.lcss htlc then failDispatched H peer htlc
  else
    match H.crypto.peelOnion H.nodeSecret htlc.onionRoutingPacket htlc.paymentHash.toList with
    | none => sendLocalFailMalformedForHtlc H peer htlc.id (H.crypto.sha256 htlc.onionRoutingPacket) 0xc005
    | some peeled =>
      if htlc.amountMsat < peeled.amtToForward then failDispatched H peer htlc
      else do
        match ← peerForHostedScid H peeled.shortChannelId with
        | some target => forwardToHosted H peer target htlc peeled
        | none => forwardToNode H peer htlc peeled

/-- The effect of one committed remote failure. -/
def dispatchRemoteFail (hostedScid : UInt64) : UncommittedUpdate → Ctl Unit
  | .ofRemote (.fail _ id reason) => resolveForwardFail H hostedScid id reason
  | .ofRemote (.failMalformed _ id sha256OfOnion failureCode) =>
    resolveForwardFail H hostedScid id (writeU16 failureCode ++ sha256OfOnion.toList)
  | _ => pure ()

def dispatchCommittedEffects (peer : PublicKey) (old committed : ChannelData) (updates : List UncommittedUpdate) :
    Ctl Unit := do
  Fallible.forEach (fun htlc =>
    if old.lcss.incomingHtlcs.any (·.id == htlc.id) then pure ()
    else dispatchCommittedIncomingHtlc H peer committed htlc) committed.lcss.incomingHtlcs
  Fallible.forEach (dispatchRemoteFail H (H.scid peer)) updates

/-! ### Recovery -/

/-- A client's fulfil can still be claimed upstream. -/
def hostedSettlementIsSafe (peer : PublicKey) (outgoing : UpdateAddHtlc) : Ctl Bool := do
  match ← getJson .htlcForwards (H.scid peer, outgoing.id) with
  | .error .notFound => pure true
  | .error e => throw (.store e)
  | .ok (link, _) =>
    if (← peerForHostedScid H link.incomingScid).isSome then pure true
    else match link.upstreamCltvExpiry with
      | none => pure false
      | some expiry => do
        let data ← loadExisting peer
        let routing ← routingPolicyForData H data
        let required ← okOr (.invalidMessage "hosted CLTV expiry overflow")
          (checkedAdd32 outgoing.cltvExpiry routing.cltvExpiryDelta.toUInt32)
        let height ← getBlockHeight
        return height < outgoing.cltvExpiry && required ≤ expiry

/-- The loop of `recover_outgoing_htlcs`, with the hashes to ask the peer about. It works on the record
    as it was loaded before the incoming HTLCs were recovered. -/
def recoverOutgoingFrom (peer : PublicKey) (data : ChannelData) : List UpdateAddHtlc → List Hash → Ctl Unit
  | [], hashes => if hashes.isEmpty then pure () else sendMessage peer (.queryPreimages hashes)
  | htlc :: htlcs, hashes =>
    if hasUncommittedRemoteResolution data htlc.id then recoverOutgoingFrom peer data htlcs hashes
    else do
      if ← hostedSettlementIsSafe H peer htlc then do
        match ← liftNode (← ask (.lookupPreimage htlc.paymentHash)) with
        | some preimage => do
          resolveForwardFulfill H (H.scid peer) htlc.id preimage
          recoverOutgoingFrom peer data htlcs hashes
        | none => recoverOutgoingFrom peer data htlcs (hashes ++ [htlc.paymentHash])
      else markErrored peer data .outlivedDeadline

def recoverOutgoingHtlcs (peer : PublicKey) (data : ChannelData) : Ctl Unit :=
  recoverOutgoingFrom H peer data data.lcss.outgoingHtlcs []

/-- Recovers an HTLC that left by the node: asks what became of the payment. -/
def recoverForwarded (peer : PublicKey) (data : ChannelData) (htlc : UpdateAddHtlc) (link : ForwardLink) : Ctl Unit := do
  match ← liftNode (← ask (.inspectOutgoingPayment link.paymentHash (link.outgoingScid, link.outgoingHtlcId))) with
  | .succeeded preimage => handleOutgoingPaymentResult H link.outgoingScid link.outgoingHtlcId (.succeeded preimage)
  | .failed failureOnion => handleOutgoingPaymentResult H link.outgoingScid link.outgoingHtlcId (.failed failureOnion)
  | .pending => pure ()
  | .unknown => dispatchCommittedIncomingHtlc H peer data htlc

def recoverIncomingHtlc (peer : PublicKey) (data : ChannelData) (htlc : UpdateAddHtlc) : Ctl Unit :=
  if hasUncommittedLocalResolution data htlc.id then pure ()
  else do
    match ← forwardLinkForIncoming (H.scid peer) htlc.id with
    | some link => do
      if (← peerForHostedScid H link.outgoingScid).isSome then pure ()
      else recoverForwarded H peer data htlc link
    | none => dispatchCommittedIncomingHtlc H peer data htlc

def recoverChannelHtlcs (peer : PublicKey) (queryOutgoing : Bool) : Ctl Unit := do
  match ← loadChannel peer with
  | none => pure ()
  | some data =>
    if deriveStatus data ≠ .active then pure ()
    else do
      Fallible.forEach (recoverIncomingHtlc H peer data) data.lcss.incomingHtlcs
      if queryOutgoing then recoverOutgoingHtlcs H peer data else pure ()

/-- Runs `x` and goes on whatever its outcome; the code logs the error. -/
def logged {α : Type} (x : Ctl α) : Ctl Unit := do
  let _ ← Fallible.attempt x
  pure ()

def recoverCommittedHtlcs : Ctl Unit := do
  let peers ← listChannels
  Fallible.forEach (fun peer => logged (recoverChannelHtlcs H peer false)) peers

end Canopus
