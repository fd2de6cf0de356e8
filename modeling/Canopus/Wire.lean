import Mathlib.Data.Vector.Basic
import Mathlib.Tactic.Common

/-! Wire messages of hosted channels (`wire/mod.rs`, `wire/codecs.rs`, `wire/lcss.rs`): the message
    types, their byte encoding, and the last cross-signed state with its reversal and the hash that
    both parties sign. Machine integers are Lean's fixed-width ones, whose `+` and `-` wrap as in a
    release build; a checked operation returns an `Option`. -/

namespace Canopus

abbrev Bytes := List UInt8

/-- `[u8; n]`. -/
abbrev ByteVec (n : Nat) := List.Vector UInt8 n

/-- The array of `n` equal bytes. -/
def ByteVec.fill (n : Nat) (b : UInt8) : ByteVec n := List.Vector.replicate n b

/-- A compressed secp256k1 public key, by its serialization. -/
abbrev PublicKey := ByteVec 33

abbrev SecretKey := ByteVec 32
abbrev Signature := ByteVec 64
abbrev Hash := ByteVec 32

/-! ### Integers -/

def checkedAdd (a b : UInt64) : Option UInt64 := if a.toNat + b.toNat < 2 ^ 64 then some (a + b) else none
def checkedSub (a b : UInt64) : Option UInt64 := if b ≤ a then some (a - b) else none
def checkedMul (a b : UInt64) : Option UInt64 := if a.toNat * b.toNat < 2 ^ 64 then some (a * b) else none
def checkedAdd32 (a b : UInt32) : Option UInt32 := if a.toNat + b.toNat < 2 ^ 32 then some (a + b) else none

def saturatingAdd (a b : UInt64) : UInt64 := UInt64.ofNat (min (a.toNat + b.toNat) (2 ^ 64 - 1))
def saturatingSub (a b : UInt64) : UInt64 := UInt64.ofNat (a.toNat - b.toNat)
def saturatingMul (a b : UInt64) : UInt64 := UInt64.ofNat (min (a.toNat * b.toNat) (2 ^ 64 - 1))
def saturatingAdd32 (a b : UInt32) : UInt32 := UInt32.ofNat (min (a.toNat + b.toNat) (2 ^ 32 - 1))
def saturatingSub32 (a b : UInt32) : UInt32 := UInt32.ofNat (a.toNat - b.toNat)

theorem checkedAdd_eq_some {a b c : UInt64} (h : checkedAdd a b = some c) : c.toNat = a.toNat + b.toNat := by
  unfold checkedAdd at h
  split at h
  · rename_i hlt
    obtain rfl := Option.some.inj h
    rw [UInt64.toNat_add, Nat.mod_eq_of_lt hlt]
  · cases h

theorem checkedSub_eq_some {a b c : UInt64} (h : checkedSub a b = some c) : a.toNat = c.toNat + b.toNat := by
  unfold checkedSub at h
  split at h
  · rename_i hle
    obtain rfl := Option.some.inj h
    have := UInt64.le_iff_toNat_le.mp hle
    rw [UInt64.toNat_sub_of_le a b hle]
    omega
  · cases h

/-- The `n` low bytes of `v`, most significant first. -/
def beBytes : Nat → Nat → Bytes
  | 0, _ => []
  | n + 1, v => UInt8.ofNat (v / 256 ^ n) :: beBytes n v

def leBytes (n v : Nat) : Bytes := (beBytes n v).reverse

/-- The value of a big-endian byte string, modulo `2 ^ 64`. -/
def fromBeBytes (bs : Bytes) : UInt64 := bs.foldl (fun acc b => acc * 256 + b.toUInt64) 0

/-- The order of byte strings, which is also the order of their hex texts. -/
def Bytes.le : Bytes → Bytes → Bool
  | [], _ => true
  | _ :: _, [] => false
  | a :: as, b :: bs => a < b || (a == b && Bytes.le as bs)

/-! ### Encoders -/

inductive EncodeError where
  | overflow (value : UInt64)
  | varsizeTooLarge (size : Nat)
  | invalidOnionLength (expected actual : Nat)
  | invalidUtf8 (what : String)
  deriving DecidableEq, Repr

abbrev EncodeResult := Except EncodeError

def uint64OverflowMax : UInt64 := Int64.maxValue.toUInt64
def onionRoutingPacketSize : Nat := 1366

def writeU8 (v : UInt8) : Bytes := [v]
def writeU16 (v : UInt16) : Bytes := beBytes 2 v.toNat
def writeU32 (v : UInt32) : Bytes := beBytes 4 v.toNat
def writeU64 (v : UInt64) : Bytes := beBytes 8 v.toNat
def writeBool (b : Bool) : Bytes := [if b then 1 else 0]
def writeU32Le (v : UInt32) : Bytes := leBytes 4 v.toNat

def writeU64Overflow (v : UInt64) : EncodeResult Bytes :=
  if v > uint64OverflowMax then .error (.overflow v) else .ok (beBytes 8 v.toNat)

def writeU64OverflowLe (v : UInt64) : EncodeResult Bytes :=
  if v > uint64OverflowMax then .error (.overflow v) else .ok (leBytes 8 v.toNat)

def writeVarsize (data : Bytes) : EncodeResult Bytes :=
  if data.length > 65535 then .error (.varsizeTooLarge data.length)
  else .ok (writeU16 (UInt16.ofNat data.length) ++ data)

def writeVarint (v : UInt64) : Bytes :=
  if v < 0xfd then [v.toUInt8]
  else if v ≤ 0xffff then 0xfd :: beBytes 2 v.toNat
  else if v ≤ 0xffffffff then 0xfe :: beBytes 4 v.toNat
  else 0xff :: beBytes 8 v.toNat

def writeLengthDelimited (body : Bytes) : Bytes := writeVarint (UInt64.ofNat body.length) ++ body

/-! ### Messages -/

structure UpdateAddHtlc where
  channelId : ByteVec 32
  id : UInt64
  amountMsat : UInt64
  paymentHash : Hash
  cltvExpiry : UInt32
  onionRoutingPacket : Bytes
  tlvStream : Bytes
  deriving DecidableEq

def encodeUpdateAddHtlcBody (h : UpdateAddHtlc) : EncodeResult Bytes := do
  let id ← writeU64Overflow h.id
  let amount ← writeU64Overflow h.amountMsat
  if h.onionRoutingPacket.length ≠ onionRoutingPacketSize then
    .error (.invalidOnionLength onionRoutingPacketSize h.onionRoutingPacket.length)
  else
    .ok (h.channelId.toList ++ id ++ amount ++ h.paymentHash.toList ++ writeU32 h.cltvExpiry ++
      h.onionRoutingPacket ++ h.tlvStream)

/-- The parameters the host offers in `init_hosted_channel`. -/
structure InitHostedChannel where
  maxHtlcValueInFlightMsat : UInt64
  htlcMinimumMsat : UInt64
  maxAcceptedHtlcs : UInt16
  channelCapacityMsat : UInt64
  initialClientBalanceMsat : UInt64
  features : List UInt16
  deriving DecidableEq

def InitHostedChannel.encode (m : InitHostedChannel) : EncodeResult Bytes := do
  let inFlight ← writeU64Overflow m.maxHtlcValueInFlightMsat
  let minimum ← writeU64Overflow m.htlcMinimumMsat
  let capacity ← writeU64Overflow m.channelCapacityMsat
  let initial ← writeU64Overflow m.initialClientBalanceMsat
  return inFlight ++ minimum ++ writeU16 m.maxAcceptedHtlcs ++ capacity ++ initial ++
    writeU16 (UInt16.ofNat m.features.length) ++ (m.features.map writeU16).flatten

structure LastCrossSignedState where
  isHost : Bool
  lastRefundScriptpubkey : Bytes
  initHostedChannel : InitHostedChannel
  blockDay : UInt32
  localBalanceMsat : UInt64
  remoteBalanceMsat : UInt64
  localUpdates : UInt32
  remoteUpdates : UInt32
  incomingHtlcs : List UpdateAddHtlc
  outgoingHtlcs : List UpdateAddHtlc
  remoteSigOfLocal : Signature
  localSigOfRemote : Signature
  deriving DecidableEq

structure StateUpdate where
  blockDay : UInt32
  localUpdates : UInt32
  remoteUpdates : UInt32
  localSigOfRemote : Signature
  deriving DecidableEq

structure StateOverride where
  blockDay : UInt32
  localBalanceMsat : UInt64
  localUpdates : UInt32
  remoteUpdates : UInt32
  localSigOfRemote : Signature
  deriving DecidableEq

structure InvokeHostedChannel where
  chainHash : ByteVec 32
  refundScriptpubkey : Bytes
  secret : Bytes
  deriving DecidableEq

structure HostedChannelBranding where
  rgbColor : ByteVec 3
  pngIcon : Option Bytes
  contactInfo : Bytes
  deriving DecidableEq

structure AnnouncementSignature where
  nodeSignature : Signature
  wantsReply : Bool
  deriving DecidableEq

structure ResizeChannel where
  newCapacitySat : UInt64
  clientSig : Signature
  deriving DecidableEq

structure UpdateFulfillHtlc where
  channelId : ByteVec 32
  id : UInt64
  paymentPreimage : ByteVec 32
  tlvStream : Bytes
  deriving DecidableEq

structure UpdateFailHtlc where
  channelId : ByteVec 32
  id : UInt64
  reason : Bytes
  tlvStream : Bytes
  deriving DecidableEq

structure UpdateFailMalformedHtlc where
  channelId : ByteVec 32
  id : UInt64
  sha256OfOnion : Hash
  failureCode : UInt16
  tlvStream : Bytes
  deriving DecidableEq

structure HcError where
  channelId : ByteVec 32
  data : Bytes
  tlvStream : Bytes
  deriving DecidableEq

structure ChannelUpdate where
  signature : Signature
  chainHash : ByteVec 32
  shortChannelId : UInt64
  timestamp : UInt32
  messageFlags : UInt8
  channelFlags : UInt8
  cltvExpiryDelta : UInt16
  htlcMinimumMsat : UInt64
  feeBaseMsat : UInt32
  feeProportionalMillionths : UInt32
  htlcMaximumMsat : UInt64
  tlvStream : Bytes
  deriving DecidableEq

structure PhcChannelUpdate where
  tag : UInt16
  body : ChannelUpdate
  deriving DecidableEq

inductive HostedMessage where
  | invokeHostedChannel (m : InvokeHostedChannel)
  | initHostedChannel (m : InitHostedChannel)
  | lastCrossSignedState (m : LastCrossSignedState)
  | stateUpdate (m : StateUpdate)
  | stateOverride (m : StateOverride)
  | hostedChannelBranding (m : HostedChannelBranding)
  | announcementSignature (m : AnnouncementSignature)
  | resizeChannel (m : ResizeChannel)
  | queryPublicHostedChannels (chainHash : ByteVec 32)
  | replyPublicHostedChannelsEnd (chainHash : ByteVec 32)
  | queryPreimages (hashes : List Hash)
  | replyPreimages (preimages : List (ByteVec 32))
  | askBrandingInfo (chainHash : ByteVec 32)
  | updateAddHtlc (m : UpdateAddHtlc)
  | updateFulfillHtlc (m : UpdateFulfillHtlc)
  | updateFailHtlc (m : UpdateFailHtlc)
  | updateFailMalformedHtlc (m : UpdateFailMalformedHtlc)
  | error (m : HcError)
  | phcChannelUpdate (m : PhcChannelUpdate)
  deriving DecidableEq

inductive WireEncoding where
  | strict
  | legacy
  deriving DecidableEq, Repr

namespace LastCrossSignedState

/-- The HTLC bodies of a list, each behind its length. -/
def encodeHtlcs : List UpdateAddHtlc → EncodeResult Bytes
  | [] => .ok []
  | h :: hs => do
    let body ← encodeUpdateAddHtlcBody h
    let rest ← encodeHtlcs hs
    return writeLengthDelimited body ++ rest

def encode (s : LastCrossSignedState) : EncodeResult Bytes := do
  let refund ← writeVarsize s.lastRefundScriptpubkey
  let init ← s.initHostedChannel.encode
  let localBalance ← writeU64Overflow s.localBalanceMsat
  let remoteBalance ← writeU64Overflow s.remoteBalanceMsat
  let incoming ← encodeHtlcs s.incomingHtlcs
  let outgoing ← encodeHtlcs s.outgoingHtlcs
  return writeBool s.isHost ++ refund ++ writeLengthDelimited init ++ writeU32 s.blockDay ++ localBalance ++
    remoteBalance ++ writeU32 s.localUpdates ++ writeU32 s.remoteUpdates ++
    writeU16 (UInt16.ofNat s.incomingHtlcs.length) ++ incoming ++
    writeU16 (UInt16.ofNat s.outgoingHtlcs.length) ++ outgoing ++
    s.remoteSigOfLocal.toList ++ s.localSigOfRemote.toList

/-- The state as the counterparty sees it. -/
def reverse (s : LastCrossSignedState) : LastCrossSignedState where
  isHost := !s.isHost
  lastRefundScriptpubkey := s.lastRefundScriptpubkey
  initHostedChannel := s.initHostedChannel
  blockDay := s.blockDay
  localBalanceMsat := s.remoteBalanceMsat
  remoteBalanceMsat := s.localBalanceMsat
  localUpdates := s.remoteUpdates
  remoteUpdates := s.localUpdates
  incomingHtlcs := s.outgoingHtlcs
  outgoingHtlcs := s.incomingHtlcs
  remoteSigOfLocal := s.localSigOfRemote
  localSigOfRemote := s.remoteSigOfLocal

@[simp] theorem reverse_reverse (s : LastCrossSignedState) : s.reverse.reverse = s := by
  simp [reverse]

/-- The HTLC bodies as they enter the sighash, with nothing between them. -/
def sigHtlcs : List UpdateAddHtlc → EncodeResult Bytes
  | [] => .ok []
  | h :: hs => do
    let body ← encodeUpdateAddHtlcBody h
    let rest ← sigHtlcs hs
    return body ++ rest

/-- The bytes that `hosted_sig_hash` feeds to SHA-256. -/
def sigMaterial (s : LastCrossSignedState) : EncodeResult Bytes := do
  let capacity ← writeU64OverflowLe s.initHostedChannel.channelCapacityMsat
  let initial ← writeU64OverflowLe s.initHostedChannel.initialClientBalanceMsat
  let localBalance ← writeU64OverflowLe s.localBalanceMsat
  let remoteBalance ← writeU64OverflowLe s.remoteBalanceMsat
  let incoming ← sigHtlcs s.incomingHtlcs
  let outgoing ← sigHtlcs s.outgoingHtlcs
  return s.lastRefundScriptpubkey ++ capacity ++ initial ++ writeU32Le s.blockDay ++ localBalance ++
    remoteBalance ++ writeU32Le s.localUpdates ++ writeU32Le s.remoteUpdates ++ incoming ++ outgoing ++
    writeU8 (if s.isHost then 1 else 0)

end LastCrossSignedState

namespace HostedMessage

def tag : HostedMessage → UInt16
  | .invokeHostedChannel _ => 65535
  | .initHostedChannel _ => 65533
  | .lastCrossSignedState _ => 65531
  | .stateUpdate _ => 65529
  | .stateOverride _ => 65527
  | .hostedChannelBranding _ => 65525
  | .announcementSignature _ => 65523
  | .resizeChannel _ => 65521
  | .queryPublicHostedChannels _ => 65519
  | .replyPublicHostedChannelsEnd _ => 65517
  | .queryPreimages _ => 65515
  | .replyPreimages _ => 65513
  | .askBrandingInfo _ => 65511
  | .updateAddHtlc _ => 63505
  | .updateFulfillHtlc _ => 63503
  | .updateFailHtlc _ => 63501
  | .updateFailMalformedHtlc _ => 63499
  | .error _ => 63497
  | .phcChannelUpdate m => m.tag

def isUtf8 (bs : Bytes) : Bool := ByteArray.validateUTF8 ⟨bs.toArray⟩

def encodeBranding (m : HostedChannelBranding) : EncodeResult Bytes := do
  let icon ← match m.pngIcon with
    | some png => do
      let png ← writeVarsize png
      pure (1 :: png)
    | none => pure [0]
  if isUtf8 m.contactInfo then do
    let contact ← writeVarsize m.contactInfo
    return m.rgbColor.toList ++ icon ++ contact
  else
    .error (.invalidUtf8 "contact_info is not valid UTF-8")

def encodeChannelUpdate (m : ChannelUpdate) : EncodeResult Bytes := do
  let minimum ← writeU64Overflow m.htlcMinimumMsat
  let maximum ← writeU64Overflow m.htlcMaximumMsat
  return m.signature.toList ++ m.chainHash.toList ++ writeU64 m.shortChannelId ++ writeU32 m.timestamp ++
    writeU8 m.messageFlags ++ writeU8 m.channelFlags ++ writeU16 m.cltvExpiryDelta ++ minimum ++
    writeU32 m.feeBaseMsat ++ writeU32 m.feeProportionalMillionths ++ maximum ++ m.tlvStream

def encodeBody : HostedMessage → EncodeResult Bytes
  | .invokeHostedChannel m => do
    let refund ← writeVarsize m.refundScriptpubkey
    let secret ← writeVarsize m.secret
    return m.chainHash.toList ++ refund ++ secret
  | .initHostedChannel m => m.encode
  | .lastCrossSignedState m => m.encode
  | .stateUpdate m => .ok (writeU32 m.blockDay ++ writeU32 m.localUpdates ++ writeU32 m.remoteUpdates ++
      m.localSigOfRemote.toList)
  | .stateOverride m => do
    let localBalance ← writeU64Overflow m.localBalanceMsat
    return writeU32 m.blockDay ++ localBalance ++ writeU32 m.localUpdates ++ writeU32 m.remoteUpdates ++
      m.localSigOfRemote.toList
  | .hostedChannelBranding m => encodeBranding m
  | .announcementSignature m => .ok (m.nodeSignature.toList ++ writeBool m.wantsReply)
  | .resizeChannel m => do
    let capacity ← writeU64Overflow m.newCapacitySat
    return capacity ++ m.clientSig.toList
  | .queryPublicHostedChannels chainHash => .ok chainHash.toList
  | .replyPublicHostedChannelsEnd chainHash => .ok chainHash.toList
  | .queryPreimages hashes => .ok (writeU16 (UInt16.ofNat hashes.length) ++ (hashes.map (·.toList)).flatten)
  | .replyPreimages preimages =>
    .ok (writeU16 (UInt16.ofNat preimages.length) ++ (preimages.map (·.toList)).flatten)
  | .askBrandingInfo chainHash => .ok chainHash.toList
  | .updateAddHtlc m => encodeUpdateAddHtlcBody m
  | .updateFulfillHtlc m => do
    let id ← writeU64Overflow m.id
    return m.channelId.toList ++ id ++ m.paymentPreimage.toList ++ m.tlvStream
  | .updateFailHtlc m => do
    let id ← writeU64Overflow m.id
    let reason ← writeVarsize m.reason
    return m.channelId.toList ++ id ++ reason ++ m.tlvStream
  | .updateFailMalformedHtlc m => do
    let id ← writeU64Overflow m.id
    return m.channelId.toList ++ id ++ m.sha256OfOnion.toList ++ writeU16 m.failureCode ++ m.tlvStream
  | .error m => do
    let data ← writeVarsize m.data
    return m.channelId.toList ++ data ++ m.tlvStream
  | .phcChannelUpdate m => encodeChannelUpdate m.body

/-- `tag || body`, or `tag || u16 length || body` for a peer that speaks the legacy framing. -/
def encodeWithEncoding (m : HostedMessage) : WireEncoding → EncodeResult Bytes
  | .strict => do
    let body ← m.encodeBody
    return writeU16 m.tag ++ body
  | .legacy => do
    let body ← m.encodeBody
    let framed ← writeVarsize body
    return writeU16 m.tag ++ framed

end HostedMessage
end Canopus
