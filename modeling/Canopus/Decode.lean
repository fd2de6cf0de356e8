import Canopus.Lib.Reader
import Canopus.Wire

/-! Reading the wire messages back (`wire/codecs.rs`, `wire/lcss.rs`, `wire/mod.rs`): the primitive readers, the
    check of a TLV stream, and a decoder for each message. -/

namespace Canopus
open Buffer

inductive DecodeError where
  | eof
  | invalid (text : String)
  deriving DecidableEq, Repr

def DecodeError.text : DecodeError → String
  | .eof => "unexpected end of buffer"
  | .invalid text => s!"invalid value: {text}"

abbrev DecodeResult := Except DecodeError

abbrev Decoder (α : Type) := Reader UInt8 DecodeError α

def invalid {α : Type} (text : String) : Decoder α := fun _ => .error (.invalid text)

/-- A byte in hexadecimal, with two digits. -/
def hexByte (b : UInt8) : String := "0x" ++ String.ofList ((if b < 16 then ['0'] else []) ++ Nat.toDigits 16 b.toNat)

/-! ### Primitive readers -/

/-- The value of a big-endian byte string. -/
def beNat (bs : Bytes) : Nat := bs.foldl (fun acc b => acc * 256 + b.toNat) 0

def readBytes (n : Nat) : Decoder Bytes := fun buf =>
  if buf.length < n then .error .eof else .ok (buf.take n, buf.drop n)

def readU8 : Decoder UInt8 := do return UInt8.ofNat (beNat (← readBytes 1))
def readU16 : Decoder UInt16 := do return UInt16.ofNat (beNat (← readBytes 2))
def readU32 : Decoder UInt32 := do return UInt32.ofNat (beNat (← readBytes 4))
def readU64 : Decoder UInt64 := do return UInt64.ofNat (beNat (← readBytes 8))

def readU64Overflow : Decoder UInt64 := do
  let v ← readU64
  if v > uint64OverflowMax then invalid s!"uint64overflow: value {v} exceeds 2^63 - 1" else return v

def readBool : Decoder Bool := do return (← readU8) != 0

def readVarsize : Decoder Bytes := do
  let len ← readU16
  readBytes len.toNat

def readRemaining : Decoder Bytes := fun buf => .ok (buf, [])

/-- `[u8; n]`. -/
def readArray (n : Nat) : Decoder (ByteVec n) := fun buf =>
  if h : buf.length < n then .error .eof
  else .ok (⟨buf.take n, List.length_take_of_le (Nat.le_of_not_lt h)⟩, buf.drop n)

def read32 : Decoder (ByteVec 32) := readArray 32
def readSignature : Decoder Signature := readArray 64

def tlvTypeHighRange : UInt64 := 0x100000000

/-- A value that a shorter form could hold is refused. -/
def readVarint : Decoder UInt64 := do
  let first ← readU8
  if first = 0xff then do
    let v ← readU64
    if v < tlvTypeHighRange then invalid "non-minimal varint: 0xff prefix for value < 0x100000000" else return v
  else if first = 0xfe then do
    let v ← readU32
    if v < 0x10000 then invalid "non-minimal varint: 0xfe prefix for value < 0x10000" else return v.toUInt64
  else if first = 0xfd then do
    let v ← readU16
    if v < 0xfd then invalid "non-minimal varint: 0xfd prefix for value < 0xfd" else return v.toUInt64
  else return first.toUInt64

def readLengthDelimited : Decoder Bytes := do
  let len ← readVarint
  readBytes len.toNat

/-! ### TLV streams -/

/-- One record of a TLV stream; its tag is returned. -/
def readTlvRecord (prevTag : Option UInt64) : Decoder UInt64 := do
  let tag ← readVarint
  let len ← readVarint
  let _value ← readBytes len.toNat
  if prevTag.any (tag ≤ ·) then invalid "TLV tags must be strictly monotonically increasing"
  else if tag < tlvTypeHighRange && tag % 2 == 0 then invalid s!"unknown even TLV type {tag}"
  else return tag

/-- The records of a stream. Each takes at least two bytes, so that there are fewer rounds than bytes. -/
def readTlvRecords : Nat → Option UInt64 → Decoder Unit
  | 0, _ => pure ()
  | rounds + 1, prevTag => do
    if (← get).isEmpty then pure ()
    else do
      let tag ← readTlvRecord prevTag
      readTlvRecords rounds (some tag)

def validateTlvStream (data : Bytes) : DecodeResult Unit := (readTlvRecords data.length none).run' data

/-- The rest of the buffer, which is to be a TLV stream. -/
def readTlvStream : Decoder Bytes := do
  let tlvStream ← readRemaining
  validateTlvStream tlvStream
  return tlvStream

/-! ### Messages -/

def decodeUpdateAddHtlcBody : Decoder UpdateAddHtlc := do
  let channelId ← read32
  let id ← readU64Overflow
  let amountMsat ← readU64Overflow
  let paymentHash ← read32
  let cltvExpiry ← readU32
  let onionRoutingPacket ← readBytes onionRoutingPacketSize
  let tlvStream ← readTlvStream
  return ⟨channelId, id, amountMsat, paymentHash, cltvExpiry, onionRoutingPacket, tlvStream⟩

/-- Decodes a body that must leave nothing over. -/
def decodeWhole {α : Type} (x : Decoder α) (what : String) (bytes : Bytes) : DecodeResult α := do
  let (a, rest) ← x.run bytes
  if rest.isEmpty then return a else .error (.invalid s!"{rest.length} trailing bytes {what}")

/-- A length-delimited body. -/
def readDelimited {α : Type} (x : Decoder α) (what : String) : Decoder α := do
  let bytes ← readLengthDelimited
  decodeWhole x s!"in {what} length-delimited body" bytes

def InitHostedChannel.decode : Decoder InitHostedChannel := do
  let maxHtlcValueInFlightMsat ← readU64Overflow
  let htlcMinimumMsat ← readU64Overflow
  let maxAcceptedHtlcs ← readU16
  let channelCapacityMsat ← readU64Overflow
  let initialClientBalanceMsat ← readU64Overflow
  let nFeatures ← readU16
  let features ← many readU16 nFeatures.toNat
  return ⟨maxHtlcValueInFlightMsat, htlcMinimumMsat, maxAcceptedHtlcs, channelCapacityMsat, initialClientBalanceMsat,
    features⟩

def LastCrossSignedState.decode : Decoder LastCrossSignedState := do
  let isHost ← readBool
  let lastRefundScriptpubkey ← readVarsize
  let initHostedChannel ← readDelimited InitHostedChannel.decode "init_hosted_channel"
  let blockDay ← readU32
  let localBalanceMsat ← readU64Overflow
  let remoteBalanceMsat ← readU64Overflow
  let localUpdates ← readU32
  let remoteUpdates ← readU32
  let nIn ← readU16
  let incomingHtlcs ← many (readDelimited decodeUpdateAddHtlcBody "incoming HTLC") nIn.toNat
  let nOut ← readU16
  let outgoingHtlcs ← many (readDelimited decodeUpdateAddHtlcBody "outgoing HTLC") nOut.toNat
  let remoteSigOfLocal ← readSignature
  let localSigOfRemote ← readSignature
  return ⟨isHost, lastRefundScriptpubkey, initHostedChannel, blockDay, localBalanceMsat, remoteBalanceMsat, localUpdates,
    remoteUpdates, incomingHtlcs, outgoingHtlcs, remoteSigOfLocal, localSigOfRemote⟩

def InvokeHostedChannel.decode : Decoder InvokeHostedChannel := do
  let chainHash ← read32
  let refundScriptpubkey ← readVarsize
  let secret ← readVarsize
  return ⟨chainHash, refundScriptpubkey, secret⟩

def StateUpdate.decode : Decoder StateUpdate := do
  let blockDay ← readU32
  let localUpdates ← readU32
  let remoteUpdates ← readU32
  let localSigOfRemote ← readSignature
  return ⟨blockDay, localUpdates, remoteUpdates, localSigOfRemote⟩

def StateOverride.decode : Decoder StateOverride := do
  let blockDay ← readU32
  let localBalanceMsat ← readU64Overflow
  let localUpdates ← readU32
  let remoteUpdates ← readU32
  let localSigOfRemote ← readSignature
  return ⟨blockDay, localBalanceMsat, localUpdates, remoteUpdates, localSigOfRemote⟩

def readIcon : Decoder (Option Bytes) := do
  let hasPng ← readU8
  if hasPng != 0 then return some (← readVarsize) else return none

def HostedChannelBranding.decode : Decoder HostedChannelBranding := do
  let rgbColor ← readArray 3
  let pngIcon ← readIcon
  let contactInfo ← readVarsize
  if HostedMessage.isUtf8 contactInfo then return ⟨rgbColor, pngIcon, contactInfo⟩
  else invalid "hosted_channel_branding contact_info is not valid UTF-8"

def AnnouncementSignature.decode : Decoder AnnouncementSignature := do
  let nodeSignature ← readSignature
  let wantsReply ← readBool
  return ⟨nodeSignature, wantsReply⟩

def ResizeChannel.decode : Decoder ResizeChannel := do
  let newCapacitySat ← readU64Overflow
  let clientSig ← readSignature
  return ⟨newCapacitySat, clientSig⟩

def UpdateFulfillHtlc.decodeBody : Decoder UpdateFulfillHtlc := do
  let channelId ← read32
  let id ← readU64Overflow
  let paymentPreimage ← read32
  let tlvStream ← readTlvStream
  return ⟨channelId, id, paymentPreimage, tlvStream⟩

def UpdateFailHtlc.decodeBody : Decoder UpdateFailHtlc := do
  let channelId ← read32
  let id ← readU64Overflow
  let reason ← readVarsize
  let tlvStream ← readTlvStream
  return ⟨channelId, id, reason, tlvStream⟩

def UpdateFailMalformedHtlc.decodeBody : Decoder UpdateFailMalformedHtlc := do
  let channelId ← read32
  let id ← readU64Overflow
  let sha256OfOnion ← read32
  let failureCode ← readU16
  let tlvStream ← readTlvStream
  return ⟨channelId, id, sha256OfOnion, failureCode, tlvStream⟩

def HcError.decode : Decoder HcError := do
  let channelId ← read32
  let data ← readVarsize
  let tlvStream ← readTlvStream
  return ⟨channelId, data, tlvStream⟩

def ChannelUpdate.decode : Decoder ChannelUpdate := do
  let signature ← readSignature
  let chainHash ← read32
  let shortChannelId ← readU64
  let timestamp ← readU32
  let messageFlags ← readU8
  if messageFlags ≠ 0x01 then invalid s!"channel_update message_flags must be 0x01, got {hexByte messageFlags}"
  else do
    let channelFlags ← readU8
    let cltvExpiryDelta ← readU16
    let htlcMinimumMsat ← readU64Overflow
    let feeBaseMsat ← readU32
    let feeProportionalMillionths ← readU32
    let htlcMaximumMsat ← readU64Overflow
    let tlvStream ← readTlvStream
    return ⟨signature, chainHash, shortChannelId, timestamp, messageFlags, channelFlags, cltvExpiryDelta, htlcMinimumMsat,
      feeBaseMsat, feeProportionalMillionths, htlcMaximumMsat, tlvStream⟩

/-- A message and the framing it came in. -/
structure DecodedHostedMessage where
  message : HostedMessage
  encoding : WireEncoding
  deriving DecidableEq

/-- A counted list of 32-byte strings. -/
def read32s : Decoder (List (ByteVec 32)) := do
  let count ← readU16
  many read32 count.toNat

namespace HostedMessage

def decodeWithTag (tag : UInt16) : Decoder HostedMessage :=
  match tag.toNat with
  | 65535 => do return .invokeHostedChannel (← InvokeHostedChannel.decode)
  | 65533 => do return .initHostedChannel (← InitHostedChannel.decode)
  | 65531 => do return .lastCrossSignedState (← LastCrossSignedState.decode)
  | 65529 => do return .stateUpdate (← StateUpdate.decode)
  | 65527 => do return .stateOverride (← StateOverride.decode)
  | 65525 => do return .hostedChannelBranding (← HostedChannelBranding.decode)
  | 65523 => do return .announcementSignature (← AnnouncementSignature.decode)
  | 65521 => do return .resizeChannel (← ResizeChannel.decode)
  | 65519 => do return .queryPublicHostedChannels (← read32)
  | 65517 => do return .replyPublicHostedChannelsEnd (← read32)
  | 65515 => do return .queryPreimages (← read32s)
  | 65513 => do return .replyPreimages (← read32s)
  | 65511 => do return .askBrandingInfo (← read32)
  | 63505 => do return .updateAddHtlc (← decodeUpdateAddHtlcBody)
  | 63503 => do return .updateFulfillHtlc (← UpdateFulfillHtlc.decodeBody)
  | 63501 => do return .updateFailHtlc (← UpdateFailHtlc.decodeBody)
  | 63499 => do return .updateFailMalformedHtlc (← UpdateFailMalformedHtlc.decodeBody)
  | 63497 => do return .error (← HcError.decode)
  | 64509 | 64507 => do return .phcChannelUpdate ⟨tag, ← ChannelUpdate.decode⟩
  | _ => invalid s!"unknown tag {tag}"

def decode (data : Bytes) : DecodeResult HostedMessage :=
  decodeWhole (do decodeWithTag (← readU16)) "after message" data

/-- `tag || u16 length || body`. -/
def decodeLegacy (data : Bytes) : DecodeResult DecodedHostedMessage := do
  let (tag, body) ← decodeWhole (do return (← readU16, ← readVarsize)) "after legacy frame" data
  let message ← decodeWhole (decodeWithTag tag) "after legacy message" body
  return ⟨message, .legacy⟩

/-- The strict layout first, the legacy framing of older clients otherwise. -/
def decodeLegacyAware (data : Bytes) : DecodeResult DecodedHostedMessage :=
  match decode data with
  | .ok message => .ok ⟨message, .strict⟩
  | .error strictErr =>
    match decodeLegacy data with
    | .ok decoded => .ok decoded
    | .error legacyErr =>
      .error (.invalid s!"strict decode failed: {strictErr.text}; legacy decode failed: {legacyErr.text}")

end HostedMessage
end Canopus
