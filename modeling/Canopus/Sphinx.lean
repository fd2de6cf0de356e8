import Canopus.Decode
import Canopus.Lib.Mask
import Canopus.State

/-! Payment onions (`sphinx.rs`): peeling a packet, wrapping a failure, and building the packet of a route of one or two
    hops. Slices are taken as the code takes them: one that is out of bounds panics, and a release build aborts. The
    curve, HMAC and ChaCha20 are a parameter. Allocation is not modelled. -/

namespace Canopus.Sphinx
open Mask

def onionRoutingInfoSize : Nat := 1300
def onionPacketSize : Nat := 1366

/-- `b"rho"`, `b"mu"` and `b"um"`. -/
def keyRho : Bytes := [114, 104, 111]
def keyMu : Bytes := [109, 117]
def keyUm : Bytes := [117, 109]

inductive SphinxError where
  | invalidSize (size : Nat)
  | unsupportedVersion (version : UInt8)
  | hmacFailed
  | invalidEphemeralKey
  | ecdhFailed
  | invalidPayload (reason : String)
  | unsupportedPayload (reason : String)
  deriving DecidableEq, Repr

def SphinxError.text : SphinxError → String
  | .invalidSize size => s!"invalid onion packet size: {size}"
  | .unsupportedVersion version => s!"unsupported onion version: {version}"
  | .hmacFailed => "HMAC verification failed"
  | .invalidEphemeralKey => "invalid ephemeral public key"
  | .ecdhFailed => "ECDH failed"
  | .invalidPayload reason => s!"invalid hop payload: {reason}"
  | .unsupportedPayload reason => s!"unsupported onion payload: {reason}"

/-- How a call ends without a value: with an error, with a panic, or not at all. -/
inductive Fault where
  | error (e : SphinxError)
  | panicked
  | endless
  deriving DecidableEq, Repr

abbrev Result := Except Fault

def fail {α : Type} (e : SphinxError) : Result α := .error (.error e)
def invalidPayload {α : Type} (reason : String) : Result α := fail (.invalidPayload reason)

/-! ### Lengths and slices -/

/-- The two builds of the program. Sums of lengths (`usize`) wrap in a release build; a debug build panics instead. -/
inductive Build where
  | release
  | debug
  deriving DecidableEq, Repr

def Build.add (build : Build) (m n : Nat) : Result Nat :=
  if m + n < 2 ^ 64 then .ok (m + n)
  else match build with
    | .release => .ok ((m + n) % 2 ^ 64)
    | .debug => .error .panicked

/-- `checked_add` of lengths. -/
def checkedAddLen (m n : Nat) : Option Nat := if m + n < 2 ^ 64 then some (m + n) else none

/-- `&data[start..stop]`. -/
def slice (data : Bytes) (start stop : Nat) : Result Bytes :=
  if start ≤ stop ∧ stop ≤ data.length then .ok ((data.drop start).take (stop - start)) else .error .panicked

/-- `&data[start..]`. -/
def sliceFrom (data : Bytes) (start : Nat) : Result Bytes := slice data start data.length

/-- `data[i]`. -/
def index (data : Bytes) (i : Nat) : Result UInt8 :=
  match data[i]? with
  | some b => .ok b
  | none => .error .panicked

/-! ### Primitives -/

/-- secp256k1, SHA-256, HMAC-SHA-256 and the keystream of ChaCha20 with a zero nonce. -/
structure Primitives where
  sha256 : Bytes → Hash
  hmacSha256 : Bytes → Bytes → ByteVec 32
  chacha20 : ByteVec 32 → (length : Nat) → ByteVec length
  /-- the bytes are the serialization of a point, -/
  isPublicKey : PublicKey → Bool
  /-- of a secret key, -/
  isSecretKey : SecretKey → Bool
  /-- of a scalar, which may be zero. -/
  isScalar : ByteVec 32 → Bool
  publicKey : SecretKey → PublicKey
  mulPublicKey : PublicKey → ByteVec 32 → Option PublicKey
  mulSecretKey : SecretKey → ByteVec 32 → Option SecretKey

/-- `PublicKey::from_slice`, of a slice of 33 bytes. -/
def publicKeyFromSlice (P : Primitives) (data : Bytes) : Result PublicKey :=
  if h : data.length = 33 then
    if P.isPublicKey ⟨data, h⟩ then .ok ⟨data, h⟩ else fail .invalidEphemeralKey
  else fail .invalidEphemeralKey

/-- The keys `rho`, `mu` and `um` of a shared secret. -/
def deriveKeys (P : Primitives) (sharedSecret : ByteVec 32) : ByteVec 32 × ByteVec 32 × ByteVec 32 :=
  (P.hmacSha256 keyRho sharedSecret.toList, P.hmacSha256 keyMu sharedSecret.toList,
    P.hmacSha256 keyUm sharedSecret.toList)

def ecdh (P : Primitives) (privkey : SecretKey) (pubkey : PublicKey) : Result (ByteVec 32) :=
  if P.isScalar privkey then
    match P.mulPublicKey pubkey privkey with
    | some point => .ok (P.sha256 point.toList)
    | none => fail .ecdhFailed
  else fail .ecdhFailed

def constantTimeEq (a b : Bytes) : Bool :=
  if a.length ≠ b.length then false
  else (a.zip b).foldl (fun acc x => acc ||| (x.1 ^^^ x.2)) 0 == 0

def chacha20Stream (P : Primitives) (key : ByteVec 32) (length : Nat) : Bytes := (P.chacha20 key length).toList

def xorInPlace (dst src : Bytes) : Bytes := mask (· ^^^ ·) dst src

def blindingFactor (P : Primitives) (pubkey : PublicKey) (sharedSecret : ByteVec 32) : ByteVec 32 :=
  P.sha256 (pubkey.toList ++ sharedSecret.toList)

def blindPubkey (P : Primitives) (pubkey : PublicKey) (blindingFactor : ByteVec 32) : Result PublicKey :=
  if P.isScalar blindingFactor then
    match P.mulPublicKey pubkey blindingFactor with
    | some blinded => .ok blinded
    | none => fail .invalidEphemeralKey
  else fail .invalidEphemeralKey

/-! ### Payloads -/

structure PayloadFields where
  shortChannelId : Option UInt64
  amtToForward : Option UInt64
  outgoingCltvValue : Option UInt32
  deriving DecidableEq, Repr

def readBigsize (data : Bytes) : Result (UInt64 × Nat) :=
  match data with
  | [] => invalidPayload "empty varint"
  | first :: rest =>
    if first = 0xfd then
      if data.length < 3 then invalidPayload "short varint"
      else
        let value := UInt64.ofNat (beNat (rest.take 2))
        if value < 0xfd then invalidPayload "non-canonical bigsize" else .ok (value, 3)
    else if first = 0xfe then
      if data.length < 5 then invalidPayload "short varint"
      else
        let value := UInt64.ofNat (beNat (rest.take 4))
        if value ≤ 0xffff then invalidPayload "non-canonical bigsize" else .ok (value, 5)
    else if first = 0xff then
      if data.length < 9 then invalidPayload "short varint"
      else
        let value := UInt64.ofNat (beNat (rest.take 8))
        if value ≤ 0xffffffff then invalidPayload "non-canonical bigsize" else .ok (value, 9)
    else .ok (first.toUInt64, 1)

/-- A truncated integer: big-endian without leading zeros, but never empty. -/
def beTu (value : Bytes) (maxLen : Nat) : Result UInt64 :=
  if value.isEmpty || value.length > maxLen || value.length > 8 then invalidPayload "invalid integer length"
  else if value.length > 1 && value.head? == some 0 then invalidPayload "non-minimal truncated integer"
  else .ok (UInt64.ofNat (beNat value))

/-- What a record of the payload sets. -/
def tlvField (fields : PayloadFields) (tlvType : UInt64) (value : Bytes) : Result PayloadFields :=
  match tlvType.toNat with
  | 2 => do
    let amount ← beTu value 8
    return { fields with amtToForward := some amount }
  | 4 => do
    let cltv ← beTu value 4
    return { fields with outgoingCltvValue := some cltv.toUInt32 }
  | 6 =>
    if value.length ≠ 8 then invalidPayload "short_channel_id must be 8 bytes"
    else .ok { fields with shortChannelId := some (UInt64.ofNat (beNat value)) }
  | 8 | 16 | 18 => .ok fields
  | 10 | 12 => fail (.unsupportedPayload "blinded payment payloads are not supported")
  | _ => if tlvType % 2 = 0 then invalidPayload s!"unknown even TLV type {tlvType}" else .ok fields

/-- The state of the loop of `parse_tlv_payload`. -/
structure TlvState where
  consumed : Nat
  lastType : Option UInt64
  fields : PayloadFields

/-- One round of the loop. -/
def tlvRecord (build : Build) (data : Bytes) (s : TlvState) : Result TlvState := do
  let (tlvType, typeLen) ← readBigsize (← sliceFrom data s.consumed)
  if s.lastType.any (tlvType ≤ ·) then invalidPayload "TLV types must be strictly increasing"
  else do
    let consumed ← build.add s.consumed typeLen
    let (len, lenSize) ← readBigsize (← sliceFrom data consumed)
    let consumed ← build.add consumed lenSize
    let stop ← build.add consumed len.toNat
    if stop > data.length then invalidPayload "TLV value out of bounds"
    else do
      let value ← slice data consumed stop
      let fields ← tlvField s.fields tlvType value
      return ⟨stop, some tlvType, fields⟩

/-- The loop, for at most the given number of rounds. -/
def tlvRecords (build : Build) (data : Bytes) : Nat → TlvState → Result PayloadFields
  | 0, s => if s.consumed < data.length then .error .endless else .ok s.fields
  | rounds + 1, s =>
    if s.consumed < data.length then do
      let s ← tlvRecord build data s
      tlvRecords build data rounds s
    else .ok s.fields

def parseTlvPayload (build : Build) (data : Bytes) (isFinal : Bool) : Result PayloadFields := do
  let fields ← tlvRecords build data data.length ⟨0, none, ⟨none, none, none⟩⟩
  if fields.amtToForward.isNone then invalidPayload "missing amt_to_forward"
  else if fields.outgoingCltvValue.isNone then invalidPayload "missing outgoing_cltv_value"
  else if !isFinal && fields.shortChannelId.isNone then invalidPayload "missing short_channel_id for non-final payload"
  else return fields

/-! ### Peeling -/

/-- A packet whose HMAC is right, with its routing info decrypted and extended by keystream. -/
structure Unwrapped where
  version : UInt8
  ephemeralPubkey : PublicKey
  sharedSecret : ByteVec 32
  unwrapped : Bytes

/-- The first half of `peel_onion`: checks the packet and decrypts it. -/
def unwrap (P : Primitives) (build : Build) (nodePrivkey : SecretKey) (onion associatedData : Bytes) :
    Result Unwrapped :=
  if onion.length ≠ onionPacketSize then fail (.invalidSize onion.length)
  else do
    let version ← index onion 0
    if version ≠ 0 then fail (.unsupportedVersion version)
    else do
      let ephemeralPubkey ← publicKeyFromSlice P (← slice onion 1 34)
      let hopData ← slice onion 34 (34 + onionRoutingInfoSize)
      let hmacInPacket ← slice onion (34 + onionRoutingInfoSize) (34 + onionRoutingInfoSize + 32)
      let sharedSecret ← ecdh P nodePrivkey ephemeralPubkey
      let (rho, mu, _) := deriveKeys P sharedSecret
      let _capacity ← build.add onionRoutingInfoSize associatedData.length
      let computedHmac := P.hmacSha256 mu.toList (hopData ++ associatedData)
      if !constantTimeEq computedHmac.toList hmacInPacket then fail .hmacFailed
      else
        let stream := chacha20Stream P rho (onionRoutingInfoSize * 2)
        return ⟨version, ephemeralPubkey, sharedSecret,
          xorInPlace (hopData ++ List.replicate onionRoutingInfoSize 0) stream⟩

/-- The parts of decrypted routing info. -/
structure HopParts where
  payload : Bytes
  nextHmac : Bytes
  remaining : Bytes

def splitHop (unwrapped : Bytes) : Result HopParts := do
  let (payloadLen, lenSize) ← readBigsize unwrapped
  if payloadLen < 2 then invalidPayload "payload length below minimum"
  else
    let payloadStart := lenSize
    match checkedAddLen payloadStart payloadLen.toNat with
    | none => invalidPayload "payload length overflow"
    | some payloadEnd =>
      match checkedAddLen payloadEnd 32 with
      | none => invalidPayload "next hmac overflow"
      | some nextHmacEnd =>
        if nextHmacEnd > unwrapped.length then invalidPayload "payload exceeds onion routing info"
        else do
          let payload ← slice unwrapped payloadStart payloadEnd
          let nextHmac ← slice unwrapped payloadEnd nextHmacEnd
          let remaining ← sliceFrom unwrapped nextHmacEnd
          if remaining.length < onionRoutingInfoSize then invalidPayload "not enough forwarding payload"
          else return ⟨payload, nextHmac, remaining⟩

/-- The packet for the next hop. -/
def nextPacket (P : Primitives) (u : Unwrapped) (parts : HopParts) : Result Bytes := do
  let blinding := blindingFactor P u.ephemeralPubkey u.sharedSecret
  let nextEphemeral ← blindPubkey P u.ephemeralPubkey blinding
  let forwarded ← slice parts.remaining 0 onionRoutingInfoSize
  return u.version :: (nextEphemeral.toList ++ forwarded ++ parts.nextHmac)

def peelOnion (P : Primitives) (build : Build) (nodePrivkey : SecretKey) (onion associatedData : Bytes) :
    Result PeeledOnion := do
  let u ← unwrap P build nodePrivkey onion associatedData
  let parts ← splitHop u.unwrapped
  let isFinal := parts.nextHmac.all (· == 0)
  let fields ← parseTlvPayload build parts.payload isFinal
  let nextOnion ← if isFinal then pure [] else nextPacket P u parts
  match fields.amtToForward, fields.outgoingCltvValue with
  | some amtToForward, some outgoingCltvValue =>
    return ⟨fields.shortChannelId.getD 0, amtToForward, outgoingCltvValue, nextOnion, u.sharedSecret⟩
  | _, _ => .error .panicked

/-! ### Failures -/

/-- `Vec::resize` with zeros. -/
def resize (data : Bytes) (length : Nat) : Bytes := data.take length ++ List.replicate (length - data.length) 0

def wrapFailure (P : Primitives) (sharedSecret : ByteVec 32) (failureMessage : Bytes) : Bytes :=
  let (_, _, um) := deriveKeys P sharedSecret
  let len := UInt16.ofNat failureMessage.length
  let padded := resize (beBytes 2 len.toNat ++ failureMessage) 256
  xorInPlace padded (chacha20Stream P um 256)

/-! ### Building -/

def writeBigsize (value : UInt64) : Bytes :=
  if value < 0xfd then [value.toUInt8]
  else if value ≤ 0xffff then [0xfd] ++ beBytes 2 value.toUInt16.toNat
  else if value ≤ 0xffffffff then [0xfe] ++ beBytes 4 value.toUInt32.toNat
  else [0xff] ++ beBytes 8 value.toNat

def bigsizeLen (value : UInt64) : Nat :=
  if value < 0xfd then 1 else if value ≤ 0xffff then 3 else if value ≤ 0xffffffff then 5 else 9

def encodedHopDataLen (payloadLen : Nat) : Nat := bigsizeLen (UInt64.ofNat payloadLen) + payloadLen + 32

def writeTlvU64 (tlvType value : UInt64) : Bytes :=
  let bytes := beBytes 8 value.toNat
  let firstNonZero := (bytes.findIdx? (· != 0)).getD (bytes.length - 1)
  let valueBytes := bytes.drop firstNonZero
  writeBigsize tlvType ++ writeBigsize (UInt64.ofNat valueBytes.length) ++ valueBytes

/-- The amount of the payment data, which is empty for zero. -/
def amountBytes (amountMsat : UInt64) : Result Bytes :=
  let bytes := beBytes 8 amountMsat.toNat
  if amountMsat = 0 then sliceFrom bytes bytes.length
  else match bytes.findIdx? (· != 0) with
    | some firstNonZero => sliceFrom bytes firstNonZero
    | none => .error .panicked

def buildPayload (amountMsat : UInt64) (cltvExpiry : UInt32) (shortChannelId : Option UInt64)
    (paymentSecret : Option (ByteVec 32)) : Result Bytes := do
  let amount := writeTlvU64 2 amountMsat
  let cltv := writeTlvU64 4 cltvExpiry.toUInt64
  let scid := match shortChannelId with
    | some shortChannelId => writeBigsize 6 ++ writeBigsize 8 ++ beBytes 8 shortChannelId.toNat
    | none => []
  match paymentSecret with
  | none => return amount ++ cltv ++ scid
  | some secret => do
    let amountBytes ← amountBytes amountMsat
    return amount ++ cltv ++ scid ++ (writeBigsize 8 ++ writeBigsize (UInt64.ofNat (33 + amountBytes.length)) ++
      secret.toList ++ [UInt8.ofNat amountBytes.length] ++ amountBytes)

/-- The shared secret with each hop of a route. -/
def sharedSecrets (P : Primitives) : SecretKey → List PublicKey → Result (List (ByteVec 32))
  | _, [] => .ok []
  | ephemeralSecret, pubkey :: hops => do
    let ephemeralPubkey := P.publicKey ephemeralSecret
    let sharedSecret ← ecdh P ephemeralSecret pubkey
    let blinding := blindingFactor P ephemeralPubkey sharedSecret
    if P.isScalar blinding then
      match P.mulSecretKey ephemeralSecret blinding with
      | some ephemeralSecret => do
        let rest ← sharedSecrets P ephemeralSecret hops
        return sharedSecret :: rest
      | none => fail .invalidEphemeralKey
    else fail .invalidEphemeralKey

/-- The end of the last hop's packet, where there are two hops: what the first hop extends its packet with. -/
def finalFiller (P : Primitives) (payloads : List Bytes) (secrets : List (ByteVec 32)) : Result (Option Bytes) :=
  match payloads, secrets with
  | [payload, _], secret :: _ => do
    let firstShift := encodedHopDataLen payload.length
    let (rho, _, _) := deriveKeys P secret
    let stream := chacha20Stream P rho (onionRoutingInfoSize * 2)
    let filler ← slice stream onionRoutingInfoSize (onionRoutingInfoSize + firstShift)
    return some filler
  | _, _ => return none

/-- One round of the loop that wraps the packet of a hop around that of the next; `filler` is given at the last hop. -/
def wrapHop (P : Primitives) (associatedData : Bytes) (filler : Option Bytes) (payload : Bytes) (secret : ByteVec 32)
    (hopPayloads : Bytes) (nextHmac : ByteVec 32) : Result (Bytes × ByteVec 32) :=
  let hopData := writeBigsize (UInt64.ofNat payload.length) ++ payload ++ nextHmac.toList
  if hopData.length > onionRoutingInfoSize then invalidPayload "payload too large"
  else do
    let kept ← slice hopPayloads 0 (onionRoutingInfoSize - hopData.length)
    let (rho, mu, _) := deriveKeys P secret
    let shifted := xorInPlace (hopData ++ kept) (chacha20Stream P rho onionRoutingInfoSize)
    let shifted ← match filler with
      | some filler =>
        if filler.length > onionRoutingInfoSize - hopData.length then invalidPayload "filler too large"
        else do
          let front ← slice shifted 0 (onionRoutingInfoSize - filler.length)
          pure (front ++ filler)
      | none => pure shifted
    return (shifted, P.hmacSha256 mu.toList (shifted ++ associatedData))

/-- The loop, from the last hop to the first. -/
def wrapHops (P : Primitives) (associatedData : Bytes) (filler : Option Bytes) :
    List (Bytes × ByteVec 32) → Result (Bytes × ByteVec 32)
  | [] => .ok (List.replicate onionRoutingInfoSize 0, ByteVec.fill 32 0)
  | (payload, secret) :: hops => do
    let (hopPayloads, nextHmac) ← wrapHops P associatedData filler hops
    wrapHop P associatedData (if hops.isEmpty then filler else none) payload secret hopPayloads nextHmac

/-- `session` is the random session key. -/
def createPaymentOnion (P : Primitives) (session : SecretKey) (hops : List (PublicKey × Bytes)) (associatedData : Bytes) :
    Result Bytes :=
  if hops.isEmpty then invalidPayload "empty route"
  else if hops.length > 2 then fail (.unsupportedPayload "test onion construction supports at most two hops")
  else do
    let firstEphemeral := P.publicKey session
    let secrets ← sharedSecrets P session (hops.map (·.1))
    let filler ← finalFiller P (hops.map (·.2)) secrets
    let (hopPayloads, nextHmac) ← wrapHops P associatedData filler ((hops.map (·.2)).zip secrets)
    return 0 :: (firstEphemeral.toList ++ hopPayloads ++ nextHmac.toList)

def createOnion (P : Primitives) (session : SecretKey) (recipientPubkey : PublicKey) (amountMsat : UInt64)
    (cltvExpiry : UInt32) (shortChannelId : UInt64) (paymentSecret : Option (ByteVec 32)) (associatedData : Bytes) :
    Result Bytes := do
  let payload ← buildPayload amountMsat cltvExpiry (if shortChannelId ≠ 0 then some shortChannelId else none)
    paymentSecret
  createPaymentOnion P session [(recipientPubkey, payload)] associatedData

def createSingleHopOnion (P : Primitives) (session : SecretKey) (recipientPubkey : PublicKey) (amountMsat : UInt64)
    (cltvExpiry : UInt32) (paymentSecret : Option (ByteVec 32)) (paymentHash : Hash) : Result Bytes :=
  createOnion P session recipientPubkey amountMsat cltvExpiry 0 paymentSecret paymentHash.toList

def createRelayOnion (P : Primitives) (session : SecretKey) (recipientPubkey nextPubkey : PublicKey)
    (shortChannelId amountMsat : UInt64) (cltvExpiry : UInt32) (paymentHash : Hash) : Result Bytes := do
  let relayPayload ← buildPayload amountMsat cltvExpiry (some shortChannelId) none
  let finalPayload ← buildPayload amountMsat cltvExpiry none none
  createPaymentOnion P session [(recipientPubkey, relayPayload), (nextPubkey, finalPayload)] paymentHash.toList

/-! ### The onion layer of a host -/

def Fault.text : Fault → String
  | .error e => e.text
  | .panicked => "panicked"
  | .endless => "endless"

/-- The cryptography of a host, in a release build. A peeling that panics ends the process: what follows it here is
    never run. -/
def Primitives.crypto (P : Primitives) (signEcdsa : Hash → SecretKey → Signature)
    (verifyEcdsa : Hash → Signature → PublicKey → Bool) : Crypto where
  sha256 := P.sha256
  signEcdsa := signEcdsa
  verifyEcdsa := verifyEcdsa
  peelOnion nodePrivkey onion associatedData := (peelOnion P .release nodePrivkey onion associatedData).toOption
  wrapFailure := wrapFailure P
  createSingleHopOnion session recipientPubkey amountMsat cltvExpiry paymentSecret paymentHash :=
    (createSingleHopOnion P session recipientPubkey amountMsat cltvExpiry paymentSecret paymentHash).mapError Fault.text

end Canopus.Sphinx
