import Canopus.Wire

/-! The state manager (`state.rs`): folds the uncommitted updates into the next last cross-signed
    state. Also the signatures of a state (`wire/lcss.rs`) and the cryptography they rest on, which
    is a parameter. -/

namespace Canopus

/-- The result of peeling an onion: where to forward, how much, and the packet for the next hop. -/
structure PeeledOnion where
  shortChannelId : UInt64
  amtToForward : UInt64
  outgoingCltvValue : UInt32
  nextOnion : Bytes
  sharedSecret : ByteVec 32

/-- The primitives of secp256k1 and SHA-256, and the onion layer built on them (`sphinx.rs`). A
    signature that does not parse does not verify. -/
structure Crypto where
  sha256 : Bytes → Hash
  signEcdsa : Hash → SecretKey → Signature
  verifyEcdsa : Hash → Signature → PublicKey → Bool
  peelOnion : SecretKey → Bytes → Bytes → Option PeeledOnion
  wrapFailure : ByteVec 32 → Bytes → Bytes
  createSingleHopOnion : ByteVec 32 → PublicKey → UInt64 → UInt32 → Option (ByteVec 32) → Hash → Except String Bytes

/-! ### Pending updates (`store.rs`) -/

inductive PendingUpdate where
  | add (htlc : UpdateAddHtlc)
  | fulfill (channelId : ByteVec 32) (id : UInt64) (preimage : ByteVec 32)
  | fail (channelId : ByteVec 32) (id : UInt64) (reason : Bytes)
  | failMalformed (channelId : ByteVec 32) (id : UInt64) (sha256OfOnion : Hash) (failureCode : UInt16)
  deriving DecidableEq

/-- An update not yet folded into a cross-signed state, by the party that made it. -/
inductive UncommittedUpdate where
  | ofLocal (u : PendingUpdate)
  | ofRemote (u : PendingUpdate)
  deriving DecidableEq

def UncommittedUpdate.isLocal : UncommittedUpdate → Bool
  | .ofLocal _ => true
  | .ofRemote _ => false

def UncommittedUpdate.isRemote : UncommittedUpdate → Bool
  | .ofLocal _ => false
  | .ofRemote _ => true

/-! ### Signatures -/

namespace LastCrossSignedState

def hostedSigHash (C : Crypto) (s : LastCrossSignedState) : EncodeResult Hash := do
  let material ← s.sigMaterial
  return C.sha256 material

/-- Signs the peer's view of the state. -/
def sign (C : Crypto) (key : SecretKey) (s : LastCrossSignedState) : EncodeResult LastCrossSignedState := do
  let reverseHash ← s.reverse.hostedSigHash C
  return { s with localSigOfRemote := C.signEcdsa reverseHash key }

/-- `remoteSigOfLocal` is a signature of `key` over this view of the state. -/
def verifyRemoteSig (C : Crypto) (key : PublicKey) (s : LastCrossSignedState) : Bool :=
  match s.hostedSigHash C with
  | .ok hash => C.verifyEcdsa hash s.remoteSigOfLocal key
  | .error _ => false

end LastCrossSignedState

def ResizeChannel.sigHash (C : Crypto) (m : ResizeChannel) : Hash := C.sha256 (leBytes 8 m.newCapacitySat.toNat)

def ResizeChannel.verifyClientSig (C : Crypto) (key : PublicKey) (m : ResizeChannel) : Bool :=
  C.verifyEcdsa (m.sigHash C) m.clientSig key

/-! ### The fold -/

inductive StateError where
  | negativeBalance (balance amount : UInt64)
  | htlcNotFound (id : UInt64)
  | wrongPreimage
  | overflow
  deriving DecidableEq, Repr

structure StateManager where
  lcss : LastCrossSignedState
  uncommitted : List UncommittedUpdate

namespace StateManager

def new (lcss : LastCrossSignedState) : StateManager := ⟨lcss, []⟩

def nextLocalUpdates (sm : StateManager) : UInt32 :=
  sm.lcss.localUpdates + UInt32.ofNat (sm.uncommitted.countP (·.isLocal))

def nextRemoteUpdates (sm : StateManager) : UInt32 :=
  sm.lcss.remoteUpdates + UInt32.ofNat (sm.uncommitted.countP (·.isRemote))

def addLocal (sm : StateManager) (update : PendingUpdate) : StateManager :=
  { sm with uncommitted := sm.uncommitted ++ [.ofLocal update] }

def addRemote (sm : StateManager) (update : PendingUpdate) : StateManager :=
  { sm with uncommitted := sm.uncommitted ++ [.ofRemote update] }

/-- Adds an update of either party. -/
def add (sm : StateManager) : UncommittedUpdate → StateManager
  | .ofLocal update => sm.addLocal update
  | .ofRemote update => sm.addRemote update

/-- Replaces the committed state and drops the uncommitted updates. -/
def commit (sm : StateManager) (lcss : LastCrossSignedState) : StateManager :=
  { sm with lcss := lcss, uncommitted := [] }

/-- Takes the first HTLC with the given id out of a list. -/
def takeHtlc (htlcs : List UpdateAddHtlc) (id : UInt64) : Except StateError (UpdateAddHtlc × List UpdateAddHtlc) :=
  match htlcs.find? (·.id == id) with
  | some htlc => .ok (htlc, htlcs.eraseP (·.id == id))
  | none => .error (.htlcNotFound id)

def debit (balance amount : UInt64) : Except StateError UInt64 :=
  match checkedSub balance amount with
  | some b => .ok b
  | none => .error (.negativeBalance balance amount)

def credit (balance amount : UInt64) : Except StateError UInt64 :=
  match checkedAdd balance amount with
  | some b => .ok b
  | none => .error .overflow

/-- One round of the loop of `lcss_next`. -/
def applyUpdate (C : Crypto) (next : LastCrossSignedState) : UncommittedUpdate → Except StateError LastCrossSignedState
  | .ofLocal (.add htlc) => do
    let balance ← debit next.localBalanceMsat htlc.amountMsat
    return { next with
      localBalanceMsat := balance, outgoingHtlcs := next.outgoingHtlcs ++ [htlc],
      localUpdates := next.localUpdates + 1 }
  | .ofRemote (.add htlc) => do
    let balance ← debit next.remoteBalanceMsat htlc.amountMsat
    return { next with
      remoteBalanceMsat := balance, incomingHtlcs := next.incomingHtlcs ++ [htlc],
      remoteUpdates := next.remoteUpdates + 1 }
  | .ofLocal (.fulfill _ id preimage) => do
    let (htlc, rest) ← takeHtlc next.incomingHtlcs id
    if C.sha256 preimage.toList ≠ htlc.paymentHash then .error .wrongPreimage
    else
      let balance ← credit next.localBalanceMsat htlc.amountMsat
      return { next with
        incomingHtlcs := rest, localBalanceMsat := balance, localUpdates := next.localUpdates + 1 }
  | .ofRemote (.fulfill _ id preimage) => do
    let (htlc, rest) ← takeHtlc next.outgoingHtlcs id
    if C.sha256 preimage.toList ≠ htlc.paymentHash then .error .wrongPreimage
    else
      let balance ← credit next.remoteBalanceMsat htlc.amountMsat
      return { next with
        outgoingHtlcs := rest, remoteBalanceMsat := balance, remoteUpdates := next.remoteUpdates + 1 }
  | .ofLocal (.fail _ id _) | .ofLocal (.failMalformed _ id _ _) => do
    let (htlc, rest) ← takeHtlc next.incomingHtlcs id
    let balance ← credit next.remoteBalanceMsat htlc.amountMsat
    return { next with
      incomingHtlcs := rest, remoteBalanceMsat := balance, localUpdates := next.localUpdates + 1 }
  | .ofRemote (.fail _ id _) | .ofRemote (.failMalformed _ id _ _) => do
    let (htlc, rest) ← takeHtlc next.outgoingHtlcs id
    let balance ← credit next.localBalanceMsat htlc.amountMsat
    return { next with
      outgoingHtlcs := rest, localBalanceMsat := balance, remoteUpdates := next.remoteUpdates + 1 }

def applyUpdates (C : Crypto) : LastCrossSignedState → List UncommittedUpdate →
    Except StateError LastCrossSignedState
  | next, [] => .ok next
  | next, u :: us => do applyUpdates C (← applyUpdate C next u) us

/-- The next state: all uncommitted updates folded into the committed one. It is not signed. -/
def lcssNext (C : Crypto) (sm : StateManager) : Except StateError LastCrossSignedState := do
  let next ← applyUpdates C { sm.lcss with localUpdates := 0, remoteUpdates := 0 } sm.uncommitted
  return { next with
    localUpdates := sm.nextLocalUpdates, remoteUpdates := sm.nextRemoteUpdates, blockDay := sm.lcss.blockDay }

end StateManager
end Canopus
