import Canopus.MemoryStore
import Canopus.Channel.Operator

/-! How the controller reaches its records in a store: the keys (`channel.rs`, `ledger.rs`) and the typed helpers
    (`store.rs`). What JSON looks like is a parameter. -/

namespace Canopus

/-- `hex::encode`. -/
def hexEncode (bs : Bytes) : String :=
  String.ofList (bs.flatMap fun b => [(b.toNat / 16).digitChar, (b.toNat % 16).digitChar])

/-! ### Keys -/

/-- What follows the counters. -/
def EventTag.parts : EventTag → List String
  | .channelOpen => ["open"]
  | .override => ["override"]
  | .resize capacityMsat => ["resize", toString capacityMsat.toNat]
  | .localAdd id => ["local-add", toString id.toNat]
  | .remoteAdd id => ["remote-add", toString id.toNat]
  | .localFulfill id => ["local-fulfill", toString id.toNat]
  | .remoteFulfill id => ["remote-fulfill", toString id.toNat]
  | .localFail id => ["local-fail", toString id.toNat]
  | .remoteFail id => ["remote-fail", toString id.toNat]

def EventId.text (e : EventId) : String :=
  ":".intercalate (hexEncode e.peer.toList :: toString e.localUpdates.toNat :: toString e.remoteUpdates.toNat :: e.tag.parts)

def channelKey (peer : PublicKey) : Key := ["canopus", "channels", hexEncode peer.toList]

def secretKey (secret : Bytes) : Key := ["canopus", "secrets", hexEncode secret]

def forwardKey (scid htlcId : UInt64) : Key := ["canopus", "htlc_forwards", toString scid.toNat, toString htlcId.toNat]

def policyKey : Key := ["canopus", "policy"]

def metaKey : Key := ["canopus", "meta"]

def ledgerKey (seq : UInt64) : Key := ["canopus", "ledger", toString seq.toNat]

def markerKey (eventId : EventId) : Key := ["canopus", "ledger_event_ids", eventId.text]

/-- The key of a record. -/
def recordKey : (n : Ns) → n.Key → Key
  | .channels, peer => channelKey peer
  | .secrets, secret => secretKey secret
  | .htlcForwards, key => forwardKey key.1 key.2
  | .policy, _ => policyKey
  | .metadata, _ => metaKey
  | .ledger, seq => ledgerKey seq
  | .ledgerEventIds, eventId => markerKey eventId

/-! ### Records as JSON -/

/-- `serde_json::to_vec` and `serde_json::from_slice` at the types of the records. -/
structure JsonCodec where
  toVec : (n : Ns) → n.Val → Bytes
  fromSlice : (n : Ns) → Bytes → Option n.Val

namespace Store
variable {σ : Type} (store : Store σ) (J : JsonCodec)

def getJson (n : Ns) (k : n.Key) (s : σ) : Except StoreError (n.Val × Nat) :=
  match store.get (recordKey n k) s with
  | .error e => .error e
  | .ok (generation, bytes) =>
    match J.fromSlice n bytes with
    | none => .error (.backend "deserialize error")
    | some v => .ok (v, generation)

def createJson (n : Ns) (k : n.Key) (v : n.Val) (s : σ) : Except StoreError Unit × σ :=
  store.create (recordKey n k) (J.toVec n v) s

def updateJson (n : Ns) (k : n.Key) (v : n.Val) (expectedGeneration : Nat) (s : σ) : Except StoreError Unit × σ :=
  store.update (recordKey n k) (J.toVec n v) expectedGeneration s

/-- The peer of a child of `canopus/channels`, if the last component is hex of 33 bytes. -/
def peerOf (child : Key) : Option PublicKey := do
  let hexId ← child.getLast?
  let bytes ← hexDecode hexId.toList
  if h : bytes.length = 33 then some ⟨bytes, h⟩ else none

def listChannels (s : σ) : Except StoreError (List PublicKey) := do
  return (← store.list ["canopus", "channels"] s).filterMap peerOf

end Store

/-- The controller's calls of the store. -/
inductive StoreCall where
  | get (n : Ns) (k : n.Key)
  | existsKey (n : Ns) (k : n.Key)
  | create (n : Ns) (k : n.Key) (v : n.Val)
  | update (n : Ns) (k : n.Key) (v : n.Val) (generation : Nat)
  | delete (n : Ns) (k : n.Key)
  | listChannels
  | listForwardScids
  | listForwards (scid : UInt64)

namespace StoreCall

/-- Forward links are listed by their keys. -/
abbrev Ans : StoreCall → Type
  | get n _ => Except StoreError (n.Val × Nat)
  | existsKey _ _ => Except StoreError Bool
  | create _ _ _ | update _ _ _ _ | delete _ _ => Except StoreError Unit
  | listChannels => Except StoreError (List PublicKey)
  | listForwardScids | listForwards _ => Except StoreError (List Key)

def exec {σ : Type} (store : Store σ) (J : JsonCodec) : (c : StoreCall) → σ → c.Ans × σ
  | get n k, s => (store.getJson J n k s, s)
  | existsKey n k, s => (store.existsKey (recordKey n k) s, s)
  | create n k v, s => store.createJson J n k v s
  | update n k v generation, s => store.updateJson J n k v generation s
  | delete n k, s => store.delete (recordKey n k) s
  | listChannels, s => (store.listChannels s, s)
  | listForwardScids, s => (store.list ["canopus", "htlc_forwards"] s, s)
  | listForwards scid, s => (store.list ["canopus", "htlc_forwards", toString scid.toNat] s, s)

/-- The call of the controller. -/
def call : StoreCall → Call
  | get n k => .get n k
  | existsKey n k => .existsKey n k
  | create n k v => .create n k v
  | update n k v generation => .update n k v generation
  | delete n k => .delete n k
  | listChannels => .listChannels
  | listForwardScids => .listForwardScids
  | listForwards scid => .listForwards scid

end StoreCall

end Canopus
