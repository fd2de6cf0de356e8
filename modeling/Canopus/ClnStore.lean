import Canopus.ClnNode
import Canopus.Lib.Collect
import Canopus.StoreKeys

/-! What is kept in the datastore of Core Lightning: the store (`cln_store.rs`), and the preimages of the node
    (`cln_node.rs`). The datastore is reached by remote calls. What a call does is a parameter, and so is the text of an
    error of `hex::decode`. -/

namespace Canopus

/-- `Value::as_u64`. -/
def Json.asU64 : Json → Option Nat
  | .number text =>
    if text.toList ≠ [] ∧ text.toList.all (·.isDigit) = true ∧ Nat.ofDigitChars 10 text.toList 0 < 2 ^ 64 then
      some (Nat.ofDigitChars 10 text.toList 0)
    else none
  | _ => none

/-- `call_raw`: the method, its parameters, and the response or the message of the error. -/
abbrev Rpc (σ : Type) := String → Json → σ → Except String Json × σ

namespace ClnStore

def keyVec (key : Key) : Json := .array (key.map .string)

/-- `str::contains`. -/
def containsText (part : String) (text : List Char) : Bool := text.tails.any (part.toList.isPrefixOf ·)

/-- `to_lowercase` makes no other text contain one of these than the one that lowers ASCII letters only. -/
def mapRpcError (message : String) : StoreError :=
  let lower := message.toList.map Char.toLower
  if containsText "already exists" lower || containsText "already have" lower then .alreadyExists
  else if containsText "generation" lower || containsText "does not match" lower then .generationMismatch 0 0
  else if containsText "not found" lower || containsText "no such" lower then .notFound
  else .backend message

def datastoreParams (key : Key) (hex : Option String) (mode : String) (generation : Option Nat) : Json :=
  .object ([("key", keyVec key), ("mode", .string mode)] ++ (hex.map fun hex => ("hex", Json.string hex)).toList ++
    (generation.map fun generation => ("generation", Json.number (toString generation))).toList)

variable {σ : Type} (rpc : Rpc σ) (hexError : String → String)

def datastoreCall (key : Key) (hex : Option String) (mode : String) (generation : Option Nat) (s : σ) :
    Except StoreError Json × σ :=
  match rpc "datastore" (datastoreParams key hex mode generation) s with
  | (.ok response, s) => (.ok response, s)
  | (.error message, s) => (.error (mapRpcError message), s)

/-- The texts of an array; what is not a text is left out. -/
def texts (parts : List Json) : List String := parts.filterMap Json.asStr

/-- The array of the response to `listdatastore`. -/
def listDatastore (key : Key) (s : σ) : Except StoreError (List Json) × σ :=
  match rpc "listdatastore" (.object [("key", keyVec key)]) s with
  | (.error message, s) => (.error (mapRpcError message), s)
  | (.ok response, s) =>
    match (response.get "datastore").bind Json.asArray with
    | none => (.error (.backend "listdatastore missing datastore array"), s)
    | some entries => (.ok entries, s)

def isEntryOf (key : Key) (entry : Json) : Bool :=
  match (entry.get "key").bind Json.asArray with
  | none => false
  | some parts => texts parts == key

def get (key : Key) (s : σ) : Except StoreError (Nat × Bytes) := do
  let entries ← (listDatastore rpc key s).1
  match entries.find? (isEntryOf key) with
  | none => throw .notFound
  | some entry =>
    match entry.getStr "hex" with
    | none => throw (.backend "datastore entry missing hex")
    | some hex =>
      match hexDecode hex.toList with
      | none => throw (.backend (hexError hex))
      | some bytes => return (((entry.get "generation").bind Json.asU64).getD 0, bytes)

def existsKey (key : Key) (s : σ) : Except StoreError Bool :=
  match get rpc hexError key s with
  | .ok _ => .ok true
  | .error .notFound => .ok false
  | .error e => .error e

def create (key : Key) (value : Bytes) (s : σ) : Except StoreError Unit × σ :=
  match datastoreCall rpc key (some (hexEncode value)) "must-create" none s with
  | (.ok _, s) => (.ok (), s)
  | (.error e, s) => (.error e, s)

def update (key : Key) (value : Bytes) (expectedGeneration : Nat) (s : σ) : Except StoreError Unit × σ :=
  match datastoreCall rpc key (some (hexEncode value)) "must-replace" (some expectedGeneration) s with
  | (.ok _, s) => (.ok (), s)
  | (.error e, s) => (.error e, s)

def delete (key : Key) (s : σ) : Except StoreError Unit × σ :=
  match rpc "deldatastore" (.object [("key", keyVec key)]) s with
  | (.ok _, s) => (.ok (), s)
  | (.error message, s) => (.error (mapRpcError message), s)

/-- The child of the prefix that an entry is below, or is. -/
def childOf (parent : Key) (entry : Json) : Option Key :=
  match (entry.get "key").bind Json.asArray with
  | none => none
  | some parts =>
    let keyParts := texts parts
    if keyParts.length ≤ parent.length then none
    else if keyParts.take parent.length = parent then some (keyParts.take (parent.length + 1))
    else none

def list (parent : Key) (s : σ) : Except StoreError (List Key) := do
  return (← (listDatastore rpc parent s).1).foldl (Collect.add (childOf parent)) []

end ClnStore

/-- `ClnStore`. -/
def clnStore {σ : Type} (rpc : Rpc σ) (hexError : String → String) : Store σ where
  get := ClnStore.get rpc hexError
  existsKey := ClnStore.existsKey rpc hexError
  create := ClnStore.create rpc
  update := ClnStore.update rpc
  delete := ClnStore.delete rpc
  list := ClnStore.list rpc

/-! ### Preimages -/

namespace ClnNode
open ClnStore
variable {σ : Type} (rpc : Rpc σ) (hexError : String → String)

def preimageKey (paymentHash : Hash) : Key := ["canopus", "preimages", hexEncode paymentHash.toList]

def call (method : String) (params : Json) (s : σ) : Except NodeError Json × σ :=
  match rpc method params s with
  | (.ok response, s) => (.ok response, s)
  | (.error message, s) => (.error (.rpc message), s)

def preimageParams (paymentHash : Hash) (preimage : ByteVec 32) : Json :=
  .object [("key", keyVec (preimageKey paymentHash)), ("hex", .string (hexEncode preimage.toList)),
    ("mode", .string "create-or-replace")]

def storePreimage (paymentHash : Hash) (preimage : ByteVec 32) (s : σ) : Except NodeError Unit × σ :=
  match call rpc "datastore" (preimageParams paymentHash preimage) s with
  | (.ok _, s) => (.ok (), s)
  | (.error e, s) => (.error e, s)

def lookupPreimage (paymentHash : Hash) (s : σ) : Except NodeError (Option (ByteVec 32)) := do
  let response ← (call rpc "listdatastore" (.object [("key", keyVec (preimageKey paymentHash))]) s).1
  match ((response.get "datastore").bind Json.asArray).bind List.head? with
  | none => return none
  | some entry =>
    match entry.getStr "hex" with
    | none => return none
    | some hexValue =>
      match hexDecode hexValue.toList with
      | none => throw (.rpc (hexError hexValue))
      | some bytes => if h : bytes.length = 32 then return some ⟨bytes, h⟩ else throw (.rpc "preimage is not 32 bytes")

end ClnNode

/-- The controller's calls that reach the datastore. -/
inductive DatastoreCall where
  | store (c : StoreCall)
  | storePreimage (paymentHash : Hash) (preimage : ByteVec 32)
  | lookupPreimage (paymentHash : Hash)

namespace DatastoreCall

abbrev Ans : DatastoreCall → Type
  | store c => c.Ans
  | storePreimage _ _ => Except NodeError Unit
  | lookupPreimage _ => Except NodeError (Option (ByteVec 32))

def exec {σ : Type} (rpc : Rpc σ) (hexError : String → String) (J : JsonCodec) : (c : DatastoreCall) → σ → c.Ans × σ
  | store c, s => c.exec (clnStore rpc hexError) J s
  | storePreimage paymentHash preimage, s => ClnNode.storePreimage rpc paymentHash preimage s
  | lookupPreimage paymentHash, s => (ClnNode.lookupPreimage rpc hexError paymentHash s, s)

/-- The call of the controller. -/
def call : DatastoreCall → Call
  | store c => c.call
  | storePreimage paymentHash preimage => .storePreimage paymentHash preimage
  | lookupPreimage paymentHash => .lookupPreimage paymentHash

end DatastoreCall

/-! ### Removal -/

/-- `uninstall_store` (`main.rs`), with the bound of `deleteSubtree` on its steps. It fails with an error of the store or
    with a text. -/
def uninstallStore {σ : Type} (store : Store σ) (fuel : Nat) (s : σ) : Option (Except (StoreError ⊕ String) Nat × σ) :=
  match store.list ["canopus", "channels"] s with
  | .error e => some (.error (.inl e), s)
  | .ok (_ :: _) => some (.error (.inr "cannot uninstall while hosted channels exist"), s)
  | .ok [] => (deleteSubtree store fuel ["canopus"] s).map fun r => (r.1.mapError .inl, r.2)

end Canopus
