import Canopus.World

/-! The store of the tests, with keys of several components joined by slashes, and the removal of a subtree of any
    store (`store.rs`). The errors name no keys. -/

namespace Canopus

/-- A key by its components. -/
abbrev Key := List String

/-- The trait `Store`, for stores with states in `σ`. -/
structure Store (σ : Type) where
  get : Key → σ → Except StoreError (Nat × Bytes)
  existsKey : Key → σ → Except StoreError Bool
  create : Key → Bytes → σ → Except StoreError Unit × σ
  update : Key → Bytes → Nat → σ → Except StoreError Unit × σ
  delete : Key → σ → Except StoreError Unit × σ
  list : Key → σ → Except StoreError (List Key)

/-! ### The store in memory -/

/-- The map of texts to entries. -/
abbrev MemoryStore := Table String Bytes

namespace MemoryStore

def keyToString (key : Key) : String := "/".intercalate key

def get (key : Key) (s : MemoryStore) : Except StoreError (Nat × Bytes) :=
  match s.lookup (keyToString key) with
  | some entry => .ok entry
  | none => .error .notFound

def existsKey (key : Key) (s : MemoryStore) : Bool := (s.lookup (keyToString key)).isSome

def create (key : Key) (value : Bytes) (s : MemoryStore) : Except StoreError Unit × MemoryStore :=
  if existsKey key s then (.error .alreadyExists, s) else (.ok (), s.put (keyToString key) value)

def update (key : Key) (value : Bytes) (expectedGeneration : Nat) (s : MemoryStore) :
    Except StoreError Unit × MemoryStore :=
  match s.lookup (keyToString key) with
  | some (generation, _) =>
    if generation ≠ expectedGeneration then (.error (.generationMismatch expectedGeneration generation), s)
    else (.ok (), s.put (keyToString key) value)
  | none => (.error .notFound, s)

def delete (key : Key) (s : MemoryStore) : MemoryStore := s.erase (keyToString key)

/-- The child of a key that an entry is below, or is. -/
def childOf (parent : Key) (entry : String) : Option Key :=
  let parentStr := if parent.isEmpty then "" else keyToString parent ++ "/"
  match parentStr.toList.isPrefixOf? entry.toList with
  | none => none
  | some rest => (rest.splitOn '/').head?.map fun part => parent ++ [String.ofList part]

def addChild (parent : Key) (result : List Key) (entry : String) : List Key :=
  match childOf parent entry with
  | none => result
  | some child => if child ∈ result then result else result ++ [child]

/-- The children of a key, each once, in the order of the texts. -/
def list (parent : Key) (s : MemoryStore) : List Key :=
  (s.sortedKeys fun a b => decide (a ≤ b)).foldl (addChild parent) []

end MemoryStore

def memoryStore : Store MemoryStore where
  get := MemoryStore.get
  existsKey key s := .ok (MemoryStore.existsKey key s)
  create := MemoryStore.create
  update := MemoryStore.update
  delete key s := (.ok (), MemoryStore.delete key s)
  list key s := .ok (MemoryStore.list key s)

/-! ### Subtrees -/

section Subtree
variable {σ : Type} (store : Store σ)

/-- The loop of `delete_subtree`, with the top of the stack at the head. Without a result it has not ended yet. -/
def deleteLoop : Nat → List (Key × Bool) → Nat → σ → Option (Except StoreError Nat × σ)
  | 0, _, _, _ => none
  | _ + 1, [], deleted, s => some (.ok deleted, s)
  | fuel + 1, (key, true) :: pending, deleted, s =>
    match store.existsKey key s with
    | .error e => some (.error e, s)
    | .ok false => deleteLoop fuel pending deleted s
    | .ok true =>
      match store.delete key s with
      | (.ok (), s) => deleteLoop fuel pending (deleted + 1) s
      | (.error .notFound, s) => deleteLoop fuel pending deleted s
      | (.error e, s) => some (.error e, s)
  | fuel + 1, (key, false) :: pending, deleted, s =>
    match store.list key s with
    | .error e => some (.error e, s)
    | .ok children =>
      deleteLoop fuel (children.foldl (fun pending child => (child, false) :: pending) ((key, true) :: pending)) deleted s

def deleteSubtree (fuel : Nat) (root : Key) (s : σ) : Option (Except StoreError Nat × σ) :=
  deleteLoop store fuel [(root, false)] 0 s

end Subtree

end Canopus
