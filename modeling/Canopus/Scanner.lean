import Canopus.Channel.Operator
import Canopus.Decode
import Canopus.Lib.Program
import Mathlib.Data.Finset.Basic

/-! The scanner of blocks for published preimages (`scanner.rs`). The deserialization of a block is a parameter. A call
    without a result panics. -/

namespace Canopus.Scanner

structure TxOut where
  scriptPubkey : Bytes

structure Transaction where
  output : List TxOut

structure Block where
  txdata : List Transaction

def opReturn : UInt8 := 0x6a

/-- `u16::from_le_bytes` and `u32::from_le_bytes`. -/
def leNat (bs : Bytes) : Nat := beNat bs.reverse

/-- `chunks_exact`: what does not fill a chunk at the end is left out. -/
def chunksExact (size : Nat) (data : Bytes) : List Bytes :=
  (List.range (data.length / size)).map fun i => (data.drop (i * size)).take size

/-- How the loop goes on after an opcode. -/
inductive Next where
  | stop
  | skip (script : Bytes)
  | push (len : Nat) (script : Bytes)
  deriving DecidableEq

def next (opcode : UInt8) (script : Bytes) : Next :=
  if 0x01 ≤ opcode ∧ opcode ≤ 0x4b then .push opcode.toNat script
  else if opcode = 0x4c then
    match script with
    | [] => .stop
    | len :: rest => .push len.toNat rest
  else if opcode = 0x4d then
    if script.length < 2 then .stop else .push (leNat (script.take 2)) (script.drop 2)
  else if opcode = 0x4e then
    if script.length < 4 then .stop else .push (leNat (script.take 4)) (script.drop 4)
  else .skip script

theorem next_push_length {opcode : UInt8} {script rest : Bytes} {len : Nat} (h : next opcode script = .push len rest) :
    rest.length ≤ script.length := by
  unfold next at h
  split_ifs at h
  · cases h
    exact Nat.le_refl _
  · cases script with
    | nil => cases h
    | cons b bs =>
      cases h
      exact Nat.le_succ _
  all_goals
    cases h
    rw [List.length_drop]
    exact Nat.sub_le _ _

theorem next_skip {opcode : UInt8} {script rest : Bytes} (h : next opcode script = .skip rest) : rest = script := by
  unfold next at h
  split_ifs at h
  · cases script <;> cases h
  · cases h
    rfl

/-- What a push adds to the values. -/
def collect (values : List Bytes) (data : Bytes) : List Bytes :=
  if data.length = 32 then values ++ [data]
  else if data.length % 32 = 0 then values ++ chunksExact 32 data
  else values

/-- The loop, with the values so far. -/
def pushedValues (script : Bytes) (values : List Bytes) : List Bytes :=
  match script with
  | [] => values
  | opcode :: rest =>
    match _hnext : next opcode rest with
    | .stop => values
    | .skip script => pushedValues script values
    | .push len script =>
      if script.length < len then values
      else pushedValues (script.drop len) (collect values (script.take len))
termination_by script.length
decreasing_by
  · rw [next_skip _hnext]
    exact Nat.lt_succ_self _
  · have hle := next_push_length _hnext
    rw [List.length_drop, List.length_cons]
    omega

def pushed32ByteValues (script : Bytes) : List Bytes := pushedValues script []

variable (C : Crypto)

/-- `copy_from_slice` into `[u8; 32]`: another length panics. -/
def preimageOf (candidate : Bytes) : Option (ByteVec 32) :=
  if h : candidate.length = 32 then some ⟨candidate, h⟩ else none

def scanCandidate (inflightHashes : Finset Hash) (found : List (ByteVec 32)) (candidate : Bytes) :
    Option (List (ByteVec 32)) :=
  if C.sha256 candidate ∈ inflightHashes then do
    let preimage ← preimageOf candidate
    return found ++ [preimage]
  else some found

def scanScriptForPreimages (script : Bytes) (inflightHashes : Finset Hash) (found : List (ByteVec 32)) :
    Option (List (ByteVec 32)) :=
  if script.head? ≠ some opReturn then some found
  else (pushed32ByteValues (script.drop 1)).foldlM (scanCandidate C inflightHashes) found

/-- `Vec::dedup`. -/
def dedup {α : Type} [DecidableEq α] : List α → List α
  | [] => []
  | [a] => [a]
  | a :: b :: l => if a = b then dedup (b :: l) else a :: dedup (b :: l)

def scanBlockForPreimages (deserialize : Bytes → Option Block) (blockHex : String) (inflightHashes : Finset Hash) :
    Option (List (ByteVec 32)) :=
  match hexDecode blockHex.toList with
  | none => some []
  | some bytes =>
    match deserialize bytes with
    | none => some []
    | some block => do
      let found ← block.txdata.foldlM (fun found tx => tx.output.foldlM (fun found output =>
        scanScriptForPreimages C output.scriptPubkey inflightHashes found) found) []
      return dedup (found.insertionSort fun a b => Bytes.le a.toList b.toList = true)

end Canopus.Scanner

/-! ### The scanner

Its methods may run at the same time. They reach its fields, which are an atomic number and a locked set, and the node
one call at a time. -/

namespace Canopus.PreimageScanner
open Effect Scanner

inductive Call where
  | getBlockHeight
  | getRawBlockByHeight (height : UInt32)
  | loadLastScannedHeight
  | storeLastScannedHeight (height : UInt32)
  | cloneInflightHashes
  | insertInflightHash (paymentHash : Hash)
  | removeInflightHash (paymentHash : Hash)

def Call.Ans : Call → Type
  | .getBlockHeight => Except NodeError UInt32
  | .getRawBlockByHeight _ => Except NodeError String
  | .loadLastScannedHeight => UInt32
  | .cloneInflightHashes => Finset Hash
  | .storeLastScannedHeight _ | .insertInflightHash _ | .removeInflightHash _ => Unit

abbrev iface : Iface := ⟨Call, Call.Ans⟩

def ask (c : Call) : Prog iface c.Ans := .call c .pure

structure Fields where
  lastScannedHeight : UInt32
  inflightHashes : Finset Hash

/-- `PreimageScanner::new`. -/
def new : Fields := ⟨0, ∅⟩

/-- What the node answers, which may differ from one call to the next. -/
structure Answers where
  blockHeight : Except NodeError UInt32
  rawBlock : Except NodeError String

def exec (x : Answers) : (c : Call) → Fields → c.Ans × Fields
  | .getBlockHeight, s => (x.blockHeight, s)
  | .getRawBlockByHeight _, s => (x.rawBlock, s)
  | .loadLastScannedHeight, s => (s.lastScannedHeight, s)
  | .storeLastScannedHeight height, s => ((), { s with lastScannedHeight := height })
  | .cloneInflightHashes, s => (s.inflightHashes, s)
  | .insertInflightHash paymentHash, s => ((), { s with inflightHashes := insert paymentHash s.inflightHashes })
  | .removeInflightHash paymentHash, s => ((), { s with inflightHashes := s.inflightHashes.erase paymentHash })

/-- `last_scanned_height.saturating_add(1)..=current_height`. -/
def newHeights (lastScannedHeight currentHeight : UInt32) : List UInt32 :=
  (List.range (currentHeight.toNat - lastScannedHeight.toNat)).map fun i => UInt32.ofNat (lastScannedHeight.toNat + 1 + i)

variable (C : Crypto) (deserialize : Bytes → Option Block)

/-- The loop over the new heights. No result means a panic. -/
def scanHeights (inflightHashes : Finset Hash) : List UInt32 → List (ByteVec 32) → Prog iface (Option (List (ByteVec 32)))
  | [], found => return some found
  | height :: heights, found => do
    match ← ask (.getRawBlockByHeight height) with
    | .error _ => return some found
    | .ok blockHex =>
      match scanBlockForPreimages C deserialize blockHex inflightHashes with
      | none => return none
      | some preimages =>
        ask (.storeLastScannedHeight height)
        scanHeights inflightHashes heights (found ++ preimages)

def scanOnce : Prog iface (Option (List (ByteVec 32))) := do
  match ← ask .getBlockHeight with
  | .error _ => return some []
  | .ok currentHeight =>
    let lastScannedHeight ← ask .loadLastScannedHeight
    if currentHeight ≤ lastScannedHeight then return some []
    let inflightHashes ← ask .cloneInflightHashes
    match ← scanHeights C deserialize inflightHashes (newHeights lastScannedHeight currentHeight) [] with
    | none => return none
    | some found => return some (dedup (found.insertionSort fun a b => Bytes.le a.toList b.toList = true))

def watch (paymentHash : Hash) : Prog iface Unit := ask (.insertInflightHash paymentHash)

def unwatch (paymentHash : Hash) : Prog iface Unit := ask (.removeInflightHash paymentHash)

/-- The methods that other tasks call. -/
inductive Method where
  | scanOnce
  | watch (paymentHash : Hash)
  | unwatch (paymentHash : Hash)

/-- What a method finds; watching finds nothing. -/
def Method.program : Method → Prog iface (Option (List (ByteVec 32)))
  | scanOnce => PreimageScanner.scanOnce C deserialize
  | watch paymentHash => do
    PreimageScanner.watch paymentHash
    return some []
  | unwatch paymentHash => do
    PreimageScanner.unwatch paymentHash
    return some []

end Canopus.PreimageScanner
