import Canopus.ClnStore
import Canopus.Theorems.StoreLevels
import Mathlib.Data.Set.Finite.List

/-! What the plugin keeps in the datastore of Core Lightning, which is known by what its commands are documented to do.
    No key of the datastore that has a value goes on where another one ends, and the keys of records and preimages never
    do. -/

namespace Canopus
open ClnStore ClnNode Decimal

variable {σ : Type} {rpc : Bool → Rpc σ} {entry : σ → Key → Option (Nat × Bytes)} {hexError : String → String}
  {before : Key → Option (Nat × Bytes)} {J : JsonCodec} {s s' : σ} {w : World} {key parent k child : Key} {e : Option (Nat × Bytes)} {described : Json} {message : String}
  {steps : Nat}

/-! ### The datastore -/

/-- The message has the text, whatever the case of its letters. -/
def Mentions (text message : String) : Prop := containsText text (message.toList.map Char.toLower) = true

/-- The message says none of what errors are told by. -/
def Plain (message : String) : Prop :=
  ∀ text ∈ ["already exists", "already have", "generation", "does not match", "not found", "no such"], ¬ Mentions text message

/-- What a response says of a key, with its value and generation if it has a value. -/
structure Describes (described : Json) (key : Key) (e : Option (Nat × Bytes)) : Prop where
  key : described.get "key" = some (keyVec key)
  hex : described.get "hex" = e.map fun e => .string (hexEncode e.2)
  generation : described.get "generation" = e.map fun e => .number (toString e.1)

/-- The keys that are listed for a key: itself if it has a value, and its children. -/
def Shown (entry : Key → Option (Nat × Bytes)) (parent key : Key) : Prop :=
  (key = parent ∧ (entry key).isSome) ∨ ∃ part rest, key = parent ++ [part] ∧ (entry (key ++ rest)).isSome

/-- The commands of the datastore. Calls for which the argument is true fail, and change nothing. -/
structure Datastore (rpc : Bool → Rpc σ) (entry : σ → Key → Option (Nat × Bytes)) : Prop where
  finite : ∀ s, {key | (entry s key).isSome}.Finite
  listed : ∀ key s, ∃ response shown, rpc false "listdatastore" (.object [("key", keyVec key)]) s = (.ok response, s) ∧
    response.get "datastore" = some (.array shown) ∧
    (∀ described ∈ shown, ∃ k, Shown (entry s) key k ∧ Describes described k (entry s k)) ∧
    ∀ k, Shown (entry s) key k → ∃ described ∈ shown, Describes described k (entry s k)
  created : ∀ key value s, key ≠ [] →
    (∀ other, other ≠ [] → other <+: key ∨ key <+: other → entry s other = none) → ∃ response s',
    rpc false "datastore" (datastoreParams key (some (hexEncode value)) "must-create" none) s = (.ok response, s') ∧
      entry s' = Function.update (entry s) key (some (0, value))
  createdBefore : ∀ key value s, (entry s key).isSome → ∃ message,
    rpc false "datastore" (datastoreParams key (some (hexEncode value)) "must-create" none) s = (.error message, s) ∧
      Mentions "already exists" message
  replaced : ∀ key value generation old s, entry s key = some (generation, old) → generation + 1 < 2 ^ 64 →
    ∃ response s',
    rpc false "datastore" (datastoreParams key (some (hexEncode value)) "must-replace" (some generation)) s =
      (.ok response, s') ∧ entry s' = Function.update (entry s) key (some (generation + 1, value))
  replacedSince : ∀ key value generation actual old s, entry s key = some (actual, old) → actual ≠ generation → ∃ message,
    rpc false "datastore" (datastoreParams key (some (hexEncode value)) "must-replace" (some generation)) s =
      (.error message, s) ∧ Mentions "generation" message ∧ ¬ Mentions "already exists" message ∧ ¬ Mentions "already have" message
  replacedMissing : ∀ key value generation s, entry s key = none → ∃ message,
    rpc false "datastore" (datastoreParams key (some (hexEncode value)) "must-replace" (some generation)) s =
      (.error message, s) ∧ Plain message
  written : ∀ key value s, key ≠ [] →
    (∀ other, other ≠ [] → other ≠ key → other <+: key ∨ key <+: other → entry s other = none) →
    (∀ generation old, entry s key = some (generation, old) → generation + 1 < 2 ^ 64) → ∃ response s',
    rpc false "datastore" (.object [("key", keyVec key), ("hex", .string (hexEncode value)),
      ("mode", .string "create-or-replace")]) s = (.ok response, s') ∧
      entry s' = Function.update (entry s) key (some (((entry s key).map fun e => e.1 + 1).getD 0, value))
  deleted : ∀ key s, (entry s key).isSome → ∃ response s',
    rpc false "deldatastore" (.object [("key", keyVec key)]) s = (.ok response, s') ∧
      entry s' = Function.update (entry s) key none
  deletedMissing : ∀ key s, entry s key = none → ∃ message,
    rpc false "deldatastore" (.object [("key", keyVec key)]) s = (.error message, s) ∧ Plain message
  fails : ∀ method params s, ∃ message, rpc true method params s = (.error message, s) ∧ Plain message

/-! ### Errors -/

theorem mapRpcError_plain (h : Plain message) : mapRpcError message = .backend message := by
  have lacks (text : String) (htext : text ∈ ["already exists", "already have", "generation", "does not match", "not found",
      "no such"]) : containsText text (message.toList.map Char.toLower) = false := Bool.eq_false_iff.mpr (h text htext)
  simp only [mapRpcError, lacks "already exists" (by simp), lacks "already have" (by simp), lacks "generation" (by simp),
    lacks "does not match" (by simp), lacks "not found" (by simp), lacks "no such" (by simp), Bool.or_self,
    Bool.false_eq_true, if_false]

theorem mapRpcError_exists (h : Mentions "already exists" message) : mapRpcError message = .alreadyExists := by
  have h : containsText "already exists" (message.toList.map Char.toLower) = true := h
  simp only [mapRpcError, h, Bool.true_or, if_true]

theorem mapRpcError_generation (h : Mentions "generation" message) (hexists : ¬ Mentions "already exists" message)
    (hhave : ¬ Mentions "already have" message) : mapRpcError message = .generationMismatch 0 0 := by
  have h : containsText "generation" (message.toList.map Char.toLower) = true := h
  have hexists : containsText "already exists" (message.toList.map Char.toLower) = false := Bool.eq_false_iff.mpr hexists
  have hhave : containsText "already have" (message.toList.map Char.toLower) = false := Bool.eq_false_iff.mpr hhave
  simp only [mapRpcError, h, hexists, hhave, Bool.or_self, Bool.false_eq_true, if_false, Bool.true_or, if_true]

/-! ### Responses -/

theorem texts_keyVec (key : Key) : texts (key.map .string) = key := by
  rw [texts, List.filterMap_map]
  exact List.filterMap_some

theorem Describes.parts (h : Describes described k e) :
    (described.get "key").bind Json.asArray = some (k.map .string) := by
  rw [h.key]
  rfl

theorem Describes.isEntryOf_iff (h : Describes described k e) : isEntryOf key described = true ↔ k = key := by
  simp only [isEntryOf, h.parts, texts_keyVec, beq_iff_eq]

theorem Describes.childOf_eq (h : Describes described k e) :
    childOf parent described = if k.length ≤ parent.length then none
      else if k.take parent.length = parent then some (k.take (parent.length + 1)) else none := by
  simp only [childOf, h.parts, texts_keyVec]

/-- A generation is read back if it is a machine number. -/
theorem asU64_toString (g : Nat) : (Json.number (toString g)).asU64 = if g < 2 ^ 64 then some g else none := by
  have hlist : (toString g).toList = (Numeral.ofNat g).digits := Nat.toList_repr
  have hvalue : Nat.ofDigitChars 10 (toString g).toList 0 = g := by
    rw [hlist]
    exact Numeral.value_ofNat g
  have hne : (toString g).toList ≠ [] := hlist ▸ (Numeral.ofNat g).ne_nil
  have hall : (toString g).toList.all (·.isDigit) = true := by
    rw [hlist]
    exact List.all_eq_true.mpr (Numeral.ofNat g).isDigit
  simp only [Json.asU64, hvalue, hne, hall, ne_eq, not_false_eq_true, true_and]

/-! ### What is kept -/

/-- The key is that of a record or of a preimage. -/
def IsKept (key : Key) : Prop := IsRecord key ∨ ∃ paymentHash, key = preimageKey paymentHash

/-- The datastore holds nothing but records and preimages under the name of the plugin, with generations that have room
    for so many further steps. -/
structure Roomy (entry : σ → Key → Option (Nat × Bytes)) (steps : Nat) (s : σ) : Prop where
  room : steps < 2 ^ 64
  holds : ∀ key e, entry s key = some e → key.head? = some "canopus" → IsKept key ∧ e.1 + steps < 2 ^ 64

theorem not_record_preimage (paymentHash : Hash) : ¬ IsRecord (preimageKey paymentHash) := by
  rintro ⟨n, k, hkey⟩
  cases n <;> simp only [preimageKey, recordKey, channelKey, secretKey, forwardKey, policyKey, metaKey, ledgerKey,
    markerKey, List.cons.injEq, reduceCtorEq, and_false, false_and, String.reduceEq] at hkey

theorem preimageKey_inj {hash hash' : Hash} (h : preimageKey hash = preimageKey hash') : hash = hash' := by
  have htext : hexEncode hash.toList = hexEncode hash'.toList := by simpa [preimageKey] using h
  exact List.Vector.toList_injective (hexEncode_inj htext)

theorem IsKept.head? (h : IsKept key) : key.head? = some "canopus" := by
  rcases h with ⟨n, k, rfl⟩ | ⟨hash, rfl⟩
  · cases n <;> rfl
  · rfl

theorem IsKept.ne_nil (h : IsKept key) : key ≠ [] := by
  rintro rfl
  cases h.head?

/-- A record and a preimage part at the second component. -/
theorem not_extends_preimage {paymentHash : Hash} (hkey : IsRecord key) :
    ¬ key <+: preimageKey paymentHash ∧ ¬ preimageKey paymentHash <+: key := by
  obtain ⟨n, k, rfl⟩ := hkey
  cases n <;> simp [preimageKey, recordKey, channelKey, secretKey, forwardKey, policyKey, metaKey, ledgerKey, markerKey,
    List.cons_prefix_cons]

/-- No key that is kept goes on where another one ends. -/
theorem IsKept.eq_of_extends {other : Key} (hkey : IsKept key) (hother : IsKept other) (h : key <+: other) :
    key = other := by
  rcases hkey with hkey | ⟨hash, rfl⟩ <;> rcases hother with hother | ⟨hash', rfl⟩
  · exact hkey.eq_of_extends hother h
  · exact absurd h (not_extends_preimage hkey).1
  · exact absurd h (not_extends_preimage hother).2
  · exact h.eq_of_length rfl

/-- Of keys that are not empty, one that goes on where the other ends has its first component. -/
theorem head?_eq_of_extends {other : Key} (hother : other ≠ []) (hkey : key ≠ []) (h : other <+: key ∨ key <+: other) :
    other.head? = key.head? := by
  rcases h with ⟨rest, rfl⟩ | ⟨rest, rfl⟩
  · rw [List.head?_append_of_ne_nil _ hother]
  · rw [List.head?_append_of_ne_nil _ hkey]

/-- Nothing else is where a key that is kept ends or goes on. -/
theorem Roomy.free (hok : Roomy entry steps s) (hkey : IsKept key) {other : Key} (hne : other ≠ []) (hother : other ≠ key)
    (h : other <+: key ∨ key <+: other) : entry s other = none := by
  by_contra hsome
  obtain ⟨e, he⟩ := Option.ne_none_iff_exists'.mp hsome
  have hhead := (head?_eq_of_extends hne hkey.ne_nil h).trans hkey.head?
  have hkept := (hok.holds other e he hhead).1
  rcases h with h | h
  · exact hother (hkept.eq_of_extends hkey h)
  · exact hother (hkey.eq_of_extends hkept h).symm

/-- An entry that is written leaves room for one step less. -/
theorem Roomy.update (hok : Roomy entry (steps + 1) s) (hkey : IsKept key)
    (he : entry s' = Function.update (entry s) key e) (hroom : ∀ e', e = some e' → e'.1 + steps < 2 ^ 64) :
    Roomy entry steps s' := by
  refine ⟨Nat.lt_of_succ_lt hok.room, fun other e' he' hhead => ?_⟩
  rw [he] at he'
  by_cases hother : other = key
  · subst hother
    rw [Function.update_self] at he'
    exact ⟨hkey, hroom e' he'⟩
  · rw [Function.update_of_ne hother] at he'
    obtain ⟨hkept, hlt⟩ := hok.holds other e' he' hhead
    exact ⟨hkept, by omega⟩

theorem Roomy.less (hok : Roomy entry (steps + 1) s) : Roomy entry steps s := by
  refine ⟨Nat.lt_of_succ_lt hok.room, fun key e he hhead => ?_⟩
  obtain ⟨hkept, hlt⟩ := hok.holds key e he hhead
  exact ⟨hkept, by omega⟩

theorem Roomy.next (hok : Roomy entry (steps + 1) s) (hkey : IsKept key) (he : entry s key = e) :
    ((e.map fun e => e.1 + 1).getD 0) + steps < 2 ^ 64 := by
  cases e with
  | none =>
    have hroom := hok.room
    simpa using Nat.lt_of_succ_lt hroom
  | some e =>
    have hroom := (hok.holds key e he hkey.head?).2
    have hnext : e.1 + 1 + steps < 2 ^ 64 := by omega
    exact hnext

/-! ### The store -/

theorem Datastore.listDatastore (h : Datastore rpc entry) (key : Key) (s : σ) : ∃ shown,
    ClnStore.listDatastore (rpc false) key s = (.ok shown, s) ∧
      (∀ described ∈ shown, ∃ k, Shown (entry s) key k ∧ Describes described k (entry s k)) ∧
      ∀ k, Shown (entry s) key k → ∃ described ∈ shown, Describes described k (entry s k) := by
  obtain ⟨response, shown, hrpc, hresponse, hshown⟩ := h.listed key s
  refine ⟨shown, ?_, hshown⟩
  simp only [ClnStore.listDatastore, hrpc, hresponse]
  rfl

theorem Datastore.get (h : Datastore rpc entry) (key : Key) (s : σ) :
    ClnStore.get (rpc false) hexError key s = match entry s key with
      | none => .error .notFound
      | some e => .ok (if e.1 < 2 ^ 64 then e.1 else 0, e.2) := by
  obtain ⟨shown, hlist, hof, hall⟩ := h.listDatastore key s
  cases he : entry s key with
  | none =>
    have hfind : shown.find? (isEntryOf key) = none := by
      refine List.find?_eq_none.mpr fun described hmem hentry => ?_
      obtain ⟨k, hshown, hdescribes⟩ := hof described hmem
      obtain rfl := hdescribes.isEntryOf_iff.mp hentry
      rcases hshown with ⟨-, hsome⟩ | ⟨part, rest, hpart, -⟩
      · rw [he] at hsome
        cases hsome
      · exact absurd hpart (by simp)
    simp only [ClnStore.get, hlist, hfind, bind, Except.bind]
    rfl
  | some e =>
    obtain ⟨generation, bytes⟩ := e
    obtain ⟨described, hmem, hdescribes⟩ := hall key (Or.inl ⟨rfl, by rw [he]; rfl⟩)
    have hentry : ∃ found, shown.find? (isEntryOf key) = some found :=
      Option.isSome_iff_exists.mp (List.find?_isSome.mpr ⟨described, hmem, hdescribes.isEntryOf_iff.mpr rfl⟩)
    obtain ⟨found, hfind⟩ := hentry
    obtain ⟨k, -, hfound⟩ := hof found (List.mem_of_find?_eq_some hfind)
    obtain rfl := hfound.isEntryOf_iff.mp (List.find?_some hfind)
    rw [he] at hfound
    have hhex : found.getStr "hex" = some (hexEncode bytes) := by
      rw [Json.getStr, hfound.hex]
      rfl
    have hgeneration : (found.get "generation").bind Json.asU64 = if generation < 2 ^ 64 then some generation else none := by
      rw [hfound.generation]
      exact asU64_toString generation
    simp only [ClnStore.get, hlist, hfind, hhex, hexDecode_hexEncode, hgeneration, bind, Except.bind]
    split_ifs <;> rfl

/-- With room, the generation is that of the entry. -/
theorem Datastore.get_of_room (h : Datastore rpc entry) (hok : Roomy entry steps s) (hkey : IsRecord key) :
    ClnStore.get (rpc false) hexError key s = match entry s key with
      | none => .error .notFound
      | some e => .ok e := by
  rw [h.get key s]
  cases he : entry s key with
  | none => rfl
  | some e =>
    have hroom := (hok.holds key e he (IsKept.head? (Or.inl hkey))).2
    simp only [if_pos (show e.1 < 2 ^ 64 by omega)]

theorem Datastore.existsKey (h : Datastore rpc entry) (key : Key) (s : σ) :
    ClnStore.existsKey (rpc false) hexError key s = .ok (entry s key).isSome := by
  rw [ClnStore.existsKey, h.get]
  cases entry s key <;> rfl

theorem Datastore.list (h : Datastore rpc entry) (key : Key) (s : σ) : ∃ children,
    ClnStore.list (rpc false) key s = .ok children ∧ children.Nodup ∧
      ∀ child, child ∈ children ↔ ∃ part rest, child = key ++ [part] ∧ (entry s (child ++ rest)).isSome := by
  obtain ⟨shown, hlist, hof, hall⟩ := h.listDatastore key s
  refine ⟨shown.foldl (Collect.add (childOf key)) [], ?_, Collect.nodup_foldl_add List.nodup_nil, fun child => ?_⟩
  · simp only [ClnStore.list, hlist, bind, Except.bind]
    rfl
  · rw [Collect.mem_foldl_add]
    simp only [List.not_mem_nil, false_or]
    constructor
    · rintro ⟨described, hmem, hchild⟩
      obtain ⟨k, hshown, hdescribes⟩ := hof described hmem
      rw [hdescribes.childOf_eq] at hchild
      rcases hshown with ⟨rfl, -⟩ | ⟨part, rest, rfl, hsome⟩
      · simp at hchild
      · have htake : (key ++ [part]).take (key.length + 1) = key ++ [part] := List.take_of_length_le (by simp)
        rw [if_neg (by simp), if_pos (by simp), htake] at hchild
        obtain rfl := Option.some.inj hchild
        exact ⟨part, rest, rfl, hsome⟩
    · rintro ⟨part, rest, rfl, hsome⟩
      obtain ⟨described, hmem, hdescribes⟩ := hall (key ++ [part]) (Or.inr ⟨part, rest, rfl, hsome⟩)
      refine ⟨described, hmem, ?_⟩
      rw [hdescribes.childOf_eq]
      simp [List.take_of_length_le]

/-- What is kept below a folder are records. -/
theorem IsKept.below_folder {part : String} {rest : List String} (hfolder : IsFolder key)
    (h : IsKept (key ++ [part] ++ rest)) : IsRecord (key ++ [part] ++ rest) := by
  refine h.resolve_right ?_
  rintro ⟨hash, hkey⟩
  rcases hfolder with rfl | rfl | ⟨scid, rfl⟩ <;>
    simp only [preimageKey, List.cons_append, List.cons.injEq, String.reduceEq, false_and, and_false] at hkey

theorem clnStore_lawful (h : Datastore rpc entry) : (clnStore (rpc false) hexError).Lawful (Roomy entry) entry where
  less _ _ hok := hok.less
  below steps s folder part rest hok hfolder hsome := by
    obtain ⟨e, he⟩ := Option.isSome_iff_exists.mp hsome
    refine IsKept.below_folder hfolder (hok.holds _ e he ?_).1
    rcases hfolder with rfl | rfl | ⟨scid, rfl⟩ <;> rfl
  get _ _ _ hok hkey := h.get_of_room hok hkey
  existsKey _ s key _ _ := h.existsKey key s
  createNew steps s n k value hok _ hnone := by
    have hkey : IsRecord (recordKey n k) := ⟨n, k, rfl⟩
    obtain ⟨response, s', hrpc, he⟩ := h.created _ value s (IsKept.ne_nil (Or.inl hkey)) fun other hne hextends => by
      by_cases hother : other = recordKey n k
      · rw [hother, hnone]
      · exact hok.free (Or.inl hkey) hne hother hextends
    refine ⟨s', ?_, hok.update (Or.inl hkey) he ?_, he⟩
    · show ClnStore.create _ _ _ _ = _
      rw [ClnStore.create, datastoreCall, hrpc]
    · rintro e' hnew
      cases hnew
      show 0 + steps < 2 ^ 64
      have hroom := hok.room
      omega
  createOld _ s key value _ _ hsome := by
    obtain ⟨message, hrpc, htext⟩ := h.createdBefore key value s hsome
    show ClnStore.create _ _ _ _ = _
    rw [ClnStore.create, datastoreCall, hrpc]
    simp only [mapRpcError_exists htext]
  updateFresh steps s key value generation old hok hkey hold := by
    have hroom : generation + (steps + 1) < 2 ^ 64 := (hok.holds key _ hold (IsKept.head? (Or.inl hkey))).2
    obtain ⟨response, s', hrpc, he⟩ := h.replaced key value generation old s hold (by omega)
    refine ⟨s', ?_, hok.update (Or.inl hkey) he ?_, he⟩
    · show ClnStore.update _ _ _ _ _ = _
      rw [ClnStore.update, datastoreCall, hrpc]
    · rintro e' h
      cases h
      show generation + 1 + steps < 2 ^ 64
      omega
  updateStale _ s key value generation actual old _ _ hold hne := by
    obtain ⟨message, hrpc, htext, hexists, hhave⟩ := h.replacedSince key value generation actual old s hold hne
    refine ⟨0, 0, ?_⟩
    show ClnStore.update _ _ _ _ _ = _
    rw [ClnStore.update, datastoreCall, hrpc]
    simp only [mapRpcError_generation htext hexists hhave]
  updateMissing _ s key value generation _ _ hnone := by
    obtain ⟨message, hrpc, hplain⟩ := h.replacedMissing key value generation s hnone
    refine ⟨.backend message, Or.inr ⟨message, rfl⟩, ?_⟩
    show ClnStore.update _ _ _ _ _ = _
    rw [ClnStore.update, datastoreCall, hrpc]
    simp only [mapRpcError_plain hplain]
  deleteOld _ s key hok hkey hsome := by
    obtain ⟨response, s', hrpc, he⟩ := h.deleted key s hsome
    refine ⟨s', ?_, hok.update (Or.inl hkey) he fun e' h => (by cases h), he⟩
    show ClnStore.delete _ _ _ = _
    rw [ClnStore.delete, hrpc]
  deleteMissing _ s key hok _ hnone := by
    obtain ⟨message, hrpc, hplain⟩ := h.deletedMissing key s hnone
    refine ⟨.error (.backend message), s, Or.inr ⟨message, rfl⟩, ?_, hok.less, rfl⟩
    show ClnStore.delete _ _ _ = _
    rw [ClnStore.delete, hrpc]
    simp only [mapRpcError_plain hplain]
  list _ s key _ _ := h.list key s

theorem clnStore_broken (h : Datastore rpc entry) : (clnStore (rpc true) hexError).Broken := by
  have hlist (key : Key) (s : σ) : ∃ message, ClnStore.listDatastore (rpc true) key s = (.error (.backend message), s) := by
    obtain ⟨message, hrpc, hplain⟩ := h.fails "listdatastore" (.object [("key", keyVec key)]) s
    refine ⟨message, ?_⟩
    simp only [ClnStore.listDatastore, hrpc, mapRpcError_plain hplain]
  have hcall (key : Key) (hex : Option String) (mode : String) (generation : Option Nat) (s : σ) : ∃ message,
      datastoreCall (rpc true) key hex mode generation s = (.error (.backend message), s) := by
    obtain ⟨message, hrpc, hplain⟩ := h.fails "datastore" (datastoreParams key hex mode generation) s
    refine ⟨message, ?_⟩
    simp only [datastoreCall, hrpc, mapRpcError_plain hplain]
  have hget (key : Key) (s : σ) : ∃ message, ClnStore.get (rpc true) hexError key s = .error (.backend message) := by
    obtain ⟨message, hlist⟩ := hlist key s
    refine ⟨message, ?_⟩
    simp only [ClnStore.get, hlist, bind, Except.bind]
  constructor
  case get => exact hget
  case existsKey =>
    intro key s
    obtain ⟨message, hget⟩ := hget key s
    refine ⟨message, ?_⟩
    show ClnStore.existsKey _ _ _ _ = _
    rw [ClnStore.existsKey, hget]
  case create =>
    intro key value s
    obtain ⟨message, hcall⟩ := hcall key (some (hexEncode value)) "must-create" none s
    refine ⟨message, ?_⟩
    show ClnStore.create _ _ _ _ = _
    rw [ClnStore.create, hcall]
  case update =>
    intro key value generation s
    obtain ⟨message, hcall⟩ := hcall key (some (hexEncode value)) "must-replace" (some generation) s
    refine ⟨message, ?_⟩
    show ClnStore.update _ _ _ _ _ = _
    rw [ClnStore.update, hcall]
  case delete =>
    intro key s
    obtain ⟨message, hrpc, hplain⟩ := h.fails "deldatastore" (.object [("key", keyVec key)]) s
    refine ⟨message, ?_⟩
    show ClnStore.delete _ _ _ = _
    rw [ClnStore.delete, hrpc]
    simp only [mapRpcError_plain hplain]
  case list =>
    intro key s
    obtain ⟨message, hlist⟩ := hlist key s
    refine ⟨message, ?_⟩
    show ClnStore.list _ _ _ = _
    simp only [ClnStore.list, hlist, bind, Except.bind]

/-! ### The node -/

/-- Both are results that are equal, or both are errors. -/
def SameNodeResult {α : Type} : Except NodeError α → Except NodeError α → Prop
  | .ok a, .ok b => a = b
  | .error _, .error _ => True
  | _, _ => False

/-- The datastore holds the preimages of the node. -/
def HoldsPreimages (entry : Key → Option (Nat × Bytes)) (w : World) : Prop :=
  ∀ paymentHash, (entry (preimageKey paymentHash)).map Prod.snd = (w.preimages.lookup paymentHash).map (·.toList)

theorem preimages_settle (w : World) : w.settle.preimages = w.preimages := rfl

/-- The calls of the store leave the preimages alone. -/
theorem exec_store_preimages (x : Choice) (c : StoreCall) (w : World) : (exec x c.call w).2.preimages = w.preimages := by
  cases c with
  | get | existsKey | listChannels | listForwardScids | listForwards => rw [StoreCall.call, exec_reads x w rfl]
  | create n k v =>
    simp only [StoreCall.call, exec]
    split
    · rfl
    · split <;> rfl
  | update n k v generation =>
    simp only [StoreCall.call, exec]
    split
    · rfl
    · split
      · split <;> rfl
      · rfl
  | delete n k =>
    simp only [StoreCall.call, exec]
    split <;> rfl

theorem HoldsPreimages.store {paymentHash : Hash} {preimage : ByteVec 32} {generation : Nat}
    (h : HoldsPreimages (entry s) w)
    (he : entry s' = Function.update (entry s) (preimageKey paymentHash) (some (generation, preimage.toList))) :
    HoldsPreimages (entry s') { w with preimages := w.preimages.insert paymentHash preimage } := by
  intro hash
  rw [he]
  by_cases hhash : hash = paymentHash
  · subst hhash
    rw [Function.update_self, AList.lookup_insert]
    rfl
  · rw [Function.update_of_ne fun hkey => hhash (preimageKey_inj hkey), h hash, AList.lookup_insert_ne hhash]

/-- Nothing is listed for a preimage but itself. -/
theorem Roomy.shown_preimage {paymentHash : Hash} (hok : Roomy entry steps s)
    (h : Shown (entry s) (preimageKey paymentHash) k) : k = preimageKey paymentHash ∧ (entry s k).isSome := by
  rcases h with h | ⟨part, rest, rfl, hsome⟩
  · exact h
  · obtain ⟨e, he⟩ := Option.isSome_iff_exists.mp hsome
    have hkept : IsKept (preimageKey paymentHash) := Or.inr ⟨paymentHash, rfl⟩
    have hextends : preimageKey paymentHash <+: preimageKey paymentHash ++ [part] ++ rest := by
      rw [List.append_assoc]
      exact List.prefix_append _ _
    have hne : preimageKey paymentHash ++ [part] ++ rest ≠ [] := by simp
    have hnone := hok.free hkept hne (fun heq => by simpa using congrArg List.length heq) (Or.inr hextends)
    rw [he] at hnone
    cases hnone

theorem Datastore.lookupPreimage (h : Datastore rpc entry) (hok : Roomy entry steps s) (hp : HoldsPreimages (entry s) w)
    (paymentHash : Hash) :
    ClnNode.lookupPreimage (rpc false) hexError paymentHash s = .ok (w.preimages.lookup paymentHash) := by
  obtain ⟨response, shown, hrpc, hresponse, hof, hall⟩ := h.listed (preimageKey paymentHash) s
  have hcall : ClnNode.call (rpc false) "listdatastore" (.object [("key", keyVec (preimageKey paymentHash))]) s =
      (.ok response, s) := by rw [ClnNode.call, hrpc]
  have hshown : (response.get "datastore").bind Json.asArray = some shown := by
    rw [hresponse]
    rfl
  have hhash := hp paymentHash
  cases hl : w.preimages.lookup paymentHash with
  | none =>
    rw [hl, Option.map_none, Option.map_eq_none_iff] at hhash
    have hnil : shown = [] := by
      refine List.eq_nil_iff_forall_not_mem.mpr fun described hmem => ?_
      obtain ⟨k, hk, -⟩ := hof described hmem
      obtain ⟨rfl, hsome⟩ := hok.shown_preimage hk
      rw [hhash] at hsome
      cases hsome
    simp only [ClnNode.lookupPreimage, hcall, hshown, hnil, bind, Except.bind]
    rfl
  | some preimage =>
    rw [hl, Option.map_some, Option.map_eq_some_iff] at hhash
    obtain ⟨⟨generation, bytes⟩, he, rfl⟩ := hhash
    obtain ⟨first, hfirst⟩ : ∃ first, shown.head? = some first := by
      obtain ⟨described, hmem, -⟩ := hall (preimageKey paymentHash) (Or.inl ⟨rfl, by rw [he]; rfl⟩)
      exact Option.ne_none_iff_exists'.mp fun hnone => by
        rw [List.head?_eq_none_iff.mp hnone] at hmem
        cases hmem
    obtain ⟨k, hk, hdescribes⟩ := hof first (List.mem_of_mem_head? hfirst)
    obtain ⟨rfl, -⟩ := hok.shown_preimage hk
    have hhex : first.getStr "hex" = some (hexEncode preimage.toList) := by
      rw [Json.getStr, hdescribes.hex, he]
      rfl
    have hlen : preimage.toList.length = 32 := preimage.toList_length
    simp only [ClnNode.lookupPreimage, hcall, hshown, Option.bind_some, hfirst, hhex, hexDecode_hexEncode, hlen, bind,
      Except.bind, dite_true]
    rfl

namespace DatastoreCall

/-- The answer is that of the controller's call with this choice, which fails as the call does. -/
def Answers (rpc : Bool → Rpc σ) (hexError : String → String) (J : JsonCodec) :
    (c : DatastoreCall × Bool) → σ → World → Choice → Prop
  | (store c, broken), s, w, x => c.Answers (clnStore (rpc broken) hexError) J broken s w x
  | (storePreimage paymentHash preimage, broken), s, w, x => x.fails = broken ∧
    SameNodeResult (ClnNode.storePreimage (rpc broken) paymentHash preimage s).1
      (Canopus.exec x (.storePreimage paymentHash preimage) w).1
  | (lookupPreimage paymentHash, broken), s, w, x => x.fails = broken ∧
    SameNodeResult (ClnNode.lookupPreimage (rpc broken) hexError paymentHash s)
      (Canopus.exec x (.lookupPreimage paymentHash) w).1

/-- What is written can be read back. -/
def Writes (J : JsonCodec) : DatastoreCall → Prop
  | store c => c.Writes J
  | _ => True

end DatastoreCall

/-- The datastore holds what the world says that is stored, and beside it what others had in it before. -/
structure Keeps (J : JsonCodec) (before entry : Key → Option (Nat × Bytes)) (w : World) : Prop
    extends Represents J entry w where
  preimages : HoldsPreimages entry w
  others : ∀ key, key.head? ≠ some "canopus" → entry key = before key

/-- A call of the datastore that may fail as a whole. -/
theorem Datastore.answers (h : Datastore rpc entry) (hexError : String → String) (broken : Bool) {c : DatastoreCall}
    (hc : c.Writes J) (hok : Roomy entry (steps + 1) s) (hk : Keeps J before (entry s) w) :
    ∃ x, DatastoreCall.Answers rpc hexError J (c, broken) s w x ∧
      Roomy entry steps (c.exec (rpc broken) hexError J s).2 ∧
      Keeps J before (entry (c.exec (rpc broken) hexError J s).2) (exec x c.call w).2 := by
  cases c with
  | store c =>
    obtain ⟨x, hanswers, hok', hr⟩ := StoreCall.answers (fun broken => clnStore (rpc broken) hexError)
      (clnStore_lawful h) (clnStore_broken h) broken hc hok hk.toRepresents.withOthers
    refine ⟨x, hanswers, hok', hr.toRepresents, fun paymentHash => ?_, fun key hhead => ?_⟩
    · rw [DatastoreCall.call, exec_store_preimages, DatastoreCall.exec,
        hr.others _ (not_record_preimage paymentHash), hk.preimages paymentHash]
    · rw [DatastoreCall.exec, hr.others key fun hkey => hhead (IsKept.head? (Or.inl hkey)), hk.others key hhead]
  | storePreimage paymentHash preimage =>
    have hkept : IsKept (preimageKey paymentHash) := Or.inr ⟨paymentHash, rfl⟩
    cases broken with
    | true =>
      obtain ⟨message, hrpc, -⟩ := h.fails "datastore" (preimageParams paymentHash preimage) s
      have hstore : ClnNode.storePreimage (rpc true) paymentHash preimage s = (.error (.rpc message), s) := by
        rw [ClnNode.storePreimage, ClnNode.call, hrpc]
      refine ⟨StoreCall.failing, ⟨rfl, ?_⟩, ?_⟩
      · rw [hstore]
        trivial
      · rw [DatastoreCall.exec, hstore]
        exact ⟨hok.less, hk⟩
    | false =>
      obtain ⟨response, s', hrpc, he⟩ := h.written (preimageKey paymentHash) preimage.toList s hkept.ne_nil
        (fun other hne hother => hok.free hkept hne hother) fun generation old hold => by
          have hroom := (hok.holds _ _ hold hkept.head?).2
          have hlt : generation + (steps + 1) < 2 ^ 64 := hroom
          omega
      have hstore : ClnNode.storePreimage (rpc false) paymentHash preimage s = (.ok (), s') := by
        rw [ClnNode.storePreimage, ClnNode.call, preimageParams, hrpc]
      refine ⟨.calm, ⟨rfl, ?_⟩, ?_⟩
      · rw [hstore]
        rfl
      · rw [DatastoreCall.exec, hstore]
        refine ⟨hok.update hkept he ?_, ⟨fun n k => ?_, hk.readable⟩, hk.preimages.store he, fun key hhead => ?_⟩
        · rintro e' hnew
          cases hnew
          exact hok.next hkept rfl
        · rw [he, Function.update_of_ne fun hkey => not_record_preimage paymentHash ⟨n, k, hkey.symm⟩]
          exact hk.stored n k
        · have hne : key ≠ preimageKey paymentHash := fun hkey => hhead (by rw [hkey]; exact hkept.head?)
          rw [he, Function.update_of_ne hne]
          exact hk.others key hhead
  | lookupPreimage paymentHash =>
    cases broken with
    | true =>
      obtain ⟨message, hrpc, -⟩ := h.fails "listdatastore" (.object [("key", keyVec (preimageKey paymentHash))]) s
      have hlookup : ClnNode.lookupPreimage (rpc true) hexError paymentHash s = .error (.rpc message) := by
        simp only [ClnNode.lookupPreimage, ClnNode.call, hrpc, bind, Except.bind]
      refine ⟨StoreCall.failing, ⟨rfl, ?_⟩, hok.less, hk⟩
      rw [hlookup]
      trivial
    | false =>
      refine ⟨.calm, ⟨rfl, ?_⟩, hok.less, hk⟩
      rw [h.lookupPreimage hok hk.preimages paymentHash]
      rfl

/-- From a datastore on in which the plugin has nothing yet. -/
theorem Datastore.answersAs (h : Datastore rpc entry) (hexError : String → String)
    {calls : List (DatastoreCall × Bool)} (hlen : calls.length < 2 ^ 64) (hc : ∀ c ∈ calls, c.1.Writes J)
    (hs : ∀ key, key.head? = some "canopus" → entry s key = none) :
    AnswersAs (fun c s => (c.1.exec (rpc c.2) hexError J s).2) (·.1.call) (DatastoreCall.Answers rpc hexError J)
      (fun s' w => Roomy entry 0 s' ∧ Keeps J (entry s) (entry s') w) calls s World.empty := by
  refine answersAs_of_step (fun steps s' w => Roomy entry steps s' ∧ Keeps J (entry s) (entry s') w) calls ?_
    (fun _ _ h => h) ⟨⟨hlen, fun key e he hhead => ?_⟩, represents_empty fun key hkey => ?_, fun paymentHash => ?_,
      fun _ _ => rfl⟩
  · rintro ⟨c, broken⟩ hmem steps s' w ⟨hok, hk⟩
    exact h.answers hexError broken (hc _ hmem) hok hk
  · rw [hs key hhead] at he
    cases he
  · exact hs key (IsKept.head? (Or.inl hkey))
  · rw [hs _ rfl]
    rfl

/-- The datastore of Core Lightning is what the controller's calls are said to find: from a datastore on in which the
    plugin has nothing yet, any calls, any of which may fail, are answered as the world answers them, and what others
    keep in the datastore stays. -/
theorem datastore_answers_as_world (h : Datastore rpc entry) (hexError : String → String) (J : JsonCodec)
    (calls : List (DatastoreCall × Bool)) (hlen : calls.length < 2 ^ 64) (hc : ∀ c ∈ calls, c.1.Writes J) (s : σ)
    (hs : ∀ key, key.head? = some "canopus" → entry s key = none) :
    AnswersAs (fun c s => (c.1.exec (rpc c.2) hexError J s).2) (·.1.call) (DatastoreCall.Answers rpc hexError J)
      (fun s' w => Keeps J (entry s) (entry s') w) calls s World.empty :=
  (h.answersAs hexError hlen hc hs).mono fun _ _ hends => hends.2

/-! ### A datastore in memory -/

namespace TableDatastore

def keyOf (params : Json) : Key := (((params.get "key").bind Json.asArray).map texts).getD []

def describe (s : Table Key Bytes) (key : Key) : Json :=
  .object (("key", keyVec key) :: match s.lookup key with
    | none => []
    | some (generation, bytes) => [("generation", .number (toString generation)), ("hex", .string (hexEncode bytes))])

/-- The key and its children, each once. -/
def shown (s : Table Key Bytes) (parent : Key) : List Key :=
  ((s.entries.keys.filter fun key => decide (parent <+: key)).map fun key => key.take (parent.length + 1)).dedup

def conflicts (s : Table Key Bytes) (key : Key) : Bool :=
  s.entries.keys.any fun other => decide (other ≠ [] ∧ other ≠ key ∧ (other <+: key ∨ key <+: other))

def write (key : Key) (value : Bytes) (mode : Option String) (generation : Option Nat) (s : Table Key Bytes) :
    Except String Json × Table Key Bytes :=
  if mode = some "must-create" ∧ (s.lookup key).isSome then (.error "Key already exists", s)
  else if mode = some "must-create" ∨ mode = some "create-or-replace" then
    if conflicts s key then (.error "Key has a parent or children", s)
    else (.ok (describe (s.put key value) key), s.put key value)
  else
    match s.lookup key with
    | none => (.error "Key does not exist", s)
    | some (actual, _) =>
      if generation = some actual then (.ok (describe (s.put key value) key), s.put key value)
      else (.error "generation is different", s)

/-- The bytes of the parameter in hex. -/
def valueOf (params : Json) : Bytes := ((params.getStr "hex").bind fun hex => hexDecode hex.toList).getD []

def call (broken : Bool) : Rpc (Table Key Bytes) := fun method params s =>
  if broken then (.error "Broken pipe", s)
  else if method = "listdatastore" then
    (.ok (.object [("datastore", .array ((shown s (keyOf params)).map (describe s)))]), s)
  else if method = "datastore" then
    write (keyOf params) (valueOf params) (params.getStr "mode") ((params.get "generation").bind Json.asU64) s
  else if method = "deldatastore" then
    if (s.lookup (keyOf params)).isSome then (.ok (describe s (keyOf params)), s.erase (keyOf params))
    else (.error "Key does not exist", s)
  else (.error "Unknown command", s)

variable {t : Table Key Bytes} {value : Bytes}

theorem keyOf_key {fields : List (String × Json)} : keyOf (.object (("key", keyVec key) :: fields)) = key := by
  simp [keyOf, Json.get, keyVec, Json.asArray, texts_keyVec]

theorem describes : Describes (describe t key) key (t.lookup key) := by
  unfold describe
  cases t.lookup key with
  | none => constructor <;> rfl
  | some e => constructor <;> rfl

theorem mem_keys_iff : k ∈ t.entries.keys ↔ (t.lookup k).isSome := by
  rw [Table.lookup, AList.lookup_isSome, AList.mem_keys]

theorem mem_shown_iff : k ∈ shown t parent ↔ Shown t.lookup parent k := by
  simp only [shown, List.mem_dedup, List.mem_map, List.mem_filter, decide_eq_true_eq, mem_keys_iff]
  constructor
  · rintro ⟨full, ⟨hsome, rest, rfl⟩, rfl⟩
    cases rest with
    | nil =>
      refine Or.inl ⟨?_, ?_⟩
      · simp [List.take_of_length_le]
      · simpa [List.take_of_length_le] using hsome
    | cons part rest =>
      have htake : (parent ++ part :: rest).take (parent.length + 1) = parent ++ [part] := by
        rw [List.append_cons]
        exact List.take_left' (by simp)
      exact Or.inr ⟨part, rest, htake, by rw [htake, ← List.append_cons]; exact hsome⟩
  · rintro (⟨rfl, hsome⟩ | ⟨part, rest, rfl, hsome⟩)
    · exact ⟨k, ⟨hsome, List.prefix_rfl⟩, List.take_of_length_le (Nat.le_succ _)⟩
    · refine ⟨_, ⟨hsome, ?_⟩, List.take_left' (by simp)⟩
      rw [List.append_assoc]
      exact List.prefix_append _ _

theorem conflicts_eq_false
    (h : ∀ other, other ≠ [] → other ≠ key → other <+: key ∨ key <+: other → t.lookup other = none) :
    conflicts t key = false := by
  refine List.any_eq_false.mpr fun other hmem hconflict => ?_
  obtain ⟨hne, hother, hextends⟩ := of_decide_eq_true hconflict
  have hsome := mem_keys_iff.mp hmem
  rw [h other hne hother hextends] at hsome
  cases hsome

theorem lookup_put : (t.put key value).lookup = Function.update t.lookup key
    (some (((t.lookup key).map fun e => e.1 + 1).getD 0, value)) := by
  refine Function.eq_update_iff.mpr ⟨?_, fun other hother => Table.lookup_put_ne hother⟩
  cases hl : t.lookup key with
  | none => exact Table.lookup_put_new hl
  | some e => exact Table.lookup_put_next hl

/-- What the parameters of the plugin ask for. -/
theorem call_datastore (mode : String) (generation : Option Nat) :
    call false "datastore" (datastoreParams key (some (hexEncode value)) mode generation) t =
      write key value (some mode) (generation.bind fun g => (Json.number (toString g)).asU64) t := by
  have hkey : keyOf (datastoreParams key (some (hexEncode value)) mode generation) = key := keyOf_key
  have hvalue : valueOf (datastoreParams key (some (hexEncode value)) mode generation) = value := by
    show ((some (hexEncode value)).bind fun hex => hexDecode hex.toList).getD [] = value
    rw [Option.bind_some, hexDecode_hexEncode]
    rfl
  have hgeneration : ((datastoreParams key (some (hexEncode value)) mode generation).get "generation").bind Json.asU64 =
      generation.bind fun g => (Json.number (toString g)).asU64 := by
    cases generation <;> rfl
  show write _ _ _ _ t = _
  rw [hkey, hvalue, hgeneration]
  rfl

theorem call_deldatastore : call false "deldatastore" (.object [("key", keyVec key)]) t =
    if (t.lookup key).isSome then (.ok (describe t key), t.erase key) else (.error "Key does not exist", t) := by
  show (if (t.lookup (keyOf _)).isSome then _ else _) = _
  rw [keyOf_key]

theorem plain_missing : Plain "Key does not exist" := by
  simp [Plain, Mentions, containsText]

theorem isDatastore : Datastore call Table.lookup where
  finite s := (List.finite_toSet s.entries.keys).subset fun key hsome => mem_keys_iff.mpr hsome
  listed key s := by
    refine ⟨.object [("datastore", .array ((shown s key).map (describe s)))], (shown s key).map (describe s), ?_, rfl, ?_, ?_⟩
    · show (Except.ok (Json.object [("datastore", .array ((shown s (keyOf _)).map (describe s)))]), s) = _
      rw [keyOf_key]
    · intro described hmem
      obtain ⟨k, hk, rfl⟩ := List.mem_map.mp hmem
      exact ⟨k, mem_shown_iff.mp hk, describes⟩
    · intro k hk
      exact ⟨describe s k, List.mem_map_of_mem (mem_shown_iff.mpr hk), describes⟩
  created key value s hne hfree := by
    have hnone : s.lookup key = none := hfree key hne (Or.inl List.prefix_rfl)
    refine ⟨describe (s.put key value) key, s.put key value, ?_, ?_⟩
    · rw [call_datastore, write, if_neg (by simp [hnone]), if_pos (Or.inl rfl),
        conflicts_eq_false fun other hne _ => hfree other hne]
      rfl
    · rw [lookup_put, hnone]
      rfl
  createdBefore key value s hsome := by
    refine ⟨"Key already exists", ?_, by simp [Mentions, containsText]⟩
    rw [call_datastore, write, if_pos ⟨rfl, hsome⟩]
  replaced key value generation old s hold hroom := by
    refine ⟨describe (s.put key value) key, s.put key value, ?_, ?_⟩
    · rw [call_datastore, write, if_neg (by simp), if_neg (by decide), hold]
      exact if_pos ((asU64_toString generation).trans (if_pos (by omega)))
    · rw [lookup_put, hold]
      rfl
  replacedSince key value generation actual old s hold hne := by
    refine ⟨"generation is different", ?_, by simp [Mentions, containsText],
      by simp [Mentions, containsText], by simp [Mentions, containsText]⟩
    rw [call_datastore, write, if_neg (by simp), if_neg (by decide), hold]
    refine if_neg fun heq => ?_
    rw [Option.bind_some, asU64_toString] at heq
    split_ifs at heq
    exact hne (Option.some.inj heq).symm
  replacedMissing key value generation s hnone := by
    refine ⟨"Key does not exist", ?_, plain_missing⟩
    rw [call_datastore, write, if_neg (by simp), if_neg (by decide), hnone]
  written key value s _ hfree _ := by
    refine ⟨describe (s.put key value) key, s.put key value, ?_, lookup_put⟩
    have hvalue : valueOf (.object [("key", keyVec key), ("hex", .string (hexEncode value)),
        ("mode", .string "create-or-replace")]) = value := by
      show ((some (hexEncode value)).bind fun hex => hexDecode hex.toList).getD [] = value
      rw [Option.bind_some, hexDecode_hexEncode]
      rfl
    show write (keyOf _) _ (some "create-or-replace") none s = _
    rw [keyOf_key, hvalue, write, if_neg (by simp), if_pos (Or.inr rfl), conflicts_eq_false hfree]
    rfl
  deleted key s hsome := by
    refine ⟨describe s key, s.erase key, ?_, ?_⟩
    · rw [call_deldatastore, if_pos hsome]
    · exact Function.eq_update_iff.mpr ⟨Table.lookup_erase, fun other hother => Table.lookup_erase_ne hother⟩
  deletedMissing key s hnone := by
    refine ⟨"Key does not exist", ?_, plain_missing⟩
    rw [call_deldatastore, hnone]
    rfl
  fails method params s := ⟨"Broken pipe", rfl, by simp [Plain, Mentions, containsText]⟩

end TableDatastore

theorem datastore_answers_as_world_marks :
    AnswersAs (fun c s => (c.1.exec (TableDatastore.call c.2) id .marks s).2) (·.1.call)
      (DatastoreCall.Answers TableDatastore.call id .marks) (fun s w => Keeps .marks Table.empty.lookup s.lookup w)
      [(.store (.create .ledgerEventIds openingMark true), true), (.store (.create .ledgerEventIds openingMark true), false),
        (.storePreimage (ByteVec.fill 32 1) (ByteVec.fill 32 2), false), (.lookupPreimage (ByteVec.fill 32 1), false),
        (.store (.delete .ledgerEventIds openingMark), false), (.store (.delete .ledgerEventIds openingMark), false)]
      Table.empty World.empty := by
  refine datastore_answers_as_world TableDatastore.isDatastore id .marks _ (by decide) ?_ Table.empty fun key _ => rfl
  simp only [List.forall_mem_cons, List.not_mem_nil, false_implies, implies_true, and_true]
  exact ⟨⟨rfl, trivial⟩, ⟨rfl, trivial⟩, trivial, trivial, trivial, trivial⟩

end Canopus
