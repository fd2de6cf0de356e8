import Canopus.Theorems.Steps
import Canopus.Transparent
import Canopus.Theorems.StoreKeys

/-! Two levels of the store. The controller's calls are of records by their keys, each with its generation; a store keeps
    bytes under texts. A store that is lawful for the keys of records answers the calls as the tables of records do. -/

namespace Canopus

variable {σ : Type} {store : Store σ} {J : JsonCodec} {Ok : Nat → σ → Prop} {entry : σ → Key → Option (Nat × Bytes)}
  {beside : Key → Option (Nat × Bytes)} {s s' : σ} {w : World} {n m : Ns} {key : Key} {steps : Nat}

/-- The keys whose children the controller lists. -/
def IsFolder (key : Key) : Prop :=
  key = ["canopus", "channels"] ∨ key = ["canopus", "htlc_forwards"] ∨
    ∃ scid : UInt64, key = ["canopus", "htlc_forwards", toString scid.toNat]

/-- What the controller relies on of a store at the keys of its records. `entry` is what the store holds, and `Ok` that
    it is in order and has room for so many further steps. A key without an entry need not be told from a failure by
    an update or a removal. -/
structure Store.Lawful (store : Store σ) (Ok : Nat → σ → Prop) (entry : σ → Key → Option (Nat × Bytes)) : Prop where
  less : ∀ steps s, Ok (steps + 1) s → Ok steps s
  below : ∀ steps s folder part rest, Ok steps s → IsFolder folder → (entry s (folder ++ [part] ++ rest)).isSome →
    IsRecord (folder ++ [part] ++ rest)
  get : ∀ steps s key, Ok steps s → IsRecord key → store.get key s = match entry s key with
    | none => .error .notFound
    | some e => .ok e
  existsKey : ∀ steps s key, Ok steps s → IsRecord key → store.existsKey key s = .ok (entry s key).isSome
  createNew : ∀ steps s n (k : n.Key) value, Ok (steps + 1) s → Storable n k → entry s (recordKey n k) = none →
    ∃ s', store.create (recordKey n k) value s = (.ok (), s') ∧ Ok steps s' ∧
      entry s' = Function.update (entry s) (recordKey n k) (some (0, value))
  createOld : ∀ steps s key value, Ok steps s → IsRecord key → (entry s key).isSome →
    store.create key value s = (.error .alreadyExists, s)
  updateFresh : ∀ steps s key value generation old, Ok (steps + 1) s → IsRecord key →
    entry s key = some (generation, old) → ∃ s', store.update key value generation s = (.ok (), s') ∧ Ok steps s' ∧
      entry s' = Function.update (entry s) key (some (generation + 1, value))
  updateStale : ∀ steps s key value generation actual old, Ok steps s → IsRecord key →
    entry s key = some (actual, old) → actual ≠ generation →
    ∃ e a, store.update key value generation s = (.error (.generationMismatch e a), s)
  updateMissing : ∀ steps s key value generation, Ok steps s → IsRecord key → entry s key = none →
    ∃ e, (e = .notFound ∨ ∃ message, e = .backend message) ∧ store.update key value generation s = (.error e, s)
  deleteOld : ∀ steps s key, Ok (steps + 1) s → IsRecord key → (entry s key).isSome →
    ∃ s', store.delete key s = (.ok (), s') ∧ Ok steps s' ∧ entry s' = Function.update (entry s) key none
  deleteMissing : ∀ steps s key, Ok (steps + 1) s → IsRecord key → entry s key = none →
    ∃ r s', (r = .ok () ∨ ∃ message, r = .error (.backend message)) ∧ store.delete key s = (r, s') ∧ Ok steps s' ∧
      entry s' = entry s
  list : ∀ steps s key, Ok steps s → IsFolder key → ∃ children, store.list key s = .ok children ∧ children.Nodup ∧
    ∀ child, child ∈ children ↔ ∃ part rest, child = key ++ [part] ∧ (entry s (child ++ rest)).isSome

/-- The store holds the records in JSON that can be read. -/
structure Represents (J : JsonCodec) (entry : Key → Option (Nat × Bytes)) (w : World) : Prop where
  stored : ∀ n (k : n.Key), entry (recordKey n k) = ((w.store n).lookup k).map fun e => (e.1, J.toVec n e.2)
  readable : ∀ n (k : n.Key) generation v, (w.store n).lookup k = some (generation, v) →
    J.fromSlice n (J.toVec n v) = some v

/-- Beside the records the store holds what is given. -/
structure RepresentsBeside (J : JsonCodec) (beside entry : Key → Option (Nat × Bytes)) (w : World) : Prop
    extends Represents J entry w where
  others : ∀ key, ¬ IsRecord key → entry key = beside key

/-! ### Answers -/

/-- Errors of one kind. -/
def StoreError.SameKind : StoreError → StoreError → Prop
  | .notFound, .notFound | .alreadyExists, .alreadyExists | .backend _, .backend _
  | .generationMismatch _ _, .generationMismatch _ _ => True
  | _, _ => False

/-- Both are results that agree, or both are errors of one kind. -/
def SameResult {α β : Type} (R : α → β → Prop) : Except StoreError α → Except StoreError β → Prop
  | .ok a, .ok b => R a b
  | .error e, .error e' => e.SameKind e'
  | _, _ => False

namespace StoreCall

/-- The answer of a store is the one that the controller's call is to have. The order of lists is left open. -/
def Agrees : (c : StoreCall) → c.Ans → c.call.Ans → Prop
  | get _ _, r, r' => SameResult Eq r r'
  | existsKey _ _, r, r' => SameResult Eq r r'
  | create _ _ _, r, r' | update _ _ _ _, r, r' | delete _ _, r, r' => SameResult Eq r r'
  | listChannels, r, r' => SameResult List.Perm r r'
  | listForwardScids, r, r' => SameResult (fun keys scids =>
      keys.Perm (scids.map fun scid => ["canopus", "htlc_forwards", toString scid.toNat])) r r'
  | listForwards _, r, r' => SameResult (fun keys ks => keys.Perm (ks.map fun k => forwardKey k.1 k.2)) r r'

/-- The call updates or removes a record that is not there. -/
def Misses (w : World) : StoreCall → Prop
  | update n k _ _ | delete n k => (w.store n).lookup k = none
  | _ => False

/-- What is written can be read back, and is written under a key that has no empty component. -/
def Writes (J : JsonCodec) : StoreCall → Prop
  | create n k v => J.fromSlice n (J.toVec n v) = some v ∧ Storable n k
  | update n _ v _ => J.fromSlice n (J.toVec n v) = some v
  | _ => True

end StoreCall

/-! ### Writing -/

theorem Represents.put {k : n.Key} {v : n.Val} {generation : Nat} (h : Represents J (entry s) w)
    (he : entry s' = Function.update (entry s) (recordKey n k) (some (generation, J.toVec n v)))
    (hl : ((w.put n k v).store n).lookup k = some (generation, v)) (hv : J.fromSlice n (J.toVec n v) = some v) :
    Represents J (entry s') (w.put n k v) := by
  constructor
  case stored =>
    intro m j
    rw [he]
    by_cases hsame : (⟨m, j⟩ : Σ n : Ns, n.Key) = ⟨n, k⟩
    · cases hsame
      rw [Function.update_self, hl]
      rfl
    · rw [Function.update_of_ne fun hkey => hsame (recordKey_inj hkey), h.stored m j]
      by_cases hns : m = n
      · subst hns
        rw [World.put_store_self, Table.lookup_put_ne fun hk => hsame (by rw [hk])]
      · rw [World.put_store_ne hns]
  case readable =>
    intro m j g u hj
    by_cases hsame : (⟨m, j⟩ : Σ n : Ns, n.Key) = ⟨n, k⟩
    · cases hsame
      obtain ⟨-, rfl⟩ := Prod.mk.inj (Option.some.inj (hj.symm.trans hl))
      exact hv
    · by_cases hns : m = n
      · subst hns
        rw [World.put_store_self, Table.lookup_put_ne fun hk => hsame (by rw [hk])] at hj
        exact h.readable m j g u hj
      · rw [World.put_store_ne hns] at hj
        exact h.readable m j g u hj

theorem Represents.erase {k : n.Key} (h : Represents J (entry s) w)
    (he : entry s' = Function.update (entry s) (recordKey n k) none) : Represents J (entry s') (w.erase n k) := by
  constructor
  case stored =>
    intro m j
    rw [he]
    by_cases hsame : (⟨m, j⟩ : Σ n : Ns, n.Key) = ⟨n, k⟩
    · cases hsame
      rw [Function.update_self, World.erase_store_self, Table.lookup_erase]
      rfl
    · rw [Function.update_of_ne fun hkey => hsame (recordKey_inj hkey), h.stored m j]
      by_cases hns : m = n
      · subst hns
        rw [World.erase_store_self, Table.lookup_erase_ne fun hk => hsame (by rw [hk])]
      · rw [World.erase_store_ne hns]
  case readable =>
    intro m j g u hj
    by_cases hns : m = n
    · subst hns
      rw [World.erase_store_self] at hj
      by_cases hk : j = k
      · subst hk
        rw [Table.lookup_erase] at hj
        cases hj
      · rw [Table.lookup_erase_ne hk] at hj
        exact h.readable m j g u hj
    · rw [World.erase_store_ne hns] at hj
      exact h.readable m j g u hj

theorem RepresentsBeside.put {k : n.Key} {v : n.Val} {generation : Nat} (h : RepresentsBeside J beside (entry s) w)
    (he : entry s' = Function.update (entry s) (recordKey n k) (some (generation, J.toVec n v)))
    (hl : ((w.put n k v).store n).lookup k = some (generation, v)) (hv : J.fromSlice n (J.toVec n v) = some v) :
    RepresentsBeside J beside (entry s') (w.put n k v) where
  toRepresents := h.toRepresents.put he hl hv
  others key hkey := by
    rw [he, Function.update_of_ne fun heq => hkey ⟨n, k, heq⟩]
    exact h.others key hkey

theorem RepresentsBeside.erase {k : n.Key} (h : RepresentsBeside J beside (entry s) w)
    (he : entry s' = Function.update (entry s) (recordKey n k) none) :
    RepresentsBeside J beside (entry s') (w.erase n k) where
  toRepresents := h.toRepresents.erase he
  others key hkey := by
    rw [he, Function.update_of_ne fun heq => hkey ⟨n, k, heq⟩]
    exact h.others key hkey

theorem Represents.none_iff {k : n.Key} (h : Represents J (entry s) w) :
    entry s (recordKey n k) = none ↔ (w.store n).lookup k = none := by
  rw [h.stored n k, Option.map_eq_none_iff]

theorem Represents.some_of {k : n.Key} {g : Nat} {v : n.Val} (h : Represents J (entry s) w)
    (hk : (w.store n).lookup k = some (g, v)) : entry s (recordKey n k) = some (g, J.toVec n v) := by
  rw [h.stored n k, hk]
  rfl

/-! ### Lists -/

section Lists
variable {part : String} {rest : List String}

theorem below_channels (h : IsRecord (["canopus", "channels"] ++ [part] ++ rest)) :
    ∃ peer, ["canopus", "channels"] ++ [part] = channelKey peer ∧ rest = [] := by
  obtain ⟨n, k, hkey⟩ := h
  cases n <;> simp only [recordKey, channelKey, secretKey, forwardKey, policyKey, metaKey, ledgerKey, markerKey,
    List.cons_append, List.nil_append, List.cons.injEq, true_and, reduceCtorEq, and_false, false_and,
    String.reduceEq] at hkey
  obtain ⟨rfl, rfl⟩ := hkey
  exact ⟨k, rfl, rfl⟩

theorem below_forwards (h : IsRecord (["canopus", "htlc_forwards"] ++ [part] ++ rest)) :
    ∃ scid id, ["canopus", "htlc_forwards"] ++ [part] ++ rest = forwardKey scid id ∧ part = toString scid.toNat := by
  obtain ⟨n, k, hkey⟩ := h
  cases n <;> simp only [recordKey, channelKey, secretKey, forwardKey, policyKey, metaKey, ledgerKey, markerKey,
    List.cons_append, List.nil_append, List.cons.injEq, true_and, reduceCtorEq, and_false, false_and,
    String.reduceEq] at hkey
  obtain ⟨rfl, rfl⟩ := hkey
  exact ⟨k.1, k.2, rfl, rfl⟩

theorem below_scid {scid : UInt64} (h : IsRecord (["canopus", "htlc_forwards", toString scid.toNat] ++ [part] ++ rest)) :
    ∃ id, ["canopus", "htlc_forwards", toString scid.toNat] ++ [part] = forwardKey scid id ∧ rest = [] := by
  obtain ⟨scid', id, hkey, hscid⟩ := @below_forwards (toString scid.toNat) (part :: rest) h
  obtain rfl := UInt64.toNat_inj.mp (toString_inj hscid)
  simp only [forwardKey, List.cons_append, List.nil_append, List.cons.injEq, true_and] at hkey
  obtain ⟨rfl, rfl⟩ := hkey
  exact ⟨id, rfl, rfl⟩

/-- What is listed are the keys of the records below the folder. -/
theorem Store.Lawful.lists (hl : store.Lawful Ok entry) (hok : Ok steps s) (hfolder : IsFolder key) {keys : List Key}
    (hnodup : keys.Nodup) (hkeys : ∀ child, child ∈ keys ↔ ∃ part rest, child = key ++ [part] ∧
      IsRecord (child ++ rest) ∧ (entry s (child ++ rest)).isSome) :
    ∃ children, store.list key s = .ok children ∧ children.Perm keys := by
  obtain ⟨children, hlist, hchildren, hmem⟩ := hl.list steps s key hok hfolder
  refine ⟨children, hlist, (List.perm_ext_iff_of_nodup hchildren hnodup).mpr fun child => ?_⟩
  rw [hmem child, hkeys child]
  constructor
  · rintro ⟨part, rest, rfl, hsome⟩
    exact ⟨part, rest, rfl, hl.below steps s key part rest hok hfolder hsome, hsome⟩
  · rintro ⟨part, rest, hchild, -, hsome⟩
    exact ⟨part, rest, hchild, hsome⟩

theorem Represents.isSome {k : n.Key} (hr : Represents J (entry s) w) :
    (entry s (recordKey n k)).isSome ↔ ((w.store n).value? k).isSome := by
  rw [hr.stored n k, Option.isSome_map, Table.value?, Option.isSome_map]

theorem Store.Lawful.listsChannels (hl : store.Lawful Ok entry) (hok : Ok steps s) (hr : Represents J (entry s) w) :
    ∃ children, store.list ["canopus", "channels"] s = .ok children ∧ children.Perm (w.peers.map channelKey) := by
  refine hl.lists hok (Or.inl rfl) (Table.sortedKeys_nodup.map fun p q h => ?_) fun child => ?_
  · cases @recordKey_inj .channels .channels p q h
    rfl
  · rw [List.mem_map]
    constructor
    · rintro ⟨peer, hpeer, rfl⟩
      refine ⟨hexEncode peer.toList, [], rfl, ⟨.channels, peer, rfl⟩, ?_⟩
      exact (hr.isSome (n := .channels) (k := peer)).mpr (Table.mem_sortedKeys.mp hpeer)
    · rintro ⟨part, rest, rfl, hrecord, hsome⟩
      obtain ⟨peer, hkey, rfl⟩ := below_channels hrecord
      rw [List.append_nil, hkey] at hsome
      exact ⟨peer, Table.mem_sortedKeys.mpr ((hr.isSome (n := .channels) (k := peer)).mp hsome), hkey.symm⟩

theorem mem_linkKeys_iff {k : HtlcKey} : k ∈ w.linkKeys ↔ ((w.store .htlcForwards).value? k).isSome :=
  Table.mem_sortedKeys

theorem Store.Lawful.listsForwardScids (hl : store.Lawful Ok entry) (hok : Ok steps s) (hr : Represents J (entry s) w) :
    ∃ children, store.list ["canopus", "htlc_forwards"] s = .ok children ∧
      children.Perm ((w.linkKeys.map (·.1)).dedup.map fun scid => ["canopus", "htlc_forwards", toString scid.toNat]) := by
  refine hl.lists hok (Or.inr (Or.inl rfl)) ((List.nodup_dedup _).map fun scid scid' h => ?_) fun child => ?_
  · have htext : toString scid.toNat = toString scid'.toNat := by simpa using h
    exact UInt64.toNat_inj.mp (toString_inj htext)
  · simp only [List.mem_map, List.mem_dedup]
    constructor
    · rintro ⟨scid, ⟨k, hk, rfl⟩, rfl⟩
      refine ⟨toString k.1.toNat, [toString k.2.toNat], rfl, ⟨.htlcForwards, k, rfl⟩, ?_⟩
      exact (hr.isSome (n := .htlcForwards) (k := k)).mpr (mem_linkKeys_iff.mp hk)
    · rintro ⟨part, rest, rfl, hrecord, hsome⟩
      obtain ⟨scid, id, hkey, rfl⟩ := below_forwards hrecord
      rw [hkey] at hsome
      exact ⟨scid, ⟨(scid, id), mem_linkKeys_iff.mpr ((hr.isSome (n := .htlcForwards) (k := (scid, id))).mp hsome), rfl⟩, rfl⟩

theorem Store.Lawful.listsForwards (hl : store.Lawful Ok entry) (hok : Ok steps s) (hr : Represents J (entry s) w)
    (scid : UInt64) : ∃ children, store.list ["canopus", "htlc_forwards", toString scid.toNat] s = .ok children ∧
      children.Perm ((w.linkKeys.filter (·.1 == scid)).map fun k => forwardKey k.1 k.2) := by
  refine hl.lists hok (Or.inr (Or.inr ⟨scid, rfl⟩)) ((Table.sortedKeys_nodup.filter _).map fun k k' h => ?_) fun child => ?_
  · cases @recordKey_inj .htlcForwards .htlcForwards k k' h
    rfl
  · simp only [List.mem_map, List.mem_filter, beq_iff_eq]
    constructor
    · rintro ⟨k, ⟨hk, rfl⟩, rfl⟩
      refine ⟨toString k.2.toNat, [], rfl, ⟨.htlcForwards, k, rfl⟩, ?_⟩
      exact (hr.isSome (n := .htlcForwards) (k := k)).mpr (mem_linkKeys_iff.mp hk)
    · rintro ⟨part, rest, rfl, hrecord, hsome⟩
      obtain ⟨id, hkey, rfl⟩ := below_scid hrecord
      rw [List.append_nil, hkey] at hsome
      exact ⟨(scid, id), ⟨mem_linkKeys_iff.mpr ((hr.isSome (n := .htlcForwards) (k := (scid, id))).mp hsome), rfl⟩, hkey.symm⟩

end Lists

/-! ### One call -/

namespace StoreCall

/-- The answer to a call is that of the controller's call with this choice. The call fails where the store is broken,
    and may fail where a record is missing that it updates or removes. -/
def Answers (store : Store σ) (J : JsonCodec) (broken : Bool) (c : StoreCall) (s : σ) (w : World) (x : Choice) : Prop :=
  (broken = true → x.fails = true) ∧ (x.fails = true → broken = true ∨ c.Misses w) ∧
    c.Agrees (c.exec store J s).1 (Canopus.exec x c.call w).1

/-- What one call of a lawful store does. What is stored beside the records stays. -/
def Simulates (store : Store σ) (J : JsonCodec) (Ok : Nat → σ → Prop) (entry : σ → Key → Option (Nat × Bytes))
    (beside : Key → Option (Nat × Bytes)) (steps : Nat) (s : σ) (w : World) (c : StoreCall) : Prop :=
  ∃ x, (x.fails = true → c.Misses w) ∧ c.Agrees (c.exec store J s).1 (Canopus.exec x c.call w).1 ∧
    Ok steps (c.exec store J s).2 ∧ RepresentsBeside J beside (entry (c.exec store J s).2) (Canopus.exec x c.call w).2

/-- The call fails. -/
def failing : Choice := { Choice.calm with fails := true }

theorem simulates_get (hl : store.Lawful Ok entry) (hok : Ok (steps + 1) s) (hr : RepresentsBeside J beside (entry s) w) (k : n.Key) :
    Simulates store J Ok entry beside steps s w (get n k) := by
  refine ⟨.calm, fun h => (by cases h), ?_, hl.less steps s hok, ?_⟩
  · have hget := hl.get (steps + 1) s (recordKey n k) hok ⟨n, k, rfl⟩
    simp only [exec, Store.getJson, hget, call, Canopus.exec]
    cases hk : (w.store n).lookup k with
    | none =>
      rw [hr.none_iff.mpr hk]
      simp [Agrees, SameResult, StoreError.SameKind, Choice.calm]
    | some e =>
      rw [hr.some_of hk]
      simp [Agrees, SameResult, Choice.calm, hr.readable n k e.1 e.2 hk]
  · rw [call, exec_reads .calm w rfl]
    exact hr

theorem simulates_existsKey (hl : store.Lawful Ok entry) (hok : Ok (steps + 1) s) (hr : RepresentsBeside J beside (entry s) w)
    (k : n.Key) : Simulates store J Ok entry beside steps s w (existsKey n k) := by
  refine ⟨.calm, fun h => (by cases h), ?_, hl.less steps s hok, ?_⟩
  · have hexists := hl.existsKey (steps + 1) s (recordKey n k) hok ⟨n, k, rfl⟩
    simp only [exec, hexists, call, Canopus.exec, hr.stored n k, Option.isSome_map]
    simp [Agrees, SameResult, Choice.calm]
  · rw [call, exec_reads .calm w rfl]
    exact hr

theorem simulates_create (hl : store.Lawful Ok entry) (hok : Ok (steps + 1) s) (hr : RepresentsBeside J beside (entry s) w)
    {k : n.Key} {v : n.Val} (hv : J.fromSlice n (J.toVec n v) = some v) (hk : Storable n k) :
    Simulates store J Ok entry beside steps s w (create n k v) := by
  refine ⟨.calm, fun h => (by cases h), ?_⟩
  simp only [exec, Store.createJson, call, Canopus.exec]
  cases hlk : (w.store n).lookup k with
  | none =>
    obtain ⟨s', hcreate, hok', he⟩ := hl.createNew steps s n k (J.toVec n v) hok hk (hr.none_iff.mpr hlk)
    rw [hcreate]
    refine ⟨by simp [Agrees, SameResult, Choice.calm], hok', ?_⟩
    have hl' : ((w.put n k v).store n).lookup k = some (0, v) := by
      rw [World.put_store_self, Table.lookup_put_new hlk]
    simpa [Choice.calm] using hr.put he hl' hv
  | some e =>
    have hsome : (entry s (recordKey n k)).isSome := by
      rw [hr.some_of hlk]
      rfl
    rw [hl.createOld (steps + 1) s _ (J.toVec n v) hok ⟨n, k, rfl⟩ hsome]
    exact ⟨by simp [Agrees, SameResult, StoreError.SameKind, Choice.calm], hl.less steps s hok, by simpa [Choice.calm] using hr⟩

theorem simulates_update (hl : store.Lawful Ok entry) (hok : Ok (steps + 1) s) (hr : RepresentsBeside J beside (entry s) w)
    {k : n.Key} {v : n.Val} {generation : Nat} (hv : J.fromSlice n (J.toVec n v) = some v) :
    Simulates store J Ok entry beside steps s w (update n k v generation) := by
  cases hlk : (w.store n).lookup k with
  | none =>
    obtain ⟨e, he, hupdate⟩ := hl.updateMissing (steps + 1) s _ (J.toVec n v) generation hok ⟨n, k, rfl⟩
      (hr.none_iff.mpr hlk)
    rcases he with rfl | ⟨message, rfl⟩
    · refine ⟨.calm, fun h => (by cases h), ?_⟩
      simp only [exec, Store.updateJson, call, Canopus.exec, hupdate, hlk]
      exact ⟨by simp [Agrees, SameResult, StoreError.SameKind, Choice.calm], hl.less steps s hok, by simpa [Choice.calm] using hr⟩
    · refine ⟨failing, fun _ => hlk, ?_⟩
      simp only [exec, Store.updateJson, call, Canopus.exec, hupdate]
      exact ⟨by simp [Agrees, SameResult, StoreError.SameKind, failing, backendError], hl.less steps s hok,
        by simpa [failing] using hr⟩
  | some e =>
    obtain ⟨actual, old⟩ := e
    refine ⟨.calm, fun h => (by cases h), ?_⟩
    simp only [exec, Store.updateJson, call, Canopus.exec, hlk]
    by_cases hg : actual = generation
    · subst hg
      obtain ⟨s', hupdate, hok', he⟩ := hl.updateFresh steps s _ (J.toVec n v) actual _ hok ⟨n, k, rfl⟩ (hr.some_of hlk)
      rw [hupdate]
      refine ⟨by simp [Agrees, SameResult, Choice.calm], hok', ?_⟩
      have hl' : ((w.put n k v).store n).lookup k = some (actual + 1, v) := by
        rw [World.put_store_self, Table.lookup_put_next hlk]
      simpa [Choice.calm] using hr.put he hl' hv
    · obtain ⟨e, a, hupdate⟩ := hl.updateStale (steps + 1) s _ (J.toVec n v) generation actual _ hok ⟨n, k, rfl⟩
        (hr.some_of hlk) hg
      rw [hupdate]
      exact ⟨by simp [Agrees, SameResult, StoreError.SameKind, Choice.calm, hg], hl.less steps s hok,
        by simpa [Choice.calm, hg] using hr⟩

theorem simulates_delete (hl : store.Lawful Ok entry) (hok : Ok (steps + 1) s) (hr : RepresentsBeside J beside (entry s) w) (k : n.Key) :
    Simulates store J Ok entry beside steps s w (delete n k) := by
  cases hlk : (w.store n).lookup k with
  | none =>
    have hnone := hr.none_iff.mpr hlk
    obtain ⟨r, s', hresult, hdelete, hok', he⟩ := hl.deleteMissing steps s _ hok ⟨n, k, rfl⟩ hnone
    rcases hresult with rfl | ⟨message, rfl⟩
    · refine ⟨.calm, fun h => (by cases h), ?_⟩
      simp only [exec, call, Canopus.exec, hdelete]
      refine ⟨by simp [Agrees, SameResult, Choice.calm], hok', ?_⟩
      have he' : entry s' = Function.update (entry s) (recordKey n k) none := by
        rw [he, ← hnone, Function.update_eq_self]
      simpa [Choice.calm] using hr.erase he'
    · refine ⟨failing, fun _ => hlk, ?_⟩
      simp only [exec, call, Canopus.exec, hdelete, he]
      exact ⟨by simp [Agrees, SameResult, StoreError.SameKind, failing, backendError], hok', by simpa [failing] using hr⟩
  | some e =>
    have hsome : (entry s (recordKey n k)).isSome := by
      rw [hr.some_of hlk]
      rfl
    obtain ⟨s', hdelete, hok', he⟩ := hl.deleteOld steps s _ hok ⟨n, k, rfl⟩ hsome
    refine ⟨.calm, fun h => (by cases h), ?_⟩
    simp only [exec, call, Canopus.exec, hdelete]
    exact ⟨by simp [Agrees, SameResult, Choice.calm], hok', by simpa [Choice.calm] using hr.erase he⟩

/-- The hex of a peer's key is read back. -/
theorem filterMap_channelKey (peers : List PublicKey) : (peers.map channelKey).filterMap Store.peerOf = peers := by
  rw [List.filterMap_map]
  refine (List.filterMap_congr fun peer _ => ?_).trans (List.filterMap_some ..)
  have hlen : peer.toList.length = 33 := peer.toList_length
  simp only [Function.comp_apply, Store.peerOf, channelKey, List.getLast?_cons_cons, List.getLast?_singleton,
    Option.bind_eq_bind, Option.bind_some, hexDecode_hexEncode, hlen, dite_true]
  rfl

theorem simulates_lists (hl : store.Lawful Ok entry) (hok : Ok (steps + 1) s) (hr : RepresentsBeside J beside (entry s) w) :
    Simulates store J Ok entry beside steps s w listChannels ∧ Simulates store J Ok entry beside steps s w listForwardScids ∧
      ∀ scid, Simulates store J Ok entry beside steps s w (listForwards scid) := by
  have hless := hl.less steps s hok
  refine ⟨?_, ?_, fun scid => ?_⟩
  · obtain ⟨children, hlist, hperm⟩ := hl.listsChannels hok hr.toRepresents
    refine ⟨.calm, fun h => (by cases h), ?_, hless, ?_⟩
    · simp only [exec, Store.listChannels, hlist, call, Canopus.exec]
      have hpeers := hperm.filterMap Store.peerOf
      rw [filterMap_channelKey] at hpeers
      exact hpeers
    · rw [call, exec_reads .calm w rfl]
      exact hr
  · obtain ⟨children, hlist, hperm⟩ := hl.listsForwardScids hok hr.toRepresents
    refine ⟨.calm, fun h => (by cases h), ?_, hless, ?_⟩
    · simp only [exec, hlist, call, Canopus.exec]
      exact hperm
    · rw [call, exec_reads .calm w rfl]
      exact hr
  · obtain ⟨children, hlist, hperm⟩ := hl.listsForwards hok hr.toRepresents scid
    refine ⟨.calm, fun h => (by cases h), ?_, hless, ?_⟩
    · simp only [exec, hlist, call, Canopus.exec]
      exact hperm
    · rw [call, exec_reads .calm w rfl]
      exact hr

theorem simulates (hl : store.Lawful Ok entry) (hok : Ok (steps + 1) s) (hr : RepresentsBeside J beside (entry s) w) {c : StoreCall}
    (hc : c.Writes J) : Simulates store J Ok entry beside steps s w c := by
  cases c with
  | get n k => exact simulates_get hl hok hr k
  | existsKey n k => exact simulates_existsKey hl hok hr k
  | create n k v => exact simulates_create hl hok hr hc.1 hc.2
  | update n k v generation => exact simulates_update hl hok hr hc
  | delete n k => exact simulates_delete hl hok hr k
  | listChannels => exact (simulates_lists hl hok hr).1
  | listForwardScids => exact (simulates_lists hl hok hr).2.1
  | listForwards scid => exact (simulates_lists hl hok hr).2.2 scid

end StoreCall

/-! ### Runs -/

/-- A store that fails at every call. -/
structure Store.Broken (store : Store σ) : Prop where
  get : ∀ key s, ∃ message, store.get key s = .error (.backend message)
  existsKey : ∀ key s, ∃ message, store.existsKey key s = .error (.backend message)
  create : ∀ key value s, ∃ message, store.create key value s = (.error (.backend message), s)
  update : ∀ key value generation s, ∃ message, store.update key value generation s = (.error (.backend message), s)
  delete : ∀ key s, ∃ message, store.delete key s = (.error (.backend message), s)
  list : ∀ key s, ∃ message, store.list key s = .error (.backend message)

namespace StoreCall

theorem fails_of_broken (hb : store.Broken) (c : StoreCall) :
    c.Agrees (c.exec store J s).1 (Canopus.exec failing c.call w).1 ∧ (c.exec store J s).2 = s ∧
      (Canopus.exec failing c.call w).2 = w := by
  cases c with
  | get n k =>
    obtain ⟨message, he⟩ := hb.get (recordKey n k) s
    simp [exec, Store.getJson, he, call, Canopus.exec, failing, Agrees, SameResult, StoreError.SameKind, backendError]
  | existsKey n k =>
    obtain ⟨message, he⟩ := hb.existsKey (recordKey n k) s
    simp [exec, he, call, Canopus.exec, failing, Agrees, SameResult, StoreError.SameKind, backendError]
  | create n k v =>
    obtain ⟨message, he⟩ := hb.create (recordKey n k) (J.toVec n v) s
    simp [exec, Store.createJson, he, call, Canopus.exec, failing, Agrees, SameResult, StoreError.SameKind, backendError]
  | update n k v generation =>
    obtain ⟨message, he⟩ := hb.update (recordKey n k) (J.toVec n v) generation s
    simp [exec, Store.updateJson, he, call, Canopus.exec, failing, Agrees, SameResult, StoreError.SameKind, backendError]
  | delete n k =>
    obtain ⟨message, he⟩ := hb.delete (recordKey n k) s
    simp [exec, he, call, Canopus.exec, failing, Agrees, SameResult, StoreError.SameKind, backendError]
  | listChannels =>
    obtain ⟨message, he⟩ := hb.list ["canopus", "channels"] s
    refine ⟨?_, rfl, rfl⟩
    simp only [exec, Store.listChannels, he, call, Canopus.exec]
    trivial
  | listForwardScids =>
    obtain ⟨message, he⟩ := hb.list ["canopus", "htlc_forwards"] s
    refine ⟨?_, rfl, rfl⟩
    simp only [exec, he, call, Canopus.exec]
    trivial
  | listForwards scid =>
    obtain ⟨message, he⟩ := hb.list ["canopus", "htlc_forwards", toString scid.toNat] s
    refine ⟨?_, rfl, rfl⟩
    simp only [exec, he, call, Canopus.exec]
    trivial

end StoreCall

/-- The calls are answered one after the other as the world answers them, each with some choice, up to a state and a
    world of which something holds. -/
def AnswersAs {κ : Type} (run : κ → σ → σ) (call : κ → Call) (Answers : κ → σ → World → Choice → Prop)
    (Ends : σ → World → Prop) : List κ → σ → World → Prop
  | [], s, w => Ends s w
  | c :: rest, s, w => ∃ x, Answers c s w x ∧ AnswersAs run call Answers Ends rest (run c s) (exec x (call c) w).2

/-- A relation between the levels that every call keeps makes a simulation. It may ask for room for the calls to come. -/
theorem answersAs_of_step {κ : Type} {run : κ → σ → σ} {call : κ → Call} {Answers : κ → σ → World → Choice → Prop}
    {Ends : σ → World → Prop} (Related : Nat → σ → World → Prop) (calls : List κ)
    (hstep : ∀ c ∈ calls, ∀ steps s w, Related (steps + 1) s w →
      ∃ x, Answers c s w x ∧ Related steps (run c s) (exec x (call c) w).2)
    (hend : ∀ s w, Related 0 s w → Ends s w) {s : σ} {w : World} (h : Related calls.length s w) :
    AnswersAs run call Answers Ends calls s w := by
  induction calls generalizing s w with
  | nil => exact hend s w h
  | cons c calls ih =>
    obtain ⟨x, hanswers, hrelated⟩ := hstep c List.mem_cons_self _ s w h
    exact ⟨x, hanswers, ih (fun c' hc' => hstep c' (List.mem_cons_of_mem _ hc')) hrelated⟩

theorem AnswersAs.mono {κ : Type} {run : κ → σ → σ} {call : κ → Call} {Answers : κ → σ → World → Choice → Prop}
    {Ends Ends' : σ → World → Prop} (hends : ∀ s w, Ends s w → Ends' s w) {calls : List κ}
    (h : AnswersAs run call Answers Ends calls s w) : AnswersAs run call Answers Ends' calls s w := by
  induction calls generalizing s w with
  | nil => exact hends s w h
  | cons c calls ih =>
    obtain ⟨x, hanswers, hrest⟩ := h
    exact ⟨x, hanswers, ih hrest⟩

namespace StoreCall

/-- A call of a store that is lawful, or of one that is broken as a whole. -/
theorem answers (stores : Bool → Store σ) (hl : (stores false).Lawful Ok entry) (hb : (stores true).Broken)
    (broken : Bool) {c : StoreCall} (hc : c.Writes J) (hok : Ok (steps + 1) s) (hr : RepresentsBeside J beside (entry s) w) :
    ∃ x, c.Answers (stores broken) J broken s w x ∧ Ok steps (c.exec (stores broken) J s).2 ∧
      RepresentsBeside J beside (entry (c.exec (stores broken) J s).2) (Canopus.exec x c.call w).2 := by
  cases broken with
  | true =>
    obtain ⟨hagrees, hs, hw⟩ := c.fails_of_broken (J := J) (s := s) (w := w) hb
    refine ⟨failing, ⟨fun _ => rfl, fun _ => Or.inl rfl, hagrees⟩, ?_⟩
    rw [hs, hw]
    exact ⟨hl.less steps s hok, hr⟩
  | false =>
    obtain ⟨x, hmiss, hagrees, hok', hr'⟩ := simulates hl hok hr hc
    exact ⟨x, ⟨fun h => (by cases h), fun h => Or.inr (hmiss h), hagrees⟩, hok', hr'⟩

end StoreCall

/-- A store without records represents the empty world. -/
theorem represents_empty (h : ∀ key, IsRecord key → entry s key = none) : Represents J (entry s) World.empty where
  stored n k := h _ ⟨n, k, rfl⟩
  readable n k generation v hk := by cases hk

theorem Represents.withOthers (h : Represents J (entry s) w) : RepresentsBeside J (entry s) (entry s) w :=
  { h with others := fun _ _ => rfl }

/-- The JSON of marks, which is all that is written where nothing but marks is: `true` and `false`. -/
def JsonCodec.marks : JsonCodec where
  toVec
    | .ledgerEventIds, true => [116, 114, 117, 101]
    | .ledgerEventIds, false => [102, 97, 108, 115, 101]
    | _, _ => []
  fromSlice
    | .ledgerEventIds, bytes =>
      if bytes = [116, 114, 117, 101] then some true else if bytes = [102, 97, 108, 115, 101] then some false else none
    | _, _ => none

/-- The mark of the opening of a channel. -/
def openingMark : EventId := { peer := ByteVec.fill 33 2, localUpdates := 0, remoteUpdates := 0, tag := .channelOpen }

end Canopus
