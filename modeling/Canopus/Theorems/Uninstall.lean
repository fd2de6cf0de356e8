import Canopus.Lib.Walk
import Canopus.Theorems.ClnRecords
import Mathlib.Data.Set.Card

/-! Leaving a node for good. Over a store that tells and lists what is in it, the removal of a subtree visits every key at
    the root or below it once. In the datastore of Core Lightning it takes away all that the plugin has stored, and nothing
    else. -/

namespace Canopus
open Walk

variable {σ : Type} {store : Store σ} {entry : σ → Key → Option (Nat × Bytes)} {s s' : σ} {key root : Key} {n : Nat}

/-- What the removal relies on of a store. -/
structure Store.Listed (store : Store σ) (entry : σ → Key → Option (Nat × Bytes)) : Prop where
  finite : ∀ s, {key | (entry s key).isSome}.Finite
  existsKey : ∀ s key, store.existsKey key s = .ok (entry s key).isSome
  delete : ∀ s key, (entry s key).isSome →
    ∃ s', store.delete key s = (.ok (), s') ∧ entry s' = Function.update (entry s) key none
  list : ∀ s key, ∃ children, store.list key s = .ok children ∧
    ∀ child, child ∈ children ↔ ∃ part rest, child = key ++ [part] ∧ (entry s (child ++ rest)).isSome

namespace Store

/-! ### The walk -/

/-- The children of a key. The state has the count of the entries removed beside it. -/
def childrenOf (store : Store σ) (s : σ × Nat) (key : Key) : List Key := (store.list key s.1).toOption.getD []

/-- The visit of a key. -/
def visitKey (store : Store σ) (key : Key) (s : σ × Nat) : σ × Nat :=
  if (store.existsKey key s.1).toOption = some true then ((store.delete key s.1).2, s.2 + 1) else s

theorem Listed.mem_childrenOf (hl : store.Listed entry) {s : σ × Nat} {child : Key} :
    child ∈ store.childrenOf s key ↔ ∃ part rest, child = key ++ [part] ∧ (entry s.1 (child ++ rest)).isSome := by
  obtain ⟨children, hlist, hmem⟩ := hl.list s.1 key
  rw [childrenOf, hlist]
  exact hmem child

/-- The loop over such a store is the walk. -/
theorem Listed.deleteLoop_eq (hl : store.Listed entry) (fuel : Nat) (pending : List (Key × Bool)) (deleted : Nat) (s : σ) :
    deleteLoop store fuel pending deleted s =
      (walk store.childrenOf store.visitKey fuel pending (s, deleted)).map fun s => (.ok s.2, s.1) := by
  induction fuel generalizing pending deleted s with
  | zero => rfl
  | succ fuel ih =>
    rcases pending with - | ⟨⟨key, - | -⟩, pending⟩
    · rfl
    · obtain ⟨children, hlist, -⟩ := hl.list s key
      have hchildren : store.childrenOf (s, deleted) key = children := by
        rw [childrenOf, hlist]
        rfl
      rw [deleteLoop, walk, hlist, hchildren]
      exact ih _ _ _
    · rw [deleteLoop, walk, hl.existsKey, visitKey, hl.existsKey]
      cases hsome : (entry s key).isSome with
      | false => exact ih pending deleted s
      | true =>
        obtain ⟨s', hdelete, -⟩ := hl.delete s key hsome
        rw [hdelete]
        exact ih pending (deleted + 1) s'

/-! ### Removal -/

/-- The entries of the keys go, and are counted. The others stay. -/
structure Clears (entry : σ → Key → Option (Nat × Bytes)) (D : Key → Prop) (s s' : σ × Nat) : Prop where
  gone : ∀ key, D key → entry s'.1 key = none
  kept : ∀ key, ¬ D key → entry s'.1 key = entry s.1 key
  count : s'.2 + {key | (entry s'.1 key).isSome}.ncard = s.2 + {key | (entry s.1 key).isSome}.ncard

variable {D E : Key → Prop} {t u v : σ × Nat}

theorem Clears.refl (h : ∀ key, D key → entry t.1 key = none) : Clears entry D t t := ⟨h, fun _ _ => rfl, rfl⟩

theorem Clears.trans (h : Clears entry D t u) (h' : Clears entry E u v) : Clears entry (fun key => D key ∨ E key) t v where
  gone key hkey := by
    by_cases hE : E key
    · exact h'.gone key hE
    · rw [h'.kept key hE]
      exact h.gone key (hkey.resolve_right hE)
  kept key hkey := by
    obtain ⟨hD, hE⟩ := not_or.mp hkey
    rw [h'.kept key hE, h.kept key hD]
  count := h'.count.trans h.count

/-- Only the keys with an entry matter. -/
theorem Clears.congr (h : Clears entry D t u) (hDE : ∀ key, (entry t.1 key).isSome → (D key ↔ E key)) :
    Clears entry E t u where
  gone key hE := by
    by_cases hD : D key
    · exact h.gone key hD
    · rw [h.kept key hD]
      by_contra hne
      exact hD ((hDE key (Option.isSome_iff_ne_none.mpr hne)).mpr hE)
  kept key hE := by
    by_cases hD : D key
    · rw [h.gone key hD]
      by_contra hne
      exact hE ((hDE key (Option.isSome_iff_ne_none.mpr (Ne.symm hne))).mp hD)
    · exact h.kept key hD
  count := h.count

theorem Clears.isSome (h : Clears entry D t u) (hsome : (entry u.1 key).isSome) : (entry t.1 key).isSome := by
  by_cases hD : D key
  · rw [h.gone key hD] at hsome
    cases hsome
  · rwa [h.kept key hD] at hsome

theorem Listed.visit (hl : store.Listed entry) (key : Key) (t : σ × Nat) :
    Clears entry (· = key) t (store.visitKey key t) := by
  rw [visitKey, hl.existsKey]
  cases hsome : (entry t.1 key).isSome with
  | false =>
    refine Clears.refl ?_
    rintro key rfl
    exact Option.isSome_eq_false_iff.mp hsome |> Option.isNone_iff_eq_none.mp
  | true =>
    obtain ⟨s', hdelete, he⟩ := hl.delete t.1 key hsome
    rw [hdelete]
    refine ⟨?_, fun key' hne => ?_, ?_⟩
    · rintro key rfl
      show entry s' key = none
      rw [he, Function.update_self]
    · show entry s' key' = _
      rw [he, Function.update_of_ne hne]
    · have hset : {key | (entry s' key).isSome} = {key | (entry t.1 key).isSome} \ {key} := by
        ext key'
        by_cases hkey : key' = key
        · subst hkey
          simp [he]
        · simp [he, hkey]
      have hcard := Set.ncard_sdiff_singleton_add_one (s := {key | (entry t.1 key).isSome}) hsome (hl.finite t.1)
      show t.2 + 1 + {key | (entry s' key).isSome}.ncard = _
      rw [hset]
      omega

/-- No entry below the key is more than `n` components below it. -/
def Within (entry : σ → Key → Option (Nat × Bytes)) (n : Nat) (key : Key) (s : σ) : Prop :=
  ∀ rest, (entry s (key ++ rest)).isSome → rest.length ≤ n

theorem Within.clears (hwithin : Within entry n key t.1) (h : Clears entry D t u) : Within entry n key u.1 :=
  fun rest hsome => hwithin rest (h.isSome hsome)

/-- The walks of several keys, each of which clears its subtree. -/
theorem descends_keys {keys : List Key} (hwalk : ∀ key ∈ keys, ∀ t : σ × Nat, Within entry n key t.1 →
      ∃ u, Descends store.childrenOf store.visitKey [key] t u ∧ Clears entry (key <+: ·) t u) :
    ∀ t : σ × Nat, (∀ key ∈ keys, Within entry n key t.1) →
      ∃ u, Descends store.childrenOf store.visitKey keys t u ∧
        Clears entry (fun other => ∃ key ∈ keys, key <+: other) t u := by
  induction keys with
  | nil =>
    intro t _
    refine ⟨t, Descends.nil _, Clears.refl ?_⟩
    rintro other ⟨key, hkey, -⟩
    cases hkey
  | cons key keys ih =>
    intro t hwithin
    obtain ⟨u, hdesc, hclear⟩ := hwalk key List.mem_cons_self t (hwithin key List.mem_cons_self)
    obtain ⟨v, hdesc', hclear'⟩ := ih (fun key' hkey' => hwalk key' (List.mem_cons_of_mem _ hkey')) u
      fun key' hkey' => (hwithin key' (List.mem_cons_of_mem _ hkey')).clears hclear
    refine ⟨v, hdesc.append hdesc', (hclear.trans hclear').congr fun other _ => ?_⟩
    rw [List.exists_mem_cons_iff]

/-- What is stored at a key or below it is at the key, or at one of its children or below it. -/
theorem Listed.below_children (hl : store.Listed entry) {other : Key} (hsome : (entry t.1 other).isSome) :
    (∃ child ∈ (store.childrenOf t key).reverse, child <+: other) ∨ other = key ↔ key <+: other := by
  constructor
  · rintro (⟨child, hchild, hother⟩ | rfl)
    · obtain ⟨part, rest, rfl, -⟩ := hl.mem_childrenOf.mp (List.mem_reverse.mp hchild)
      exact (List.prefix_append key [part]).trans hother
    · exact List.prefix_rfl
  · rintro ⟨rest, rfl⟩
    rcases rest with - | ⟨part, rest⟩
    · exact Or.inr (List.append_nil _)
    · refine Or.inl ⟨key ++ [part], List.mem_reverse.mpr (hl.mem_childrenOf.mpr ⟨part, rest, rfl, ?_⟩), rest, ?_⟩
      · rwa [← List.append_cons]
      · rw [← List.append_cons]

/-- A key is visited after its children have been walked. -/
theorem Listed.descends_node (hl : store.Listed entry) (h : ∃ u,
      Descends store.childrenOf store.visitKey (store.childrenOf t key).reverse t u ∧
        Clears entry (fun other => ∃ child ∈ (store.childrenOf t key).reverse, child <+: other) t u) :
    ∃ u, Descends store.childrenOf store.visitKey [key] t u ∧ Clears entry (key <+: ·) t u := by
  obtain ⟨u, hdesc, hclear⟩ := h
  exact ⟨store.visitKey key u, Descends.cons hdesc (Descends.nil _),
    (hclear.trans (hl.visit key u)).congr fun other hsome => hl.below_children hsome⟩

/-- The walk of a key clears its subtree, by induction on the number of components below the key. -/
theorem Listed.descends_subtree (hl : store.Listed entry) (t : σ × Nat) (hwithin : Within entry n key t.1) :
    ∃ u, Descends store.childrenOf store.visitKey [key] t u ∧ Clears entry (key <+: ·) t u := by
  induction n generalizing key t with
  | zero =>
    -- nothing is below the key, so it has no children
    have hleaf : store.childrenOf t key = [] := by
      refine List.eq_nil_iff_forall_not_mem.mpr fun child hchild => ?_
      obtain ⟨part, rest, rfl, hsome⟩ := hl.mem_childrenOf.mp hchild
      rw [List.append_assoc] at hsome
      exact absurd (hwithin _ hsome) (by simp)
    refine hl.descends_node ⟨t, ?_, Clears.refl ?_⟩
    · rw [hleaf]
      exact Descends.nil _
    · rintro other ⟨child, hchild, -⟩
      rw [hleaf] at hchild
      cases hchild
  | succ n ih =>
    refine hl.descends_node (descends_keys (fun child _ t' hwithin' => ih t' hwithin') t fun child hchild => ?_)
    obtain ⟨part, rest, rfl, -⟩ := hl.mem_childrenOf.mp (List.mem_reverse.mp hchild)
    intro rest' hsome
    rw [List.append_assoc] at hsome
    exact Nat.le_of_succ_le_succ (hwithin _ hsome)

theorem Listed.exists_within (hl : store.Listed entry) (key : Key) (s : σ) : ∃ n, Within entry n key s := by
  obtain ⟨n, hn⟩ := ((hl.finite s).image List.length).bddAbove
  refine ⟨n, fun rest hsome => ?_⟩
  have hle : (key ++ rest).length ≤ n := hn ⟨key ++ rest, hsome, rfl⟩
  rw [List.length_append] at hle
  exact (Nat.le_add_left _ _).trans hle

/-- The removal ends, and takes away what is at the root or below it. -/
theorem Listed.deleteSubtree (hl : store.Listed entry) (root : Key) (s : σ) : ∃ s' steps,
    (∀ fuel, steps ≤ fuel → Canopus.deleteSubtree store fuel root s =
      some (.ok {key | root <+: key ∧ (entry s key).isSome}.ncard, s')) ∧
    ∀ key, entry s' key = if root <+: key then none else entry s key := by
  obtain ⟨n, hwithin⟩ := hl.exists_within root s
  obtain ⟨u, hdesc, hclear⟩ := hl.descends_subtree (s, 0) hwithin
  obtain ⟨steps, hwalk⟩ := hdesc.walk_root
  have hcount : u.2 = {key | root <+: key ∧ (entry s key).isSome}.ncard := by
    have hunion : {key | (entry s key).isSome} =
        {key | root <+: key ∧ (entry s key).isSome} ∪ {key | (entry u.1 key).isSome} := by
      ext key
      by_cases hkey : root <+: key
      · simp [hkey, hclear.gone key hkey]
      · simp [hkey, hclear.kept key hkey]
    have hdisjoint : Disjoint {key | root <+: key ∧ (entry s key).isSome} {key | (entry u.1 key).isSome} := by
      refine Set.disjoint_left.mpr fun key hkey hsome => ?_
      rw [Set.mem_ofPred_eq, hclear.gone key hkey.1] at hsome
      cases hsome
    have hfinite := (hl.finite s).subset fun key (hkey : root <+: key ∧ (entry s key).isSome) => hkey.2
    have hcard := Set.ncard_union_eq hdisjoint hfinite (hl.finite u.1)
    have hsum : u.2 + {key | (entry u.1 key).isSome}.ncard = 0 + {key | (entry s key).isSome}.ncard := hclear.count
    rw [hunion, hcard, Nat.zero_add] at hsum
    exact Nat.add_right_cancel hsum
  refine ⟨u.1, steps, fun fuel hfuel => ?_, fun key => ?_⟩
  · rw [Canopus.deleteSubtree, hl.deleteLoop_eq, hwalk fuel hfuel, ← hcount]
    rfl
  · split_ifs with hkey
    · exact hclear.gone key hkey
    · exact hclear.kept key hkey

end Store

/-! ### The datastore -/

variable {rpc : Bool → Rpc σ} {hexError : String → String} {J : JsonCodec} {before : Key → Option (Nat × Bytes)} {w : World}

theorem clnStore_listed (h : Datastore rpc entry) : (clnStore (rpc false) hexError).Listed entry where
  finite := h.finite
  existsKey s key := h.existsKey key s
  delete s key hsome := by
    obtain ⟨response, s', hrpc, he⟩ := h.deleted key s hsome
    refine ⟨s', ?_, he⟩
    show ClnStore.delete _ _ _ = _
    rw [ClnStore.delete, hrpc]
  list s key := by
    obtain ⟨children, hlist, -, hmem⟩ := h.list key s
    exact ⟨children, hlist, hmem⟩

/-- Uninstalling is refused while a channel is left. Otherwise it takes away all that the plugin has stored: after any
    calls, any of which may fail, the datastore is what it was before them. -/
theorem uninstall_restores_datastore (h : Datastore rpc entry) (hexError : String → String) (J : JsonCodec)
    (calls : List (DatastoreCall × Bool)) (hlen : calls.length < 2 ^ 64) (hc : ∀ c ∈ calls, c.1.Writes J) (s : σ)
    (hs : ∀ key, key.head? = some "canopus" → entry s key = none) :
    AnswersAs (fun c s => (c.1.exec (rpc c.2) hexError J s).2) (·.1.call) (DatastoreCall.Answers rpc hexError J)
      (fun s' w =>
        (w.peers ≠ [] → ∀ fuel, uninstallStore (clnStore (rpc false) hexError) fuel s' =
          some (.error (.inr "cannot uninstall while hosted channels exist"), s')) ∧
        (w.peers = [] → ∃ s'' steps, (∀ fuel, steps ≤ fuel → uninstallStore (clnStore (rpc false) hexError) fuel s' =
          some (.ok {key | key.head? = some "canopus" ∧ (entry s' key).isSome}.ncard, s'')) ∧ entry s'' = entry s))
      calls s World.empty := by
  refine (h.answersAs hexError hlen hc hs).mono ?_
  rintro s' w ⟨hok, hk⟩
  have hlawful : (clnStore (rpc false) hexError).Lawful (Roomy entry) entry := clnStore_lawful h
  have hlisted : (clnStore (rpc false) hexError).Listed entry := clnStore_listed h
  obtain ⟨children, hlist, hperm⟩ := hlawful.listsChannels hok hk.toRepresents
  constructor
  · intro hpeers fuel
    cases children with
    | nil =>
      exact absurd (List.map_eq_nil_iff.mp (List.nil_perm.mp hperm)) hpeers
    | cons child children => rw [uninstallStore, hlist]
  · intro hpeers
    have hcanopus (key : Key) : ["canopus"] <+: key ↔ key.head? = some "canopus" := by
      cases key <;> simp [List.cons_prefix_cons, eq_comm]
    rw [hpeers] at hperm
    obtain rfl := List.perm_nil.mp hperm
    obtain ⟨s'', steps, hdelete, he⟩ := hlisted.deleteSubtree ["canopus"] s'
    refine ⟨s'', steps, fun fuel hfuel => ?_, ?_⟩
    · rw [uninstallStore, hlist, hdelete fuel hfuel]
      simp only [hcanopus]
      rfl
    · funext key
      rw [he]
      split_ifs with hkey
      · exact (hs key ((hcanopus key).mp hkey)).symm
      · exact hk.others key fun hhead => hkey ((hcanopus key).mpr hhead)

theorem uninstall_restores_datastore_marks :
    AnswersAs (fun c s => (c.1.exec (TableDatastore.call c.2) id .marks s).2) (·.1.call)
      (DatastoreCall.Answers TableDatastore.call id .marks)
      (fun s' w =>
        (w.peers ≠ [] → ∀ fuel, uninstallStore (clnStore (TableDatastore.call false) id) fuel s' =
          some (.error (.inr "cannot uninstall while hosted channels exist"), s')) ∧
        (w.peers = [] → ∃ s'' steps,
          (∀ fuel, steps ≤ fuel → uninstallStore (clnStore (TableDatastore.call false) id) fuel s' =
            some (.ok {key | key.head? = some "canopus" ∧ (s'.lookup key).isSome}.ncard, s'')) ∧
          s''.lookup = (Table.empty.put ["others"] [1]).lookup))
      [(.store (.create .ledgerEventIds openingMark true), false),
        (.storePreimage (ByteVec.fill 32 1) (ByteVec.fill 32 2), false)]
      (Table.empty.put ["others"] [1]) World.empty := by
  refine uninstall_restores_datastore TableDatastore.isDatastore id .marks _ (by decide) ?_ _ fun key hhead => ?_
  · simp only [List.forall_mem_cons, List.not_mem_nil, false_implies, implies_true, and_true]
    exact ⟨⟨rfl, trivial⟩, trivial⟩
  · have hne : key ≠ ["others"] := by
      rintro rfl
      exact absurd hhead (by decide)
    rw [Table.lookup_put_ne hne]
    rfl

end Canopus
