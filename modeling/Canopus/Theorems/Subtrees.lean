import Canopus.Lib.Removal
import Canopus.Lib.Walk
import Canopus.MemoryStore

/-! The removal of a subtree from the store in memory. Keys are stored as texts, in which a component is told from the
    next by a slash only, so that the children of a key are found by text. As long as no component is empty or has a
    slash, a text is one key, and the walk removes what is below the root and nothing else. -/

namespace Canopus
open Walk Table

namespace MemoryStore

variable {key root rest : Key} {entry : String} {t t' : MemoryStore} {deleted n : Nat}

/-! ### Texts of keys -/

/-- Components that are not empty and have no slash. -/
def ValidKey (key : Key) : Prop := ∀ part ∈ key, part ≠ "" ∧ '/' ∉ part.toList

theorem ValidKey.append {other : Key} : ValidKey (key ++ other) ↔ ValidKey key ∧ ValidKey other := List.forall_mem_append

/-- A key ends at any of its components, and another starts there. -/
theorem ValidKey.child {part : String} (h : ValidKey (key ++ part :: rest)) : ValidKey (key ++ [part]) ∧ ValidKey rest := by
  rw [List.append_cons] at h
  exact ValidKey.append.mp h

theorem splitOn_keyToString (hkey : ValidKey key) (hne : key ≠ []) :
    (keyToString key).toList.splitOn '/' = key.map String.toList := by
  rw [keyToString, String.toList_intercalate]
  refine List.splitOn_intercalate '/' ?_ (by simpa using hne)
  intro part hpart
  obtain ⟨p, hp, rfl⟩ := List.mem_map.mp hpart
  exact (hkey p hp).2

theorem keyToString_nil : keyToString [] = "" := rfl

theorem keyToString_ne_empty (hkey : ValidKey key) (hne : key ≠ []) : keyToString key ≠ "" := by
  intro h
  have hsplit := splitOn_keyToString hkey hne
  rw [h] at hsplit
  have hone : key.map String.toList = [[]] := hsplit.symm
  obtain ⟨part, rfl⟩ : ∃ part, key = [part] := List.length_eq_one_iff.mp (by simpa using congrArg List.length hone)
  have hempty : part.toList = [] := by simpa using hone
  exact (hkey part List.mem_cons_self).1 (String.toList_eq_nil_iff.mp hempty)

/-- A text is one key. -/
theorem keyToString_inj {other : Key} (hkey : ValidKey key) (hother : ValidKey other)
    (h : keyToString key = keyToString other) : key = other := by
  by_cases hne : key = []
  · by_cases hne' : other = []
    · rw [hne, hne']
    · rw [hne, keyToString_nil] at h
      exact absurd h.symm (keyToString_ne_empty hother hne')
  · by_cases hne' : other = []
    · rw [hne', keyToString_nil] at h
      exact absurd h (keyToString_ne_empty hkey hne)
    · have hmap : key.map String.toList = other.map String.toList := by
        rw [← splitOn_keyToString hkey hne, ← splitOn_keyToString hother hne', h]
      exact List.map_injective_iff.mpr (fun _ _ => String.toList_injective) hmap

theorem keyToString_append (hkey : key ≠ []) (hrest : rest ≠ []) :
    (keyToString (key ++ rest)).toList = (keyToString key).toList ++ '/' :: (keyToString rest).toList := by
  rw [keyToString, String.intercalate_append_of_ne_nil hkey hrest, String.toList_append, String.toList_append,
    List.append_assoc]
  rfl

/-- The texts of the keys of the store are texts of valid keys. -/
def WellKeyed (t : MemoryStore) : Prop := ∀ entry, (t.lookup entry).isSome → ∃ key, ValidKey key ∧ entry = keyToString key

/-- The text of a key that is the root or extends it. -/
def InSubtree (root : Key) (entry : String) : Prop := ∃ rest, ValidKey rest ∧ entry = keyToString (root ++ rest)

theorem inSubtree_iff (hroot : ValidKey root) (hkey : ValidKey key) : InSubtree root (keyToString key) ↔ root <+: key := by
  constructor
  · rintro ⟨rest, hrest, h⟩
    rw [keyToString_inj hkey (ValidKey.append.mpr ⟨hroot, hrest⟩) h]
    exact List.prefix_append root rest
  · rintro ⟨rest, rfl⟩
    exact ⟨rest, (ValidKey.append.mp hkey).2, rfl⟩

/-! ### Children -/

theorem childOf_eq_some_iff {child : Key} (hkey : ValidKey key) (hne : key ≠ []) {full : Key} (hfull : ValidKey full) :
    childOf key (keyToString full) = some child ↔ ∃ part rest, full = key ++ part :: rest ∧ child = key ++ [part] := by
  have hparent : childOf key (keyToString full) =
      (((keyToString key).toList ++ ['/']).isPrefixOf? (keyToString full).toList).bind fun rest =>
        (rest.splitOn '/').head?.map fun part => key ++ [String.ofList part] := by
    have htext : (if key.isEmpty then "" else keyToString key ++ "/").toList = (keyToString key).toList ++ ['/'] := by
      rw [if_neg (by simpa using hne), String.toList_append]
      rfl
    unfold childOf
    dsimp only
    rw [htext]
    cases ((keyToString key).toList ++ ['/']).isPrefixOf? (keyToString full).toList <;> rfl
  rw [hparent, Option.bind_eq_some_iff]
  constructor
  · rintro ⟨rest, hrest, hchild⟩
    have htext : (keyToString full).toList = (keyToString key).toList ++ '/' :: rest := by
      rw [← List.isPrefixOf?_eq_some_iff_append_eq.mp hrest, List.append_assoc]
      rfl
    have hfne : full ≠ [] := by
      rintro rfl
      rw [keyToString_nil] at htext
      exact absurd htext.symm (by simp)
    have hsplit : full.map String.toList = key.map String.toList ++ rest.splitOn '/' := by
      rw [← splitOn_keyToString hfull hfne, htext, List.splitOn_append_cons_self, splitOn_keyToString hkey hne]
    obtain ⟨front, back, rfl, hfront, hback⟩ := List.map_eq_append_iff.mp hsplit
    obtain rfl := List.map_injective_iff.mpr (fun _ _ => String.toList_injective) hfront
    rcases back with - | ⟨part, rest'⟩
    · exact absurd hback.symm (List.splitOn_ne_nil '/' rest)
    · rw [← hback] at hchild
      simp only [List.map_cons, List.head?_cons, Option.map_some, String.ofList_toList, Option.some.injEq] at hchild
      exact ⟨part, rest', rfl, hchild.symm⟩
  · rintro ⟨part, rest, rfl, rfl⟩
    have hrest := (ValidKey.append.mp hfull).2
    refine ⟨(keyToString (part :: rest)).toList, ?_, ?_⟩
    · rw [List.isPrefixOf?_eq_some_iff_append_eq, keyToString_append hne (List.cons_ne_nil _ _), List.append_assoc]
      rfl
    · rw [splitOn_keyToString hrest (List.cons_ne_nil _ _)]
      simp

theorem mem_addChild {child : Key} {result : List Key} :
    child ∈ addChild key result entry ↔ child ∈ result ∨ childOf key entry = some child := by
  unfold addChild
  cases childOf key entry with
  | none => simp
  | some other =>
    rw [Option.some.injEq]
    by_cases hmem : other ∈ result
    · simp only [hmem, if_true]
      constructor
      · exact Or.inl
      · rintro (h | rfl)
        · exact h
        · exact hmem
    · simp only [hmem, if_false, List.mem_append, List.mem_singleton, eq_comm]

theorem mem_list {child : Key} : child ∈ list key t ↔ ∃ entry, (t.lookup entry).isSome ∧ childOf key entry = some child := by
  have hfold : ∀ (entries : List String) (result : List Key),
      child ∈ entries.foldl (addChild key) result ↔
        child ∈ result ∨ ∃ entry ∈ entries, childOf key entry = some child := by
    intro entries
    induction entries with
    | nil => simp
    | cons entry entries ih =>
      intro result
      rw [List.foldl_cons, ih, mem_addChild]
      simp only [List.mem_cons, exists_eq_or_imp, or_assoc]
  unfold list
  rw [hfold]
  simp only [List.not_mem_nil, false_or, mem_sortedKeys, value?, Option.isSome_map]

/-- The children of a key are its extensions by one component that an entry is below, or is. -/
theorem mem_list_iff {child : Key} (ht : WellKeyed t) (hkey : ValidKey key) (hne : key ≠ []) :
    child ∈ list key t ↔ ∃ part rest, child = key ++ [part] ∧ ValidKey (key ++ part :: rest) ∧
      (t.lookup (keyToString (key ++ part :: rest))).isSome := by
  rw [mem_list]
  constructor
  · rintro ⟨entry, hentry, hchild⟩
    obtain ⟨full, hfull, rfl⟩ := ht entry hentry
    obtain ⟨part, rest, rfl, rfl⟩ := (childOf_eq_some_iff hkey hne hfull).mp hchild
    exact ⟨part, rest, rfl, hfull, hentry⟩
  · rintro ⟨part, rest, rfl, hfull, hentry⟩
    exact ⟨_, hentry, (childOf_eq_some_iff hkey hne hfull).mpr ⟨part, rest, rfl, rfl⟩⟩

/-! ### The walk -/

/-- The visit of a key, with the count of the entries removed. -/
def visitKey (key : Key) (s : MemoryStore × Nat) : MemoryStore × Nat :=
  if existsKey key s.1 then (delete key s.1, s.2 + 1) else s

def childrenOf (s : MemoryStore × Nat) (key : Key) : List Key := list key s.1

/-- The loop over this store is the walk. -/
theorem deleteLoop_eq (fuel : Nat) (pending : List (Key × Bool)) (deleted : Nat) (t : MemoryStore) :
    deleteLoop memoryStore fuel pending deleted t =
      (walk childrenOf visitKey fuel pending (t, deleted)).map fun s => (.ok s.2, s.1) := by
  induction fuel generalizing pending deleted t with
  | zero => rfl
  | succ fuel ih =>
    rcases pending with - | ⟨⟨key, - | -⟩, pending⟩
    · rfl
    · exact ih _ _ _
    · have hstore : memoryStore.existsKey key t = .ok (existsKey key t) := rfl
      have hvisit : visitKey key (t, deleted) =
          if existsKey key t then (delete key t, deleted + 1) else (t, deleted) := rfl
      rw [deleteLoop, walk, hstore, hvisit]
      cases existsKey key t with
      | false => exact ih pending deleted t
      | true => exact ih pending (deleted + 1) (delete key t)

theorem WellKeyed.removes {D : String → Prop} (ht : WellKeyed t) (h : Removes D t t' n) : WellKeyed t' :=
  fun entry hentry => ht entry (h.isSome hentry).1

/-- No entry below the key is more than `n` components below it. -/
def Within (n : Nat) (key : Key) (t : MemoryStore) : Prop :=
  ∀ rest, ValidKey rest → (t.lookup (keyToString (key ++ rest))).isSome → rest.length ≤ n

theorem Within.removes {D : String → Prop} {k : Nat} (ht : Within n key t) (h : Removes D t t' k) : Within n key t' :=
  fun rest hrest hentry => ht rest hrest (h.isSome hentry).1

theorem removes_visit (key : Key) (t : MemoryStore) (deleted : Nat) :
    ∃ t' k, visitKey key (t, deleted) = (t', deleted + k) ∧ Removes (· = keyToString key) t t' k := by
  unfold visitKey existsKey delete
  by_cases h : (t.lookup (keyToString key)).isSome
  · exact ⟨_, 1, if_pos h, Removes.erase h⟩
  · refine ⟨t, 0, if_neg h, Removes.refl ?_⟩
    rintro entry hentry rfl
    exact h hentry

/-- The walks of several keys, each of which removes its subtree. -/
theorem descends_keys {keys : List Key} (hwalk : ∀ key ∈ keys, ∀ (t : MemoryStore) (deleted : Nat), WellKeyed t →
      Within n key t → ∃ t' k, Descends childrenOf visitKey [key] (t, deleted) (t', deleted + k) ∧
        Removes (InSubtree key) t t' k) :
    ∀ (t : MemoryStore) (deleted : Nat), WellKeyed t → (∀ key ∈ keys, Within n key t) →
      ∃ t' k, Descends childrenOf visitKey keys (t, deleted) (t', deleted + k) ∧
        Removes (fun entry => ∃ key ∈ keys, InSubtree key entry) t t' k := by
  induction keys with
  | nil =>
    intro t deleted _ _
    refine ⟨t, 0, Descends.nil _, Removes.refl ?_⟩
    rintro entry - ⟨key, hkey, -⟩
    cases hkey
  | cons key keys ih =>
    intro t deleted ht hwithin
    obtain ⟨t₁, k₁, hdesc₁, hrem₁⟩ := hwalk key List.mem_cons_self t deleted ht (hwithin key List.mem_cons_self)
    obtain ⟨t₂, k₂, hdesc₂, hrem₂⟩ := ih (fun key' hkey' => hwalk key' (List.mem_cons_of_mem _ hkey')) t₁ (deleted + k₁)
      (ht.removes hrem₁) fun key' hkey' => (hwithin key' (List.mem_cons_of_mem _ hkey')).removes hrem₁
    refine ⟨t₂, k₁ + k₂, ?_, (hrem₁.trans hrem₂).congr fun entry _ => ?_⟩
    · rw [← Nat.add_assoc]
      exact hdesc₁.append hdesc₂
    · rw [List.exists_mem_cons_iff]

/-- What is stored in a subtree is the root, or in the subtree of a child. -/
theorem inSubtree_children (ht : WellKeyed t) (hkey : ValidKey key) (hne : key ≠ []) (hentry : (t.lookup entry).isSome) :
    (∃ child ∈ (list key t).reverse, InSubtree child entry) ∨ entry = keyToString key ↔ InSubtree key entry := by
  obtain ⟨full, hfull, rfl⟩ := ht entry hentry
  rw [inSubtree_iff hkey hfull]
  constructor
  · rintro (⟨child, hmem, hchild⟩ | heq)
    · obtain ⟨part, rest, rfl, hvalid, -⟩ := (mem_list_iff ht hkey hne).mp (List.mem_reverse.mp hmem)
      exact (List.prefix_append key [part]).trans ((inSubtree_iff hvalid.child.1 hfull).mp hchild)
    · rw [keyToString_inj hfull hkey heq]
  · rintro ⟨rest, rfl⟩
    rcases rest with - | ⟨part, rest⟩
    · exact Or.inr (by rw [List.append_nil])
    · have hchild : key ++ [part] ∈ list key t := (mem_list_iff ht hkey hne).mpr ⟨part, rest, rfl, hfull, hentry⟩
      refine Or.inl ⟨_, List.mem_reverse.mpr hchild, rest, hfull.child.2, ?_⟩
      rw [List.append_cons]

/-- A key is visited after its children have been walked. -/
theorem descends_node (hkey : ValidKey key) (hne : key ≠ []) (ht : WellKeyed t)
    (hchildren : ∃ t₁ k₁, Descends childrenOf visitKey (list key t).reverse (t, deleted) (t₁, deleted + k₁) ∧
      Removes (fun entry => ∃ child ∈ (list key t).reverse, InSubtree child entry) t t₁ k₁) :
    ∃ t' k, Descends childrenOf visitKey [key] (t, deleted) (t', deleted + k) ∧ Removes (InSubtree key) t t' k := by
  obtain ⟨t₁, k₁, hdesc, hrem₁⟩ := hchildren
  obtain ⟨t₂, k₂, hvisit, hrem₂⟩ := removes_visit key t₁ (deleted + k₁)
  refine ⟨t₂, k₁ + k₂, Descends.cons hdesc ?_, (hrem₁.trans hrem₂).congr fun entry hentry => ?_⟩
  · rw [hvisit, Nat.add_assoc]
    exact Descends.nil _
  · exact inSubtree_children ht hkey hne hentry

theorem Within.child {child : Key} (hwithin : Within (n + 1) key t) (ht : WellKeyed t) (hkey : ValidKey key)
    (hne : key ≠ []) (hchild : child ∈ list key t) : Within n child t := by
  obtain ⟨part, rest, rfl, hvalid, -⟩ := (mem_list_iff ht hkey hne).mp hchild
  intro rest' hrest' hentry
  rw [← List.append_cons] at hentry
  have hpart : ValidKey [part] := (ValidKey.append.mp hvalid.child.1).2
  have hle := hwithin (part :: rest') (ValidKey.append.mpr ⟨hpart, hrest'⟩ : ValidKey ([part] ++ rest')) hentry
  exact Nat.le_of_succ_le_succ hle

/-- The walk of a key removes its subtree, by induction on the number of components below the key. -/
theorem descends_subtree (deleted : Nat) (hkey : ValidKey key) (hne : key ≠ []) (ht : WellKeyed t)
    (hwithin : Within n key t) :
    ∃ t' k, Descends childrenOf visitKey [key] (t, deleted) (t', deleted + k) ∧ Removes (InSubtree key) t t' k := by
  induction n generalizing key t deleted with
  | zero =>
    -- nothing is below the key, so it has no children
    have hleaf : list key t = [] := by
      refine List.eq_nil_iff_forall_not_mem.mpr fun child hchild => ?_
      obtain ⟨part, rest, -, hvalid, hentry⟩ := (mem_list_iff ht hkey hne).mp hchild
      exact absurd (hwithin _ (ValidKey.append.mp hvalid).2 hentry) (Nat.not_succ_le_zero _)
    refine descends_node hkey hne ht ⟨t, 0, ?_, Removes.refl ?_⟩
    · rw [hleaf]
      exact Descends.nil _
    · rintro entry - ⟨child, hchild, -⟩
      rw [hleaf] at hchild
      cases hchild
  | succ n ih =>
    have hwalk : ∀ child ∈ (list key t).reverse, ∀ (t' : MemoryStore) (deleted' : Nat), WellKeyed t' →
        Within n child t' → ∃ u k, Descends childrenOf visitKey [child] (t', deleted') (u, deleted' + k) ∧
          Removes (InSubtree child) t' u k := by
      intro child hchild t' deleted' ht' hwithin'
      obtain ⟨part, rest, rfl, hvalid, -⟩ := (mem_list_iff ht hkey hne).mp (List.mem_reverse.mp hchild)
      exact ih deleted' hvalid.child.1 (by simp) ht' hwithin'
    refine descends_node hkey hne ht (descends_keys hwalk t deleted ht fun child hchild => ?_)
    exact hwithin.child ht hkey hne (List.mem_reverse.mp hchild)

theorem exists_within (hroot : ValidKey root) (hne : root ≠ []) (t : MemoryStore) : ∃ n, Within n root t := by
  let components : List Nat := t.entries.keys.map fun entry => (entry.toList.splitOn '/').length
  refine ⟨components.max?.getD 0, fun rest hrest hentry => ?_⟩
  have hmem : keyToString (root ++ rest) ∈ t.entries.keys := AList.mem_keys.mp (AList.lookup_isSome.mp hentry)
  have hle : ((keyToString (root ++ rest)).toList.splitOn '/').length ≤ components.max?.getD 0 :=
    List.le_max?_getD_of_mem (List.mem_map_of_mem hmem)
  rw [splitOn_keyToString (ValidKey.append.mpr ⟨hroot, hrest⟩) (by simp [hne]), List.length_map, List.length_append] at hle
  exact (Nat.le_add_left _ _).trans hle

end MemoryStore
open MemoryStore

/-- The removal ends, and removes what is at the root or below it. -/
theorem delete_subtree_exact (t : MemoryStore) (root : Key) (ht : WellKeyed t) (hroot : ValidKey root) (hne : root ≠ []) :
    ∃ (t' : MemoryStore) (removed : Finset String) (steps : Nat),
      (∀ fuel, steps ≤ fuel → deleteSubtree memoryStore fuel root t = some (.ok removed.card, t')) ∧
      (∀ entry, entry ∈ removed ↔ ∃ key, ValidKey key ∧ root <+: key ∧ entry = keyToString key ∧ existsKey key t) ∧
      (∀ entry, t'.lookup entry = if entry ∈ removed then none else t.lookup entry) ∧
      ∀ key, ValidKey key → ¬ root <+: key → t'.lookup (keyToString key) = t.lookup (keyToString key) := by
  obtain ⟨n, hwithin⟩ := exists_within hroot hne t
  obtain ⟨t', k, hdesc, hrem⟩ := descends_subtree 0 hroot hne ht hwithin
  obtain ⟨removed, hremoved, hcount⟩ := hrem.count
  obtain ⟨steps, hwalk⟩ := hdesc.walk_root
  refine ⟨t', removed, steps, fun fuel hfuel => ?_, fun entry => ?_, fun entry => ?_, fun key hkey hout => ?_⟩
  · rw [deleteSubtree, deleteLoop_eq, hwalk fuel hfuel, Nat.zero_add, hcount]
    rfl
  · rw [hremoved]
    constructor
    · rintro ⟨hentry, rest, hrest, rfl⟩
      exact ⟨root ++ rest, ValidKey.append.mpr ⟨hroot, hrest⟩, List.prefix_append _ _, rfl, hentry⟩
    · rintro ⟨key, hkey, hfront, rfl, hentry⟩
      exact ⟨hentry, (inSubtree_iff hroot hkey).mpr hfront⟩
  · split_ifs with hmem
    · exact hrem.gone entry ((hremoved entry).mp hmem).2
    · by_cases hin : InSubtree root entry
      · have hnone : t.lookup entry = none := by
          by_contra hsome
          exact hmem ((hremoved entry).mpr ⟨Option.isSome_iff_ne_none.mpr hsome, hin⟩)
        rw [hrem.gone entry hin, hnone]
      · exact hrem.kept entry hin
  · exact hrem.kept _ fun hin => hout ((inSubtree_iff hroot hkey).mp hin)

/-- A store with an entry at the root, two below it, and one that only has the root's text in front. -/
def rootedStore : MemoryStore :=
  (((Table.empty.put "canopus" [0]).put "canopus/policy" [1]).put "canopus/ledger/1" [2]).put "canopusx/key" [3]

theorem delete_subtree_exact_rooted :
    ∃ (t' : MemoryStore) (removed : Finset String) (steps : Nat),
      (∀ fuel, steps ≤ fuel → deleteSubtree memoryStore fuel ["canopus"] rootedStore = some (.ok removed.card, t')) ∧
      (∀ entry, entry ∈ removed ↔ ∃ key, ValidKey key ∧ ["canopus"] <+: key ∧ entry = keyToString key ∧
        existsKey key rootedStore) ∧
      (∀ entry, t'.lookup entry = if entry ∈ removed then none else rootedStore.lookup entry) ∧
      ∀ key, ValidKey key → ¬ ["canopus"] <+: key →
        t'.lookup (keyToString key) = rootedStore.lookup (keyToString key) := by
  have hkeys : WellKeyed rootedStore := by
    intro entry hentry
    have hmem : entry ∈ rootedStore.entries.keys := AList.mem_keys.mp (AList.lookup_isSome.mp hentry)
    have hlist : rootedStore.entries.keys = ["canopusx/key", "canopus/ledger/1", "canopus/policy", "canopus"] := by
      decide +kernel
    rw [hlist] at hmem
    simp only [List.mem_cons, List.not_mem_nil, or_false] at hmem
    rcases hmem with rfl | rfl | rfl | rfl
    · exact ⟨["canopusx", "key"], by unfold ValidKey; decide +kernel, by decide +kernel⟩
    · exact ⟨["canopus", "ledger", "1"], by unfold ValidKey; decide +kernel, by decide +kernel⟩
    · exact ⟨["canopus", "policy"], by unfold ValidKey; decide +kernel, by decide +kernel⟩
    · exact ⟨["canopus"], by unfold ValidKey; decide +kernel, by decide +kernel⟩
  exact delete_subtree_exact rootedStore ["canopus"] hkeys (by unfold ValidKey; decide +kernel) (by decide)

example : (deleteSubtree memoryStore 20 ["canopus"] rootedStore).map Prod.fst = some (.ok 3) := by
  decide +kernel

end Canopus
