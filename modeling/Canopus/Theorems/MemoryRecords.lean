import Canopus.Lib.Collect
import Canopus.Theorems.StoreLevels

/-! Records in the store in memory, whose keys are joined by slashes. The keys of records have none, so that no two of
    them become one text. -/

namespace Canopus
open MemoryStore Table

variable {J : JsonCodec} {s : MemoryStore} {key other : Key} {n : Ns} {steps : Nat}

/-- A text is one key of those without slashes that are not a single component. -/
theorem keyToString_record_inj (hkey : IsRecord key) (hother : ∀ part ∈ other, '/' ∉ part.toList)
    (h : keyToString key = keyToString other) : key = other := by
  have split {key : Key} (hkey : ∀ part ∈ key, '/' ∉ part.toList) (hne : key ≠ []) :
      (keyToString key).toList.splitOn '/' = key.map String.toList := by
    rw [keyToString, String.toList_intercalate]
    refine List.splitOn_intercalate '/' ?_ (by simpa using hne)
    intro text htext
    obtain ⟨part, hpart, rfl⟩ := List.mem_map.mp htext
    exact hkey part hpart
  have hlen : 2 ≤ key.length := by
    obtain ⟨n, k, rfl⟩ := hkey
    cases n <;> simp [recordKey, channelKey, secretKey, forwardKey, policyKey, metaKey, ledgerKey, markerKey]
  have hkey := split (not_slash_record hkey) (by rintro rfl; cases hlen)
  by_cases hne : other = []
  · subst hne
    rw [h, keyToString_nil] at hkey
    have hone := congrArg List.length hkey
    rw [List.length_map] at hone
    exact absurd (hone ▸ hlen) (by decide)
  · rw [h, split hother hne] at hkey
    exact (List.map_injective_iff.mpr (fun _ _ => String.toList_injective) hkey).symm

/-- What the store holds under a key without slashes. -/
def MemoryStore.entry (s : MemoryStore) (key : Key) : Option (Nat × Bytes) :=
  if ∀ part ∈ key, '/' ∉ part.toList then s.lookup (keyToString key) else none

/-- The store holds nothing but records. -/
def MemoryStore.HoldsRecords (s : MemoryStore) : Prop :=
  ∀ text, (s.lookup text).isSome → ∃ (n : Ns) (k : n.Key), Storable n k ∧ text = keyToString (recordKey n k)

theorem entry_record (h : IsRecord key) : s.entry key = s.lookup (keyToString key) := if_pos (not_slash_record h)

theorem MemoryStore.HoldsRecords.wellKeyed (h : s.HoldsRecords) : WellKeyed s := by
  intro text htext
  obtain ⟨n, k, hk, rfl⟩ := h text htext
  exact ⟨_, validKey_record hk, rfl⟩

/-- What changes under the text of a record changes under its key alone. -/
theorem entry_update {s' : MemoryStore} {e : Option (Nat × Bytes)} (hkey : IsRecord key)
    (hself : s'.lookup (keyToString key) = e)
    (hne : ∀ text, text ≠ keyToString key → s'.lookup text = s.lookup text) :
    s'.entry = Function.update s.entry key e := by
  refine Function.eq_update_iff.mpr ⟨(entry_record hkey).trans hself, fun other he => ?_⟩
  unfold MemoryStore.entry
  split_ifs with hother
  · exact hne _ fun h => he (keyToString_record_inj hkey hother h.symm).symm
  · rfl

theorem validKey_folder (h : IsFolder key) : ValidKey key ∧ key ≠ [] := by
  have hname (name : String) (h : name ≠ "" ∧ name.toList.all (· != '/')) : name ≠ "" ∧ '/' ∉ name.toList := by
    refine ⟨h.1, fun hmem => ?_⟩
    simpa using List.all_eq_true.mp h.2 '/' hmem
  rcases h with rfl | rfl | ⟨scid, rfl⟩
  · refine ⟨?_, by simp⟩
    simp only [ValidKey, List.forall_mem_cons, List.not_mem_nil, false_implies, implies_true, and_true]
    exact ⟨hname _ (by decide), hname _ (by decide)⟩
  · refine ⟨?_, by simp⟩
    simp only [ValidKey, List.forall_mem_cons, List.not_mem_nil, false_implies, implies_true, and_true]
    exact ⟨hname _ (by decide), hname _ (by decide)⟩
  · refine ⟨?_, by simp⟩
    simp only [ValidKey, List.forall_mem_cons, List.not_mem_nil, false_implies, implies_true, and_true]
    exact ⟨hname _ (by decide), hname _ (by decide), toString_ne_empty _, fun hmem => (not_separator_nat hmem).1 rfl⟩

theorem nodup_list : (MemoryStore.list key s).Nodup := by
  have hadd : MemoryStore.addChild key = Collect.add (MemoryStore.childOf key) := by
    funext result text
    unfold MemoryStore.addChild Collect.add
    cases MemoryStore.childOf key text with
    | none => rfl
    | some child =>
      by_cases hmem : child ∈ result
      · simp only [hmem, if_true]
      · simp only [hmem, if_false]
  unfold MemoryStore.list
  rw [hadd]
  exact Collect.nodup_foldl_add List.nodup_nil

theorem memoryStore_lawful : memoryStore.Lawful (fun _ => MemoryStore.HoldsRecords) MemoryStore.entry where
  less _ _ h := h
  below _ s folder part rest hok _ hsome := by
    unfold MemoryStore.entry at hsome
    split_ifs at hsome with hslash
    · obtain ⟨n, k, -, htext⟩ := hok _ hsome
      exact ⟨n, k, (keyToString_record_inj ⟨n, k, rfl⟩ hslash htext.symm).symm⟩
    · cases hsome
  get _ s key _ hkey := by
    rw [entry_record hkey]
    show MemoryStore.get key s = _
    unfold MemoryStore.get
    cases s.lookup (keyToString key) <;> rfl
  existsKey _ s key _ hkey := by
    rw [entry_record hkey]
    rfl
  createNew _ s n k value hok hk hnone := by
    rw [entry_record ⟨n, k, rfl⟩] at hnone
    refine ⟨s.put (keyToString (recordKey n k)) value, ?_, ?_, ?_⟩
    · show MemoryStore.create _ _ s = _
      rw [MemoryStore.create, MemoryStore.existsKey, hnone]
      rfl
    · intro text htext
      by_cases he : text = keyToString (recordKey n k)
      · exact ⟨n, k, hk, he⟩
      · rw [lookup_put_ne he] at htext
        exact hok text htext
    · exact entry_update ⟨n, k, rfl⟩ (lookup_put_new hnone) fun text he => lookup_put_ne he
  createOld _ s key value _ hkey hsome := by
    rw [entry_record hkey] at hsome
    show MemoryStore.create _ _ s = _
    rw [MemoryStore.create, MemoryStore.existsKey, if_pos hsome]
  updateFresh _ s key value generation old hok hkey hold := by
    rw [entry_record hkey] at hold
    refine ⟨s.put (keyToString key) value, ?_, ?_, ?_⟩
    · show MemoryStore.update _ _ _ s = _
      simp [MemoryStore.update, hold]
    · intro text htext
      by_cases he : text = keyToString key
      · subst he
        exact hok _ (by rw [hold]; rfl)
      · rw [lookup_put_ne he] at htext
        exact hok text htext
    · exact entry_update hkey (lookup_put_next hold) fun text he => lookup_put_ne he
  updateStale _ s key value generation actual old _ hkey hold hne := by
    rw [entry_record hkey] at hold
    refine ⟨generation, actual, ?_⟩
    show MemoryStore.update _ _ _ s = _
    simp [MemoryStore.update, hold, hne]
  updateMissing _ s key value generation _ hkey hnone := by
    rw [entry_record hkey] at hnone
    refine ⟨.notFound, Or.inl rfl, ?_⟩
    show MemoryStore.update _ _ _ s = _
    simp [MemoryStore.update, hnone]
  deleteOld _ s key hok hkey hsome := by
    refine ⟨s.erase (keyToString key), rfl, ?_, ?_⟩
    · intro text htext
      by_cases he : text = keyToString key
      · rw [he, lookup_erase] at htext
        cases htext
      · rw [lookup_erase_ne he] at htext
        exact hok text htext
    · exact entry_update hkey lookup_erase fun text he => lookup_erase_ne he
  deleteMissing _ s key hok hkey hnone := by
    refine ⟨.ok (), s.erase (keyToString key), Or.inl rfl, rfl, ?_, ?_⟩
    · intro text htext
      by_cases he : text = keyToString key
      · rw [he, lookup_erase] at htext
        cases htext
      · rw [lookup_erase_ne he] at htext
        exact hok text htext
    · rw [entry_update hkey lookup_erase fun text he => lookup_erase_ne he, ← hnone, Function.update_eq_self]
  list _ s key hok hfolder := by
    obtain ⟨hvalid, hne⟩ := validKey_folder hfolder
    refine ⟨MemoryStore.list key s, rfl, nodup_list, fun child => ?_⟩
    rw [mem_list_iff hok.wellKeyed hvalid hne]
    constructor
    · rintro ⟨part, rest, rfl, hfull, hsome⟩
      refine ⟨part, rest, rfl, ?_⟩
      rw [List.append_assoc, List.singleton_append, MemoryStore.entry, if_pos fun part hpart => (hfull part hpart).2]
      exact hsome
    · rintro ⟨part, rest, rfl, hsome⟩
      rw [List.append_assoc, List.singleton_append] at hsome
      unfold MemoryStore.entry at hsome
      split_ifs at hsome with hslash
      · obtain ⟨n, k, hk, htext⟩ := hok _ hsome
        have hrecord := keyToString_record_inj ⟨n, k, rfl⟩ hslash htext.symm
        exact ⟨part, rest, rfl, hrecord ▸ validKey_record hk, hsome⟩
      · cases hsome

end Canopus
