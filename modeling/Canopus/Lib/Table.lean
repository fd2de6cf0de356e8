import Mathlib.Data.List.AList
import Mathlib.Data.List.Sort

/-! A table of versioned entries: every entry carries the generation it was written in, which a
    writer compares with the one it has read. -/

/-- Entries by key, each with its generation. -/
structure Table (κ α : Type) where
  entries : AList fun _ : κ => Nat × α

namespace Table
variable {κ α : Type}

def empty : Table κ α := ⟨∅⟩

/-- The values, the latest new key first. -/
def values (t : Table κ α) : List α := t.entries.entries.map (·.2.2)

variable [DecidableEq κ]

def lookup (t : Table κ α) (k : κ) : Option (Nat × α) := t.entries.lookup k

def value? (t : Table κ α) (k : κ) : Option α := (t.lookup k).map (·.2)

/-- Stores a value under a key, with generation 0 for a new key and the next one otherwise. -/
def put (t : Table κ α) (k : κ) (v : α) : Table κ α :=
  ⟨t.entries.insert k (match t.lookup k with
    | none => (0, v)
    | some (g, _) => (g + 1, v))⟩

def erase (t : Table κ α) (k : κ) : Table κ α := ⟨t.entries.erase k⟩

/-- The keys, in the order of `le`. -/
def sortedKeys (t : Table κ α) (le : κ → κ → Bool) : List κ :=
  t.entries.keys.insertionSort fun a b => le a b = true

variable {t : Table κ α} {k k' : κ} {v : α}

@[simp] theorem value?_put : (t.put k v).value? k = some v := by
  simp only [value?, put, lookup, AList.lookup_insert]
  split <;> rfl

theorem value?_put_ne (h : k' ≠ k) : (t.put k v).value? k' = t.value? k' := by
  simp only [value?, put, lookup, AList.lookup_insert_ne h]

@[simp] theorem value?_erase : (t.erase k).value? k = none := by
  simp [value?, erase, lookup]

theorem value?_erase_ne (h : k' ≠ k) : (t.erase k).value? k' = t.value? k' := by
  simp only [value?, erase, lookup, AList.lookup_erase_ne h]

theorem mem_sortedKeys {le : κ → κ → Bool} : k ∈ t.sortedKeys le ↔ (t.value? k).isSome := by
  simp only [sortedKeys, value?, lookup, List.mem_insertionSort, Option.isSome_map, AList.lookup_isSome,
    AList.mem_keys]

omit [DecidableEq κ] in
theorem sortedKeys_nodup {le : κ → κ → Bool} : (t.sortedKeys le).Nodup :=
  (List.perm_insertionSort _ _).nodup_iff.mpr t.entries.nodupKeys

theorem lookup_put_ne (h : k' ≠ k) : (t.put k v).lookup k' = t.lookup k' := AList.lookup_insert_ne h

@[simp] theorem lookup_erase : (t.erase k).lookup k = none := AList.lookup_erase _ _

theorem lookup_erase_ne (h : k' ≠ k) : (t.erase k).lookup k' = t.lookup k' := AList.lookup_erase_ne h

/-- A new key gets generation 0. -/
theorem lookup_put_new (h : t.lookup k = none) : (t.put k v).lookup k = some (0, v) := by
  rw [put, h]
  exact AList.lookup_insert _

/-- The value of a new key is the only new one. -/
theorem values_put_new (h : t.lookup k = none) : (t.put k v).values = v :: t.values := by
  have hk : k ∉ t.entries := AList.lookup_eq_none.mp h
  simp only [values, put, h, AList.entries_insert_of_notMem hk, List.map_cons]

/-- A stored key gets the next generation. -/
theorem lookup_put_next {g : Nat} {u : α} (h : t.lookup k = some (g, u)) : (t.put k v).lookup k = some (g + 1, v) := by
  rw [put, h]
  exact AList.lookup_insert _

theorem value?_eq_none_of_entry (h : t.lookup k = none) : t.value? k = none := by
  simp [value?, h]

theorem value?_of_entry {g : Nat} (h : t.lookup k = some (g, v)) : t.value? k = some v := by
  simp [value?, h]

theorem lookup_of_value?_none (h : t.value? k = none) : t.lookup k = none := Option.map_eq_none_iff.mp h

/-- A value is stored under some generation. -/
theorem exists_entry (h : t.value? k = some v) : ∃ g, t.lookup k = some (g, v) := by
  obtain ⟨⟨g, v'⟩, hl, rfl⟩ := Option.map_eq_some_iff.mp h
  exact ⟨g, hl⟩

end Table
