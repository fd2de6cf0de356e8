import Canopus.Lib.Table
import Mathlib.Data.Finset.Card

/-! Removals from a table: the entries of a set of keys go, the others stay as they are, and the number of entries that
    were there is known. -/

namespace Table
variable {κ α : Type} [DecidableEq κ] {t t' u : Table κ α} {D E : κ → Prop} {k : κ} {m n : Nat}

/-- `t'` is `t` without its entries with keys in `D`, of which there were `n`. -/
structure Removes (D : κ → Prop) (t t' : Table κ α) (n : Nat) : Prop where
  gone : ∀ k, D k → t'.lookup k = none
  kept : ∀ k, ¬ D k → t'.lookup k = t.lookup k
  count : ∃ removed : Finset κ, (∀ k, k ∈ removed ↔ (t.lookup k).isSome ∧ D k) ∧ removed.card = n

namespace Removes

theorem isSome (h : Removes D t t' n) (hk : (t'.lookup k).isSome) : (t.lookup k).isSome ∧ ¬ D k := by
  by_cases hD : D k
  · rw [h.gone k hD] at hk
    cases hk
  · rw [h.kept k hD] at hk
    exact ⟨hk, hD⟩

theorem refl (h : ∀ k, (t.lookup k).isSome → ¬ D k) : Removes D t t 0 where
  gone k hD := by
    cases hk : t.lookup k with
    | none => rfl
    | some e => exact absurd hD (h k (by rw [hk]; rfl))
  kept _ _ := rfl
  count := ⟨∅, fun k => ⟨fun hk => absurd hk (Finset.notMem_empty k), fun hk => absurd hk.2 (h k hk.1)⟩, rfl⟩

theorem erase (h : (t.lookup k).isSome) : Removes (· = k) t (t.erase k) 1 where
  gone k' hk := by
    rw [hk]
    exact lookup_erase
  kept _ hk := lookup_erase_ne hk
  count := by
    refine ⟨{k}, fun k' => ?_, rfl⟩
    rw [Finset.mem_singleton]
    refine ⟨?_, And.right⟩
    rintro rfl
    exact ⟨h, rfl⟩

theorem trans (h : Removes D t t' m) (h' : Removes E t' u n) : Removes (fun k => D k ∨ E k) t u (m + n) where
  gone k hk := by
    by_cases hE : E k
    · exact h'.gone k hE
    · rw [h'.kept k hE]
      exact h.gone k (hk.resolve_right hE)
  kept k hk := by
    obtain ⟨hD, hE⟩ := not_or.mp hk
    rw [h'.kept k hE, h.kept k hD]
  count := by
    obtain ⟨r, hr, rfl⟩ := h.count
    obtain ⟨r', hr', rfl⟩ := h'.count
    have hdisjoint : Disjoint r r' := by
      rw [Finset.disjoint_left]
      intro k hk hk'
      exact (h.isSome ((hr' k).mp hk').1).2 ((hr k).mp hk).2
    refine ⟨r ∪ r', fun k => ?_, Finset.card_union_of_disjoint hdisjoint⟩
    rw [Finset.mem_union, hr, hr']
    constructor
    · rintro (⟨hk, hD⟩ | ⟨hk, hE⟩)
      · exact ⟨hk, Or.inl hD⟩
      · exact ⟨(h.isSome hk).1, Or.inr hE⟩
    · rintro ⟨hk, hDE⟩
      by_cases hD : D k
      · exact Or.inl ⟨hk, hD⟩
      · refine Or.inr ⟨?_, hDE.resolve_left hD⟩
        rwa [h.kept k hD]

/-- Only the keys with an entry matter. -/
theorem congr (h : Removes D t t' n) (hDE : ∀ k, (t.lookup k).isSome → (D k ↔ E k)) : Removes E t t' n where
  gone k hE := by
    by_cases hD : D k
    · exact h.gone k hD
    · rw [h.kept k hD]
      cases hk : t.lookup k with
      | none => rfl
      | some e => exact absurd ((hDE k (by rw [hk]; rfl)).mpr hE) hD
  kept k hE := by
    by_cases hD : D k
    · rw [h.gone k hD]
      cases hk : t.lookup k with
      | none => rfl
      | some e => exact absurd ((hDE k (by rw [hk]; rfl)).mp hD) hE
    · exact h.kept k hD
  count := by
    obtain ⟨r, hr, hn⟩ := h.count
    refine ⟨r, fun k => (hr k).trans ?_, hn⟩
    constructor
    · rintro ⟨hk, hD⟩
      exact ⟨hk, (hDE k hk).mp hD⟩
    · rintro ⟨hk, hE⟩
      exact ⟨hk, (hDE k hk).mpr hE⟩

end Removes
end Table
