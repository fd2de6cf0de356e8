import Mathlib.Data.List.Nodup

/-! Lists that are collected one element at a time, each once. -/

namespace Collect
variable {α β : Type} [DecidableEq β] {f : α → Option β} {l : List α} {b : β} {result : List β}

/-- Adds what an element gives, if it is new. -/
def add (f : α → Option β) (result : List β) (a : α) : List β :=
  match f a with
  | none => result
  | some b => if b ∈ result then result else result ++ [b]

theorem mem_add {a : α} : b ∈ add f result a ↔ b ∈ result ∨ f a = some b := by
  unfold add
  cases f a with
  | none => simp
  | some c =>
    rw [Option.some.injEq]
    by_cases hmem : c ∈ result
    · simp only [hmem, if_true]
      constructor
      · exact Or.inl
      · rintro (h | rfl)
        · exact h
        · exact hmem
    · simp only [hmem, if_false, List.mem_append, List.mem_singleton, eq_comm]

theorem nodup_add {a : α} (h : result.Nodup) : (add f result a).Nodup := by
  unfold add
  cases f a with
  | none => exact h
  | some c =>
    by_cases hmem : c ∈ result
    · simpa only [hmem, if_true] using h
    · simp only [hmem, if_false]
      exact List.nodup_append.mpr ⟨h, List.nodup_singleton c, fun x hx y hy => by
        obtain rfl := List.mem_singleton.mp hy
        rintro rfl
        exact hmem hx⟩

theorem mem_foldl_add : b ∈ l.foldl (add f) result ↔ b ∈ result ∨ ∃ a ∈ l, f a = some b := by
  induction l generalizing result with
  | nil => simp
  | cons a l ih =>
    rw [List.foldl_cons, ih, mem_add]
    simp only [List.mem_cons, exists_eq_or_imp, or_assoc]

theorem nodup_foldl_add (h : result.Nodup) : (l.foldl (add f) result).Nodup := by
  induction l generalizing result with
  | nil => exact h
  | cons a l ih => exact ih (nodup_add h)

end Collect
