import Mathlib.Data.List.Basic
import Mathlib.Tactic.Common

/-! Masking a sequence with another, symbol by symbol, as a stream cipher does. What the mask does not reach stays.
    Masking works part by part, and an involutive operation takes its mask off again. -/

namespace Mask

variable {α : Type} {f : α → α → α} {as bs ks : List α} {n : Nat}

/-- Masks the front of `as` with `ks`. -/
def mask (f : α → α → α) : List α → List α → List α
  | a :: as, k :: ks => f a k :: mask f as ks
  | as, [] => as
  | [], _ => []

@[simp] theorem mask_nil_left : mask f [] ks = [] := by
  cases ks <;> rfl

@[simp] theorem mask_nil_right : mask f as [] = as := by
  cases as <;> rfl

@[simp] theorem length_mask : (mask f as ks).length = as.length := by
  induction as generalizing ks with
  | nil => simp
  | cons a as ih => cases ks <;> simp [mask, ih]

theorem mask_append : mask f (as ++ bs) ks = mask f as (ks.take as.length) ++ mask f bs (ks.drop as.length) := by
  induction as generalizing ks with
  | nil => simp
  | cons a as ih => cases ks <;> simp [mask, ih]

theorem take_mask : (mask f as ks).take n = mask f (as.take n) (ks.take n) := by
  induction n generalizing as ks with
  | zero => simp
  | succ n ih =>
    cases as with
    | nil => simp
    | cons a as => cases ks <;> simp [mask, ih]

/-- The mask comes off by masking again. -/
theorem mask_mask (h : ∀ a k, f (f a k) k = a) : mask f (mask f as ks) ks = as := by
  induction as generalizing ks with
  | nil => simp
  | cons a as ih => cases ks <;> simp [mask, h, ih]

/-- Over blanks, the mask itself is left. -/
theorem mask_replicate {z : α} (ks : List α) (h : ∀ k, f z k = k) : mask f (List.replicate ks.length z) ks = ks := by
  induction ks with
  | nil => simp
  | cons k ks ih => simp [List.replicate_succ, mask, h, ih]

end Mask
