import Mathlib.Tactic.Common

/-! Decimal numerals. A numeral is a non-empty list of digits, which may start with zeros. The printed form of its value
    is the numeral without them. -/

namespace Decimal

/-! ### Digits -/

/-- The value of a digit. -/
def digit (c : Char) : Nat := c.toNat - '0'.toNat

theorem digit_lt {c : Char} (h : c.isDigit) : digit c < 10 := by
  have hc := Char.isDigit_iff_toNat.mp h
  have hzero : '0'.toNat = 48 := rfl
  have hnine : '9'.toNat = 57 := rfl
  unfold digit
  omega

theorem digitChar_digit {c : Char} (h : c.isDigit) : (digit c).digitChar = c := by
  have hc := Char.isDigit_iff_toNat.mp h
  have hzero : '0'.toNat = 48 := rfl
  have hval := Nat.toNat_digitChar_of_lt_ten (digit_lt h)
  refine Char.toNat_inj.mp ?_
  unfold digit at hval ⊢
  omega

theorem digit_eq_zero {c : Char} (h : c.isDigit) (hzero : digit c = 0) : c = '0' := by
  rw [← digitChar_digit h, hzero]
  rfl

/-- A number only grows as digits are put after it. -/
theorem le_ofDigitChars (cs : List Char) (n : Nat) : n ≤ Nat.ofDigitChars 10 cs n := by
  rw [Nat.ofDigitChars_eq_ofDigitChars_zero]
  exact Nat.le_add_right_of_le (Nat.le_mul_of_pos_left n (Nat.pow_pos (by decide)))

/-! ### Numerals -/

structure Numeral where
  digits : List Char
  ne_nil : digits ≠ []
  isDigit : ∀ c ∈ digits, c.isDigit

namespace Numeral

def value (d : Numeral) : Nat := Nat.ofDigitChars 10 d.digits 0

/-- The digits of a number, without leading zeros. -/
def ofNat (n : Nat) : Numeral where
  digits := Nat.toDigits 10 n
  ne_nil := Nat.toDigits_ne_nil
  isDigit _ hc := Nat.isDigit_of_mem_toDigits (by decide) (by decide) hc

theorem value_ofNat (n : Nat) : (ofNat n).value = n := Nat.ofDigitChars_ten_toDigits

/-- The digits without the zeros in front of them. The last digit stays. -/
def stripZeros : List Char → List Char
  | [] => []
  | c :: cs => if c = '0' ∧ cs ≠ [] then stripZeros cs else c :: cs

theorem stripZeros_ne_nil : ∀ {cs : List Char}, cs ≠ [] → stripZeros cs ≠ []
  | [], h => absurd rfl h
  | c :: cs, _ => by
    unfold stripZeros
    split_ifs with h
    · exact stripZeros_ne_nil h.2
    · exact List.cons_ne_nil _ _

theorem stripZeros_suffix : ∀ cs : List Char, stripZeros cs <:+ cs
  | [] => List.suffix_rfl
  | c :: cs => by
    unfold stripZeros
    split_ifs
    · exact (stripZeros_suffix cs).trans (List.suffix_cons c cs)
    · exact List.suffix_rfl

def strip (d : Numeral) : Numeral where
  digits := stripZeros d.digits
  ne_nil := stripZeros_ne_nil d.ne_nil
  isDigit c hc := d.isDigit c ((stripZeros_suffix d.digits).mem hc)

/-- Digits after a number that is not zero are printed as they are. -/
theorem toDigits_ofDigitChars {cs : List Char} (hcs : ∀ c ∈ cs, c.isDigit) :
    ∀ {n : Nat}, 0 < n → Nat.toDigits 10 (Nat.ofDigitChars 10 cs n) = Nat.toDigits 10 n ++ cs := by
  induction cs with
  | nil => simp
  | cons c cs ih =>
    intro n hn
    have hc : c.isDigit := hcs c List.mem_cons_self
    have hpush : Nat.toDigits 10 (10 * n + digit c) = Nat.toDigits 10 n ++ [c] := by
      rw [← Nat.toDigits_append_toDigits (by decide) hn (digit_lt hc), Nat.toDigits_of_lt_base (digit_lt hc),
        digitChar_digit hc]
    rw [Nat.ofDigitChars_cons]
    change Nat.toDigits 10 (Nat.ofDigitChars 10 cs (10 * n + digit c)) = _
    rw [ih (fun c' hc' => hcs c' (List.mem_cons_of_mem _ hc')) (by omega), hpush, List.append_assoc]
    rfl

theorem toDigits_value : ∀ {cs : List Char}, cs ≠ [] → (∀ c ∈ cs, c.isDigit) →
    Nat.toDigits 10 (Nat.ofDigitChars 10 cs 0) = stripZeros cs
  | [], h, _ => absurd rfl h
  | c :: cs, _, hcs => by
    have hc : c.isDigit := hcs c List.mem_cons_self
    have htail : ∀ c' ∈ cs, c'.isDigit := fun c' hc' => hcs c' (List.mem_cons_of_mem _ hc')
    have hvalue : Nat.ofDigitChars 10 (c :: cs) 0 = Nat.ofDigitChars 10 cs (digit c) := by
      rw [Nat.ofDigitChars_cons]
      simp [digit]
    rw [hvalue]
    unfold stripZeros
    split_ifs with h
    · obtain ⟨rfl, hne⟩ := h
      exact toDigits_value hne htail
    · have hprint : Nat.toDigits 10 (digit c) = [c] := by
        rw [Nat.toDigits_of_lt_base (digit_lt hc), digitChar_digit hc]
      rcases Nat.eq_zero_or_pos (digit c) with hzero | hpos
      · -- a zero in front is kept only when it is the last digit
        have hnil : cs = [] := by
          by_contra hne
          exact h ⟨digit_eq_zero hc hzero, hne⟩
        rw [hnil, Nat.ofDigitChars_nil, hprint]
      · rw [toDigits_ofDigitChars htail hpos, hprint]
        rfl

/-- The printed form of the value is the numeral without its leading zeros. -/
theorem ofNat_value (d : Numeral) : ofNat d.value = d.strip := by
  unfold ofNat strip value
  congr 1
  exact toDigits_value d.ne_nil d.isDigit

theorem not_mem_of_not_isDigit (d : Numeral) {c : Char} (hc : c.isDigit = false) : c ∉ d.digits := by
  intro hmem
  rw [d.isDigit c hmem] at hc
  cases hc

end Numeral
end Decimal
