import Canopus.Theorems.Bigsize
import Canopus.Theorems.Reencoding

/-! The two implementations of variable-length integers. The messages are written and read with the codec's
    (`wire/codecs.rs`), the onions with their own (`sphinx.rs`). Each reader takes exactly what its writer writes, and the
    writers write the same. -/

namespace Canopus
open Buffer Sphinx

variable {b rest : Bytes} {v : UInt64} {n : Nat}

theorem readVarint_ok_iff : readVarint.run b = .ok (v, rest) ↔ b = writeVarint v ++ rest := by
  constructor
  · intro h
    obtain ⟨bs, hb, rfl⟩ := spells_varint b v rest h
    exact hb
  · rintro rfl
    exact reads_varint v rest

theorem readBigsize_ok_iff : readBigsize b = .ok (v, n) ↔ n = (writeVarint v).length ∧ b = writeVarint v ++ b.drop n := by
  constructor
  · intro h
    obtain ⟨rest, hb, hn⟩ := write_of_readBigsize h
    rw [writeBigsize_eq] at hb hn
    rw [hb, hn, List.drop_left]
    exact ⟨rfl, rfl⟩
  · rintro ⟨rfl, hb⟩
    rw [hb, ← writeBigsize_eq]
    exact readBigsize_write v _

/-! ### Minimal forms -/

/-- The forms of a varint: the value itself, or a mark and the value in two, four or eight bytes. -/
inductive VarintForm : UInt64 → Bytes → Prop
  | one (x : UInt8) (h : x < 0xfd) : VarintForm x.toUInt64 [x]
  | two (x : UInt16) : VarintForm x.toUInt64 (0xfd :: writeU16 x)
  | four (x : UInt32) : VarintForm x.toUInt64 (0xfe :: writeU32 x)
  | eight (x : UInt64) : VarintForm x (0xff :: writeU64 x)

theorem varintForm_write (v : UInt64) : VarintForm v (writeVarint v) := by
  rw [writeVarint_eq]
  split_ifs with h₁ h₂ h₃
  · have hval : v.toUInt8.toNat = v.toNat := by
      rw [UInt64.toNat_toUInt8]
      omega
    have hback : v.toUInt8.toUInt64 = v := UInt64.toNat_inj.mp (by rw [UInt8.toNat_toUInt64, hval])
    have hform := VarintForm.one v.toUInt8 (UInt8.lt_iff_toNat_lt.mpr (by rw [hval]; exact h₁))
    rwa [hback] at hform
  · have hval : v.toUInt16.toNat = v.toNat := by
      rw [UInt64.toNat_toUInt16]
      omega
    have hback : v.toUInt16.toUInt64 = v := UInt64.toNat_inj.mp (by rw [UInt16.toNat_toUInt64, hval])
    have hform := VarintForm.two v.toUInt16
    rwa [hback, writeU16, hval] at hform
  · have hval : v.toUInt32.toNat = v.toNat := by
      rw [UInt64.toNat_toUInt32]
      omega
    have hback : v.toUInt32.toUInt64 = v := UInt64.toNat_inj.mp (by rw [UInt32.toNat_toUInt64, hval])
    have hform := VarintForm.four v.toUInt32
    rwa [hback, writeU32, hval] at hform
  · exact VarintForm.eight v

/-- A form that is not the written one is longer. -/
theorem VarintForm.eq_or_longer (h : VarintForm v b) : b = writeVarint v ∨ (writeVarint v).length < b.length := by
  cases h with
  | one x h =>
    have hlt : x.toNat < 253 := UInt8.lt_iff_toNat_lt.mp h
    rw [writeVarint_eq, UInt8.toNat_toUInt64, if_pos hlt]
    simp
  | two x =>
    have hlt := x.toNat_lt
    rw [writeVarint_eq, UInt16.toNat_toUInt64, writeU16]
    split_ifs <;> simp
  | four x =>
    have hlt := x.toNat_lt
    rw [writeVarint_eq, UInt32.toNat_toUInt64, writeU32]
    split_ifs <;> simp
  | eight =>
    rw [writeVarint_eq, writeU64]
    split_ifs <;> simp

/-- What is written is the shortest of the forms. -/
theorem minimal_varint_iff :
    (VarintForm v b ∧ ∀ b', VarintForm v b' → b.length ≤ b'.length) ↔ b = writeVarint v := by
  constructor
  · rintro ⟨hform, hmin⟩
    rcases hform.eq_or_longer with h | h
    · exact h
    · exact absurd (hmin _ (varintForm_write v)) (Nat.not_le_of_lt h)
  · rintro rfl
    refine ⟨varintForm_write v, fun b' hb' => ?_⟩
    rcases hb'.eq_or_longer with rfl | h
    · exact Nat.le_refl _
    · exact Nat.le_of_lt h

/-! ### Agreement -/

/-- The two readers take the same number off a byte string, and fail on the same byte strings. -/
theorem read_same (b : Bytes) :
    (∃ v n, n ≤ b.length ∧ readBigsize b = .ok (v, n) ∧ readVarint.run b = .ok (v, b.drop n)) ∨
      (∃ e, readBigsize b = .error (.error e)) ∧ ∃ e, readVarint.run b = .error e := by
  rcases returns_readBigsize b with ⟨⟨v, n⟩, h⟩ | ⟨e, h⟩
  · obtain ⟨hn, hb⟩ := readBigsize_ok_iff.mp h
    refine Or.inl ⟨v, n, ?_, h, readVarint_ok_iff.mpr hb⟩
    rw [hb, List.length_append, hn]
    exact Nat.le_add_right _ _
  · refine Or.inr ⟨⟨e, h⟩, ?_⟩
    cases hread : readVarint.run b with
    | error e' => exact ⟨e', rfl⟩
    | ok r =>
      obtain ⟨v, rest⟩ := r
      have hb := readVarint_ok_iff.mp hread
      rw [hb, ← writeBigsize_eq, readBigsize_write] at h
      cases h

theorem varints_agree :
    (∀ b : Bytes, (∃ v n, n ≤ b.length ∧ readBigsize b = .ok (v, n) ∧ readVarint.run b = .ok (v, b.drop n)) ∨
      (∃ e, readBigsize b = .error (.error e)) ∧ ∃ e, readVarint.run b = .error e) ∧
    (∀ (v : UInt64) (s : Bytes), writeVarint v = writeBigsize v ∧ (writeVarint v).length = bigsizeLen v ∧
      readVarint.run (writeVarint v ++ s) = .ok (v, s) ∧ readBigsize (writeBigsize v ++ s) = .ok (v, bigsizeLen v) ∧
      (writeBigsize v ++ s).drop (bigsizeLen v) = s) ∧
    (∀ (b : Bytes) (v : UInt64) (rest : Bytes), readVarint.run b = .ok (v, rest) → b = writeVarint v ++ rest) ∧
    ∀ (b : Bytes) (v : UInt64) (n : Nat), readBigsize b = .ok (v, n) → b = writeBigsize v ++ b.drop n := by
  refine ⟨read_same, fun v s => ?_, fun b v rest => readVarint_ok_iff.mp, fun b v n h => ?_⟩
  · have hlen : (writeVarint v).length = bigsizeLen v := by rw [bigsizeLen_eq, writeBigsize_eq]
    refine ⟨(writeBigsize_eq v).symm, hlen, reads_varint v s, ?_, ?_⟩
    · rw [readBigsize_write, writeBigsize_eq, hlen]
    · rw [writeBigsize_eq, List.drop_left' hlen]
  · rw [writeBigsize_eq]
    exact (readBigsize_ok_iff.mp h).2

end Canopus
