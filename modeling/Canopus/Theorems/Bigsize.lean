import Canopus.Sphinx
import Canopus.Theorems.RoundTrip

/-! Slices and integers of an onion. A slice within bounds is the bytes between its ends; a bigsize is read exactly as
    it is written, and no other bytes are read as that number. -/

namespace Canopus.Sphinx
open Buffer (bind_eq_ok)

variable {α β : Type} {data rest u v : Bytes} {n : Nat}

/-! ### Calls that return -/

/-- The call returns `Ok` or `Err`. -/
def Returns (x : Result α) : Prop := (∃ a, x = .ok a) ∨ ∃ e, x = .error (.error e)

theorem Returns.ok (a : α) : Returns (.ok a : Result α) := Or.inl ⟨a, rfl⟩

theorem Returns.fail (e : SphinxError) : Returns (fail e : Result α) := Or.inr ⟨e, rfl⟩

theorem Returns.invalid (reason : String) : Returns (invalidPayload reason : Result α) := Returns.fail _

theorem Returns.bind {x : Result α} {f : α → Result β} (hx : Returns x) (hf : ∀ a, x = .ok a → Returns (f a)) :
    Returns (x >>= f) := by
  rcases hx with ⟨a, rfl⟩ | ⟨e, rfl⟩
  · exact hf a rfl
  · exact Or.inr ⟨e, rfl⟩

theorem Returns.not_panicked {x : Result α} (h : Returns x) : x ≠ .error .panicked := by
  rintro rfl
  rcases h with ⟨_, h⟩ | ⟨_, h⟩ <;> cases h

/-! ### Slices -/

theorem slice_append : slice (u ++ v ++ rest) u.length (u.length + v.length) = .ok v := by
  unfold slice
  rw [if_pos (by simp)]
  simp

theorem slice_middle (u v rest : Bytes) {start stop : Nat} (hu : u.length = start) (hv : start + v.length = stop) :
    slice (u ++ v ++ rest) start stop = .ok v := by
  subst hu hv
  exact slice_append

theorem sliceFrom_eq (h : n ≤ data.length) : sliceFrom data n = .ok (data.drop n) := by
  unfold sliceFrom slice
  rw [if_pos ⟨h, Nat.le_refl _⟩, List.take_of_length_le (by simp)]

theorem slice_eq {start stop : Nat} (h : start ≤ stop) (hstop : stop ≤ data.length) :
    slice data start stop = .ok ((data.drop start).take (stop - start)) := by
  unfold slice
  rw [if_pos ⟨h, hstop⟩]

theorem xor_xor (a k : UInt8) : (a ^^^ k) ^^^ k = a := by
  rw [UInt8.xor_assoc, UInt8.xor_self, UInt8.xor_zero]

/-! ### Integers -/

/-! ### Bigsizes -/

theorem toNat_ofNat_beNat (hu : u.length ≤ 8) : (UInt64.ofNat (beNat u)).toNat = beNat u := by
  rw [UInt64.toNat_ofNat']
  refine Nat.mod_eq_of_lt ((beNat_lt u).trans_le ?_)
  calc 256 ^ u.length
    _ ≤ 256 ^ 8 := Nat.pow_le_pow_right (by decide) hu
    _ = 2 ^ 64 := by decide

theorem ofNat_beNat_beBytes {x : UInt64} (h : x.toNat < 256 ^ n) :
    UInt64.ofNat (beNat ((beBytes n x.toNat ++ rest).take n)) = x := by
  rw [List.take_left' (beBytes_length n x.toNat), beNat_beBytes h, UInt64.ofNat_toNat]

/-- The two writers write the same bytes. -/
theorem writeBigsize_eq (x : UInt64) : writeBigsize x = writeVarint x := by
  unfold writeBigsize writeVarint
  split_ifs with h₁ h₂ h₃
  · rfl
  · have hlt : x.toNat < 2 ^ 16 := Nat.lt_succ_of_le (UInt64.le_iff_toNat_le.mp h₂)
    rw [UInt64.toNat_toUInt16, Nat.mod_eq_of_lt hlt]
    rfl
  · have hlt : x.toNat < 2 ^ 32 := Nat.lt_succ_of_le (UInt64.le_iff_toNat_le.mp h₃)
    rw [UInt64.toNat_toUInt32, Nat.mod_eq_of_lt hlt]
    rfl
  · rfl

/-- A number is read as it is written. -/
theorem readBigsize_write (x : UInt64) (rest : Bytes) :
    readBigsize (writeBigsize x ++ rest) = .ok (x, (writeBigsize x).length) := by
  rw [writeBigsize_eq]
  unfold writeVarint
  split_ifs with h₁ h₂ h₃
  · have hx : x.toNat < 253 := h₁
    have hmark : ∀ m : UInt8, 253 ≤ m.toNat → x.toUInt8 ≠ m := by
      intro m hm he
      have := congrArg UInt8.toNat he
      rw [UInt64.toNat_toUInt8] at this
      omega
    have hback : x.toUInt8.toUInt64 = x := by
      rw [← UInt64.toNat_inj, UInt8.toNat_toUInt64, UInt64.toNat_toUInt8]
      omega
    simp only [List.cons_append, List.nil_append, readBigsize, if_neg (hmark 0xff (by decide)),
      if_neg (hmark 0xfe (by decide)), if_neg (hmark 0xfd (by decide)), hback, List.length_cons, List.length_nil]
  · have hlt : x.toNat < 256 ^ 2 := Nat.lt_succ_of_le (UInt64.le_iff_toNat_le.mp h₂)
    have hlen : ¬ (beBytes 2 x.toNat ++ rest).length + 1 < 3 := by simp
    simp only [List.cons_append, readBigsize, if_true, if_neg hlen, ofNat_beNat_beBytes hlt, if_neg h₁,
      List.length_cons, beBytes_length]
  · have hlt : x.toNat < 256 ^ 4 := Nat.lt_succ_of_le (UInt64.le_iff_toNat_le.mp h₃)
    have hlen : ¬ (beBytes 4 x.toNat ++ rest).length + 1 < 5 := by simp
    have hmark : (0xfe : UInt8) ≠ 0xfd := by decide
    simp only [List.cons_append, readBigsize, if_neg hmark, if_true, if_neg hlen, ofNat_beNat_beBytes hlt, if_neg h₂,
      List.length_cons, beBytes_length]
  · have hlt : x.toNat < 256 ^ 8 := x.toNat_lt
    have hlen : ¬ (beBytes 8 x.toNat ++ rest).length + 1 < 9 := by simp
    have hmark : (0xff : UInt8) ≠ 0xfd ∧ (0xff : UInt8) ≠ 0xfe := by decide
    simp only [List.cons_append, readBigsize, if_neg hmark.1, if_neg hmark.2, if_true, if_neg hlen,
      ofNat_beNat_beBytes hlt, if_neg h₃, List.length_cons, beBytes_length]

/-- A number in a marked form is followed by its bytes. -/
theorem beBytes_take (hu : n ≤ u.length) (hn : n ≤ 8) :
    beBytes n (UInt64.ofNat (beNat (u.take n))).toNat = u.take n := by
  have hlen : (u.take n).length = n := List.length_take_of_le hu
  rw [toNat_ofNat_beNat (hlen.trans_le hn)]
  have h := beBytes_beNat (u.take n)
  rwa [hlen] at h

/-- What is read as a number is how that number is written. -/
theorem write_of_readBigsize {x : UInt64} {len : Nat} (h : readBigsize data = .ok (x, len)) :
    ∃ rest, data = writeBigsize x ++ rest ∧ len = (writeBigsize x).length := by
  cases data with
  | nil => cases h
  | cons first tail =>
    unfold readBigsize at h
    dsimp only at h
    split_ifs at h with hfd hlen hmin hfe hlen hmin hff hlen hmin <;> cases h
    · have hle : 2 ≤ tail.length := by simp at hlen; omega
      have htake : (tail.take 2).length = 2 := List.length_take_of_le hle
      have hlt : beNat (tail.take 2) < 65536 := (beNat_lt _).trans_eq (by rw [htake]; rfl)
      have hx : UInt64.ofNat (beNat (tail.take 2)) ≤ 0xffff := by
        rw [UInt64.le_iff_toNat_le, toNat_ofNat_beNat (by omega)]
        exact Nat.le_of_lt_succ hlt
      refine ⟨tail.drop 2, ?_, ?_⟩ <;> rw [writeBigsize_eq, writeVarint, if_neg hmin, if_pos hx]
      · rw [beBytes_take hle (by decide), List.cons_append, List.take_append_drop, hfd]
      · simp
    · have hle : 4 ≤ tail.length := by simp at hlen; omega
      have htake : (tail.take 4).length = 4 := List.length_take_of_le hle
      have hlt : beNat (tail.take 4) < 2 ^ 32 := (beNat_lt _).trans_eq (by rw [htake]; rfl)
      have hx : UInt64.ofNat (beNat (tail.take 4)) ≤ 0xffffffff := by
        rw [UInt64.le_iff_toNat_le, toNat_ofNat_beNat (by omega)]
        exact Nat.le_of_lt_succ hlt
      have hfd' : ¬ UInt64.ofNat (beNat (tail.take 4)) < 0xfd := by
        intro hsmall
        exact hmin (UInt64.le_of_lt (UInt64.lt_trans hsmall (by decide)))
      refine ⟨tail.drop 4, ?_, ?_⟩ <;> rw [writeBigsize_eq, writeVarint, if_neg hfd', if_neg hmin, if_pos hx]
      · rw [beBytes_take hle (by decide), List.cons_append, List.take_append_drop, hfe]
      · simp
    · have hle : 8 ≤ tail.length := by simp at hlen; omega
      have hfe' : ¬ UInt64.ofNat (beNat (tail.take 8)) ≤ 0xffff := by
        intro hsmall
        exact hmin (UInt64.le_trans hsmall (by decide))
      have hfd' : ¬ UInt64.ofNat (beNat (tail.take 8)) < 0xfd := by
        intro hsmall
        exact hfe' (UInt64.le_of_lt (UInt64.lt_trans hsmall (by decide)))
      refine ⟨tail.drop 8, ?_, ?_⟩ <;> rw [writeBigsize_eq, writeVarint, if_neg hfd', if_neg hfe', if_neg hmin]
      · rw [beBytes_take hle (by decide), List.cons_append, List.take_append_drop, hff]
      · simp
    · -- The byte is no mark: it is its own value.
      have hsmall : first.toUInt64 < 0xfd := by
        have h₁ : first.toNat ≠ 253 := fun h => hfd (UInt8.toNat_inj.mp h)
        have h₂ : first.toNat ≠ 254 := fun h => hfe (UInt8.toNat_inj.mp h)
        have h₃ : first.toNat ≠ 255 := fun h => hff (UInt8.toNat_inj.mp h)
        have := first.toNat_lt
        rw [UInt64.lt_iff_toNat_lt, UInt8.toNat_toUInt64]
        show first.toNat < 253
        omega
      refine ⟨tail, ?_, ?_⟩ <;> rw [writeBigsize_eq, writeVarint, if_pos hsmall]
      · simp
      · rfl

theorem returns_readBigsize (data : Bytes) : Returns (readBigsize data) := by
  unfold readBigsize
  split
  · exact .invalid _
  · dsimp only
    split_ifs <;> first | exact .invalid _ | exact .ok _

theorem bigsizeLen_eq (x : UInt64) : bigsizeLen x = (writeBigsize x).length := by
  unfold bigsizeLen writeBigsize
  split_ifs <;> simp

theorem length_writeBigsize (x : UInt64) : 1 ≤ (writeBigsize x).length ∧ (writeBigsize x).length ≤ 9 := by
  rw [writeBigsize_eq]
  unfold writeVarint
  split_ifs <;> simp

end Canopus.Sphinx
