import Canopus.Theorems.Bigsize
import Canopus.Transparent

/-! Where peeling panics. The lengths of the packet are added with a check, those of the records of its payload are not:
    a record whose value would end at `2 ^ 64` or later is sliced with its end before its start. Every other packet is
    peeled or refused. -/

namespace Canopus.Sphinx
open Buffer (bind_eq_ok)
open Mask

variable {P : Primitives} {build : Build} {data payload rest : Bytes} {s s' : TlvState} {tlvType len : UInt64}

/-! ### Payloads that overrun -/

structure TlvRecord where
  tlvType : UInt64
  value : Bytes

def TlvRecord.encode (r : TlvRecord) : Bytes :=
  writeBigsize r.tlvType ++ (writeBigsize (UInt64.ofNat r.value.length) ++ r.value)

/-- A big-endian integer of at most `n` bytes without leading zeros. -/
def Truncated (n : Nat) (value : Bytes) : Prop :=
  value ≠ [] ∧ value.length ≤ n ∧ (1 < value.length → value.head? ≠ some 0)

/-- A record that the parser takes. -/
def TlvRecord.Allowed (r : TlvRecord) : Prop :=
  match r.tlvType.toNat with
  | 2 => Truncated 8 r.value
  | 4 => Truncated 4 r.value
  | 6 => r.value.length = 8
  | 8 | 16 | 18 => True
  | 10 | 12 => False
  | _ => r.tlvType % 2 ≠ 0

/-- Records that the parser takes, in the order of their types, and then the head of one that it does not refuse for its
    type and whose value would end at `2 ^ 64` or later. -/
def Overruns (payload : Bytes) : Prop :=
  ∃ (records : List TlvRecord) (tlvType len : UInt64) (rest : Bytes),
    payload = (records.map TlvRecord.encode).flatten ++ (writeBigsize tlvType ++ (writeBigsize len ++ rest)) ∧
    (records.map (·.tlvType) ++ [tlvType]).Pairwise (· < ·) ∧ (∀ r ∈ records, r.Allowed) ∧
    2 ^ 64 ≤ payload.length - rest.length + len.toNat

/-- The same of what the loop has not consumed yet. -/
def OverrunsFrom (data : Bytes) (s : TlvState) : Prop :=
  ∃ (records : List TlvRecord) (tlvType len : UInt64) (rest : Bytes),
    data.drop s.consumed = (records.map TlvRecord.encode).flatten ++ (writeBigsize tlvType ++ (writeBigsize len ++ rest)) ∧
    (s.lastType.toList ++ (records.map (·.tlvType) ++ [tlvType])).Pairwise (· < ·) ∧ (∀ r ∈ records, r.Allowed) ∧
    2 ^ 64 ≤ data.length - rest.length + len.toNat

/-! ### The value of a record -/

theorem returns_beTu (value : Bytes) (maxLen : Nat) : Returns (beTu value maxLen) := by
  unfold beTu
  split_ifs <;> first | exact .invalid _ | exact .ok _

theorem beTu_ok_iff {value : Bytes} {maxLen : Nat} (hmax : maxLen ≤ 8) :
    (∃ x, beTu value maxLen = .ok x) ↔ Truncated maxLen value := by
  unfold beTu Truncated
  split_ifs with hlen hzero
  · have hrefused : ¬ (value ≠ [] ∧ value.length ≤ maxLen) := by
      simp only [Bool.or_eq_true, List.isEmpty_iff, decide_eq_true_eq] at hlen
      rintro ⟨hne, hle⟩
      rcases hlen with (h | h) | h
      · exact hne h
      · omega
      · omega
    constructor
    · rintro ⟨_, ⟨⟩⟩
    · exact fun h => absurd ⟨h.1, h.2.1⟩ hrefused
  · simp only [Bool.and_eq_true, decide_eq_true_eq, beq_iff_eq] at hzero
    constructor
    · rintro ⟨_, ⟨⟩⟩
    · exact fun h => absurd hzero.2 (h.2.2 hzero.1)
  · simp only [Bool.or_eq_true, List.isEmpty_iff, decide_eq_true_eq, not_or] at hlen
    simp only [Bool.and_eq_true, decide_eq_true_eq, beq_iff_eq] at hzero
    refine ⟨fun _ => ⟨hlen.1.1, by omega, fun hlong h0 => hzero ⟨hlong, h0⟩⟩, fun _ => ⟨_, rfl⟩⟩

theorem returns_tlvField (fields : PayloadFields) (tlvType : UInt64) (value : Bytes) :
    Returns (tlvField fields tlvType value) := by
  unfold tlvField
  split
  · exact (returns_beTu _ _).bind fun _ _ => .ok _
  · exact (returns_beTu _ _).bind fun _ _ => .ok _
  · split_ifs <;> first | exact .invalid _ | exact .ok _
  · exact .ok _
  · exact .ok _
  · exact .ok _
  · exact .fail _
  · exact .fail _
  · split_ifs <;> first | exact .invalid _ | exact .ok _

theorem tlvField_ok_iff (fields : PayloadFields) (r : TlvRecord) :
    (∃ f, tlvField fields r.tlvType r.value = .ok f) ↔ r.Allowed := by
  unfold tlvField TlvRecord.Allowed
  generalize r.tlvType.toNat = number
  split
  · simp [bind_eq_ok, pure, Except.pure, beTu_ok_iff (Nat.le_refl 8)]
  · simp [bind_eq_ok, pure, Except.pure, beTu_ok_iff (show 4 ≤ 8 by decide)]
  · split_ifs with h
    · simpa [invalidPayload, fail] using h
    · simpa using h
  · simp
  · simp
  · simp
  · simp [fail]
  · simp [fail]
  · split_ifs with h
    · simpa [invalidPayload, fail] using h
    · simpa using h

/-! ### One record -/

theorem Build.add_eq (build : Build) {m n : Nat} (h : m + n < 2 ^ 64) : build.add m n = .ok (m + n) := by
  unfold Build.add
  rw [if_pos h]

/-- The rest of a round, once the head of the record is read. -/
theorem tlvRecord_eq (hlen : data.length < 2 ^ 63) (hs : s.consumed ≤ data.length)
    (h : data.drop s.consumed = writeBigsize tlvType ++ (writeBigsize len ++ rest))
    (ht : ∀ l ∈ s.lastType, l < tlvType) :
    tlvRecord build data s = (do
      let stop ← build.add (data.length - rest.length) len.toNat
      if stop > data.length then invalidPayload "TLV value out of bounds"
      else do
        let value ← slice data (data.length - rest.length) stop
        let fields ← tlvField s.fields tlvType value
        return ⟨stop, some tlvType, fields⟩) := by
  have hlast : s.lastType.any (tlvType ≤ ·) = false := by
    rw [Option.any_eq_false]
    intro l hl
    simpa using ht l hl
  have hlength := congrArg List.length h
  simp only [List.length_drop, List.length_append] at hlength
  have hafter : data.drop (s.consumed + (writeBigsize tlvType).length) = writeBigsize len ++ rest := by
    rw [← List.drop_drop, h, List.drop_left]
  have hhead : s.consumed + (writeBigsize tlvType).length + (writeBigsize len).length = data.length - rest.length := by
    omega
  unfold tlvRecord
  rw [sliceFrom_eq hs, h]
  simp only [bind, Except.bind, readBigsize_write, hlast, Bool.false_eq_true, if_false]
  rw [build.add_eq (by omega)]
  simp only [sliceFrom_eq (show s.consumed + (writeBigsize tlvType).length ≤ data.length by omega), hafter,
    readBigsize_write]
  rw [build.add_eq (by omega), hhead]

/-- Without the head of a record of a greater type, the round returns. -/
theorem tlvRecord_head (build : Build) (hlen : data.length < 2 ^ 63) (hs : s.consumed ≤ data.length) :
    (∃ e, tlvRecord build data s = .error (.error e)) ∨ ∃ tlvType len rest,
      data.drop s.consumed = writeBigsize tlvType ++ (writeBigsize len ++ rest) ∧ ∀ l ∈ s.lastType, l < tlvType := by
  have hslice := sliceFrom_eq hs
  rcases returns_readBigsize (data.drop s.consumed) with ⟨⟨tlvType, typeLen⟩, htype⟩ | ⟨e, he⟩
  · obtain ⟨after, hdrop, rfl⟩ := write_of_readBigsize htype
    cases hlast : s.lastType.any (tlvType ≤ ·) with
    | true =>
      left
      unfold tlvRecord
      rw [hslice]
      simp only [bind, Except.bind, htype, hlast, if_true]
      exact ⟨_, rfl⟩
    | false =>
      have hlength := congrArg List.length hdrop
      simp only [List.length_drop, List.length_append] at hlength
      have hafter : data.drop (s.consumed + (writeBigsize tlvType).length) = after := by
        rw [← List.drop_drop, hdrop, List.drop_left]
      have hwithin : s.consumed + (writeBigsize tlvType).length ≤ data.length := by omega
      have hslice' := sliceFrom_eq hwithin
      rcases returns_readBigsize after with ⟨⟨len, lenSize⟩, hread⟩ | ⟨e, he⟩
      · obtain ⟨rest, rfl, rfl⟩ := write_of_readBigsize hread
        refine Or.inr ⟨tlvType, len, rest, hdrop, ?_⟩
        intro l hl
        have := (Option.any_eq_false _ _).mp hlast l hl
        simpa using this
      · left
        unfold tlvRecord
        rw [hslice]
        simp only [bind, Except.bind, htype, hlast, Bool.false_eq_true, if_false]
        rw [build.add_eq (by omega)]
        simp only [hslice', hafter, he]
        exact ⟨_, rfl⟩
  · left
    unfold tlvRecord
    rw [hslice]
    simp only [bind, Except.bind, he]
    exact ⟨_, rfl⟩

/-- A value that would end at `2 ^ 64` or later: the sum wraps to an end before the start, or panics itself. -/
theorem tlvRecord_overrun (hlen : data.length < 2 ^ 63) (hs : s.consumed ≤ data.length)
    (h : data.drop s.consumed = writeBigsize tlvType ++ (writeBigsize len ++ rest))
    (ht : ∀ l ∈ s.lastType, l < tlvType) (hover : 2 ^ 64 ≤ data.length - rest.length + len.toNat) :
    tlvRecord build data s = .error .panicked := by
  rw [tlvRecord_eq hlen hs h ht]
  unfold Build.add
  rw [if_neg (by omega)]
  cases build with
  | debug => rfl
  | release =>
    have := len.toNat_lt
    have hwrapped : (data.length - rest.length + len.toNat) % 2 ^ 64 = data.length - rest.length + len.toNat - 2 ^ 64 := by
      omega
    have hend : ¬ data.length - rest.length + len.toNat - 2 ^ 64 > data.length := by omega
    have hslice : slice data (data.length - rest.length) (data.length - rest.length + len.toNat - 2 ^ 64) =
        .error .panicked := by
      unfold slice
      rw [if_neg (by omega)]
    simp only [bind, Except.bind, hwrapped, if_neg hend, hslice]

/-- The end of what the loop has not consumed is the end of the payload. -/
theorem drop_of_drop {n : Nat} {u v : Bytes} (h : data.drop n = u ++ v) : data.drop (data.length - v.length) = v := by
  have hsuffix : v <:+ data := (List.suffix_append u v).trans (h ▸ List.drop_suffix n data)
  exact (List.suffix_iff_eq_drop.mp hsuffix).symm

/-- A value within the payload is taken if its record is. -/
theorem tlvRecord_taken {value after : Bytes} (hlen : data.length < 2 ^ 63) (hs : s.consumed ≤ data.length)
    (h : data.drop s.consumed = writeBigsize tlvType ++ (writeBigsize len ++ (value ++ after)))
    (ht : ∀ l ∈ s.lastType, l < tlvType) (hvalue : value.length = len.toNat) :
    tlvRecord build data s = (do
      let fields ← tlvField s.fields tlvType value
      return ⟨data.length - after.length, some tlvType, fields⟩) := by
  have hlength := congrArg List.length h
  simp only [List.length_drop, List.length_append] at hlength
  have hdrop : data.drop (data.length - (value ++ after).length) = value ++ after :=
    drop_of_drop (u := writeBigsize tlvType ++ writeBigsize len) (by rw [h, List.append_assoc])
  have hstop : data.length - (value ++ after).length + len.toNat = data.length - after.length := by
    rw [List.length_append]
    omega
  have hslice : slice data (data.length - (value ++ after).length) (data.length - after.length) = .ok value := by
    rw [slice_eq (by rw [List.length_append]; omega) (by omega), hdrop]
    refine congrArg Except.ok (List.take_left' ?_)
    rw [List.length_append]
    omega
  have hend : ¬ data.length - after.length > data.length := by omega
  rw [tlvRecord_eq hlen hs h ht, build.add_eq (by omega), hstop]
  simp only [bind, Except.bind, if_neg hend, hslice]

/-- Any other value is taken or refused. -/
theorem tlvRecord_within (build : Build) (hlen : data.length < 2 ^ 63) (hs : s.consumed ≤ data.length)
    (h : data.drop s.consumed = writeBigsize tlvType ++ (writeBigsize len ++ rest))
    (ht : ∀ l ∈ s.lastType, l < tlvType) (hover : data.length - rest.length + len.toNat < 2 ^ 64) :
    (∃ e, tlvRecord build data s = .error (.error e)) ∨ ∃ value after fields, rest = value ++ after ∧
      value.length = len.toNat ∧ (TlvRecord.mk tlvType value).Allowed ∧
      tlvRecord build data s = .ok ⟨data.length - after.length, some tlvType, fields⟩ := by
  by_cases hend : data.length - rest.length + len.toNat > data.length
  · left
    rw [tlvRecord_eq hlen hs h ht, build.add_eq hover]
    simp only [bind, Except.bind, if_pos hend]
    exact ⟨_, rfl⟩
  · have hlength := congrArg List.length h
    simp only [List.length_drop, List.length_append] at hlength
    have hvalue : (rest.take len.toNat).length = len.toNat := List.length_take_of_le (by omega)
    have hparts : rest = rest.take len.toNat ++ rest.drop len.toNat := (List.take_append_drop _ _).symm
    rw [hparts] at h
    rw [tlvRecord_taken hlen hs h ht hvalue]
    rcases returns_tlvField s.fields tlvType (rest.take len.toNat) with ⟨fields, hf⟩ | ⟨e, he⟩
    · have hallowed := (tlvField_ok_iff s.fields ⟨tlvType, rest.take len.toNat⟩).mp ⟨fields, hf⟩
      refine Or.inr ⟨_, _, fields, hparts, hvalue, hallowed, ?_⟩
      rw [hf]
      rfl
    · left
      rw [he]
      exact ⟨_, rfl⟩

/-! ### The loop -/

theorem writeBigsize_inj {x y : UInt64} {u v : Bytes} (h : writeBigsize x ++ u = writeBigsize y ++ v) : x = y ∧ u = v := by
  have hread := readBigsize_write x u
  rw [h, readBigsize_write] at hread
  obtain ⟨rfl, -⟩ := Prod.mk.inj (Except.ok.inj hread)
  exact ⟨rfl, List.append_cancel_left h⟩

theorem encode_append (r : TlvRecord) (after : Bytes) :
    r.encode ++ after = writeBigsize r.tlvType ++ (writeBigsize (UInt64.ofNat r.value.length) ++ (r.value ++ after)) := by
  simp [TlvRecord.encode]

/-- What overruns starts with the head of a record, which itself overruns or is one that the parser takes. -/
theorem OverrunsFrom.head (hlen : data.length < 2 ^ 63) (ho : OverrunsFrom data s) : ∃ tlvType len rest,
    data.drop s.consumed = writeBigsize tlvType ++ (writeBigsize len ++ rest) ∧ (∀ l ∈ s.lastType, l < tlvType) ∧
    (2 ^ 64 ≤ data.length - rest.length + len.toNat ∨ ∃ value after, rest = value ++ after ∧ value.length = len.toNat ∧
      (TlvRecord.mk tlvType value).Allowed) := by
  obtain ⟨records, tlvType, len, rest, hdrop, hsorted, hallowed, hover⟩ := ho
  rw [List.pairwise_append] at hsorted
  cases records with
  | nil =>
    refine ⟨tlvType, len, rest, hdrop, ?_, Or.inl hover⟩
    intro l hl
    exact hsorted.2.2 l (by simpa using hl) tlvType (by simp)
  | cons r records =>
    rw [List.map_cons, List.flatten_cons, List.append_assoc, encode_append] at hdrop
    have hlength := congrArg List.length hdrop
    simp only [List.length_drop, List.length_append] at hlength
    refine ⟨r.tlvType, _, _, hdrop, ?_, Or.inr ⟨r.value, _, rfl, ?_, hallowed r (by simp)⟩⟩
    · intro l hl
      exact hsorted.2.2 l (by simpa using hl) r.tlvType (by simp)
    · rw [UInt64.toNat_ofNat', Nat.mod_eq_of_lt (by omega)]

/-- After a record that the parser takes, the rest overruns if the whole did. -/
theorem OverrunsFrom.after_iff {value after : Bytes} {fields : PayloadFields} (hlen : data.length < 2 ^ 63)
    (h : data.drop s.consumed = writeBigsize tlvType ++ (writeBigsize len ++ (value ++ after)))
    (hvalue : value.length = len.toNat) (ht : ∀ l ∈ s.lastType, l < tlvType)
    (hallowed : (TlvRecord.mk tlvType value).Allowed) :
    OverrunsFrom data s ↔ OverrunsFrom data ⟨data.length - after.length, some tlvType, fields⟩ := by
  have hlength := congrArg List.length h
  simp only [List.length_drop, List.length_append] at hlength
  have hafter : data.drop (data.length - after.length) = after :=
    drop_of_drop (u := writeBigsize tlvType ++ writeBigsize len ++ value) (by rw [h]; simp only [List.append_assoc])
  constructor
  · rintro ⟨records, tlvType', len', rest, hdrop, hsorted, hall, hover⟩
    cases records with
    | nil =>
      -- The head is that of the record that was taken, and this one does not overrun.
      have hheads := hdrop.symm.trans h
      obtain ⟨-, hheads⟩ := writeBigsize_inj hheads
      obtain ⟨hlens, hrest⟩ := writeBigsize_inj hheads
      rw [hrest, hlens, List.length_append] at hover
      omega
    | cons r records =>
      rw [List.map_cons, List.flatten_cons, List.append_assoc, encode_append] at hdrop
      have hlength' := congrArg List.length hdrop
      simp only [List.length_drop, List.length_append] at hlength'
      obtain ⟨htypes, hheads⟩ := writeBigsize_inj (hdrop.symm.trans h)
      obtain ⟨hlens, hbodies⟩ := writeBigsize_inj hheads
      have hsizes : r.value.length = value.length := by
        rw [hvalue, ← hlens, UInt64.toNat_ofNat', Nat.mod_eq_of_lt (by omega)]
      obtain ⟨-, hrest⟩ := List.append_inj hbodies hsizes
      refine ⟨records, tlvType', len', rest, hafter.trans hrest.symm, ?_, fun x hx => hall x (by simp [hx]), hover⟩
      have hsorted := (List.pairwise_append.mp hsorted).2.1
      simpa [htypes] using hsorted
  · rintro ⟨records, tlvType', len', rest, hdrop, hsorted, hall, hover⟩
    rw [hafter] at hdrop
    refine ⟨⟨tlvType, value⟩ :: records, tlvType', len', rest, ?_, ?_, ?_, hover⟩
    · have hlens : UInt64.ofNat value.length = len := by rw [hvalue, UInt64.ofNat_toNat]
      rw [h, List.map_cons, List.flatten_cons, List.append_assoc, encode_append, hlens, hdrop]
    · refine List.pairwise_append.mpr ⟨by cases s.lastType <;> simp, hsorted, ?_⟩
      intro l hl x hx
      have hl := ht l (by simpa using hl)
      rcases List.mem_cons.mp hx with rfl | hx
      · exact hl
      · exact UInt64.lt_trans hl (List.rel_of_pairwise_cons hsorted hx)
    · intro x hx
      rcases List.mem_cons.mp hx with rfl | hx
      · exact hallowed
      · exact hall x hx

/-- A round panics where its record overruns; it returns everywhere else, and goes on only after a record. -/
theorem tlvRecord_cases (build : Build) (hlen : data.length < 2 ^ 63) (hs : s.consumed ≤ data.length) :
    (OverrunsFrom data s ∧ tlvRecord build data s = .error .panicked) ∨
    (¬ OverrunsFrom data s ∧ ∃ e, tlvRecord build data s = .error (.error e)) ∨
    ∃ s', tlvRecord build data s = .ok s' ∧ s.consumed < s'.consumed ∧ s'.consumed ≤ data.length ∧
      (OverrunsFrom data s ↔ OverrunsFrom data s') := by
  have hrefused : ∀ e, tlvRecord build data s = .error (.error e) → ¬ OverrunsFrom data s := by
    intro e he ho
    obtain ⟨tlvType, len, rest, h, ht, hover | ⟨value, after, rfl, hvalue, hallowed⟩⟩ := ho.head hlen
    · cases he.symm.trans (tlvRecord_overrun hlen hs h ht hover)
    · obtain ⟨fields, hf⟩ := (tlvField_ok_iff s.fields ⟨tlvType, value⟩).mpr hallowed
      have htaken := he.symm.trans (tlvRecord_taken hlen hs h ht hvalue)
      rw [show tlvField s.fields tlvType value = .ok fields from hf] at htaken
      cases htaken
  rcases tlvRecord_head build hlen hs with ⟨e, he⟩ | ⟨tlvType, len, rest, h, ht⟩
  · exact Or.inr (Or.inl ⟨hrefused e he, e, he⟩)
  · by_cases hover : data.length - rest.length + len.toNat < 2 ^ 64
    · rcases tlvRecord_within build hlen hs h ht hover with
        ⟨e, he⟩ | ⟨value, after, fields, rfl, hvalue, hallowed, hok⟩
      · exact Or.inr (Or.inl ⟨hrefused e he, e, he⟩)
      · have hlength := congrArg List.length h
        simp only [List.length_drop, List.length_append] at hlength
        have := length_writeBigsize tlvType
        refine Or.inr (Or.inr ⟨_, hok, ?_, ?_, OverrunsFrom.after_iff hlen h hvalue ht hallowed⟩)
        · show s.consumed < data.length - after.length
          omega
        · show data.length - after.length ≤ data.length
          omega
    · refine Or.inl ⟨⟨[], tlvType, len, rest, by simpa using h, ?_, by simp, Nat.le_of_not_lt hover⟩,
        tlvRecord_overrun hlen hs h ht (Nat.le_of_not_lt hover)⟩
      refine List.pairwise_append.mpr ⟨by cases s.lastType <;> simp, by simp, ?_⟩
      intro l hl x hx
      obtain rfl : x = tlvType := by simpa using hx
      exact ht l (by simpa using hl)

theorem OverrunsFrom.consumed_lt (hlen : data.length < 2 ^ 63) (ho : OverrunsFrom data s) : s.consumed < data.length := by
  obtain ⟨tlvType, len, rest, h, -⟩ := ho.head hlen
  have hlength := congrArg List.length h
  simp only [List.length_drop, List.length_append] at hlength
  have := length_writeBigsize tlvType
  omega

/-- The loop panics where a record overruns, and returns everywhere else. -/
theorem tlvRecords_cases (build : Build) (rounds : Nat) (hlen : data.length < 2 ^ 63) (hs : s.consumed ≤ data.length)
    (hrounds : data.length - s.consumed ≤ rounds) :
    (OverrunsFrom data s ∧ tlvRecords build data rounds s = .error .panicked) ∨
    (¬ OverrunsFrom data s ∧ Returns (tlvRecords build data rounds s)) := by
  induction rounds generalizing s with
  | zero =>
    have hend : ¬ s.consumed < data.length := by omega
    refine Or.inr ⟨fun ho => hend (ho.consumed_lt hlen), ?_⟩
    rw [tlvRecords, if_neg hend]
    exact .ok _
  | succ rounds ih =>
    by_cases hmore : s.consumed < data.length
    · rw [tlvRecords, if_pos hmore]
      rcases tlvRecord_cases build hlen hs with ⟨ho, hp⟩ | ⟨ho, e, he⟩ | ⟨s', hok, hlt, hle, hiff⟩
      · rw [hp]
        exact Or.inl ⟨ho, rfl⟩
      · rw [he]
        exact Or.inr ⟨ho, Or.inr ⟨e, rfl⟩⟩
      · rw [hok, hiff]
        exact ih hle (by omega)
    · refine Or.inr ⟨fun ho => hmore (ho.consumed_lt hlen), ?_⟩
      rw [tlvRecords, if_neg hmore]
      exact .ok _

theorem overruns_iff : Overruns payload ↔ OverrunsFrom payload ⟨0, none, ⟨none, none, none⟩⟩ := Iff.rfl

/-- The parser panics on the payloads that overrun, and returns on all others. -/
theorem parseTlvPayload_cases (build : Build) (hlen : payload.length < 2 ^ 63) (isFinal : Bool) :
    (Overruns payload ∧ parseTlvPayload build payload isFinal = .error .panicked) ∨
    (¬ Overruns payload ∧ Returns (parseTlvPayload build payload isFinal)) := by
  rw [overruns_iff]
  rcases tlvRecords_cases build payload.length hlen (s := ⟨0, none, ⟨none, none, none⟩⟩) (Nat.zero_le _)
    (Nat.sub_le _ _) with ⟨ho, hp⟩ | ⟨ho, hr⟩
  · refine Or.inl ⟨ho, ?_⟩
    rw [parseTlvPayload, hp]
    rfl
  · refine Or.inr ⟨ho, hr.bind ?_⟩
    intro fields _
    split_ifs <;> first | exact .invalid _ | exact .ok _

/-- What is parsed has an amount and an expiry. -/
theorem parseTlvPayload_fields {isFinal : Bool} {fields : PayloadFields}
    (h : parseTlvPayload build payload isFinal = .ok fields) :
    fields.amtToForward.isSome ∧ fields.outgoingCltvValue.isSome := by
  obtain ⟨fields', -, h⟩ := bind_eq_ok.mp h
  split_ifs at h with h₁ h₂ h₃ <;> cases h
  exact ⟨by simpa [Option.isSome_iff_ne_none] using h₁, by simpa [Option.isSome_iff_ne_none] using h₂⟩

/-! ### The packet -/

theorem constantTimeEq_iff {a b : Bytes} : constantTimeEq a b = true ↔ a = b := by
  have hfold : ∀ (a b : Bytes) (acc : UInt8), a.length = b.length →
      ((a.zip b).foldl (fun acc x => acc ||| (x.1 ^^^ x.2)) acc = 0 ↔ acc = 0 ∧ a = b) := by
    intro a
    induction a with
    | nil =>
      intro b acc h
      obtain rfl := List.length_eq_zero_iff.mp h.symm
      simp
    | cons x a ih =>
      intro b acc h
      cases b with
      | nil => cases h
      | cons y b =>
        rw [List.zip_cons_cons, List.foldl_cons, ih b _ (by simpa using h)]
        simp only [UInt8.or_eq_zero_iff, UInt8.xor_eq_zero_iff, List.cons.injEq, and_assoc]
  unfold constantTimeEq
  split_ifs with hlen
  · simp only [false_iff]
    rintro rfl
    exact hlen rfl
  · rw [beq_iff_eq, hfold a b 0 (by simpa using hlen)]
    simp

/-- The routing info of a packet as the peeling hop sees it, extended by keystream. -/
def decrypted (P : Primitives) (sharedSecret : ByteVec 32) (hopData : Bytes) : Bytes :=
  xorInPlace (hopData ++ List.replicate onionRoutingInfoSize 0)
    (chacha20Stream P (deriveKeys P sharedSecret).1 (onionRoutingInfoSize * 2))

/-- The HMAC over the routing info and the associated data. -/
def packetHmac (P : Primitives) (sharedSecret : ByteVec 32) (hopData associatedData : Bytes) : ByteVec 32 :=
  P.hmacSha256 (deriveKeys P sharedSecret).2.1.toList (hopData ++ associatedData)

/-- The packet is authentic and carries the payload in its decrypted routing info. -/
def Presents (P : Primitives) (key : SecretKey) (onion associatedData payload : Bytes) : Prop :=
  ∃ (ephemeral : PublicKey) (secret : ByteVec 32) (hopData : Bytes) (len : UInt64) (nextHmac remaining : Bytes),
    onion = 0 :: (ephemeral.toList ++ hopData ++ (packetHmac P secret hopData associatedData).toList) ∧
    hopData.length = onionRoutingInfoSize ∧ P.isPublicKey ephemeral = true ∧ ecdh P key ephemeral = .ok secret ∧
    decrypted P secret hopData = writeBigsize len ++ (payload ++ (nextHmac ++ remaining)) ∧
    payload.length = len.toNat ∧ 2 ≤ len ∧ nextHmac.length = 32 ∧ onionRoutingInfoSize ≤ remaining.length

theorem length_decrypted (secret : ByteVec 32) {hopData : Bytes} (h : hopData.length = onionRoutingInfoSize) :
    (decrypted P secret hopData).length = onionRoutingInfoSize * 2 := by
  rw [decrypted, xorInPlace, length_mask, List.length_append, List.length_replicate, h]
  rfl

/-- What the first half does with a packet of the right size. -/
theorem unwrap_eq (key : SecretKey) (version : UInt8) (ephemeral : PublicKey) {hopData : Bytes} (mac : ByteVec 32)
    {associatedData : Bytes} (hhop : hopData.length = onionRoutingInfoSize) (had : associatedData.length < 2 ^ 63) :
    unwrap P build key (version :: (ephemeral.toList ++ hopData ++ mac.toList)) associatedData =
      if version ≠ 0 then fail (.unsupportedVersion version)
      else if P.isPublicKey ephemeral then do
        let secret ← ecdh P key ephemeral
        if packetHmac P secret hopData associatedData = mac then
          return ⟨version, ephemeral, secret, decrypted P secret hopData⟩
        else fail .hmacFailed
      else fail .invalidEphemeralKey := by
  have hsize : (version :: (ephemeral.toList ++ hopData ++ mac.toList)).length = onionPacketSize := by
    simp only [List.length_cons, List.length_append, List.Vector.toList_length, hhop]
    rfl
  have hephemeral : slice (version :: (ephemeral.toList ++ hopData ++ mac.toList)) 1 34 = .ok ephemeral.toList := by
    have hlength : 1 + ephemeral.toList.length = 34 := by rw [List.Vector.toList_length]
    have h := slice_middle [version] ephemeral.toList (hopData ++ mac.toList) rfl hlength
    simpa using h
  have hdata : slice (version :: (ephemeral.toList ++ hopData ++ mac.toList)) 34 (34 + onionRoutingInfoSize) =
      .ok hopData := by
    have hlength : (version :: ephemeral.toList).length = 34 := by simp
    have h := slice_middle (version :: ephemeral.toList) hopData mac.toList hlength (congrArg (34 + ·) hhop)
    simpa using h
  have hmac : slice (version :: (ephemeral.toList ++ hopData ++ mac.toList)) (34 + onionRoutingInfoSize)
      (34 + onionRoutingInfoSize + 32) = .ok mac.toList := by
    have hlength : (version :: (ephemeral.toList ++ hopData)).length = 34 + onionRoutingInfoSize := by
      simp only [List.length_cons, List.length_append, List.Vector.toList_length, hhop]
      omega
    have h := slice_middle (version :: (ephemeral.toList ++ hopData)) mac.toList [] hlength
      (congrArg (34 + onionRoutingInfoSize + ·) mac.toList_length)
    simpa using h
  have hkey : publicKeyFromSlice P ephemeral.toList =
      if P.isPublicKey ephemeral then .ok ephemeral else fail .invalidEphemeralKey := by
    unfold publicKeyFromSlice
    rw [dif_pos ephemeral.toList_length]
    rfl
  unfold unwrap
  rw [if_neg (by simpa using hsize)]
  simp only [index, List.getElem?_cons_zero, bind, Except.bind]
  split_ifs with hversion hpublic
  · rfl
  · simp only [hephemeral, hdata, hmac, hkey, if_pos hpublic]
    cases ecdh P key ephemeral with
    | error e => rfl
    | ok secret =>
      have hcapacity := build.add_eq (m := onionRoutingInfoSize) (n := associatedData.length)
        (by unfold onionRoutingInfoSize; omega)
      simp only [hcapacity]
      by_cases hmacs : packetHmac P secret hopData associatedData = mac
      · have heq : constantTimeEq (P.hmacSha256 (deriveKeys P secret).2.1.toList
            (hopData ++ associatedData)).toList mac.toList = true := by
          rw [constantTimeEq_iff, ← hmacs]
          rfl
        simp only [heq, Bool.not_true, Bool.false_eq_true, if_false, if_pos hmacs]
        rfl
      · have heq : constantTimeEq (P.hmacSha256 (deriveKeys P secret).2.1.toList
            (hopData ++ associatedData)).toList mac.toList = false := by
          rw [← Bool.not_eq_true, constantTimeEq_iff]
          exact fun h => hmacs (List.Vector.toList_injective h)
        simp only [heq, Bool.not_false, if_true, if_neg hmacs]
  · simp only [hephemeral, hkey, if_neg hpublic]
    rfl

theorem onion_shape {onion : Bytes} (h : onion.length = onionPacketSize) :
    ∃ (version : UInt8) (ephemeral : PublicKey) (hopData : Bytes) (mac : ByteVec 32),
      hopData.length = onionRoutingInfoSize ∧ onion = version :: (ephemeral.toList ++ hopData ++ mac.toList) := by
  cases onion with
  | nil => cases h
  | cons version rest =>
    have hrest : rest.length = 1365 := by simpa [onionPacketSize] using h
    refine ⟨version, ⟨rest.take 33, by simp [hrest]⟩, (rest.drop 33).take 1300,
      ⟨(rest.drop 33).drop 1300, by simp [hrest]⟩, by simp [hrest, onionRoutingInfoSize], ?_⟩
    rw [List.Vector.toList_mk, List.Vector.toList_mk, List.append_assoc, List.take_append_drop, List.take_append_drop]

theorem returns_ecdh (P : Primitives) (key : SecretKey) (pubkey : PublicKey) : Returns (ecdh P key pubkey) := by
  unfold ecdh
  split_ifs
  · cases P.mulPublicKey pubkey key with
    | none => exact .fail _
    | some point => exact .ok _
  · exact .fail _

/-- The first half returns, and succeeds on the authentic packets. -/
theorem unwrap_cases (build : Build) (key : SecretKey) (onion : Bytes) {associatedData : Bytes}
    (had : associatedData.length < 2 ^ 63) :
    Returns (unwrap P build key onion associatedData) ∧ ∀ u, unwrap P build key onion associatedData = .ok u ↔
      ∃ (ephemeral : PublicKey) (secret : ByteVec 32) (hopData : Bytes),
        onion = 0 :: (ephemeral.toList ++ hopData ++ (packetHmac P secret hopData associatedData).toList) ∧
        hopData.length = onionRoutingInfoSize ∧ P.isPublicKey ephemeral = true ∧ ecdh P key ephemeral = .ok secret ∧
        u = ⟨0, ephemeral, secret, decrypted P secret hopData⟩ := by
  refine ⟨?_, fun u => ⟨?_, ?_⟩⟩
  · by_cases hsize : onion.length = onionPacketSize
    · obtain ⟨version, ephemeral, hopData, mac, hhop, rfl⟩ := onion_shape hsize
      rw [unwrap_eq key version ephemeral mac hhop had]
      split_ifs
      · exact .fail _
      · refine (returns_ecdh P key ephemeral).bind fun secret _ => ?_
        split_ifs <;> first | exact .fail _ | exact .ok _
      · exact .fail _
    · unfold unwrap
      rw [if_pos hsize]
      exact .fail _
  · intro h
    by_cases hsize : onion.length = onionPacketSize
    · obtain ⟨version, ephemeral, hopData, mac, hhop, rfl⟩ := onion_shape hsize
      rw [unwrap_eq key version ephemeral mac hhop had] at h
      split_ifs at h with hversion hpublic
      · cases h
      · obtain ⟨secret, hsecret, h⟩ := bind_eq_ok.mp h
        split_ifs at h with hmac
        · cases h
          obtain rfl : version = 0 := by simpa using hversion
          exact ⟨ephemeral, secret, hopData, by rw [hmac], hhop, hpublic, hsecret, rfl⟩
        · cases h
      · cases h
    · unfold unwrap at h
      rw [if_pos hsize] at h
      cases h
  · rintro ⟨ephemeral, secret, hopData, rfl, hhop, hpublic, hsecret, rfl⟩
    rw [unwrap_eq key 0 ephemeral _ hhop had, if_neg (by simp), if_pos hpublic, hsecret]
    simp only [bind, Except.bind, if_true]
    rfl

/-! ### The hop -/

/-- What splitting does with routing info that starts with the given length. -/
theorem splitHop_eq (len : UInt64) (rest : Bytes) :
    splitHop (writeBigsize len ++ rest) =
      if len < 2 then invalidPayload "payload length below minimum"
      else if 2 ^ 64 ≤ (writeBigsize len).length + len.toNat then invalidPayload "payload length overflow"
      else if 2 ^ 64 ≤ (writeBigsize len).length + len.toNat + 32 then invalidPayload "next hmac overflow"
      else if rest.length < len.toNat + 32 then invalidPayload "payload exceeds onion routing info"
      else if rest.length < len.toNat + 32 + onionRoutingInfoSize then invalidPayload "not enough forwarding payload"
      else .ok ⟨rest.take len.toNat, (rest.drop len.toNat).take 32, (rest.drop len.toNat).drop 32⟩ := by
  unfold splitHop checkedAddLen
  simp only [readBigsize_write, bind, Except.bind]
  by_cases hmin : len < 2
  · rw [if_pos hmin, if_pos hmin]
  by_cases hend : (writeBigsize len).length + len.toNat < 2 ^ 64
  swap
  · rw [if_neg hmin, if_neg hmin, if_neg hend, if_pos (Nat.le_of_not_lt hend)]
  by_cases hhmac : (writeBigsize len).length + len.toNat + 32 < 2 ^ 64
  swap
  · rw [if_neg hmin, if_neg hmin, if_pos hend, if_neg (Nat.not_le_of_lt hend), if_pos (Nat.le_of_not_lt hhmac)]
    simp only [if_neg hhmac]
  rw [if_neg hmin, if_neg hmin, if_pos hend, if_neg (Nat.not_le_of_lt hend), if_neg (Nat.not_le_of_lt hhmac)]
  simp only [if_pos hhmac]
  by_cases hlong : rest.length < len.toNat + 32
  · rw [if_pos hlong, if_pos (by rw [List.length_append]; omega)]
  rw [if_neg hlong, if_neg (by rw [List.length_append]; omega)]
  -- The three slices, behind the bytes of the length.
  have hdrop : ∀ n, (writeBigsize len ++ rest).drop ((writeBigsize len).length + n) = rest.drop n := by
    intro n
    rw [← List.drop_drop, List.drop_left]
  have hpayload : slice (writeBigsize len ++ rest) (writeBigsize len).length ((writeBigsize len).length + len.toNat) =
      .ok (rest.take len.toNat) := by
    rw [slice_eq (by omega) (by rw [List.length_append]; omega), List.drop_left, Nat.add_sub_cancel_left]
  have hnext : slice (writeBigsize len ++ rest) ((writeBigsize len).length + len.toNat)
      ((writeBigsize len).length + len.toNat + 32) = .ok ((rest.drop len.toNat).take 32) := by
    rw [slice_eq (by omega) (by rw [List.length_append]; omega), hdrop, Nat.add_sub_cancel_left]
  have hremaining : sliceFrom (writeBigsize len ++ rest) ((writeBigsize len).length + len.toNat + 32) =
      .ok ((rest.drop len.toNat).drop 32) := by
    rw [sliceFrom_eq (by rw [List.length_append]; omega), Nat.add_assoc, hdrop, List.drop_drop]
  simp only [hpayload, hnext, hremaining, List.length_drop]
  by_cases hshort : rest.length < len.toNat + 32 + onionRoutingInfoSize
  · rw [if_pos hshort, if_pos (by omega)]
  · rw [if_neg hshort, if_neg (by omega)]
    rfl

/-- Splitting returns, and succeeds on routing info that is long enough for its payload. -/
theorem splitHop_cases {info : Bytes} (hinfo : info.length < 2 ^ 63) :
    Returns (splitHop info) ∧ ∀ parts, splitHop info = .ok parts ↔ ∃ len : UInt64,
      info = writeBigsize len ++ (parts.payload ++ (parts.nextHmac ++ parts.remaining)) ∧
      parts.payload.length = len.toNat ∧ 2 ≤ len ∧ parts.nextHmac.length = 32 ∧
      onionRoutingInfoSize ≤ parts.remaining.length := by
  refine ⟨?_, fun parts => ⟨?_, ?_⟩⟩
  · rcases returns_readBigsize info with ⟨⟨len, lenSize⟩, hread⟩ | ⟨e, he⟩
    · obtain ⟨rest, rfl, rfl⟩ := write_of_readBigsize hread
      rw [List.length_append] at hinfo
      rw [splitHop_eq len rest]
      split_ifs <;> first | exact .invalid _ | exact .ok _
    · unfold splitHop
      rw [he]
      exact Or.inr ⟨e, rfl⟩
  · intro h
    rcases returns_readBigsize info with ⟨⟨len, lenSize⟩, hread⟩ | ⟨e, he⟩
    · obtain ⟨rest, rfl, rfl⟩ := write_of_readBigsize hread
      rw [List.length_append] at hinfo
      rw [splitHop_eq len rest] at h
      split_ifs at h with hmin hend hhmac hlong hshort <;> cases h
      refine ⟨len, ?_, ?_, ?_, ?_, ?_⟩
      · rw [List.take_append_drop, List.take_append_drop]
      · exact List.length_take_of_le (by omega)
      · exact UInt64.not_lt.mp hmin
      · exact List.length_take_of_le (by rw [List.length_drop]; omega)
      · rw [List.length_drop, List.length_drop]
        omega
    · unfold splitHop at h
      rw [he] at h
      cases h
  · rintro ⟨len, rfl, hpayload, hmin, hnext, hremaining⟩
    simp only [List.length_append] at hinfo
    have hlen := length_writeBigsize len
    unfold onionRoutingInfoSize at hremaining
    rw [splitHop_eq len _, if_neg (UInt64.not_lt.mpr hmin), if_neg (by omega),
      if_neg (by omega), if_neg (by simp only [List.length_append]; omega),
      if_neg (by unfold onionRoutingInfoSize; simp only [List.length_append]; omega), List.take_left' hpayload,
      List.drop_left' hpayload, List.take_left' hnext, List.drop_left' hnext]

/-! ### Peeling -/

/-- What a packet presents is what the first two parts of peeling find. -/
theorem presents_iff {key : SecretKey} {onion associatedData payload : Bytes} (build : Build)
    (had : associatedData.length < 2 ^ 63) : Presents P key onion associatedData payload ↔
      ∃ u parts, unwrap P build key onion associatedData = .ok u ∧ splitHop u.unwrapped = .ok parts ∧
        parts.payload = payload := by
  have hinfo : ∀ (secret : ByteVec 32) {hopData : Bytes}, hopData.length = onionRoutingInfoSize →
      (decrypted P secret hopData).length < 2 ^ 63 := by
    intro secret hopData hhop
    rw [length_decrypted secret hhop]
    decide
  constructor
  · rintro ⟨ephemeral, secret, hopData, len, nextHmac, remaining, honion, hhop, hpublic, hsecret, hparts⟩
    refine ⟨_, ⟨payload, nextHmac, remaining⟩, ((unwrap_cases build key onion had).2 _).mpr
      ⟨ephemeral, secret, hopData, honion, hhop, hpublic, hsecret, rfl⟩, ?_, rfl⟩
    exact ((splitHop_cases (hinfo secret hhop)).2 _).mpr ⟨len, hparts⟩
  · rintro ⟨u, parts, hu, hparts, rfl⟩
    obtain ⟨ephemeral, secret, hopData, honion, hhop, hpublic, hsecret, rfl⟩ :=
      ((unwrap_cases build key onion had).2 u).mp hu
    obtain ⟨len, hparts⟩ := ((splitHop_cases (hinfo secret hhop)).2 parts).mp hparts
    exact ⟨ephemeral, secret, hopData, len, _, _, honion, hhop, hpublic, hsecret, hparts⟩

theorem returns_blindPubkey (pubkey : PublicKey) (blinding : ByteVec 32) : Returns (blindPubkey P pubkey blinding) := by
  unfold blindPubkey
  split_ifs
  · cases P.mulPublicKey pubkey blinding with
    | none => exact .fail _
    | some blinded => exact .ok _
  · exact .fail _

theorem returns_nextPacket {u : Unwrapped} {parts : HopParts} (h : onionRoutingInfoSize ≤ parts.remaining.length) :
    Returns (nextPacket P u parts) := by
  refine (returns_blindPubkey _ _).bind fun nextEphemeral _ => ?_
  rw [slice_eq (Nat.zero_le _) h]
  exact .ok _

/-- Peeling panics exactly on the authentic packets whose payload overruns, and returns on all others. -/
theorem peelOnion_cases (build : Build) (key : SecretKey) (onion : Bytes) {associatedData : Bytes}
    (had : associatedData.length < 2 ^ 63) :
    ((∃ payload, Presents P key onion associatedData payload ∧ Overruns payload) ∧
      peelOnion P build key onion associatedData = .error .panicked) ∨
    ((¬ ∃ payload, Presents P key onion associatedData payload ∧ Overruns payload) ∧
      Returns (peelOnion P build key onion associatedData)) := by
  obtain ⟨hreturns, hok⟩ := unwrap_cases (P := P) build key onion had
  rcases hreturns with ⟨u, hu⟩ | ⟨e, he⟩
  · obtain ⟨ephemeral, secret, hopData, -, hhop, -, -, rfl⟩ := (hok u).mp hu
    have hinfo : (decrypted P secret hopData).length < 2 ^ 63 := by
      rw [length_decrypted secret hhop]
      decide
    rcases (splitHop_cases hinfo).1 with ⟨parts, hparts⟩ | ⟨e, he⟩
    · obtain ⟨len, hsplit, hpayload, -, -, hremaining⟩ := ((splitHop_cases hinfo).2 parts).mp hparts
      have hlen : parts.payload.length < 2 ^ 63 := by
        have := congrArg List.length hsplit
        simp only [List.length_append] at this
        omega
      have hpresents : ∀ payload, Presents P key onion associatedData payload ↔ payload = parts.payload := by
        intro payload
        rw [presents_iff build had]
        constructor
        · rintro ⟨u', parts', hu', hparts', rfl⟩
          cases hu.symm.trans hu'
          cases hparts.symm.trans hparts'
          rfl
        · rintro rfl
          exact ⟨_, parts, hu, hparts, rfl⟩
      simp only [hpresents, exists_eq_left]
      rcases parseTlvPayload_cases build hlen (parts.nextHmac.all (· == 0)) with ⟨ho, hp⟩ | ⟨ho, hr⟩
      · refine Or.inl ⟨ho, ?_⟩
        unfold peelOnion
        simp only [bind, Except.bind, hu, hparts, hp]
      · refine Or.inr ⟨ho, ?_⟩
        unfold peelOnion
        simp only [hu]
        refine Returns.bind (.ok _) ?_
        rintro _ ⟨⟩
        refine Returns.bind (Or.inl ⟨parts, hparts⟩) ?_
        intro parts' hparts'
        cases hparts.symm.trans hparts'
        refine hr.bind fun fields hfields => ?_
        obtain ⟨hamount, hcltv⟩ := parseTlvPayload_fields hfields
        obtain ⟨amount, hamount⟩ := Option.isSome_iff_exists.mp hamount
        obtain ⟨cltv, hcltv⟩ := Option.isSome_iff_exists.mp hcltv
        simp only [hamount, hcltv]
        split_ifs
        · exact .ok _
        · exact (returns_nextPacket hremaining).bind fun next _ => .ok _
    · refine Or.inr ⟨?_, ?_⟩
      · rintro ⟨payload, hp, -⟩
        obtain ⟨u', parts, hu', hparts, -⟩ := (presents_iff build had).mp hp
        cases hu.symm.trans hu'
        cases he.symm.trans hparts
      · unfold peelOnion
        simp only [bind, Except.bind, hu, he]
        exact Or.inr ⟨e, rfl⟩
  · refine Or.inr ⟨?_, ?_⟩
    · rintro ⟨payload, hp, -⟩
      obtain ⟨u', parts, hu', -, -⟩ := (presents_iff build had).mp hp
      cases he.symm.trans hu'
    · unfold peelOnion
      simp only [bind, Except.bind, he]
      exact Or.inr ⟨e, rfl⟩

/-- Peeling returns, with all slices within bounds and, in a debug build, without an overflow, unless the packet is
    authentic and its payload overruns. A slice has less than `2 ^ 63` bytes. -/
theorem peelOnion_returns_iff (P : Primitives) (build : Build) (key : SecretKey) (onion associatedData : Bytes)
    (had : associatedData.length < 2 ^ 63) :
    Returns (peelOnion P build key onion associatedData) ↔
      ¬ ∃ payload, Presents P key onion associatedData payload ∧ Overruns payload := by
  rcases peelOnion_cases (P := P) build key onion had with ⟨ho, hp⟩ | ⟨ho, hr⟩
  · refine ⟨fun hr => absurd hp hr.not_panicked, fun h => absurd ho h⟩
  · exact ⟨fun _ => ho, fun _ => hr⟩

/-! ### A packet that panics -/

def addBytes (a b : ByteVec 32) : ByteVec 32 := List.Vector.map₂ (· + ·) a b

/-- Keys that are added byte by byte, and keystreams of one byte. -/
def Primitives.transparent : Primitives where
  sha256 := digest
  hmacSha256 key data := digest (key ++ data)
  chacha20 key length := List.Vector.replicate length key.head
  isPublicKey key := key.head == 2
  isSecretKey _ := true
  isScalar _ := true
  publicKey := publicOf
  mulPublicKey key scalar := some (publicOf (addBytes key.tail scalar))
  mulSecretKey key scalar := some (addBytes key scalar)

def sessionKey : SecretKey := ByteVec.fill 32 3
def hopKey : SecretKey := ByteVec.fill 32 5

/-- A record of an unknown odd type, with a length of `2 ^ 64 - 1`. -/
def overrunPayload : Bytes := 1 :: List.replicate 9 0xff

def overrunOnion : Bytes :=
  ((createPaymentOnion .transparent sessionKey [(publicOf hopKey, overrunPayload)] []).toOption).getD []

/-- The record starts at 10, and ten more than its length wraps to 9. -/
theorem peelOnion_overrun : ¬ Returns (peelOnion .transparent .release hopKey overrunOnion []) := by
  have hpanicked : (match peelOnion .transparent .release hopKey overrunOnion [] with
      | .error .panicked => true
      | _ => false) = true := by decide +kernel
  intro h
  rcases h with ⟨_, h⟩ | ⟨_, h⟩ <;> rw [h] at hpanicked <;> cases hpanicked

theorem peelOnion_returns_iff_overrun : ([] : Bytes).length < 2 ^ 63 ∧
    (Returns (peelOnion .transparent .release hopKey overrunOnion []) ↔
      ¬ ∃ payload, Presents .transparent hopKey overrunOnion [] payload ∧ Overruns payload) :=
  ⟨by decide, peelOnion_returns_iff .transparent .release hopKey overrunOnion [] (by decide)⟩

end Canopus.Sphinx
