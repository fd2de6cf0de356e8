import Canopus.Theorems.Varints

/-! TLV streams. A stream is taken exactly if it is a sequence of records with rising tags, none of them mandatory. The
    records are told apart by their lengths alone, so that a stream is a sequence of records in one way only. -/

namespace Canopus
open Buffer

/-- A record, with a length that a varint can hold. -/
structure StreamRecord where
  tag : UInt64
  len : UInt64
  value : Bytes
  fits : value.length = len.toNat

namespace StreamRecord

def encode (r : StreamRecord) : Bytes := writeVarint r.tag ++ writeVarint r.len ++ r.value

/-- A peer that does not know the record may skip it. -/
def Optional (r : StreamRecord) : Prop := r.tag.toNat % 2 = 1 ∨ 2 ^ 32 ≤ r.tag.toNat

end StreamRecord

/-- The records stand in the order of their tags, and all of them may be skipped. -/
structure CanonicalStream (rs : List StreamRecord) : Prop where
  increasing : (rs.map (·.tag)).Pairwise (· < ·)
  optional : ∀ r ∈ rs, r.Optional

/-- The stream of the records. -/
def encodeStream (rs : List StreamRecord) : Bytes := (rs.map (·.encode)).flatten

variable {u v data rest : Bytes} {r r' : StreamRecord} {rs rs' : List StreamRecord} {prevTag : Option UInt64} {tag : UInt64}
  {rounds : Nat}

/-! ### One record -/

theorem length_encode_pos (r : StreamRecord) : 0 < r.encode.length := by
  have htag : 0 < (writeVarint r.tag).length := by
    unfold writeVarint
    split_ifs <;> simp
  rw [StreamRecord.encode, List.length_append, List.length_append]
  omega

theorem writeVarint_inj {x y : UInt64} (h : writeVarint x ++ u = writeVarint y ++ v) : x = y ∧ u = v := by
  have hread := readVarint_ok_iff.mpr h
  rw [reads_varint] at hread
  obtain ⟨rfl, rfl⟩ := Prod.mk.inj (Except.ok.inj hread)
  exact ⟨rfl, rfl⟩

theorem encode_inj {r s : StreamRecord} (h : r.encode ++ u = s.encode ++ v) : r = s ∧ u = v := by
  obtain ⟨tag, len, value, fits⟩ := r
  obtain ⟨tag', len', value', fits'⟩ := s
  simp only [StreamRecord.encode, List.append_assoc] at h
  obtain ⟨rfl, hafter⟩ := writeVarint_inj h
  obtain ⟨rfl, hvalues⟩ := writeVarint_inj hafter
  obtain ⟨rfl, hrest⟩ := List.append_inj hvalues (fits.trans fits'.symm)
  exact ⟨rfl, hrest⟩

/-- The two tests of a tag, as the loop makes them. -/
theorem optional_iff : r.Optional ↔ (r.tag < tlvTypeHighRange && r.tag % 2 == 0) = false := by
  have hmod : r.tag % 2 = 0 ↔ r.tag.toNat % 2 = 0 := by
    rw [← UInt64.toNat_inj, UInt64.toNat_mod]
    rfl
  have hlt : r.tag < tlvTypeHighRange ↔ r.tag.toNat < 2 ^ 32 := UInt64.lt_iff_toNat_lt
  rw [StreamRecord.Optional, Bool.and_eq_false_iff, decide_eq_false_iff_not, beq_eq_false_iff_ne, hlt, Ne, hmod]
  omega

theorem spells_tlvRecord : Spells (readTlvRecord prevTag) fun tag bs =>
    ∃ r : StreamRecord, r.tag = tag ∧ bs = r.encode ∧ (∀ t ∈ prevTag, t < r.tag) ∧ r.Optional := by
  refine spells_varint.written fun tag => ?_
  refine spells_varint.written fun len => ?_
  refine (spells_bytes len.toNat).bind ?_
  rintro value _ ⟨rfl, hfits⟩
  split_ifs with hprev heven
  · exact Spells.fail
  · exact Spells.fail
  · refine Spells.pure ⟨⟨tag, len, _, hfits⟩, rfl, ?_, ?_, ?_⟩
    · rw [StreamRecord.encode, List.append_nil, List.append_assoc]
    · intro t ht
      rw [Option.mem_def.mp ht] at hprev
      simpa using hprev
    · exact optional_iff.mpr (Bool.not_eq_true _ ▸ heven)

theorem reads_tlvRecord (hprev : ∀ t ∈ prevTag, t < r.tag) (hopt : r.Optional) :
    Reads (readTlvRecord prevTag) r.encode r.tag := by
  have hnot : prevTag.any (r.tag ≤ ·) = false := by
    cases prevTag with
    | none => rfl
    | some t => simpa using hprev t rfl
  rw [StreamRecord.encode, List.append_assoc]
  refine (reads_varint r.tag).bind ((reads_varint r.len).bind ((reads_bytes r.fits).build ?_))
  rw [hnot, optional_iff.mp hopt]
  rfl

/-- A round of the loop takes one record, with a tag that is larger than the one before. -/
theorem readTlvRecord_ok_iff : (readTlvRecord prevTag).run u = .ok (tag, v) ↔
    ∃ r : StreamRecord, r.tag = tag ∧ u = r.encode ++ v ∧ (∀ t ∈ prevTag, t < r.tag) ∧ r.Optional := by
  constructor
  · intro h
    obtain ⟨_, hu, r, htag, rfl, hprev, hopt⟩ := spells_tlvRecord u tag v h
    exact ⟨r, htag, hu, hprev, hopt⟩
  · rintro ⟨r, rfl, rfl, hprev, hopt⟩
    exact reads_tlvRecord hprev hopt v

/-! ### The loop -/

/-- The records of a stream, of which the tags rise from `prevTag`. -/
def StreamFrom (prevTag : Option UInt64) (u : Bytes) : Prop :=
  ∃ rs, u = encodeStream rs ∧ CanonicalStream rs ∧ ∀ t ∈ prevTag, ∀ r ∈ rs, t < r.tag

theorem streamFrom_nil : StreamFrom prevTag [] := by
  refine ⟨[], rfl, ⟨List.Pairwise.nil, ?_⟩, ?_⟩
  · intro r hr
    cases hr
  · intro t _ r hr
    cases hr

/-- A stream that is not empty is a record and a stream that goes on from its tag. -/
theorem streamFrom_iff (hne : u ≠ []) : StreamFrom prevTag u ↔
    ∃ (r : StreamRecord) (v : Bytes), u = r.encode ++ v ∧ (∀ t ∈ prevTag, t < r.tag) ∧ r.Optional ∧ StreamFrom (some r.tag) v := by
  constructor
  · rintro ⟨rs, rfl, hcanonical, hprev⟩
    cases rs with
    | nil => exact absurd rfl hne
    | cons r rs =>
      obtain ⟨hhead, htail⟩ := List.pairwise_cons.mp hcanonical.increasing
      refine ⟨r, encodeStream rs, rfl, fun t ht => hprev t ht r (List.mem_cons_self ..), ?_, rs, rfl, ⟨htail, ?_⟩, ?_⟩
      · exact hcanonical.optional r (List.mem_cons_self ..)
      · exact fun r' hr' => hcanonical.optional r' (List.mem_cons_of_mem _ hr')
      · intro t ht r' hr'
        obtain rfl := Option.mem_some_iff.mp ht
        exact hhead r'.tag (List.mem_map_of_mem hr')
  · rintro ⟨r, v, rfl, hprev, hopt, rs, rfl, hcanonical, hrs⟩
    refine ⟨r :: rs, rfl, ⟨List.pairwise_cons.mpr ⟨?_, hcanonical.increasing⟩, ?_⟩, ?_⟩
    · rintro _ ht
      obtain ⟨r', hr', rfl⟩ := List.mem_map.mp ht
      exact hrs r.tag rfl r' hr'
    · rintro r' (_ | ⟨_, hr'⟩)
      · exact hopt
      · exact hcanonical.optional r' hr'
    · rintro t ht r' (_ | ⟨_, hr'⟩)
      · exact hprev t ht
      · exact UInt64.lt_trans (hprev t ht) (hrs r.tag rfl r' hr')

theorem run_readTlvRecords (b : UInt8) (u : Bytes) : (readTlvRecords (rounds + 1) prevTag).run (b :: u) =
    (readTlvRecord prevTag).run (b :: u) >>= fun r => (readTlvRecords rounds (some r.1)).run r.2 := rfl

/-- What follows a record is shorter. -/
theorem length_rest (hu : u = r.encode ++ v) (h : u.length ≤ rounds + 1) : v.length ≤ rounds := by
  have hpos := length_encode_pos r
  rw [hu, List.length_append] at h
  omega

/-- Given a round for each byte, the loop ends with an empty buffer, and only on a stream. -/
theorem readTlvRecords_ok_iff (h : u.length ≤ rounds) :
    (readTlvRecords rounds prevTag).run u = .ok ((), v) ↔ v = [] ∧ StreamFrom prevTag u := by
  induction rounds generalizing u prevTag with
  | zero =>
    obtain rfl := List.eq_nil_of_length_eq_zero (Nat.le_zero.mp h)
    constructor
    · intro hrun
      cases hrun
      exact ⟨rfl, streamFrom_nil⟩
    · rintro ⟨rfl, -⟩
      rfl
  | succ rounds ih =>
    cases u with
    | nil =>
      constructor
      · intro hrun
        cases hrun
        exact ⟨rfl, streamFrom_nil⟩
      · rintro ⟨rfl, -⟩
        rfl
    | cons b u =>
      rw [run_readTlvRecords, bind_eq_ok, streamFrom_iff (List.cons_ne_nil b u)]
      constructor
      · rintro ⟨⟨tag, rest⟩, hrecord, hrest⟩
        obtain ⟨r, rfl, hu, hprev, hopt⟩ := readTlvRecord_ok_iff.mp hrecord
        obtain ⟨rfl, hstream⟩ := (ih (length_rest hu h)).mp hrest
        exact ⟨rfl, r, rest, hu, hprev, hopt, hstream⟩
      · rintro ⟨rfl, r, rest, hu, hprev, hopt, hstream⟩
        have hrecord := readTlvRecord_ok_iff.mpr ⟨r, rfl, hu, hprev, hopt⟩
        exact ⟨(r.tag, rest), hrecord, (ih (length_rest hu h)).mpr ⟨rfl, hstream⟩⟩

/-- More rounds than bytes make no difference. -/
theorem readTlvRecords_rounds {rounds' : Nat} (h : u.length ≤ rounds) (h' : u.length ≤ rounds') :
    (readTlvRecords rounds prevTag).run u = (readTlvRecords rounds' prevTag).run u := by
  induction rounds generalizing u prevTag rounds' with
  | zero =>
    obtain rfl := List.eq_nil_of_length_eq_zero (Nat.le_zero.mp h)
    cases rounds' <;> rfl
  | succ rounds ih =>
    cases u with
    | nil => cases rounds' <;> rfl
    | cons b u =>
      cases rounds' with
      | zero => cases h'
      | succ rounds' =>
        rw [run_readTlvRecords, run_readTlvRecords]
        cases hrecord : (readTlvRecord prevTag).run (b :: u) with
        | error e => rfl
        | ok x =>
          obtain ⟨tag, rest⟩ := x
          obtain ⟨r, -, hu, -, -⟩ := readTlvRecord_ok_iff.mp hrecord
          exact ih (length_rest hu h) (length_rest hu h')

/-! ### Streams -/

theorem encodeStream_inj (h : encodeStream rs = encodeStream rs') : rs = rs' := by
  have hempty : ∀ (r : StreamRecord) (rs : List StreamRecord), encodeStream (r :: rs) ≠ [] := by
    intro r rs hnil
    have hlen : (r.encode ++ encodeStream rs).length = 0 := congrArg List.length hnil
    have hpos := length_encode_pos r
    rw [List.length_append] at hlen
    omega
  induction rs generalizing rs' with
  | nil =>
    cases rs' with
    | nil => rfl
    | cons r' rs' => exact absurd h.symm (hempty r' rs')
  | cons r rs ih =>
    cases rs' with
    | nil => exact absurd h (hempty r rs)
    | cons r' rs' =>
      obtain ⟨rfl, hrest⟩ := encode_inj (r := r) (s := r') h
      rw [ih hrest]

/-- A stream is accepted if the loop comes to the end of the buffer. -/
theorem validateTlvStream_eq_ok : validateTlvStream data = .ok () ↔ StreamFrom none data := by
  have hmap : validateTlvStream data = .ok () ↔ ∃ v, (readTlvRecords data.length none).run data = .ok ((), v) := by
    unfold validateTlvStream
    rw [StateT.run'_eq]
    cases (readTlvRecords data.length none).run data with
    | error e => simp [Functor.map, Except.map]
    | ok r =>
      obtain ⟨⟨⟩, v⟩ := r
      simp [Functor.map, Except.map]
  rw [hmap]
  constructor
  · rintro ⟨v, h⟩
    exact ((readTlvRecords_ok_iff (Nat.le_refl _)).mp h).2
  · exact fun h => ⟨[], (readTlvRecords_ok_iff (Nat.le_refl _)).mpr ⟨rfl, h⟩⟩

theorem validate_tlv_stream_iff (data : Bytes) :
    (validateTlvStream data = .ok () ↔ ∃ rs, CanonicalStream rs ∧ data = encodeStream rs) ∧
    (∀ rs rs', data = encodeStream rs → data = encodeStream rs' → rs = rs') ∧
    ∀ rounds, data.length ≤ rounds → (readTlvRecords rounds none).run' data = validateTlvStream data ∧
      ∀ rest, (readTlvRecords rounds none).run data = .ok ((), rest) → rest = [] := by
  refine ⟨?_, ?_, fun rounds h => ⟨?_, ?_⟩⟩
  · rw [validateTlvStream_eq_ok]
    constructor
    · rintro ⟨rs, hdata, hcanonical, -⟩
      exact ⟨rs, hcanonical, hdata⟩
    · rintro ⟨rs, hcanonical, hdata⟩
      exact ⟨rs, hdata, hcanonical, fun t ht => nomatch ht⟩
  · intro rs rs' h h'
    exact encodeStream_inj (h.symm.trans h')
  · unfold validateTlvStream
    rw [StateT.run'_eq, StateT.run'_eq, readTlvRecords_rounds h (Nat.le_refl _)]
  · exact fun rest hrun => ((readTlvRecords_ok_iff h).mp hrun).1

end Canopus
