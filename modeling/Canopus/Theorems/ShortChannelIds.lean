import Canopus.Lib.Decimal
import Canopus.ShortChannelId

/-! The text form of short channel ids. The parser takes three numerals that fit their fields, the printer writes the
    three fields without leading zeros, and each undoes the other up to those zeros. -/

namespace Canopus
open Decimal

/-! ### Numbers -/

theorem pushDigit_eq {acc : UInt64} {c : Char} (hc : c.isDigit) :
    pushDigit acc c =
      if 10 * acc.toNat + digit c < 2 ^ 64 then some (UInt64.ofNat (10 * acc.toNat + digit c)) else none := by
  have hlt := digit_lt hc
  have hten : (10 : UInt64).toNat = 10 := rfl
  have hdigit : (UInt64.ofNat (c.toNat - '0'.toNat)).toNat = digit c :=
    UInt64.toNat_ofNat_of_lt' (Nat.lt_trans hlt (by decide))
  unfold pushDigit checkedMul
  by_cases hmul : acc.toNat * 10 < 2 ^ 64
  · have hscaled : (acc * 10).toNat = 10 * acc.toNat := by
      rw [UInt64.toNat_mul, hten, Nat.mod_eq_of_lt hmul, Nat.mul_comm]
    simp only [hten, hmul, if_true, Option.bind_eq_bind, Option.bind_some, checkedAdd, hscaled, hdigit]
    congr 2
    refine UInt64.toNat_inj.mp ?_
    rw [UInt64.toNat_add, hscaled, hdigit, UInt64.toNat_ofNat']
  · have hover : ¬ 10 * acc.toNat + digit c < 2 ^ 64 := by omega
    simp only [hten, hmul, hover, if_false, Option.bind_eq_bind, Option.bind_none]

theorem foldlM_pushDigit {s : List Char} (hs : ∀ c ∈ s, c.isDigit) (acc : UInt64) :
    s.foldlM pushDigit acc =
      if Nat.ofDigitChars 10 s acc.toNat < 2 ^ 64 then some (UInt64.ofNat (Nat.ofDigitChars 10 s acc.toNat))
      else none := by
  induction s generalizing acc with
  | nil => simp [acc.toNat_lt]
  | cons c s ih =>
    have hstep : Nat.ofDigitChars 10 (c :: s) acc.toNat = Nat.ofDigitChars 10 s (10 * acc.toNat + digit c) :=
      Nat.ofDigitChars_cons
    have htail := ih fun c' hc' => hs c' (List.mem_cons_of_mem _ hc')
    rw [List.foldlM_cons, pushDigit_eq (hs c List.mem_cons_self), hstep]
    by_cases hlt : 10 * acc.toNat + digit c < 2 ^ 64
    · rw [if_pos hlt, Option.bind_eq_bind, Option.bind_some, htail, UInt64.toNat_ofNat_of_lt' hlt]
    · -- the value only grows from here
      have hover : ¬ Nat.ofDigitChars 10 s (10 * acc.toNat + digit c) < 2 ^ 64 := fun h =>
        hlt (Nat.lt_of_le_of_lt (le_ofDigitChars s _) h)
      rw [if_neg hlt, if_neg hover]
      rfl

theorem parseU64_digits (d : Numeral) :
    parseU64 d.digits = if d.value < 2 ^ 64 then some (UInt64.ofNat d.value) else none :=
  foldlM_pushDigit d.isDigit 0

/-- A field is a numeral of at most the field's maximum, whatever its length. -/
theorem parseScidPart_eq_some_iff {s : List Char} {max v : UInt64} :
    parseScidPart s max = some v ↔ ∃ d : Numeral, d.digits = s ∧ d.value = v.toNat ∧ v.toNat ≤ max.toNat := by
  unfold parseScidPart
  split_ifs with h
  · constructor
    · intro hnone
      cases hnone
    · rintro ⟨d, rfl, -, -⟩
      have hne := d.ne_nil
      have hall : d.digits.all (·.isDigit) = true := List.all_eq_true.mpr d.isDigit
      simp [hall, hne] at h
  · obtain ⟨hne, hall⟩ : s ≠ [] ∧ ∀ c ∈ s, c.isDigit := by simpa using h
    let d : Numeral := ⟨s, hne, hall⟩
    have hparse : parseU64 s = if d.value < 2 ^ 64 then some (UInt64.ofNat d.value) else none := parseU64_digits d
    rw [hparse]
    constructor
    · intro hv
      by_cases hlt : d.value < 2 ^ 64
      · rw [if_pos hlt, Option.bind_eq_bind, Option.bind_some] at hv
        split_ifs at hv with hmax
        cases hv
        exact ⟨d, rfl, (UInt64.toNat_ofNat_of_lt' hlt).symm, UInt64.le_iff_toNat_le.mp hmax⟩
      · rw [if_neg hlt] at hv
        cases hv
    · rintro ⟨d', hd', hval, hmax⟩
      have hd : d'.value = d.value := by
        unfold Numeral.value
        rw [hd']
      have hback : UInt64.ofNat d.value = v := by rw [← hd, hval, UInt64.ofNat_toNat]
      have hlt : d.value < 2 ^ 64 := by
        rw [← hd, hval]
        exact v.toNat_lt
      rw [if_pos hlt, hback, Option.bind_eq_bind, Option.bind_some, if_pos (UInt64.le_iff_toNat_le.mpr hmax)]

/-! ### Fields -/

theorem toNat_block (x : UInt64) : (x >>> 40).toNat = x.toNat / 2 ^ 40 := by
  rw [UInt64.toNat_shiftRight]
  exact Nat.shiftRight_eq_div_pow _ _

theorem toNat_txindex (x : UInt64) : ((x >>> 16) &&& 0x00ffffff).toNat = x.toNat / 2 ^ 16 % 2 ^ 24 := by
  rw [UInt64.toNat_and, UInt64.toNat_shiftRight]
  change x.toNat >>> 16 &&& (2 ^ 24 - 1) = _
  rw [Nat.and_two_pow_sub_one_eq_mod, Nat.shiftRight_eq_div_pow]

theorem toNat_outnum (x : UInt64) : (x &&& 0x0000ffff).toNat = x.toNat % 2 ^ 16 := by
  rw [UInt64.toNat_and]
  change x.toNat &&& (2 ^ 16 - 1) = _
  rw [Nat.and_two_pow_sub_one_eq_mod]

/-- Fields that fit do not overlap. -/
theorem toNat_pack {block txindex outnum : UInt64} (hblock : block.toNat < 2 ^ 24) (htxindex : txindex.toNat < 2 ^ 24)
    (houtnum : outnum.toNat < 2 ^ 16) :
    ((block <<< 40) ||| (txindex <<< 16) ||| outnum).toNat =
      block.toNat * 2 ^ 40 + txindex.toNat * 2 ^ 16 + outnum.toNat := by
  have hb : (block <<< 40).toNat = block.toNat * 2 ^ 40 := by
    rw [UInt64.toNat_shiftLeft]
    change block.toNat <<< 40 % 2 ^ 64 = _
    rw [Nat.shiftLeft_eq]
    exact Nat.mod_eq_of_lt (by omega)
  have ht : (txindex <<< 16).toNat = txindex.toNat * 2 ^ 16 := by
    rw [UInt64.toNat_shiftLeft]
    change txindex.toNat <<< 16 % 2 ^ 64 = _
    rw [Nat.shiftLeft_eq]
    exact Nat.mod_eq_of_lt (by omega)
  have hlow : txindex.toNat * 2 ^ 16 + outnum.toNat < 2 ^ 40 := by omega
  rw [UInt64.toNat_or, UInt64.toNat_or, hb, ht, Nat.or_assoc, ← Nat.shiftLeft_eq _ 16,
    ← Nat.shiftLeft_add_eq_or_of_lt houtnum, Nat.shiftLeft_eq, ← Nat.shiftLeft_eq _ 40,
    ← Nat.shiftLeft_add_eq_or_of_lt hlow, Nat.shiftLeft_eq, Nat.add_assoc]

/-! ### Texts -/

/-- The text `s` has these three numerals as its fields, and they spell the channel id `x`. -/
structure SpellsScid (s : String) (block txindex outnum : Numeral) (x : UInt64) : Prop where
  text : s.toList = block.digits ++ 'x' :: (txindex.digits ++ 'x' :: outnum.digits)
  block_lt : block.value < 2 ^ 24
  txindex_lt : txindex.value < 2 ^ 24
  outnum_lt : outnum.value < 2 ^ 16
  toNat_eq : x.toNat = block.value * 2 ^ 40 + txindex.value * 2 ^ 16 + outnum.value

theorem splitOn_fields (block txindex outnum : Numeral) :
    (block.digits ++ 'x' :: (txindex.digits ++ 'x' :: outnum.digits)).splitOn 'x' =
      [block.digits, txindex.digits, outnum.digits] := by
  rw [List.splitOn_append_cons_self_of_not_mem (block.not_mem_of_not_isDigit rfl),
    List.splitOn_append_cons_self_of_not_mem (txindex.not_mem_of_not_isDigit rfl),
    List.splitOn_eq_singleton (outnum.not_mem_of_not_isDigit rfl)]

theorem splitOn_eq_three {s b t o : List Char} (hb : (s.splitOn 'x')[0]? = some b) (ht : (s.splitOn 'x')[1]? = some t)
    (ho : (s.splitOn 'x')[2]? = some o) (hend : ¬ (s.splitOn 'x')[3]?.isSome) : s = b ++ 'x' :: (t ++ 'x' :: o) := by
  have hs : ['x'].intercalate (s.splitOn 'x') = s := List.intercalate_splitOn 'x'
  generalize s.splitOn 'x' = parts at hs hb ht ho hend
  rcases parts with - | ⟨b, - | ⟨t, - | ⟨o, - | ⟨more, parts⟩⟩⟩⟩ <;> simp_all

/-- The parser accepts exactly the texts of three numerals that fit their fields. -/
theorem parseShortChannelId_eq_some_iff {s : String} {x : UInt64} :
    parseShortChannelId s = some x ↔ ∃ block txindex outnum, SpellsScid s block txindex outnum x := by
  constructor
  · intro h
    simp only [parseShortChannelId, Option.bind_eq_bind, Option.bind_eq_some_iff] at h
    obtain ⟨b, hb, block, hblock, t, ht, txindex, htxindex, o, ho, outnum, houtnum, h⟩ := h
    split_ifs at h with hmore
    obtain ⟨db, rfl, hdb, hbmax⟩ := parseScidPart_eq_some_iff.mp hblock
    obtain ⟨dt, rfl, hdt, htmax⟩ := parseScidPart_eq_some_iff.mp htxindex
    obtain ⟨d, rfl, hd, hmax⟩ := parseScidPart_eq_some_iff.mp houtnum
    have hblt : block.toNat < 2 ^ 24 := Nat.lt_succ_of_le hbmax
    have htlt : txindex.toNat < 2 ^ 24 := Nat.lt_succ_of_le htmax
    have hlt : outnum.toNat < 2 ^ 16 := Nat.lt_succ_of_le hmax
    refine ⟨db, dt, d, splitOn_eq_three hb ht ho hmore, hdb ▸ hblt, hdt ▸ htlt, hd ▸ hlt, ?_⟩
    rw [← Option.some.inj h, toNat_pack hblt htlt hlt, hdb, hdt, hd]
  · rintro ⟨db, dt, d, hs⟩
    have hfield : ∀ (d : Numeral) (max : UInt64), d.value ≤ max.toNat →
        parseScidPart d.digits max = some (UInt64.ofNat d.value) ∧ (UInt64.ofNat d.value).toNat = d.value := by
      intro d max hmax
      have hval : (UInt64.ofNat d.value).toNat = d.value :=
        UInt64.toNat_ofNat_of_lt' (Nat.lt_of_le_of_lt hmax max.toNat_lt)
      exact ⟨parseScidPart_eq_some_iff.mpr ⟨d, rfl, hval.symm, by rwa [hval]⟩, hval⟩
    obtain ⟨hblock, hb⟩ := hfield db 0x00ffffff (Nat.le_of_lt_succ hs.block_lt)
    obtain ⟨htxindex, ht⟩ := hfield dt 0x00ffffff (Nat.le_of_lt_succ hs.txindex_lt)
    obtain ⟨houtnum, ho⟩ := hfield d 0x0000ffff (Nat.le_of_lt_succ hs.outnum_lt)
    simp only [parseShortChannelId, hs.text, splitOn_fields, List.getElem?_cons_zero, List.getElem?_cons_succ,
      Option.bind_eq_bind, Option.bind_some, hblock, htxindex, houtnum, List.getElem?_nil, Option.isSome_none,
      Bool.false_eq_true, if_false]
    refine congrArg some (UInt64.toNat_inj.mp ?_)
    rw [toNat_pack (by rw [hb]; exact hs.block_lt) (by rw [ht]; exact hs.txindex_lt) (by rw [ho]; exact hs.outnum_lt),
      hb, ht, ho, hs.toNat_eq]

/-- The printer writes the digits of the three fields. -/
theorem toList_formatShortChannelId (x : UInt64) :
    (formatShortChannelId x).toList =
      (Numeral.ofNat (x.toNat / 2 ^ 40)).digits ++ 'x' :: ((Numeral.ofNat (x.toNat / 2 ^ 16 % 2 ^ 24)).digits ++
        'x' :: (Numeral.ofNat (x.toNat % 2 ^ 16)).digits) := by
  have hdigits : ∀ y : UInt64, (toString y).toList = (Numeral.ofNat y.toNat).digits := fun y => Nat.toList_repr
  have hx : (toString "x").toList = ['x'] := rfl
  simp only [formatShortChannelId, String.toList_append, hdigits, hx, toNat_block, toNat_txindex, toNat_outnum,
    List.append_assoc, List.cons_append, List.nil_append]

theorem spells_format (x : UInt64) :
    SpellsScid (formatShortChannelId x) (Numeral.ofNat (x.toNat / 2 ^ 40)) (Numeral.ofNat (x.toNat / 2 ^ 16 % 2 ^ 24))
      (Numeral.ofNat (x.toNat % 2 ^ 16)) x where
  text := toList_formatShortChannelId x
  block_lt := by
    have hx := x.toNat_lt
    rw [Numeral.value_ofNat]
    omega
  txindex_lt := by
    rw [Numeral.value_ofNat]
    omega
  outnum_lt := by
    rw [Numeral.value_ofNat]
    omega
  toNat_eq := by
    simp only [Numeral.value_ofNat]
    omega

theorem SpellsScid.format {s : String} {block txindex outnum : Numeral} {x : UInt64}
    (h : SpellsScid s block txindex outnum x) :
    (formatShortChannelId x).toList =
      block.strip.digits ++ 'x' :: (txindex.strip.digits ++ 'x' :: outnum.strip.digits) := by
  have hblock := h.block_lt
  have htxindex := h.txindex_lt
  have houtnum := h.outnum_lt
  have hb : x.toNat / 2 ^ 40 = block.value := by
    rw [h.toNat_eq]
    omega
  have ht : x.toNat / 2 ^ 16 % 2 ^ 24 = txindex.value := by
    rw [h.toNat_eq]
    omega
  have ho : x.toNat % 2 ^ 16 = outnum.value := by
    rw [h.toNat_eq]
    omega
  rw [toList_formatShortChannelId, hb, ht, ho, Numeral.ofNat_value, Numeral.ofNat_value, Numeral.ofNat_value]

theorem short_channel_id_text :
    (∀ x : UInt64, parseShortChannelId (formatShortChannelId x) = some x) ∧
    ∀ (s : String) (x : UInt64),
      (parseShortChannelId s = some x ↔ ∃ block txindex outnum, SpellsScid s block txindex outnum x) ∧
      ∀ block txindex outnum, SpellsScid s block txindex outnum x →
        (formatShortChannelId x).toList =
          block.strip.digits ++ 'x' :: (txindex.strip.digits ++ 'x' :: outnum.strip.digits) := by
  refine ⟨fun x => parseShortChannelId_eq_some_iff.mpr ⟨_, _, _, spells_format x⟩, fun s x => ⟨?_, ?_⟩⟩
  · exact parseShortChannelId_eq_some_iff
  · intro block txindex outnum h
    exact h.format

example : parseShortChannelId "007x010x1" = some 7696582049793 ∧ formatShortChannelId 7696582049793 = "7x10x1" := by
  decide +kernel

end Canopus
