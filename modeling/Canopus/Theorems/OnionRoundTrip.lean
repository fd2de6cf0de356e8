import Canopus.Theorems.OnionPanics

/-! Peeling undoes building. The builder goes from the last hop to the first and ends the last packet with the keystream
    that the first hop will extend its packet with; every hop then finds its payload, and the first one the packet of
    the second. -/

namespace Canopus.Sphinx
open Buffer (bind_eq_ok)
open Mask

variable {P : Primitives} {build : Build} {data payload rest : Bytes} {s : TlvState}

/-! ### Truncated integers -/

/-- The bytes of a number in a record. -/
def truncatedBytes (x : UInt64) : Bytes :=
  (beBytes 8 x.toNat).drop (((beBytes 8 x.toNat).findIdx? (· != 0)).getD 7)

theorem writeTlvU64_eq (tlvType x : UInt64) :
    writeTlvU64 tlvType x = (TlvRecord.mk tlvType (truncatedBytes x)).encode := by
  simp [writeTlvU64, TlvRecord.encode, truncatedBytes]

theorem beNat_zeros {bs : Bytes} (h : ∀ b ∈ bs, b = 0) : beNat bs = 0 := by
  induction bs with
  | nil => rfl
  | cons b bs ih =>
    rw [beNat_cons, h b (by simp), ih fun x hx => h x (by simp [hx])]
    simp

theorem beNat_drop {bs : Bytes} {n : Nat} (h : ∀ b ∈ bs.take n, b = 0) : beNat (bs.drop n) = beNat bs := by
  have hparts := beNat_append (bs.take n) (bs.drop n)
  rw [List.take_append_drop, beNat_zeros h, Nat.zero_mul, Nat.zero_add] at hparts
  exact hparts.symm

/-- The bytes before the first that is not zero, or all but the last, are zero. -/
theorem leading_zeros (bs : Bytes) : ∀ b ∈ bs.take ((bs.findIdx? (· != 0)).getD (bs.length - 1)), b = 0 := by
  intro b hb
  cases hfind : bs.findIdx? (· != 0) with
  | none =>
    have hzero := List.findIdx?_eq_none_iff.mp hfind b (List.mem_of_mem_take hb)
    simpa using hzero
  | some i =>
    rw [hfind, Option.getD_some] at hb
    obtain ⟨hi, -, hbefore⟩ := List.findIdx?_eq_some_iff_getElem.mp hfind
    obtain ⟨j, hj, rfl⟩ := List.getElem_of_mem hb
    have hji : j < i := by
      rw [List.length_take] at hj
      omega
    have hzero := hbefore j hji
    rw [List.getElem_take]
    simpa using hzero

theorem beNat_truncatedBytes (x : UInt64) : beNat (truncatedBytes x) = x.toNat := by
  have hzeros := leading_zeros (beBytes 8 x.toNat)
  rw [beBytes_length] at hzeros
  rw [truncatedBytes, beNat_drop hzeros, beNat_beBytes x.toNat_lt]

/-- No shorter bytes would do: the first is not zero, unless it is the only one. -/
theorem truncatedBytes_minimal (x : UInt64) : truncatedBytes x ≠ [] ∧ (truncatedBytes x).length ≤ 8 ∧
    (1 < (truncatedBytes x).length → (truncatedBytes x).head? ≠ some 0) := by
  unfold truncatedBytes
  cases hfind : (beBytes 8 x.toNat).findIdx? (· != 0) with
  | none =>
    rw [Option.getD_none]
    have hlength : ((beBytes 8 x.toNat).drop 7).length = 1 := by rw [List.length_drop, beBytes_length]
    refine ⟨?_, by omega, by omega⟩
    rw [← List.length_pos_iff]
    omega
  | some i =>
    obtain ⟨hi, hne, -⟩ := List.findIdx?_eq_some_iff_getElem.mp hfind
    rw [Option.getD_some]
    refine ⟨?_, ?_, fun _ => ?_⟩
    · rw [← List.length_pos_iff, List.length_drop]
      omega
    · rw [List.length_drop, beBytes_length]
      omega
    · rw [List.head?_drop, List.getElem?_eq_getElem hi]
      simpa using hne

/-- A number below `256 ^ n` takes at most `n` bytes, and at least one. -/
theorem truncatedBytes_truncated {x : UInt64} {n : Nat} (hn : 0 < n) (hx : x.toNat < 256 ^ n) :
    Truncated n (truncatedBytes x) := by
  obtain ⟨hne, -, hhead⟩ := truncatedBytes_minimal x
  refine ⟨hne, ?_, hhead⟩
  by_contra hlong
  obtain ⟨b, bs, hbs⟩ := List.exists_cons_of_ne_nil hne
  have hvalue := beNat_truncatedBytes x
  rw [hbs, List.length_cons] at hhead hlong
  rw [hbs, beNat_cons] at hvalue
  have hb : 1 ≤ b.toNat := by
    have hb0 : b ≠ 0 := by simpa using hhead (by omega)
    exact Nat.one_le_iff_ne_zero.mpr fun h => hb0 (UInt8.toNat_inj.mp h)
  have hpow : 256 ^ n ≤ 256 ^ bs.length := Nat.pow_le_pow_right (by decide) (by omega)
  have hprod : 256 ^ bs.length ≤ b.toNat * 256 ^ bs.length := Nat.le_mul_of_pos_left _ hb
  omega

theorem beTu_truncated {value : Bytes} {maxLen : Nat} (hmax : maxLen ≤ 8) (h : Truncated maxLen value) :
    beTu value maxLen = .ok (UInt64.ofNat (beNat value)) := by
  obtain ⟨x, hx⟩ := (beTu_ok_iff hmax).mpr h
  rw [hx]
  unfold beTu at hx
  split_ifs at hx <;> cases hx
  rfl

theorem beTu_truncatedBytes {x : UInt64} {maxLen : Nat} (hpos : 0 < maxLen) (hmax : maxLen ≤ 8)
    (hx : x.toNat < 256 ^ maxLen) : beTu (truncatedBytes x) maxLen = .ok x := by
  rw [beTu_truncated hmax (truncatedBytes_truncated hpos hx), beNat_truncatedBytes, UInt64.ofNat_toNat]

/-! ### Payloads -/

/-- The loop reads a payload record by record. -/
theorem tlvRecords_encode (build : Build) (records : List TlvRecord) (hlen : data.length < 2 ^ 63) {rounds : Nat}
    (hs : s.consumed ≤ data.length) (h : data.drop s.consumed = (records.map TlvRecord.encode).flatten)
    (hsorted : (s.lastType.toList ++ records.map (·.tlvType)).Pairwise (· < ·))
    (hrounds : data.length - s.consumed ≤ rounds) :
    tlvRecords build data rounds s = records.foldlM (fun fields r => tlvField fields r.tlvType r.value) s.fields := by
  induction records generalizing s rounds with
  | nil =>
    have hend : ¬ s.consumed < data.length := by
      have := congrArg List.length h
      simp at this
      omega
    cases rounds <;> rw [tlvRecords, if_neg hend] <;> rfl
  | cons r records ih =>
    rw [List.map_cons, List.flatten_cons, encode_append] at h
    have hlength := congrArg List.length h
    simp only [List.length_drop, List.length_append] at hlength
    have hhead := length_writeBigsize r.tlvType
    have hvalue : r.value.length = (UInt64.ofNat r.value.length).toNat := by
      rw [UInt64.toNat_ofNat', Nat.mod_eq_of_lt (by omega)]
    have hlast : ∀ l ∈ s.lastType, l < r.tlvType := by
      intro l hl
      exact (List.pairwise_append.mp hsorted).2.2 l (by simpa using hl) r.tlvType (by simp)
    have hafter := drop_of_drop (u := writeBigsize r.tlvType ++ writeBigsize (UInt64.ofNat r.value.length) ++ r.value)
      (v := (records.map TlvRecord.encode).flatten) (h.trans (by simp only [List.append_assoc]))
    cases rounds with
    | zero => omega
    | succ rounds =>
      rw [tlvRecords, if_pos (by omega), tlvRecord_taken hlen hs h hlast hvalue, List.foldlM_cons]
      cases tlvField s.fields r.tlvType r.value with
      | error e => rfl
      | ok fields =>
        refine ih (s := ⟨_, some r.tlvType, fields⟩) ?_ hafter ?_ ?_
        · show data.length - _ ≤ data.length
          omega
        · have := (List.pairwise_append.mp hsorted).2.1
          simpa using this
        · show data.length - (data.length - _) ≤ rounds
          omega

/-- The records of a payload. -/
def payloadRecords (amountMsat : UInt64) (cltvExpiry : UInt32) (shortChannelId : Option UInt64)
    (paymentData : Option Bytes) : List TlvRecord :=
  [⟨2, truncatedBytes amountMsat⟩, ⟨4, truncatedBytes cltvExpiry.toUInt64⟩] ++
    (shortChannelId.map fun scid => TlvRecord.mk 6 (beBytes 8 scid.toNat)).toList ++
    (paymentData.map (TlvRecord.mk 8)).toList

theorem amountBytes_eq_ok (amountMsat : UInt64) : ∃ bytes, amountBytes amountMsat = .ok bytes ∧ bytes.length ≤ 8 := by
  unfold amountBytes
  dsimp only
  split_ifs with hzero
  · exact ⟨_, sliceFrom_eq (Nat.le_refl _), by simp⟩
  · cases hfind : (beBytes 8 amountMsat.toNat).findIdx? (· != 0) with
    | none =>
      -- Then the amount is zero.
      have hzeros : ∀ b ∈ beBytes 8 amountMsat.toNat, b = 0 := by
        intro b hb
        simpa using List.findIdx?_eq_none_iff.mp hfind b hb
      have hvalue := beNat_beBytes (n := 8) amountMsat.toNat_lt
      rw [beNat_zeros hzeros] at hvalue
      exact absurd (UInt64.toNat_inj.mp hvalue.symm) hzero
    | some i =>
      obtain ⟨hi, -, -⟩ := List.findIdx?_eq_some_iff_getElem.mp hfind
      exact ⟨_, sliceFrom_eq (Nat.le_of_lt hi), by simp⟩

/-- The payload is its records one after the other, and it is short. -/
theorem buildPayload_eq_ok (amountMsat : UInt64) (cltvExpiry : UInt32) (shortChannelId : Option UInt64)
    (paymentSecret : Option (ByteVec 32)) : ∃ paymentData,
    buildPayload amountMsat cltvExpiry shortChannelId paymentSecret =
      .ok ((payloadRecords amountMsat cltvExpiry shortChannelId paymentData).map TlvRecord.encode).flatten ∧
    ∀ d ∈ paymentData, d.length ≤ 41 := by
  cases paymentSecret with
  | none =>
    refine ⟨none, ?_, by simp⟩
    simp only [buildPayload, writeTlvU64_eq]
    cases shortChannelId <;> simp [payloadRecords, TlvRecord.encode, pure, Except.pure]
  | some secret =>
    obtain ⟨bytes, hbytes, hlength⟩ := amountBytes_eq_ok amountMsat
    refine ⟨some (secret.toList ++ [UInt8.ofNat bytes.length] ++ bytes), ?_, ?_⟩
    · have hdata : (TlvRecord.mk 8 (secret.toList ++ [UInt8.ofNat bytes.length] ++ bytes)).encode =
          writeBigsize 8 ++ writeBigsize (UInt64.ofNat (33 + bytes.length)) ++ secret.toList ++
            [UInt8.ofNat bytes.length] ++ bytes := by
        have hcount : (secret.toList ++ [UInt8.ofNat bytes.length] ++ bytes).length = 33 + bytes.length := by
          simp only [List.length_append, List.Vector.toList_length, List.length_singleton]
        rw [TlvRecord.encode, hcount]
        simp only [List.append_assoc]
      simp only [buildPayload, writeTlvU64_eq, hbytes, bind, Except.bind, ← hdata]
      cases shortChannelId <;> simp [payloadRecords, TlvRecord.encode, pure, Except.pure]
    · intro d hd
      obtain rfl : _ = d := Option.mem_some.mp hd
      simp only [List.length_append, List.Vector.toList_length, List.length_singleton]
      omega

theorem length_encode (r : TlvRecord) : 2 ≤ r.encode.length ∧ r.encode.length ≤ 18 + r.value.length := by
  have h₁ := length_writeBigsize r.tlvType
  have h₂ := length_writeBigsize (UInt64.ofNat r.value.length)
  simp only [TlvRecord.encode, List.length_append]
  omega

section
variable {amountMsat : UInt64} {cltvExpiry : UInt32} {shortChannelId : Option UInt64} {paymentData : Option Bytes}

theorem payload_length (amountMsat : UInt64) (cltvExpiry : UInt32) (shortChannelId : Option UInt64)
    (hdata : ∀ d ∈ paymentData, d.length ≤ 41) :
    2 ≤ ((payloadRecords amountMsat cltvExpiry shortChannelId paymentData).map TlvRecord.encode).flatten.length ∧
    ((payloadRecords amountMsat cltvExpiry shortChannelId paymentData).map TlvRecord.encode).flatten.length ≤ 200 := by
  have hamount := (truncatedBytes_minimal amountMsat).2.1
  have hcltv := (truncatedBytes_minimal cltvExpiry.toUInt64).2.1
  have h₁ := length_encode ⟨2, truncatedBytes amountMsat⟩
  have h₂ := length_encode ⟨4, truncatedBytes cltvExpiry.toUInt64⟩
  have h₃ : ((shortChannelId.map fun scid => TlvRecord.mk 6 (beBytes 8 scid.toNat)).toList.map
      TlvRecord.encode).flatten.length ≤ 26 := by
    cases shortChannelId with
    | none => simp
    | some scid =>
      have := (length_encode ⟨6, beBytes 8 scid.toNat⟩).2
      simpa using this
  have h₄ : ((paymentData.map (TlvRecord.mk 8)).toList.map TlvRecord.encode).flatten.length ≤ 59 := by
    cases paymentData with
    | none => simp
    | some d =>
      have hencode := (length_encode ⟨8, d⟩).2
      have hd := hdata d rfl
      dsimp only at hencode
      simp
      omega
  simp only [payloadRecords, List.map_append, List.flatten_append, List.length_append, List.map_cons, List.map_nil,
    List.flatten_cons, List.flatten_nil, List.length_nil]
  dsimp only at h₁ h₂
  omega

/-- The parser reads a payload back. -/
theorem parseTlvPayload_encode (build : Build) (amountMsat : UInt64) (cltvExpiry : UInt32)
    (shortChannelId : Option UInt64) (isFinal : Bool) (hdata : ∀ d ∈ paymentData, d.length ≤ 41)
    (hfinal : isFinal = true ∨ shortChannelId.isSome) :
    parseTlvPayload build
      ((payloadRecords amountMsat cltvExpiry shortChannelId paymentData).map TlvRecord.encode).flatten isFinal =
      .ok ⟨shortChannelId, some amountMsat, some cltvExpiry⟩ := by
  have hlength := (payload_length amountMsat cltvExpiry shortChannelId hdata).2
  have hcltv : beTu (truncatedBytes cltvExpiry.toUInt64) 4 = .ok cltvExpiry.toUInt64 := by
    refine beTu_truncatedBytes (by decide) (by decide) ?_
    rw [UInt32.toNat_toUInt64]
    exact cltvExpiry.toNat_lt
  have hamount : beTu (truncatedBytes amountMsat) 8 = .ok amountMsat :=
    beTu_truncatedBytes (by decide) (by decide) amountMsat.toNat_lt
  have hscid : ∀ x : UInt64, UInt64.ofNat (beNat (beBytes 8 x.toNat)) = x := by
    intro x
    rw [beNat_beBytes x.toNat_lt, UInt64.ofNat_toNat]
  generalize hpayload : ((payloadRecords amountMsat cltvExpiry shortChannelId paymentData).map
    TlvRecord.encode).flatten = payload at hlength ⊢
  have hrecords : tlvRecords build payload payload.length ⟨0, none, ⟨none, none, none⟩⟩ =
      .ok ⟨shortChannelId, some amountMsat, some cltvExpiry⟩ := by
    refine (tlvRecords_encode build (payloadRecords amountMsat cltvExpiry shortChannelId paymentData)
      (s := ⟨0, none, ⟨none, none, none⟩⟩) (by omega) (Nat.zero_le _) hpayload.symm
      ?_ (Nat.sub_le _ _)).trans ?_
    · cases shortChannelId <;> cases paymentData <;> simp [payloadRecords]
    · cases shortChannelId <;> cases paymentData <;>
        simp [payloadRecords, tlvField, hamount, hcltv, hscid, bind, Except.bind, pure, Except.pure]
  rw [parseTlvPayload, hrecords]
  rcases hfinal with rfl | hsome
  · rfl
  · obtain ⟨scid, rfl⟩ := Option.isSome_iff_exists.mp hsome
    cases isFinal <;> rfl

end

/-! ### Routing info -/

/-- What is assumed of the primitives: a secret key is a scalar and its public key parses, the exchange of keys is
    symmetric and commutes with blinding, and a keystream starts with the shorter ones of the same key. -/
structure Primitives.Lawful (P : Primitives) : Prop where
  scalar : ∀ k, P.isSecretKey k = true → P.isScalar k = true
  parses : ∀ k, P.isSecretKey k = true → P.isPublicKey (P.publicKey k) = true
  symmetric : ∀ a b, P.isSecretKey a = true → P.isSecretKey b = true →
    P.mulPublicKey (P.publicKey a) b = P.mulPublicKey (P.publicKey b) a
  blinds : ∀ a b c, P.isSecretKey a = true → P.mulSecretKey a b = some c →
    P.isSecretKey c = true ∧ P.mulPublicKey (P.publicKey a) b = some (P.publicKey c)
  stream : ∀ key m n, m ≤ n → (chacha20Stream P key n).take m = chacha20Stream P key m

/-- A payload in routing info, behind its length and before the HMAC of the next packet. -/
def hopData (payload mac : Bytes) : Bytes := writeBigsize (UInt64.ofNat payload.length) ++ (payload ++ mac)

section
variable {secret mac : ByteVec 32} {area filler tail associatedData : Bytes}

theorem length_chacha20Stream (key : ByteVec 32) (n : Nat) : (chacha20Stream P key n).length = n :=
  List.Vector.toList_length _

theorem length_hopData (payload : Bytes) (mac : ByteVec 32) :
    (hopData payload mac.toList).length = encodedHopDataLen payload.length := by
  rw [hopData, encodedHopDataLen, bigsizeLen_eq, List.length_append, List.length_append, List.Vector.toList_length,
    Nat.add_assoc]

theorem encodedHopDataLen_le (h : payload.length ≤ 200) : encodedHopDataLen payload.length ≤ 241 := by
  have := length_writeBigsize (UInt64.ofNat payload.length)
  rw [encodedHopDataLen, bigsizeLen_eq]
  omega

/-- The routing info that a hop without a filler gets. -/
def hopArea (P : Primitives) (secret : ByteVec 32) (payload : Bytes) (mac : ByteVec 32) (area : Bytes) : Bytes :=
  xorInPlace (hopData payload mac.toList ++ area.take (onionRoutingInfoSize - encodedHopDataLen payload.length))
    (chacha20Stream P (deriveKeys P secret).1 onionRoutingInfoSize)

theorem length_hopArea (h : payload.length ≤ 200) (harea : area.length = onionRoutingInfoSize) :
    (hopArea P secret payload mac area).length = onionRoutingInfoSize := by
  have := encodedHopDataLen_le h
  unfold onionRoutingInfoSize at harea
  rw [hopArea, xorInPlace, length_mask, List.length_append, length_hopData, List.length_take, harea]
  unfold onionRoutingInfoSize
  omega

theorem wrapHop_eq_ok (h : payload.length ≤ 200) (harea : area.length = onionRoutingInfoSize) :
    wrapHop P associatedData none payload secret area mac =
      .ok (hopArea P secret payload mac area,
        packetHmac P secret (hopArea P secret payload mac area) associatedData) := by
  have hlen := encodedHopDataLen_le h
  have hdata : writeBigsize (UInt64.ofNat payload.length) ++ payload ++ mac.toList = hopData payload mac.toList :=
    List.append_assoc _ _ _
  unfold wrapHop
  simp only [hdata, length_hopData]
  rw [if_neg (by unfold onionRoutingInfoSize; omega), slice_eq (Nat.zero_le _) (by rw [harea]; omega)]
  rfl

/-- The last of two hops gets the filler at the end of its routing info. -/
theorem wrapHop_filler_eq_ok (h : payload.length ≤ 200) (harea : area.length = onionRoutingInfoSize)
    (hfiller : filler.length ≤ 241) :
    wrapHop P associatedData (some filler) payload secret area mac =
      .ok ((hopArea P secret payload mac area).take (onionRoutingInfoSize - filler.length) ++ filler,
        packetHmac P secret ((hopArea P secret payload mac area).take (onionRoutingInfoSize - filler.length) ++ filler)
          associatedData) := by
  have hlen := encodedHopDataLen_le h
  have hdata : writeBigsize (UInt64.ofNat payload.length) ++ payload ++ mac.toList = hopData payload mac.toList :=
    List.append_assoc _ _ _
  have hslice : slice (hopArea P secret payload mac area) 0 (onionRoutingInfoSize - filler.length) =
      .ok ((hopArea P secret payload mac area).take (onionRoutingInfoSize - filler.length)) :=
    slice_eq (Nat.zero_le _) (by rw [length_hopArea h harea]; omega)
  unfold wrapHop
  simp only [hdata, length_hopData]
  rw [if_neg (by unfold onionRoutingInfoSize; omega), slice_eq (Nat.zero_le _) (by rw [harea]; omega)]
  simp only [bind, Except.bind, List.drop_zero, Nat.sub_zero]
  rw [if_neg (by unfold onionRoutingInfoSize; omega), ← hopArea, hslice]
  rfl

/-! ### Decrypting -/

/-- The hop takes the keystream off its routing info, and its extension is keystream. -/
theorem decrypted_hopArea (L : P.Lawful) (h : payload.length ≤ 200) (harea : area.length = onionRoutingInfoSize) :
    decrypted P secret (hopArea P secret payload mac area) = hopData payload mac.toList ++
      (area.take (onionRoutingInfoSize - encodedHopDataLen payload.length) ++
        (chacha20Stream P (deriveKeys P secret).1 (onionRoutingInfoSize * 2)).drop onionRoutingInfoSize) := by
  have hlength : (hopArea P secret payload mac area).length = onionRoutingInfoSize := length_hopArea h harea
  have hstream := L.stream (deriveKeys P secret).1 onionRoutingInfoSize (onionRoutingInfoSize * 2) (by decide)
  have htail : ((chacha20Stream P (deriveKeys P secret).1 (onionRoutingInfoSize * 2)).drop onionRoutingInfoSize).length =
      onionRoutingInfoSize := by
    rw [List.length_drop, length_chacha20Stream]
    rfl
  rw [decrypted, xorInPlace, mask_append, hlength, hstream, ← List.append_assoc]
  congr 1
  · exact mask_mask xor_xor
  · have hzeros := mask_replicate (z := (0 : UInt8)) (f := (· ^^^ ·))
      ((chacha20Stream P (deriveKeys P secret).1 (onionRoutingInfoSize * 2)).drop onionRoutingInfoSize)
      (fun k => UInt8.zero_xor)
    rwa [htail] at hzeros

/-- A change behind the payload does not reach it. -/
theorem decrypted_front (secret mac : ByteVec 32) (L : P.Lawful) (h : payload.length ≤ 200) (harea : area.length = onionRoutingInfoSize)
    (hfiller : filler.length ≤ 241) : ∃ tail, onionRoutingInfoSize ≤ tail.length ∧
    decrypted P secret ((hopArea P secret payload mac area).take (onionRoutingInfoSize - filler.length) ++ filler) =
      hopData payload mac.toList ++ tail := by
  have hlen := encodedHopDataLen_le h
  have hlength : (hopArea P secret payload mac area).length = onionRoutingInfoSize := length_hopArea h harea
  have hchanged : ((hopArea P secret payload mac area).take (onionRoutingInfoSize - filler.length) ++ filler).length =
      onionRoutingInfoSize := by
    rw [List.length_append, List.length_take, hlength]
    unfold onionRoutingInfoSize
    omega
  have hwhole : decrypted P secret (hopArea P secret payload mac area) = _ := decrypted_hopArea L h harea
  -- Both are masked by the same keystream, and agree before the filler.
  have hfront : (decrypted P secret ((hopArea P secret payload mac area).take (onionRoutingInfoSize - filler.length) ++
      filler)).take (encodedHopDataLen payload.length) = hopData payload mac.toList := by
    have htake := congrArg (List.take (encodedHopDataLen payload.length)) hwhole
    rw [List.take_left' (length_hopData payload mac)] at htake
    rw [← htake, decrypted, decrypted, xorInPlace, xorInPlace, take_mask, take_mask]
    congr 1
    rw [List.append_assoc, List.take_append_of_le_length, List.take_append_of_le_length, List.take_take, Nat.min_eq_left]
    · unfold onionRoutingInfoSize
      omega
    · rw [hlength]
      unfold onionRoutingInfoSize
      omega
    · rw [List.length_take, hlength]
      unfold onionRoutingInfoSize
      omega
  have hinfo := length_decrypted (P := P) secret hchanged
  refine ⟨(decrypted P secret ((hopArea P secret payload mac area).take (onionRoutingInfoSize - filler.length) ++
    filler)).drop (encodedHopDataLen payload.length), ?_, ?_⟩
  · rw [List.length_drop, hinfo]
    unfold onionRoutingInfoSize
    omega
  · rw [← hfront, List.take_append_drop]

/-! ### A hop -/

theorem splitHop_hopData (h : payload.length ≤ 200) (hmin : 2 ≤ payload.length)
    (htail : onionRoutingInfoSize ≤ tail.length) (hlong : tail.length ≤ onionRoutingInfoSize * 2) :
    splitHop (hopData payload mac.toList ++ tail) = .ok ⟨payload, mac.toList, tail⟩ := by
  have hlen : (UInt64.ofNat payload.length).toNat = payload.length := by
    rw [UInt64.toNat_ofNat', Nat.mod_eq_of_lt (by omega)]
  have hsize := encodedHopDataLen_le h
  have hinfo : (hopData payload mac.toList ++ tail).length < 2 ^ 63 := by
    rw [List.length_append, length_hopData]
    unfold onionRoutingInfoSize at hlong
    omega
  refine ((splitHop_cases hinfo).2 ⟨payload, mac.toList, tail⟩).mpr ⟨UInt64.ofNat payload.length, ?_, hlen.symm, ?_, ?_, htail⟩
  · simp only [hopData, List.append_assoc]
  · rw [UInt64.le_iff_toNat_le, hlen]
    exact hmin
  · exact mac.toList_length

/-- What peeling returns, part by part. -/
theorem peelOnion_of_parts {key : SecretKey} {onion next : Bytes} {u : Unwrapped} (parts : HopParts)
    (shortChannelId : Option UInt64) {amountMsat : UInt64} {cltvExpiry : UInt32}
    (hu : unwrap P build key onion associatedData = .ok u) (hparts : splitHop u.unwrapped = .ok parts)
    (hfields : parseTlvPayload build parts.payload (parts.nextHmac.all (· == 0)) =
      .ok ⟨shortChannelId, some amountMsat, some cltvExpiry⟩)
    (hnext : (if parts.nextHmac.all (· == 0) then pure [] else nextPacket P u parts) = .ok next) :
    peelOnion P build key onion associatedData =
      .ok ⟨shortChannelId.getD 0, amountMsat, cltvExpiry, next, u.sharedSecret⟩ := by
  unfold peelOnion
  simp only [bind, Except.bind, hu, hparts, hfields]
  split_ifs at hnext ⊢ with hfinal
  · cases hnext
    rfl
  · rw [hnext]
    rfl

theorem all_zero_iff {mac : ByteVec 32} : (mac.toList.all (· == 0)) = true ↔ mac = ByteVec.fill 32 0 := by
  constructor
  · intro h
    refine List.Vector.toList_injective ?_
    refine List.eq_replicate_iff.mpr ⟨mac.toList_length, ?_⟩
    intro b hb
    simpa using List.all_eq_true.mp h b hb
  · rintro rfl
    decide

end

/-! ### A route -/

section
variable {key session firstKey nextKey : SecretKey} {secrets : List (ByteVec 32)} {amountMsat shortChannelId : UInt64}
  {cltvExpiry : UInt32} {paymentSecret : Option (ByteVec 32)} {paymentHash : Hash}

/-- A packet for a key is authentic for its owner. -/
theorem unwrap_eq_ok (L : P.Lawful) (hkey : P.isSecretKey key = true) (hsession : P.isSecretKey session = true)
    {secret : ByteVec 32} {area associatedData : Bytes} (hsecret : ecdh P session (P.publicKey key) = .ok secret)
    (harea : area.length = onionRoutingInfoSize) (had : associatedData.length < 2 ^ 63) (build : Build) :
    unwrap P build key
      (0 :: ((P.publicKey session).toList ++ area ++ (packetHmac P secret area associatedData).toList)) associatedData =
      .ok ⟨0, P.publicKey session, secret, decrypted P secret area⟩ := by
  refine ((unwrap_cases build key _ had).2 _).mpr
    ⟨P.publicKey session, secret, area, rfl, harea, L.parses session hsession, ?_, rfl⟩
  unfold ecdh at hsecret ⊢
  rw [if_pos (L.scalar session hsession), L.symmetric key session hkey hsession] at hsecret
  rw [if_pos (L.scalar key hkey)]
  exact hsecret

/-- The first shared secret of a route, and the session key with which the others are made. -/
theorem sharedSecrets_cons {pubkey : PublicKey} {hops : List PublicKey}
    (h : sharedSecrets P session (pubkey :: hops) = .ok secrets) :
    ∃ secret next rest, secrets = secret :: rest ∧ ecdh P session pubkey = .ok secret ∧
      P.isScalar (blindingFactor P (P.publicKey session) secret) = true ∧
      P.mulSecretKey session (blindingFactor P (P.publicKey session) secret) = some next ∧
      sharedSecrets P next hops = .ok rest := by
  obtain ⟨secret, hsecret, h⟩ := bind_eq_ok.mp h
  dsimp only at h
  split_ifs at h with hscalar
  · cases hnext : P.mulSecretKey session (blindingFactor P (P.publicKey session) secret) with
    | none =>
      rw [hnext] at h
      cases h
    | some next =>
      rw [hnext] at h
      obtain ⟨rest, hrest, h⟩ := bind_eq_ok.mp h
      cases h
      exact ⟨secret, next, rest, rfl, hsecret, hscalar, hnext, hrest⟩
  · cases h

theorem length_zeros : (List.replicate onionRoutingInfoSize (0 : UInt8)).length = onionRoutingInfoSize :=
  List.length_replicate

/-- The packet for a route of one hop. -/
theorem createPaymentOnion_single {payload : Bytes} (associatedData : Bytes) (h : payload.length ≤ 200)
    (hsecrets : sharedSecrets P session [P.publicKey key] = .ok secrets) : ∃ secret area,
    ecdh P session (P.publicKey key) = .ok secret ∧
    area = hopArea P secret payload (ByteVec.fill 32 0) (List.replicate onionRoutingInfoSize 0) ∧
    createPaymentOnion P session [(P.publicKey key, payload)] associatedData =
      .ok (0 :: ((P.publicKey session).toList ++ area ++ (packetHmac P secret area associatedData).toList)) := by
  obtain ⟨secret, next, rest, rfl, hsecret, -, -, hrest⟩ := sharedSecrets_cons hsecrets
  cases hrest
  refine ⟨secret, _, hsecret, rfl, ?_⟩
  unfold createPaymentOnion
  rw [if_neg (by simp), if_neg (by simp)]
  simp only [List.map_cons, List.map_nil, bind, Except.bind, hsecrets, finalFiller, pure, Except.pure, List.zip_cons_cons,
    List.zip_nil_right, wrapHops, List.isEmpty_nil, if_true, wrapHop_eq_ok h length_zeros]

/-- A hop finds the payload of a packet that ends with it. -/
theorem peelOnion_final (L : P.Lawful) (hkey : P.isSecretKey key = true) (hsession : P.isSecretKey session = true)
    {secret : ByteVec 32} {area associatedData payload tail : Bytes}
    (hsecret : ecdh P session (P.publicKey key) = .ok secret) (harea : area.length = onionRoutingInfoSize)
    (had : associatedData.length < 2 ^ 63) (build : Build) (h : payload.length ≤ 200) (hmin : 2 ≤ payload.length)
    (htail : onionRoutingInfoSize ≤ tail.length)
    (hinfo : decrypted P secret area = hopData payload (ByteVec.fill 32 0).toList ++ tail)
    (hfields : parseTlvPayload build payload true = .ok ⟨none, some amountMsat, some cltvExpiry⟩) :
    peelOnion P build key
      (0 :: ((P.publicKey session).toList ++ area ++ (packetHmac P secret area associatedData).toList)) associatedData =
      .ok ⟨0, amountMsat, cltvExpiry, [], secret⟩ := by
  have hlong : tail.length ≤ onionRoutingInfoSize * 2 := by
    have hlength := congrArg List.length hinfo
    rw [length_decrypted secret harea, List.length_append] at hlength
    omega
  have hzero : (ByteVec.fill 32 0).toList.all (· == 0) = true := all_zero_iff.mpr rfl
  refine peelOnion_of_parts ⟨payload, (ByteVec.fill 32 0).toList, tail⟩ none
    (unwrap_eq_ok L hkey hsession hsecret harea had build) ?_ ?_ ?_
  · rw [hinfo]
    exact splitHop_hopData h hmin htail hlong
  · dsimp only
    rw [hzero]
    exact hfields
  · rw [if_pos hzero]
    rfl

theorem length_hash_lt (hash : Hash) : hash.toList.length < 2 ^ 63 := by
  rw [List.Vector.toList_length]
  decide

/-- The recipient of a single-hop onion finds what it was built with. -/
theorem peel_single (L : P.Lawful) (hkey : P.isSecretKey key = true) (hsession : P.isSecretKey session = true)
    (hsecrets : sharedSecrets P session [P.publicKey key] = .ok secrets) (build : Build) (amountMsat : UInt64)
    (cltvExpiry : UInt32) (paymentSecret : Option (ByteVec 32)) (paymentHash : Hash) : ∃ onion peeled,
    createSingleHopOnion P session (P.publicKey key) amountMsat cltvExpiry paymentSecret paymentHash = .ok onion ∧
    peelOnion P build key onion paymentHash.toList = .ok peeled ∧ peeled.shortChannelId = 0 ∧
    peeled.amtToForward = amountMsat ∧ peeled.outgoingCltvValue = cltvExpiry ∧ peeled.nextOnion = [] := by
  obtain ⟨paymentData, hbuild, hdata⟩ := buildPayload_eq_ok amountMsat cltvExpiry none paymentSecret
  have hlength := payload_length amountMsat cltvExpiry none hdata
  obtain ⟨secret, area, hsecret, harea, hcreate⟩ := createPaymentOnion_single paymentHash.toList
    hlength.2 hsecrets
  rw [harea] at hcreate
  refine ⟨_, _, ?_, peelOnion_final L hkey hsession hsecret (length_hopArea hlength.2 length_zeros)
    (length_hash_lt paymentHash) build hlength.2 hlength.1 ?_ (decrypted_hopArea L hlength.2 length_zeros)
    (parseTlvPayload_encode build _ _ _ _ hdata (Or.inl rfl)), rfl, rfl, rfl, rfl⟩
  · unfold createSingleHopOnion createOnion
    rw [if_neg (by simp), hbuild]
    exact hcreate
  · rw [List.length_append, List.length_drop, length_chacha20Stream]
    omega

/-- The packet for the second hop of a relay onion, with its HMAC. -/
def relayInner (P : Primitives) (session : SecretKey) (recipientPubkey nextPubkey : PublicKey)
    (shortChannelId amountMsat : UInt64) (cltvExpiry : UInt32) (paymentHash : Hash) : Result (Bytes × ByteVec 32) := do
  let relayPayload ← buildPayload amountMsat cltvExpiry (some shortChannelId) none
  let finalPayload ← buildPayload amountMsat cltvExpiry none none
  let secrets ← sharedSecrets P session [recipientPubkey, nextPubkey]
  let filler ← finalFiller P [relayPayload, finalPayload] secrets
  wrapHops P paymentHash.toList filler ([finalPayload].zip secrets.tail)

/-- What the first of two hops extends its packet with is what the second packet ends with. -/
theorem finalFiller_eq_ok {relayPayload : Bytes} (finalPayload : Bytes) (secret nextSecret : ByteVec 32)
    (h : relayPayload.length ≤ 200) : ∃ filler, finalFiller P [relayPayload, finalPayload] [secret, nextSecret] =
      .ok (some filler) ∧ filler.length = encodedHopDataLen relayPayload.length ∧
    filler = ((chacha20Stream P (deriveKeys P secret).1 (onionRoutingInfoSize * 2)).drop onionRoutingInfoSize).take
      (encodedHopDataLen relayPayload.length) := by
  have hlen := encodedHopDataLen_le h
  refine ⟨_, ?_, ?_, rfl⟩
  · unfold finalFiller
    simp only [bind, Except.bind]
    rw [slice_eq (by omega) (by rw [length_chacha20Stream]; unfold onionRoutingInfoSize; omega), Nat.add_sub_cancel_left]
    rfl
  · rw [List.length_take, List.length_drop, length_chacha20Stream]
    unfold onionRoutingInfoSize
    omega

/-- The first hop forwards the packet that was built for the second. -/
theorem forwarded_eq {kept filler stream : Bytes} {n : Nat} (hn : n ≤ onionRoutingInfoSize)
    (hkept : kept.length = onionRoutingInfoSize - n) (hfiller : filler = stream.take n) :
    ((kept ++ filler).take (onionRoutingInfoSize - n) ++ stream).take onionRoutingInfoSize = kept ++ filler := by
  have hrest : onionRoutingInfoSize - (onionRoutingInfoSize - n) = n := by omega
  rw [List.take_left' hkept, List.take_append, hkept, hrest, ← hfiller, List.take_of_length_le]
  rw [hkept]
  exact Nat.sub_le _ _

/-- The packet of the second hop ends with the filler, and is what the first hop forwards. -/
theorem relay_inner (L : P.Lawful) {relayPayload finalPayload : Bytes} (secret nextSecret : ByteVec 32)
    (associatedData : Bytes) (hrelay : relayPayload.length ≤ 200) (hfinal : finalPayload.length ≤ 200) :
    ∃ filler area tail, finalFiller P [relayPayload, finalPayload] [secret, nextSecret] = .ok (some filler) ∧
      wrapHops P associatedData (some filler) [(finalPayload, nextSecret)] =
        .ok (area, packetHmac P nextSecret area associatedData) ∧ area.length = onionRoutingInfoSize ∧
      decrypted P nextSecret area = hopData finalPayload (ByteVec.fill 32 0).toList ++ tail ∧
      onionRoutingInfoSize ≤ tail.length ∧
      (area.take (onionRoutingInfoSize - encodedHopDataLen relayPayload.length) ++
        (chacha20Stream P (deriveKeys P secret).1 (onionRoutingInfoSize * 2)).drop onionRoutingInfoSize).take
          onionRoutingInfoSize = area := by
  have hshift := encodedHopDataLen_le hrelay
  obtain ⟨filler, hfiller, hlength, hstream⟩ := finalFiller_eq_ok (P := P) finalPayload secret nextSecret hrelay
  have hshort : filler.length ≤ 241 := hlength.trans_le hshift
  have hwrap : wrapHop P associatedData (some filler) finalPayload nextSecret (List.replicate onionRoutingInfoSize 0)
      (ByteVec.fill 32 0) = _ := wrapHop_filler_eq_ok hfinal length_zeros hshort
  obtain ⟨tail, htail, hinfo⟩ := decrypted_front nextSecret (ByteVec.fill 32 0) L hfinal length_zeros hshort
  have hkept : ((hopArea P nextSecret finalPayload (ByteVec.fill 32 0) (List.replicate onionRoutingInfoSize 0)).take
      (onionRoutingInfoSize - filler.length)).length = onionRoutingInfoSize - encodedHopDataLen relayPayload.length := by
    rw [List.length_take, length_hopArea hfinal length_zeros, hlength]
    omega
  refine ⟨filler, _, tail, hfiller, hwrap, ?_, hinfo, htail, ?_⟩
  · rw [List.length_append, hkept, hlength]
    unfold onionRoutingInfoSize
    omega
  · exact forwarded_eq (by unfold onionRoutingInfoSize; omega) hkept hstream

/-- A hop that is not the last finds its payload and forwards the packet of the next. -/
theorem peelOnion_forward (L : P.Lawful) (hkey : P.isSecretKey key = true) (hsession : P.isSecretKey session = true)
    {nextSession : SecretKey} {secret mac : ByteVec 32} {payload area associatedData : Bytes} (build : Build)
    (hsecret : ecdh P session (P.publicKey key) = .ok secret) (had : associatedData.length < 2 ^ 63)
    (hscalar : P.isScalar (blindingFactor P (P.publicKey session) secret) = true)
    (hblind : P.mulSecretKey session (blindingFactor P (P.publicKey session) secret) = some nextSession)
    (h : payload.length ≤ 200) (hmin : 2 ≤ payload.length) (harea : area.length = onionRoutingInfoSize)
    (hmac : mac ≠ ByteVec.fill 32 0)
    (hforward : (area.take (onionRoutingInfoSize - encodedHopDataLen payload.length) ++
      (chacha20Stream P (deriveKeys P secret).1 (onionRoutingInfoSize * 2)).drop onionRoutingInfoSize).take
        onionRoutingInfoSize = area)
    (hfields : parseTlvPayload build payload false = .ok ⟨some shortChannelId, some amountMsat, some cltvExpiry⟩) :
    peelOnion P build key (0 :: ((P.publicKey session).toList ++ hopArea P secret payload mac area ++
      (packetHmac P secret (hopArea P secret payload mac area) associatedData).toList)) associatedData =
      .ok ⟨shortChannelId, amountMsat, cltvExpiry, 0 :: ((P.publicKey nextSession).toList ++ area ++ mac.toList), secret⟩ := by
  have hinfo : decrypted P secret (hopArea P secret payload mac area) = _ := decrypted_hopArea L h harea
  have htail : onionRoutingInfoSize ≤ (area.take (onionRoutingInfoSize - encodedHopDataLen payload.length) ++
      (chacha20Stream P (deriveKeys P secret).1 (onionRoutingInfoSize * 2)).drop onionRoutingInfoSize).length ∧
      (area.take (onionRoutingInfoSize - encodedHopDataLen payload.length) ++
        (chacha20Stream P (deriveKeys P secret).1 (onionRoutingInfoSize * 2)).drop onionRoutingInfoSize).length ≤
        onionRoutingInfoSize * 2 := by
    rw [List.length_append, List.length_take, List.length_drop, length_chacha20Stream, harea]
    omega
  generalize area.take (onionRoutingInfoSize - encodedHopDataLen payload.length) ++
    (chacha20Stream P (deriveKeys P secret).1 (onionRoutingInfoSize * 2)).drop onionRoutingInfoSize = tail
    at hinfo htail hforward
  have hopen : ¬ mac.toList.all (· == 0) = true := fun hzero => hmac (all_zero_iff.mp hzero)
  refine peelOnion_of_parts ⟨payload, mac.toList, tail⟩ (some shortChannelId)
    (unwrap_eq_ok L hkey hsession hsecret (length_hopArea h harea) had build) ?_ ?_ ?_
  · rw [hinfo]
    exact splitHop_hopData h hmin htail.1 htail.2
  · rw [Bool.not_eq_true] at hopen
    dsimp only
    rw [hopen]
    exact hfields
  · have hslice : slice tail 0 onionRoutingInfoSize = .ok area := by
      rw [slice_eq (Nat.zero_le _) htail.1, List.drop_zero, Nat.sub_zero, hforward]
    have hblinded : blindPubkey P (P.publicKey session) (blindingFactor P (P.publicKey session) secret) =
        .ok (P.publicKey nextSession) := by
      unfold blindPubkey
      rw [if_pos hscalar, (L.blinds session _ nextSession hsession hblind).2]
    rw [if_neg hopen]
    unfold nextPacket
    simp only [bind, Except.bind, hblinded, hslice]
    rfl

/-- The first hop of a relay onion finds the given channel and the packet of the second, which finds the payment. -/
theorem peel_relay (L : P.Lawful) (hfirst : P.isSecretKey firstKey = true) (hnext : P.isSecretKey nextKey = true)
    (hsession : P.isSecretKey session = true)
    (hsecrets : sharedSecrets P session [P.publicKey firstKey, P.publicKey nextKey] = .ok secrets) (build : Build)
    (shortChannelId amountMsat : UInt64) (cltvExpiry : UInt32) (paymentHash : Hash)
    (hinner : ∀ area mac, relayInner P session (P.publicKey firstKey) (P.publicKey nextKey) shortChannelId amountMsat
      cltvExpiry paymentHash = .ok (area, mac) → mac ≠ ByteVec.fill 32 0) : ∃ onion first last,
    createRelayOnion P session (P.publicKey firstKey) (P.publicKey nextKey) shortChannelId amountMsat cltvExpiry
      paymentHash = .ok onion ∧
    peelOnion P build firstKey onion paymentHash.toList = .ok first ∧ first.shortChannelId = shortChannelId ∧
    first.amtToForward = amountMsat ∧ first.outgoingCltvValue = cltvExpiry ∧ first.nextOnion.length = 1366 ∧
    peelOnion P build nextKey first.nextOnion paymentHash.toList = .ok last ∧ last.shortChannelId = 0 ∧
    last.amtToForward = amountMsat ∧ last.outgoingCltvValue = cltvExpiry ∧ last.nextOnion = [] := by
  obtain ⟨relayData, hrelay, hrelayData⟩ := buildPayload_eq_ok amountMsat cltvExpiry (some shortChannelId) none
  obtain ⟨finalData, hfinal, hfinalData⟩ := buildPayload_eq_ok amountMsat cltvExpiry none none
  have hrelayLength := payload_length amountMsat cltvExpiry (some shortChannelId) hrelayData
  have hfinalLength := payload_length amountMsat cltvExpiry none hfinalData
  have hrelayFields := parseTlvPayload_encode build amountMsat cltvExpiry (some shortChannelId) false hrelayData (Or.inr rfl)
  have hfinalFields := parseTlvPayload_encode build amountMsat cltvExpiry none true hfinalData (Or.inl rfl)
  generalize ((payloadRecords amountMsat cltvExpiry (some shortChannelId) relayData).map TlvRecord.encode).flatten =
    relayPayload at hrelay hrelayLength hrelayFields
  generalize ((payloadRecords amountMsat cltvExpiry none finalData).map TlvRecord.encode).flatten =
    finalPayload at hfinal hfinalLength hfinalFields
  obtain ⟨secret, nextSession, rest, rfl, hsecret, hscalar, hblind, hrest⟩ := sharedSecrets_cons hsecrets
  obtain ⟨nextSecret, _, _, rfl, hnextSecret, -, -, hnil⟩ := sharedSecrets_cons hrest
  cases hnil
  obtain ⟨filler, area, tail, hfiller, hwrap, harea, hinfo, htail, hforward⟩ := relay_inner L secret nextSecret
    paymentHash.toList hrelayLength.2 hfinalLength.2
  have hmac := hinner area _ (by
    unfold relayInner
    simp only [hrelay, hfinal, hsecrets, hfiller, bind, Except.bind, List.tail_cons, List.zip_cons_cons, List.zip_nil_right]
    exact hwrap)
  have hcreate : createRelayOnion P session (P.publicKey firstKey) (P.publicKey nextKey) shortChannelId amountMsat
      cltvExpiry paymentHash = .ok (0 :: ((P.publicKey session).toList ++
        hopArea P secret relayPayload (packetHmac P nextSecret area paymentHash.toList) area ++
        (packetHmac P secret (hopArea P secret relayPayload (packetHmac P nextSecret area paymentHash.toList) area)
          paymentHash.toList).toList)) := by
    have hhops : wrapHops P paymentHash.toList (some filler) [(relayPayload, secret), (finalPayload, nextSecret)] =
        .ok (hopArea P secret relayPayload (packetHmac P nextSecret area paymentHash.toList) area,
          packetHmac P secret (hopArea P secret relayPayload (packetHmac P nextSecret area paymentHash.toList) area)
            paymentHash.toList) := by
      rw [wrapHops, hwrap]
      exact wrapHop_eq_ok hrelayLength.2 harea
    unfold createRelayOnion createPaymentOnion
    simp only [hrelay, hfinal, bind, Except.bind, List.map_cons, List.map_nil, hsecrets, hfiller, List.zip_cons_cons,
      List.zip_nil_right, List.isEmpty_cons, Bool.false_eq_true, if_false, List.length_cons, List.length_nil]
    rw [if_neg (by decide), hhops]
    rfl
  have had := length_hash_lt paymentHash
  have hfirstPeel := peelOnion_forward L hfirst hsession build hsecret had hscalar hblind hrelayLength.2 hrelayLength.1
    harea hmac hforward hrelayFields
  have hlastPeel := peelOnion_final L hnext (L.blinds session _ nextSession hsession hblind).1 hnextSecret harea had build
    hfinalLength.2 hfinalLength.1 htail hinfo hfinalFields
  refine ⟨_, _, _, hcreate, hfirstPeel, rfl, rfl, rfl, ?_, hlastPeel, rfl, rfl, rfl, rfl⟩
  simp only [List.length_cons, List.length_append, List.Vector.toList_length, harea]
  rfl

end

/-- Peeling undoes the building of onions: of those for one hop, and of those for two where the HMAC of the second
    packet is not all zero. The scalar operations of the builder are taken to succeed. -/
theorem peel_created (P : Primitives) (L : P.Lawful) (build : Build) :
    (∀ key session secrets, P.isSecretKey key = true → P.isSecretKey session = true →
      sharedSecrets P session [P.publicKey key] = .ok secrets →
      ∀ amountMsat cltvExpiry paymentSecret paymentHash, ∃ onion peeled,
        createSingleHopOnion P session (P.publicKey key) amountMsat cltvExpiry paymentSecret paymentHash = .ok onion ∧
        peelOnion P build key onion paymentHash.toList = .ok peeled ∧ peeled.shortChannelId = 0 ∧
        peeled.amtToForward = amountMsat ∧ peeled.outgoingCltvValue = cltvExpiry ∧ peeled.nextOnion = []) ∧
    (∀ firstKey nextKey session secrets, P.isSecretKey firstKey = true → P.isSecretKey nextKey = true →
      P.isSecretKey session = true →
      sharedSecrets P session [P.publicKey firstKey, P.publicKey nextKey] = .ok secrets →
      ∀ shortChannelId amountMsat cltvExpiry paymentHash,
        (∀ area mac, relayInner P session (P.publicKey firstKey) (P.publicKey nextKey) shortChannelId amountMsat
          cltvExpiry paymentHash = .ok (area, mac) → mac ≠ ByteVec.fill 32 0) → ∃ onion first last,
        createRelayOnion P session (P.publicKey firstKey) (P.publicKey nextKey) shortChannelId amountMsat cltvExpiry
          paymentHash = .ok onion ∧
        peelOnion P build firstKey onion paymentHash.toList = .ok first ∧ first.shortChannelId = shortChannelId ∧
        first.amtToForward = amountMsat ∧ first.outgoingCltvValue = cltvExpiry ∧ first.nextOnion.length = 1366 ∧
        peelOnion P build nextKey first.nextOnion paymentHash.toList = .ok last ∧ last.shortChannelId = 0 ∧
        last.amtToForward = amountMsat ∧ last.outgoingCltvValue = cltvExpiry ∧ last.nextOnion = []) := by
  constructor
  · intro key session secrets hkey hsession hsecrets amountMsat cltvExpiry paymentSecret paymentHash
    exact peel_single L hkey hsession hsecrets build amountMsat cltvExpiry paymentSecret paymentHash
  · intro firstKey nextKey session secrets hfirst hnext hsession hsecrets shortChannelId amountMsat cltvExpiry paymentHash
      hinner
    exact peel_relay L hfirst hnext hsession hsecrets build shortChannelId amountMsat cltvExpiry paymentHash hinner

theorem overruns_overrunPayload : Overruns overrunPayload := by
  refine ⟨[], 1, 0xffffffffffffffff, [], ?_, by simp, by simp, ?_⟩ <;> decide

/-- Whoever can build an onion can build one whose peeling panics. -/
theorem peelOnion_built_panics (L : P.Lawful) {key session : SecretKey} {secrets : List (ByteVec 32)}
    (hkey : P.isSecretKey key = true) (hsession : P.isSecretKey session = true)
    (hsecrets : sharedSecrets P session [P.publicKey key] = .ok secrets) (build : Build) (paymentHash : Hash) : ∃ onion,
    createPaymentOnion P session [(P.publicKey key, overrunPayload)] paymentHash.toList = .ok onion ∧
    peelOnion P build key onion paymentHash.toList = .error .panicked := by
  have hlength : overrunPayload.length ≤ 200 := by decide
  obtain ⟨secret, area, hsecret, rfl, hcreate⟩ := createPaymentOnion_single paymentHash.toList hlength
    hsecrets
  have had := length_hash_lt paymentHash
  have hsplit : ∃ parts, splitHop (decrypted P secret (hopArea P secret overrunPayload (ByteVec.fill 32 0)
      (List.replicate onionRoutingInfoSize 0))) = .ok parts ∧ parts.payload = overrunPayload := by
    rw [decrypted_hopArea L hlength length_zeros]
    refine ⟨_, splitHop_hopData hlength (by decide) ?_ ?_, rfl⟩ <;>
      rw [List.length_append, List.length_take, List.length_drop, length_chacha20Stream, length_zeros] <;> omega
  have harea : (hopArea P secret overrunPayload (ByteVec.fill 32 0) (List.replicate onionRoutingInfoSize 0)).length =
      onionRoutingInfoSize := length_hopArea hlength length_zeros
  have hunwrap := unwrap_eq_ok L hkey hsession hsecret harea had build
  obtain ⟨parts, hparts, hpayload⟩ := hsplit
  have hpresents := (presents_iff build had).mpr ⟨_, parts, hunwrap, hparts, hpayload⟩
  refine ⟨_, hcreate, ?_⟩
  rcases peelOnion_cases (P := P) build key _ had with ⟨-, hp⟩ | ⟨hno, -⟩
  · exact hp
  · exact absurd ⟨_, hpresents, overruns_overrunPayload⟩ hno

/-! ### The transparent primitives -/

theorem addBytes_comm (a b : ByteVec 32) : addBytes a b = addBytes b a := by
  refine List.Vector.ext fun i => ?_
  simp only [addBytes, List.Vector.get_map₂]
  exact UInt8.add_comm _ _

theorem publicOf_tail (key : SecretKey) : (publicOf key).tail = key := rfl

theorem Primitives.transparent_lawful : Primitives.transparent.Lawful where
  scalar _ _ := rfl
  parses _ _ := rfl
  symmetric a b _ _ := by
    show some (publicOf (addBytes (publicOf a).tail b)) = some (publicOf (addBytes (publicOf b).tail a))
    rw [publicOf_tail, publicOf_tail, addBytes_comm]
  blinds a b c _ h := by
    obtain rfl : addBytes a b = c := Option.some.inj h
    exact ⟨rfl, rfl⟩
  stream key m n h := by
    show (List.replicate n key.head).take m = List.replicate m key.head
    rw [List.take_replicate, Nat.min_eq_left h]

def nextKey : SecretKey := ByteVec.fill 32 6

def relayHash : Hash := ByteVec.fill 32 1

def sessionSecrets (pubkeys : List PublicKey) : List (ByteVec 32) :=
  ((sharedSecrets .transparent sessionKey pubkeys).toOption).getD []

/-- Over the transparent primitives both onions peel. -/
theorem peel_created_transparent :
    (∃ onion peeled, createSingleHopOnion .transparent sessionKey (publicOf hopKey) 0 800 none relayHash = .ok onion ∧
      peelOnion .transparent .release hopKey onion relayHash.toList = .ok peeled ∧ peeled.shortChannelId = 0 ∧
      peeled.amtToForward = 0 ∧ peeled.outgoingCltvValue = 800 ∧ peeled.nextOnion = []) ∧
    ∃ onion first last, createRelayOnion .transparent sessionKey (publicOf hopKey) (publicOf nextKey) 42 321000 800
        relayHash = .ok onion ∧
      peelOnion .transparent .release hopKey onion relayHash.toList = .ok first ∧ first.shortChannelId = 42 ∧
      first.amtToForward = 321000 ∧ first.outgoingCltvValue = 800 ∧ first.nextOnion.length = 1366 ∧
      peelOnion .transparent .release nextKey first.nextOnion relayHash.toList = .ok last ∧ last.shortChannelId = 0 ∧
      last.amtToForward = 321000 ∧ last.outgoingCltvValue = 800 ∧ last.nextOnion = [] := by
  have hsecrets : ∀ pubkeys, (sharedSecrets .transparent sessionKey pubkeys).toOption.isSome →
      sharedSecrets .transparent sessionKey pubkeys = .ok (sessionSecrets pubkeys) := by
    intro pubkeys h
    unfold sessionSecrets
    cases hs : sharedSecrets .transparent sessionKey pubkeys with
    | error e =>
      rw [hs] at h
      cases h
    | ok secrets => rfl
  refine ⟨(peel_created .transparent Primitives.transparent_lawful .release).1 hopKey sessionKey _ rfl rfl
    (hsecrets _ (by decide +kernel)) 0 800 none relayHash, ?_⟩
  refine (peel_created .transparent Primitives.transparent_lawful .release).2 hopKey nextKey sessionKey _ rfl rfl rfl
    (hsecrets _ (by decide +kernel)) 42 321000 800 relayHash ?_
  intro area mac h
  have hmac : ((relayInner .transparent sessionKey (publicOf hopKey) (publicOf nextKey) 42 321000 800
      relayHash).toOption.all fun x => x.2 != ByteVec.fill 32 0) = true := by decide +kernel
  have hinner : relayInner .transparent sessionKey (publicOf hopKey) (publicOf nextKey) 42 321000 800 relayHash =
      .ok (area, mac) := h
  rw [hinner] at hmac
  simpa [Except.toOption] using hmac

end Canopus.Sphinx
