import Canopus.Theorems.RoundTrip

/-! The two framings of a message. A frame with a length is tried as the strict layout first, so that its length stands
    for the first two bytes of the body, and every field is read two bytes early. For most messages that cannot end
    where the frame does. For the others this module says when it does: then the frame is taken for another message. -/

namespace Canopus
open Buffer

variable {α β : Type} {f : α → Decoder β} {p : Prop} {carry field rest : Bytes} {n k : Nat}

/-! ### Fields of any bytes -/

theorem takes_bytes (n : Nat) : Takes (readBytes n) n := fun u hu => ⟨u, reads_bytes hu⟩

theorem takes_number (g : Nat → α) (n : Nat) : Takes (do return g (beNat (← readBytes n)) : Decoder α) n :=
  fun u hu => ⟨g (beNat u), (reads_bytes hu).build rfl⟩

theorem takes_u16 : Takes readU16 2 := takes_number _ 2
theorem takes_u32 : Takes readU32 4 := takes_number _ 4
theorem takes_u64 : Takes readU64 8 := takes_number _ 8

theorem takes_array (n : Nat) : Takes (readArray n) n := fun u hu => ⟨⟨u, hu⟩, reads_array ⟨u, hu⟩⟩

/-- What is read as a number of 63 bits has its first bit clear. -/
theorem accepts_u64Overflow {f : UInt64 → Decoder β} (hcarry : carry.length = 2) (hfield : 6 ≤ field.length)
    (hf : ∀ a, Accepts (f a) (field.drop 6 ++ rest) ↔ p) :
    Accepts (readU64Overflow >>= f) (carry ++ (field ++ rest)) ↔ beNat carry < 32768 ∧ p := by
  have hread : Reads readU64 (carry ++ field.take 6) (UInt64.ofNat (beNat (carry ++ field.take 6))) := by
    refine (reads_bytes ?_).build rfl
    rw [List.length_append, List.length_take, hcarry]
    omega
  have hlow : beNat (field.take 6) < 2 ^ 48 := by
    refine (beNat_lt _).trans_eq ?_
    rw [List.length_take, Nat.min_eq_left hfield]
    rfl
  have hvalue : beNat (carry ++ field.take 6) = beNat carry * 2 ^ 48 + beNat (field.take 6) := by
    rw [beNat_append, List.length_take, Nat.min_eq_left hfield]
    rfl
  have hhigh : beNat carry < 65536 := (beNat_lt carry).trans_eq (by rw [hcarry]; rfl)
  have hover : UInt64.ofNat (beNat (carry ++ field.take 6)) > uint64OverflowMax ↔ ¬ beNat carry < 32768 := by
    have hmax : uint64OverflowMax.toNat = 2 ^ 63 - 1 := rfl
    rw [gt_iff_lt, UInt64.lt_iff_toNat_lt, hmax, UInt64.toNat_ofNat', hvalue]
    omega
  have hsplit : carry ++ (field ++ rest) = (carry ++ field.take 6) ++ (field.drop 6 ++ rest) := by
    rw [List.append_assoc, ← List.append_assoc (field.take 6), List.take_append_drop]
  have hunfold : readU64Overflow >>= f = readU64 >>= fun v =>
      (if v > uint64OverflowMax then invalid s!"uint64overflow: value {v} exceeds 2^63 - 1" else return v) >>= f := by
    rw [readU64Overflow, bind_assoc]
  rw [hunfold, hsplit, hread.accepts_iff]
  by_cases hcarry' : beNat carry < 32768
  · rw [if_neg (mt hover.mp (not_not_intro hcarry')), pure_bind, hf]
    simp [hcarry']
  · rw [if_pos (hover.mpr hcarry')]
    constructor
    · rintro ⟨a, ha⟩
      cases ha
    · exact fun h => absurd h.1 hcarry'

theorem accepts_varsize {f : Bytes → Decoder β} (hcarry : carry.length = 2) :
    Accepts (readVarsize >>= f) (carry ++ rest) ↔
      beNat carry ≤ rest.length ∧ Accepts (f (rest.take (beNat carry))) (rest.drop (beNat carry)) := by
  have hread : Reads readU16 carry (UInt16.ofNat (beNat carry)) := (reads_bytes hcarry).build rfl
  have hvalue : (UInt16.ofNat (beNat carry)).toNat = beNat carry := by
    have hlt := beNat_lt carry
    rw [hcarry] at hlt
    exact UInt16.toNat_ofNat_of_lt' hlt
  have hunfold : readVarsize >>= f = readU16 >>= fun len => readBytes len.toNat >>= f := by
    rw [readVarsize, bind_assoc]
  rw [hunfold, hread.accepts_iff, hvalue]
  by_cases hlen : beNat carry ≤ rest.length
  · have hbytes : Reads (readBytes (beNat carry)) (rest.take (beNat carry)) (rest.take (beNat carry)) :=
      reads_bytes (by rw [List.length_take, Nat.min_eq_left hlen])
    conv_lhs => rw [← List.take_append_drop (beNat carry) rest]
    rw [hbytes.accepts_iff]
    simp [hlen]
  · constructor
    · rintro ⟨a, ha⟩
      unfold Ends at ha
      rw [StateT.run_bind, StateT.run, readBytes, if_pos (Nat.lt_of_not_le hlen)] at ha
      cases ha
    · exact fun h => absurd h.1 hlen

theorem accepts_tlvStream {f : Bytes → β} : Accepts (readTlvStream >>= fun tlv => pure (f tlv)) rest ↔
    validateTlvStream rest = .ok () := by
  rw [accepts_build]
  constructor
  · rintro ⟨a, ha⟩
    cases hvalid : validateTlvStream rest with
    | ok => rfl
    | error e =>
      have hrun : readTlvStream.run rest = .error e := by
        have hrest : readRemaining.run rest = .ok (rest, []) := rfl
        unfold readTlvStream
        rw [StateT.run_bind, hrest]
        show (do validateTlvStream rest; return rest : Decoder Bytes).run [] = .error e
        rw [hvalid]
        rfl
      cases hrun.symm.trans ha
  · exact fun h => ⟨rest, ends_tlvStream h⟩

/-! ### Layouts of one length -/

theorem spends_bytes (n : Nat) : Spends (readBytes n) n := by
  intro u a v h
  simp only [StateT.run, readBytes] at h
  split at h
  · cases h
  · rename_i hlen
    cases h
    rw [List.length_drop]
    omega

theorem spends_array (n : Nat) : Spends (readArray n) n := by
  intro u a v h
  simp only [StateT.run, readArray] at h
  split at h
  · cases h
  · rename_i hlen
    cases h
    rw [List.length_drop]
    omega

theorem spends_u8 : Spends readU8 1 := (spends_bytes 1).build
theorem spends_u16 : Spends readU16 2 := (spends_bytes 2).build
theorem spends_u32 : Spends readU32 4 := (spends_bytes 4).build
theorem spends_u64 : Spends readU64 8 := (spends_bytes 8).build
theorem spends_bool : Spends readBool 1 := spends_u8.build

theorem spends_u64Overflow : Spends readU64Overflow 8 := by
  refine spends_u64.bind (k := 0) fun v => ?_
  split
  · intro u a w h
    cases h
  · exact Spends.pure

theorem spends_stateUpdate : Spends StateUpdate.decode 76 :=
  spends_u32.bind fun _ => spends_u32.bind fun _ => spends_u32.bind fun _ => (spends_array 64).build

theorem spends_stateOverride : Spends StateOverride.decode 84 :=
  spends_u32.bind fun _ => spends_u64Overflow.bind fun _ => spends_u32.bind fun _ => spends_u32.bind fun _ =>
    (spends_array 64).build

theorem spends_announcementSignature : Spends AnnouncementSignature.decode 65 :=
  (spends_array 64).bind fun _ => spends_bool.build

theorem spends_resizeChannel : Spends ResizeChannel.decode 72 := spends_u64Overflow.bind fun _ => (spends_array 64).build

/-- A layout of one length is not accepted with two bytes more. -/
theorem not_shifted {x : Decoder α} {body : Bytes} (hx : Spends x n) (hbody : Accepts x body)
    (hcarry : carry.length = 2) : ¬ Accepts x (carry ++ body) := by
  intro h
  have hlong := hx.accepts h
  rw [List.length_append, hcarry, hx.accepts hbody] at hlong
  omega

/-- A list of 32-byte strings behind its count. -/
theorem length_of_accepts_32s {u : Bytes} (h : Accepts read32s u) : u.length % 32 = 2 := by
  obtain ⟨a, ha⟩ := h
  unfold Ends read32s at ha
  rw [StateT.run_bind] at ha
  obtain ⟨⟨count, v⟩, hcount, hmany⟩ := bind_eq_ok.mp ha
  have h₁ := spends_u16 u count v hcount
  have h₂ := (spends_array 32).many count.toNat v a [] hmany
  rw [h₁, h₂, List.length_nil]
  omega

theorem not_shifted_32s {body : Bytes} (hbody : Accepts read32s body) (hcarry : carry.length = 2) :
    ¬ Accepts read32s (carry ++ body) := by
  intro h
  have h₁ := length_of_accepts_32s h
  have h₂ := length_of_accepts_32s hbody
  rw [List.length_append, hcarry] at h₁
  omega

/-! ### Layouts that end in what they are given -/

theorem beNat_drop_beBytes {v : Nat} (h : v < 256 ^ n) : beNat ((beBytes n v).drop k) = v % 256 ^ (n - k) := by
  have hsplit := beNat_append ((beBytes n v).take k) ((beBytes n v).drop k)
  rw [List.take_append_drop, beNat_beBytes h, List.length_drop, beBytes_length] at hsplit
  have hlow := beNat_lt ((beBytes n v).drop k)
  rw [List.length_drop, beBytes_length] at hlow
  conv_rhs => rw [hsplit]
  rw [Nat.mul_add_mod_self_right, Nat.mod_eq_of_lt hlow]

theorem beNat_writeU16 (v : UInt16) : beNat (writeU16 v) = v.toNat := beNat_beBytes v.toNat_lt

theorem beNat_low_u32 (v : UInt32) : beNat ((writeU32 v).drop 2) = v.toNat % 65536 :=
  beNat_drop_beBytes (n := 4) v.toNat_lt

theorem beNat_low_u64 (v : UInt64) : beNat ((writeU64 v).drop 6) = v.toNat % 65536 :=
  beNat_drop_beBytes (n := 8) v.toNat_lt

@[simp] theorem length_writeU16 (v : UInt16) : (writeU16 v).length = 2 := beBytes_length 2 _
@[simp] theorem length_writeU32 (v : UInt32) : (writeU32 v).length = 4 := beBytes_length 4 _
@[simp] theorem length_writeU64 (v : UInt64) : (writeU64 v).length = 8 := beBytes_length 8 _

theorem length_u16s (ns : List UInt16) : (ns.map writeU16).flatten.length = 2 * ns.length := by
  induction ns with
  | nil => rfl
  | cons n ns ih =>
    rw [List.map_cons, List.flatten_cons, List.length_append, ih, length_writeU16, List.length_cons]
    omega

/-- The last two bytes of a string of 32, which stand before the next field. -/
theorem length_drop_30 (v : ByteVec 32) : (v.toList.drop 30).length = 2 := by
  simp

theorem length_drop_6 (v : UInt64) : ((writeU64 v).drop 6).length = 2 := by
  simp

/-- A varsize that is the last field. -/
theorem accepts_last_varsize {g : Bytes → β} : Accepts (readVarsize >>= fun a => pure (g a)) rest ↔
    2 ≤ rest.length ∧ beNat (rest.take 2) = rest.length - 2 := by
  by_cases hlong : 2 ≤ rest.length
  · have hlength : (rest.take 2).length = 2 := by
      rw [List.length_take, Nat.min_eq_left hlong]
    conv_lhs => rw [← List.take_append_drop 2 rest]
    rw [accepts_varsize hlength, accepts_pure, List.drop_eq_nil_iff, List.length_drop]
    omega
  · refine ⟨fun h => absurd ?_ hlong, fun h => absurd h.1 hlong⟩
    rw [accepts_build] at h
    exact spends_u16.accepts_bind h

/-- A list of numbers that is the last field. -/
theorem accepts_last_u16s {g : List UInt16 → β} {count : Nat} :
    Accepts (many readU16 count >>= fun a => pure (g a)) rest ↔ rest.length = 2 * count := by
  rw [accepts_build]
  constructor
  · exact (spends_u16.many count).accepts
  · intro h
    obtain ⟨a, ha⟩ := takes_u16.many count rest h
    exact ⟨a, ha.ends⟩

section
variable {channelId hash : ByteVec 32} {id amount : UInt64} {tlv : Bytes} (hcarry : carry.length = 2)
include hcarry

theorem accepts_invoke {chainHash : ByteVec 32} :
    Accepts InvokeHostedChannel.decode (carry ++ (chainHash.toList ++ rest)) ↔
      beNat (chainHash.toList.drop 30) + 2 ≤ rest.length ∧
      beNat ((rest.drop (beNat (chainHash.toList.drop 30))).take 2) = rest.length - beNat (chainHash.toList.drop 30) - 2 := by
  unfold InvokeHostedChannel.decode
  refine (takes_array 32).accepts_shift (k := 30) (by rw [hcarry]) (by simp) fun _ => ?_
  rw [accepts_varsize (length_drop_30 _), accepts_last_varsize, List.length_drop]
  omega

theorem accepts_init {inFlight minimum capacity initial : UInt64} {maxAccepted count : UInt16} :
    Accepts InitHostedChannel.decode (carry ++ (writeU64 inFlight ++ (writeU64 minimum ++ (writeU16 maxAccepted ++
      (writeU64 capacity ++ (writeU64 initial ++ (writeU16 count ++ rest))))))) ↔
      beNat carry < 32768 ∧ inFlight.toNat % 65536 < 32768 ∧ maxAccepted.toNat < 32768 ∧
      capacity.toNat % 65536 < 32768 ∧ rest.length + 2 = 2 * (initial.toNat % 65536) := by
  unfold InitHostedChannel.decode
  refine accepts_u64Overflow hcarry (by simp) fun _ => ?_
  rw [← beNat_low_u64 inFlight, ← beNat_low_u64 capacity, ← beNat_low_u64 initial, ← beNat_writeU16 maxAccepted]
  refine accepts_u64Overflow (length_drop_6 _) (by simp) fun _ => ?_
  refine takes_u16.accepts_shift (k := 0) (by simp) (by simp) fun _ => ?_
  refine accepts_u64Overflow (by simp) (by simp) fun _ => ?_
  refine accepts_u64Overflow (length_drop_6 _) (by simp) fun _ => ?_
  have hcount : Reads readU16 ((writeU64 initial).drop 6) (UInt16.ofNat (beNat ((writeU64 initial).drop 6))) :=
    (reads_bytes (length_drop_6 _)).build rfl
  rw [hcount.accepts_iff, accepts_last_u16s, List.length_append, length_writeU16, beNat_low_u64, toNat_count (by omega)]
  omega

theorem accepts_channelUpdate {signature : Signature} {chainHash : ByteVec 32} {scid minimum maximum : UInt64}
    {timestamp feeBase feeRate : UInt32} {messageFlags channelFlags : UInt8} {delta : UInt16} :
    Accepts ChannelUpdate.decode (carry ++ (signature.toList ++ (chainHash.toList ++ (writeU64 scid ++ (writeU32 timestamp ++
      (writeU8 messageFlags ++ (writeU8 channelFlags ++ (writeU16 delta ++ (writeU64 minimum ++ (writeU32 feeBase ++
      (writeU32 feeRate ++ (writeU64 maximum ++ tlv)))))))))))) ↔
      timestamp.toNat / 256 % 256 = 1 ∧ delta.toNat < 32768 ∧ feeRate.toNat % 65536 < 32768 ∧
      validateTlvStream ((writeU64 maximum).drop 6 ++ tlv) = .ok () := by
  unfold ChannelUpdate.decode
  refine (takes_array 64).accepts_shift (k := 62) (by rw [hcarry]) (by simp) fun _ => ?_
  refine (takes_array 32).accepts_shift (k := 30) (by simp) (by simp) fun _ => ?_
  refine takes_u64.accepts_shift (k := 6) (by simp) (by simp) fun _ => ?_
  refine takes_u32.accepts_shift (k := 2) (by simp) (by simp) fun _ => ?_
  -- The last two bytes of the timestamp are read as the two bytes of flags.
  have hlast : (writeU32 timestamp).drop 2 =
      writeU8 (UInt8.ofNat (timestamp.toNat / 256 ^ 1)) ++ writeU8 (UInt8.ofNat (timestamp.toNat / 256 ^ 0)) := rfl
  have hflags : UInt8.ofNat (timestamp.toNat / 256 ^ 1) = 1 ↔ timestamp.toNat / 256 % 256 = 1 := by
    rw [← UInt8.toNat_inj, UInt8.toNat_ofNat', Nat.pow_one]
    exact Iff.rfl
  rw [hlast, List.append_assoc, (reads_u8 _).accepts_iff]
  by_cases hone : UInt8.ofNat (timestamp.toNat / 256 ^ 1) = 1
  · rw [if_neg (not_not_intro hone), (reads_u8 _).accepts_iff]
    refine Iff.trans ?_ (and_iff_right (hflags.mp hone)).symm
    refine takes_u16.accepts_shift (k := 1) rfl (Nat.le_refl 1) fun _ => ?_
    rw [← beNat_writeU16 delta, ← beNat_low_u32 feeRate]
    refine accepts_u64Overflow (length_writeU16 delta) (by simp) fun _ => ?_
    refine takes_u32.accepts_shift (k := 2) (by simp) (by simp) fun _ => ?_
    refine takes_u32.accepts_shift (k := 2) (by simp) (by simp) fun _ => ?_
    refine accepts_u64Overflow (by simp) (by simp) fun _ => ?_
    exact accepts_tlvStream
  · rw [if_pos hone]
    constructor
    · rintro ⟨a, ha⟩
      cases ha
    · exact fun h => absurd (hflags.mpr h.1) hone

theorem accepts_updateAdd {cltv : UInt32} {onion : Bytes} (honion : onion.length = onionRoutingPacketSize) :
    Accepts decodeUpdateAddHtlcBody (carry ++ (channelId.toList ++ (writeU64 id ++ (writeU64 amount ++ (hash.toList ++
      (writeU32 cltv ++ (onion ++ tlv))))))) ↔
      beNat (channelId.toList.drop 30) < 32768 ∧ id.toNat % 65536 < 32768 ∧
      validateTlvStream (onion.drop 1364 ++ tlv) = .ok () := by
  have hlength : onion.length = 1366 := honion
  unfold decodeUpdateAddHtlcBody
  refine (takes_array 32).accepts_shift (k := 30) (by rw [hcarry]) (by simp) fun _ => ?_
  refine accepts_u64Overflow (length_drop_30 _) (by simp) fun _ => ?_
  rw [← beNat_low_u64 id]
  refine accepts_u64Overflow (length_drop_6 _) (by simp) fun _ => ?_
  refine (takes_array 32).accepts_shift (k := 30) (by simp) (by simp) fun _ => ?_
  refine takes_u32.accepts_shift (k := 2) (by simp) (by simp) fun _ => ?_
  refine (takes_bytes onionRoutingPacketSize).accepts_shift (k := 1364) (by simp [onionRoutingPacketSize])
    (by omega) fun _ => ?_
  exact accepts_tlvStream

theorem accepts_updateFulfill {preimage : ByteVec 32} :
    Accepts UpdateFulfillHtlc.decodeBody (carry ++ (channelId.toList ++ (writeU64 id ++ (preimage.toList ++ tlv)))) ↔
      beNat (channelId.toList.drop 30) < 32768 ∧ validateTlvStream (preimage.toList.drop 30 ++ tlv) = .ok () := by
  unfold UpdateFulfillHtlc.decodeBody
  refine (takes_array 32).accepts_shift (k := 30) (by rw [hcarry]) (by simp) fun _ => ?_
  refine accepts_u64Overflow (length_drop_30 _) (by simp) fun _ => ?_
  refine (takes_array 32).accepts_shift (k := 30) (by simp) (by simp) fun _ => ?_
  exact accepts_tlvStream

theorem accepts_updateFail : Accepts UpdateFailHtlc.decodeBody (carry ++ (channelId.toList ++ (writeU64 id ++ rest))) ↔
    beNat (channelId.toList.drop 30) < 32768 ∧ id.toNat % 65536 ≤ rest.length ∧
    validateTlvStream (rest.drop (id.toNat % 65536)) = .ok () := by
  unfold UpdateFailHtlc.decodeBody
  refine (takes_array 32).accepts_shift (k := 30) (by rw [hcarry]) (by simp) fun _ => ?_
  refine accepts_u64Overflow (length_drop_30 _) (by simp) fun _ => ?_
  rw [accepts_varsize (length_drop_6 _), accepts_tlvStream, beNat_low_u64]

theorem accepts_updateFailMalformed {code : UInt16} :
    Accepts UpdateFailMalformedHtlc.decodeBody
      (carry ++ (channelId.toList ++ (writeU64 id ++ (hash.toList ++ (writeU16 code ++ tlv))))) ↔
      beNat (channelId.toList.drop 30) < 32768 ∧ validateTlvStream (writeU16 code ++ tlv) = .ok () := by
  unfold UpdateFailMalformedHtlc.decodeBody
  refine (takes_array 32).accepts_shift (k := 30) (by rw [hcarry]) (by simp) fun _ => ?_
  refine accepts_u64Overflow (length_drop_30 _) (by simp) fun _ => ?_
  refine (takes_array 32).accepts_shift (k := 30) (by simp) (by simp) fun _ => ?_
  refine takes_u16.accepts_shift (k := 0) (by simp) (by simp) fun _ => ?_
  exact accepts_tlvStream

theorem accepts_error : Accepts HcError.decode (carry ++ (channelId.toList ++ rest)) ↔
    beNat (channelId.toList.drop 30) ≤ rest.length ∧
    validateTlvStream (rest.drop (beNat (channelId.toList.drop 30))) = .ok () := by
  unfold HcError.decode
  refine (takes_array 32).accepts_shift (k := 30) (by rw [hcarry]) (by simp) fun _ => ?_
  rw [accepts_varsize (length_drop_30 _), accepts_tlvStream]

end

/-! ### Messages -/

/-- What is written for a byte string of variable size. -/
def varsized (data : Bytes) : Bytes := writeU16 (UInt16.ofNat data.length) ++ data

theorem writeVarsize_eq_ok {data bs : Bytes} (h : writeVarsize data = .ok bs) : data.length ≤ 65535 ∧ bs = varsized data := by
  unfold writeVarsize at h
  split at h
  · cases h
  · cases h
    exact ⟨by omega, rfl⟩

namespace HostedMessage

/-- The legacy frame of the message is also in the strict layout. The values that the decoder finds are made of bytes of
    neighbouring fields: the last two bytes of a `channel_id`, an amount or an id begin the field that comes next, and
    what is read as the TLV stream begins two bytes before it. -/
def Ambiguous : HostedMessage → Prop
  | .invokeHostedChannel m =>
    let skipped := beNat (m.chainHash.toList.drop 30)
    let rest := varsized m.refundScriptpubkey ++ varsized m.secret
    skipped + 2 ≤ rest.length ∧ beNat ((rest.drop skipped).take 2) = rest.length - skipped - 2
  | .initHostedChannel m => 36 + 2 * m.features.length < 32768 ∧ m.maxHtlcValueInFlightMsat.toNat % 65536 < 32768 ∧
    m.maxAcceptedHtlcs.toNat < 32768 ∧ m.channelCapacityMsat.toNat % 65536 < 32768 ∧
    m.features.length + 1 = m.initialClientBalanceMsat.toNat % 65536
  | .updateAddHtlc m => beNat (m.channelId.toList.drop 30) < 32768 ∧ m.id.toNat % 65536 < 32768 ∧
    validateTlvStream (m.onionRoutingPacket.drop 1364 ++ m.tlvStream) = .ok ()
  | .updateFulfillHtlc m => beNat (m.channelId.toList.drop 30) < 32768 ∧
    validateTlvStream (m.paymentPreimage.toList.drop 30 ++ m.tlvStream) = .ok ()
  | .updateFailHtlc m => beNat (m.channelId.toList.drop 30) < 32768 ∧
    m.id.toNat % 65536 ≤ (varsized m.reason ++ m.tlvStream).length ∧
    validateTlvStream ((varsized m.reason ++ m.tlvStream).drop (m.id.toNat % 65536)) = .ok ()
  | .updateFailMalformedHtlc m => beNat (m.channelId.toList.drop 30) < 32768 ∧
    validateTlvStream (writeU16 m.failureCode ++ m.tlvStream) = .ok ()
  | .error m => beNat (m.channelId.toList.drop 30) ≤ (varsized m.data ++ m.tlvStream).length ∧
    validateTlvStream ((varsized m.data ++ m.tlvStream).drop (beNat (m.channelId.toList.drop 30))) = .ok ()
  | .phcChannelUpdate m => m.body.timestamp.toNat / 256 % 256 = 1 ∧ m.body.cltvExpiryDelta.toNat < 32768 ∧
    m.body.feeProportionalMillionths.toNat % 65536 < 32768 ∧
    validateTlvStream ((writeU64 m.body.htlcMaximumMsat).drop 6 ++ m.body.tlvStream) = .ok ()
  | .lastCrossSignedState m => ∃ body, m.encode = .ok body ∧ Accepts LastCrossSignedState.decode (varsized body)
  | .hostedChannelBranding m => ∃ body, encodeBranding m = .ok body ∧ Accepts HostedChannelBranding.decode (varsized body)
  | _ => False

/-- The strict decoder reads a body behind its length to the end exactly if the message is ambiguous. -/
theorem accepts_varsized_iff {m : HostedMessage} {body : Bytes} (hm : m.WellFormed) (hb : m.encodeBody = .ok body)
    (hlen : body.length ≤ 65535) : Accepts (decodeWithTag m.tag) (varsized body) ↔ m.Ambiguous := by
  have hcarry : (writeU16 (UInt16.ofNat body.length)).length = 2 := length_writeU16 _
  have hbody : Accepts (decodeWithTag m.tag) body := ⟨m, ends_body hm hb (by omega)⟩
  unfold varsized
  cases m with
  | invokeHostedChannel m =>
    obtain ⟨refund, hrefund, hb⟩ := bind_eq_ok.mp hb
    obtain ⟨secret, hsecret, hb⟩ := bind_eq_ok.mp hb
    obtain ⟨-, rfl⟩ := writeVarsize_eq_ok hrefund
    obtain ⟨-, rfl⟩ := writeVarsize_eq_ok hsecret
    cases hb
    refine accepts_build.trans ?_
    generalize writeU16 _ = carry at hcarry
    rw [List.append_assoc m.chainHash.toList]
    exact accepts_invoke hcarry
  | initHostedChannel m =>
    obtain ⟨inFlight, hinFlight, hb⟩ := bind_eq_ok.mp hb
    obtain ⟨minimum, hminimum, hb⟩ := bind_eq_ok.mp hb
    obtain ⟨capacity, hcapacity, hb⟩ := bind_eq_ok.mp hb
    obtain ⟨initial, hinitial, hb⟩ := bind_eq_ok.mp hb
    obtain ⟨-, rfl⟩ := writeU64Overflow_eq_ok hinFlight
    obtain ⟨-, rfl⟩ := writeU64Overflow_eq_ok hminimum
    obtain ⟨-, rfl⟩ := writeU64Overflow_eq_ok hcapacity
    obtain ⟨-, rfl⟩ := writeU64Overflow_eq_ok hinitial
    cases hb
    refine accepts_build.trans ?_
    have hlength : (writeU64 m.maxHtlcValueInFlightMsat ++ writeU64 m.htlcMinimumMsat ++ writeU16 m.maxAcceptedHtlcs ++
        writeU64 m.channelCapacityMsat ++ writeU64 m.initialClientBalanceMsat ++
        writeU16 (UInt16.ofNat m.features.length) ++ (m.features.map writeU16).flatten).length =
          36 + 2 * m.features.length := by
      simp only [List.length_append, length_writeU64, length_writeU16, length_u16s]
    rw [hlength] at hlen ⊢
    simp only [List.append_assoc]
    rw [accepts_init (length_writeU16 _), beNat_writeU16, toNat_count hlen, length_u16s]
    unfold Ambiguous
    omega
  | lastCrossSignedState m =>
    refine accepts_build.trans ⟨fun h => ⟨body, hb, h⟩, ?_⟩
    rintro ⟨body', hb', h⟩
    cases hb.symm.trans hb'
    exact h
  | hostedChannelBranding m =>
    refine accepts_build.trans ⟨fun h => ⟨body, hb, h⟩, ?_⟩
    rintro ⟨body', hb', h⟩
    cases hb.symm.trans hb'
    exact h
  | stateUpdate m => exact iff_of_false (not_shifted spends_stateUpdate.build hbody hcarry) id
  | stateOverride m => exact iff_of_false (not_shifted spends_stateOverride.build hbody hcarry) id
  | announcementSignature m => exact iff_of_false (not_shifted spends_announcementSignature.build hbody hcarry) id
  | resizeChannel m => exact iff_of_false (not_shifted spends_resizeChannel.build hbody hcarry) id
  | queryPublicHostedChannels | replyPublicHostedChannelsEnd | askBrandingInfo =>
    exact iff_of_false (not_shifted (spends_array 32).build hbody hcarry) id
  | queryPreimages | replyPreimages =>
    exact iff_of_false (fun h => not_shifted_32s (accepts_build.mp hbody) hcarry (accepts_build.mp h)) id
  | updateAddHtlc m =>
    obtain ⟨id, hid, hb⟩ := bind_eq_ok.mp hb
    obtain ⟨amount, hamount, hb⟩ := bind_eq_ok.mp hb
    obtain ⟨-, rfl⟩ := writeU64Overflow_eq_ok hid
    obtain ⟨-, rfl⟩ := writeU64Overflow_eq_ok hamount
    split at hb
    · cases hb
    · rename_i honion
      cases hb
      refine accepts_build.trans ?_
      simp only [List.append_assoc] at hcarry ⊢
      exact accepts_updateAdd hcarry (not_not.mp honion)
  | updateFulfillHtlc m =>
    obtain ⟨id, hid, hb⟩ := bind_eq_ok.mp hb
    obtain ⟨-, rfl⟩ := writeU64Overflow_eq_ok hid
    cases hb
    refine accepts_build.trans ?_
    simp only [List.append_assoc] at hcarry ⊢
    exact accepts_updateFulfill hcarry
  | updateFailHtlc m =>
    obtain ⟨id, hid, hb⟩ := bind_eq_ok.mp hb
    obtain ⟨reason, hreason, hb⟩ := bind_eq_ok.mp hb
    obtain ⟨-, rfl⟩ := writeU64Overflow_eq_ok hid
    obtain ⟨-, rfl⟩ := writeVarsize_eq_ok hreason
    cases hb
    refine accepts_build.trans ?_
    simp only [List.append_assoc] at hcarry ⊢
    exact accepts_updateFail hcarry
  | updateFailMalformedHtlc m =>
    obtain ⟨id, hid, hb⟩ := bind_eq_ok.mp hb
    obtain ⟨-, rfl⟩ := writeU64Overflow_eq_ok hid
    cases hb
    refine accepts_build.trans ?_
    simp only [List.append_assoc] at hcarry ⊢
    exact accepts_updateFailMalformed hcarry
  | error m =>
    obtain ⟨data, hdata, hb⟩ := bind_eq_ok.mp hb
    obtain ⟨-, rfl⟩ := writeVarsize_eq_ok hdata
    cases hb
    refine accepts_build.trans ?_
    simp only [List.append_assoc] at hcarry ⊢
    exact accepts_error hcarry
  | phcChannelUpdate m =>
    obtain ⟨minimum, hminimum, hb⟩ := bind_eq_ok.mp hb
    obtain ⟨maximum, hmaximum, hb⟩ := bind_eq_ok.mp hb
    obtain ⟨-, rfl⟩ := writeU64Overflow_eq_ok hminimum
    obtain ⟨-, rfl⟩ := writeU64Overflow_eq_ok hmaximum
    cases hb
    generalize writeU16 _ = carry at hcarry
    simp only [List.append_assoc]
    obtain ⟨tag, u⟩ := m
    obtain rfl | rfl := hm.1
    · exact accepts_build.trans (accepts_channelUpdate hcarry)
    · exact accepts_build.trans (accepts_channelUpdate hcarry)

/-- What is decoded under a tag has that tag. -/
theorem tag_of_decodeWithTag {tag : UInt16} {u v : Bytes} {m : HostedMessage}
    (h : (decodeWithTag tag).run u = .ok (m, v)) : m.tag = tag := by
  unfold decodeWithTag at h
  split at h
  case h_21 => cases h
  case h_19 | h_20 =>
    obtain ⟨⟨body, w⟩, -, hb⟩ := bind_eq_ok.mp h
    cases hb
    rfl
  all_goals
    rename_i htag
    obtain ⟨⟨body, w⟩, -, hb⟩ := bind_eq_ok.mp h
    cases hb
    exact UInt16.toNat_inj.mp htag.symm

theorem decodeWhole_eq_ok {x : Decoder α} {what : String} {u : Bytes} {a : α} :
    decodeWhole x what u = .ok a ↔ Ends x u a := by
  refine ⟨fun h => ?_, decodeWhole_eq⟩
  obtain ⟨⟨a', rest⟩, hrun, h⟩ := bind_eq_ok.mp h
  cases rest with
  | nil =>
    cases h
    exact hrun
  | cons b rest => cases h

theorem decode_eq_ok {tag : UInt16} {u : Bytes} {m : HostedMessage} :
    decode (writeU16 tag ++ u) = .ok m ↔ Ends (decodeWithTag tag) u m := by
  rw [decode, decodeWhole_eq_ok]
  unfold Ends
  rw [StateT.run_bind, reads_u16]
  exact Iff.rfl

theorem decodeLegacy_frame {m : HostedMessage} {body : Bytes} (hm : m.WellFormed) (hb : m.encodeBody = .ok body)
    (hlen : body.length ≤ 65535) : decodeLegacy (writeU16 m.tag ++ varsized body) = .ok ⟨m, .legacy⟩ := by
  have hframe : Ends (do return (← readU16, ← readVarsize) : Decoder (UInt16 × Bytes)) (writeU16 m.tag ++ varsized body)
      (m.tag, body) := by
    refine (reads_u16 m.tag).andEnds ?_
    refine Ends.build (reads_varsize ?_).ends rfl
    rw [writeVarsize, if_neg (by omega)]
    rfl
  have hmessage : decodeWhole (decodeWithTag m.tag) "after legacy message" body = .ok m :=
    decodeWhole_eq (ends_body hm hb (by omega))
  rw [decodeLegacy, decodeWhole_eq hframe]
  show (decodeWhole (decodeWithTag m.tag) "after legacy message" body >>= fun message =>
    (Except.ok ⟨message, .legacy⟩ : DecodeResult DecodedHostedMessage)) = _
  rw [hmessage]
  rfl

/-- A fulfil of the HTLC 5, whose legacy frame is in the strict layout if the preimage ends in a TLV record. -/
def sampleFulfill (preimage : ByteVec 32) : HostedMessage := .updateFulfillHtlc ⟨ByteVec.fill 32 0, 5, preimage, []⟩

end HostedMessage
end Canopus
