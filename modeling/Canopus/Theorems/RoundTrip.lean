import Canopus.Decode
import Mathlib.Tactic.Ring

/-! What a peer is sent is what it reads: for each primitive, its reader takes what its writer wrote, and so for each
    message, whose parts are delimited or come last. -/

namespace Canopus
open Buffer

/-! ### Numbers -/

@[simp] theorem beBytes_length (n v : Nat) : (beBytes n v).length = n := by
  induction n with
  | zero => rfl
  | succ n ih => simp [beBytes, ih]

theorem foldl_beBytes (n v acc : Nat) :
    (beBytes n v).foldl (fun acc b => acc * 256 + b.toNat) acc = acc * 256 ^ n + v % 256 ^ n := by
  induction n generalizing acc with
  | zero => simp [beBytes, Nat.mod_one]
  | succ n ih =>
    have hdigit : (UInt8.ofNat (v / 256 ^ n)).toNat = v / 256 ^ n % 256 := UInt8.toNat_ofNat'
    rw [beBytes, List.foldl_cons, ih, hdigit, Nat.mod_pow_succ, Nat.pow_succ]
    ring

theorem beNat_beBytes {n v : Nat} (h : v < 256 ^ n) : beNat (beBytes n v) = v := by
  rw [beNat, foldl_beBytes, Nat.mod_eq_of_lt h, Nat.zero_mul, Nat.zero_add]

theorem beNat_append (u v : Bytes) : beNat (u ++ v) = beNat u * 256 ^ v.length + beNat v := by
  unfold beNat
  rw [List.foldl_append]
  generalize u.foldl (fun acc b => acc * 256 + b.toNat) 0 = acc
  have hshift : ∀ (w : Bytes) (a : Nat), w.foldl (fun acc b => acc * 256 + b.toNat) a =
      a * 256 ^ w.length + w.foldl (fun acc b => acc * 256 + b.toNat) 0 := by
    intro w
    induction w with
    | nil => simp
    | cons b w ih =>
      intro a
      rw [List.foldl_cons, List.foldl_cons, ih, ih (0 * 256 + b.toNat), List.length_cons, Nat.pow_succ]
      ring
  exact hshift v acc

theorem beNat_cons (b : UInt8) (u : Bytes) : beNat (b :: u) = b.toNat * 256 ^ u.length + beNat u := by
  have h := beNat_append [b] u
  simpa [beNat] using h

theorem beNat_lt (u : Bytes) : beNat u < 256 ^ u.length := by
  induction u with
  | nil => simp [beNat]
  | cons b u ih =>
    rw [beNat_cons, List.length_cons, Nat.pow_succ]
    calc b.toNat * 256 ^ u.length + beNat u
        _ < b.toNat * 256 ^ u.length + 256 ^ u.length := Nat.add_lt_add_left ih _
        _ = (b.toNat + 1) * 256 ^ u.length := by ring
        _ ≤ 256 * 256 ^ u.length := Nat.mul_le_mul_right _ b.toNat_lt
        _ = 256 ^ u.length * 256 := Nat.mul_comm _ _

/-- A byte string is the big-endian bytes of its value. -/
theorem beBytes_beNat (u : Bytes) : beBytes u.length (beNat u) = u := by
  have hmod : ∀ (w : Bytes) (a : Nat), beBytes w.length (a * 256 ^ w.length + beNat w) = w := by
    intro w
    induction w with
    | nil => simp [beBytes]
    | cons b w ih =>
      intro a
      have hlt := beNat_lt w
      have hsum : a * 256 ^ (w.length + 1) + (b.toNat * 256 ^ w.length + beNat w) =
          (a * 256 + b.toNat) * 256 ^ w.length + beNat w := by
        rw [Nat.pow_succ]
        ring
      have hdiv : ((a * 256 + b.toNat) * 256 ^ w.length + beNat w) / 256 ^ w.length = a * 256 + b.toNat := by
        rw [Nat.mul_comm, Nat.mul_add_div (Nat.pow_pos (by decide)), Nat.div_eq_of_lt hlt, Nat.add_zero]
      have hbyte : UInt8.ofNat (a * 256 + b.toNat) = b := by
        rw [← UInt8.toNat_inj, UInt8.toNat_ofNat']
        have := b.toNat_lt
        omega
      rw [List.length_cons, beBytes, beNat_cons, hsum, hdiv, hbyte, ih]
  simpa using hmod u 0

/-! ### Primitive readers -/

theorem reads_bytes {n : Nat} {bs : Bytes} (h : bs.length = n) : Reads (readBytes n) bs bs := by
  intro rest
  subst h
  have hlen : ¬ (bs ++ rest).length < bs.length := by simp
  simp only [StateT.run, readBytes, if_neg hlen, List.take_left, List.drop_left]

theorem reads_array {n : Nat} (v : ByteVec n) : Reads (readArray n) v.toList v := by
  intro rest
  have hlen : v.toList.length = n := v.toList_length
  have hle : ¬ (v.toList ++ rest).length < n := by simp
  simp only [StateT.run, readArray, dif_neg hle]
  have htake : (v.toList ++ rest).take n = v.toList := List.take_left' hlen
  have hdrop : (v.toList ++ rest).drop n = rest := List.drop_left' hlen
  rw [hdrop]
  exact congrArg (fun u => Except.ok (u, rest)) (List.Vector.toList_injective htake)

/-- A number behind its big-endian bytes. -/
theorem reads_number {α : Type} {n v : Nat} (g : Nat → α) (h : v < 256 ^ n) :
    Reads (do return g (beNat (← readBytes n)) : Decoder α) (beBytes n v) (g v) := by
  refine (reads_bytes (beBytes_length n v)).build ?_
  rw [beNat_beBytes h]

theorem reads_u8 (v : UInt8) : Reads readU8 (writeU8 v) v := by
  have hb : beBytes 1 v.toNat = [v] := by simp [beBytes]
  have h := reads_number (n := 1) UInt8.ofNat v.toNat_lt
  rw [hb, UInt8.ofNat_toNat] at h
  exact h

theorem reads_u16 (v : UInt16) : Reads readU16 (writeU16 v) v := by
  have h := reads_number (n := 2) UInt16.ofNat v.toNat_lt
  rw [UInt16.ofNat_toNat] at h
  exact h

theorem reads_u32 (v : UInt32) : Reads readU32 (writeU32 v) v := by
  have h := reads_number (n := 4) UInt32.ofNat v.toNat_lt
  rw [UInt32.ofNat_toNat] at h
  exact h

theorem reads_u64 (v : UInt64) : Reads readU64 (writeU64 v) v := by
  have h := reads_number (n := 8) UInt64.ofNat v.toNat_lt
  rw [UInt64.ofNat_toNat] at h
  exact h

theorem writeU64Overflow_eq_ok {v : UInt64} {bs : Bytes} (h : writeU64Overflow v = .ok bs) :
    ¬ v > uint64OverflowMax ∧ bs = writeU64 v := by
  unfold writeU64Overflow at h
  split at h
  · cases h
  · rename_i hv
    cases h
    exact ⟨hv, rfl⟩

theorem reads_u64Overflow {v : UInt64} {bs : Bytes} (h : writeU64Overflow v = .ok bs) : Reads readU64Overflow bs v := by
  obtain ⟨hv, rfl⟩ := writeU64Overflow_eq_ok h
  refine (reads_u64 v).build ?_
  rw [if_neg hv]

theorem reads_bool (b : Bool) : Reads readBool (writeBool b) b := by
  refine (reads_u8 _).build ?_
  cases b <;> rfl

/-- A count of at most `u16::MAX` is read as it is. -/
theorem toNat_count {n : Nat} (h : n ≤ 65535) : (UInt16.ofNat n).toNat = n :=
  UInt16.toNat_ofNat_of_lt' (by show n < 65536; omega)

theorem reads_varsize {data bs : Bytes} (h : writeVarsize data = .ok bs) : Reads readVarsize bs data := by
  unfold writeVarsize at h
  split at h
  · cases h
  · rename_i hlen
    cases h
    refine (reads_u16 _).bind (reads_bytes ?_)
    rw [toNat_count (by omega)]

theorem reads_varint (v : UInt64) : Reads readVarint (writeVarint v) v := by
  unfold writeVarint
  split_ifs with h₁ h₂ h₃
  · -- The value is its own first byte, which is none of the three marks.
    have hv : v.toNat < 253 := h₁
    have hback : v.toUInt8.toUInt64 = v := by
      rw [← UInt64.toNat_inj, UInt8.toNat_toUInt64, UInt64.toNat_toUInt8]
      omega
    have hmark : ∀ m : UInt8, 253 ≤ m.toNat → v.toUInt8 ≠ m := by
      intro m hm he
      have := congrArg UInt8.toNat he
      rw [UInt64.toNat_toUInt8] at this
      omega
    refine (reads_u8 v.toUInt8).build ?_
    rw [if_neg (hmark 0xff (by decide)), if_neg (hmark 0xfe (by decide)), if_neg (hmark 0xfd (by decide)), hback]
  · have hlt : v.toNat < 65536 := Nat.lt_succ_of_le (UInt64.le_iff_toNat_le.mp h₂)
    have hge : 253 ≤ v.toNat := Nat.le_of_not_lt h₁
    refine (reads_u8 0xfd).bind (v := beBytes 2 v.toNat) ?_
    have hread := reads_number (n := 2) UInt16.ofNat (v := v.toNat) hlt
    refine hread.build ?_
    have hval : (UInt16.ofNat v.toNat).toNat = v.toNat := UInt16.toNat_ofNat_of_lt' hlt
    rw [if_neg (by rw [UInt16.lt_iff_toNat_lt, hval]; exact Nat.not_lt.mpr hge)]
    refine congrArg pure ?_
    rw [← UInt64.toNat_inj, UInt16.toNat_toUInt64, hval]
  · have hlt : v.toNat < 2 ^ 32 := Nat.lt_succ_of_le (UInt64.le_iff_toNat_le.mp h₃)
    have hge : 65536 ≤ v.toNat := Nat.lt_of_not_le fun h => h₂ (UInt64.le_iff_toNat_le.mpr h)
    refine (reads_u8 0xfe).bind (v := beBytes 4 v.toNat) ?_
    have hread := reads_number (n := 4) UInt32.ofNat (v := v.toNat) hlt
    refine hread.build ?_
    have hval : (UInt32.ofNat v.toNat).toNat = v.toNat := UInt32.toNat_ofNat_of_lt' hlt
    rw [if_neg (by rw [UInt32.lt_iff_toNat_lt, hval]; exact Nat.not_lt.mpr hge)]
    refine congrArg pure ?_
    rw [← UInt64.toNat_inj, UInt32.toNat_toUInt64, hval]
  · have hge : 2 ^ 32 ≤ v.toNat := Nat.lt_of_not_le fun h => h₃ (UInt64.le_iff_toNat_le.mpr h)
    refine (reads_u8 0xff).bind (v := beBytes 8 v.toNat) ?_
    refine (reads_u64 v).build ?_
    rw [if_neg (by rw [UInt64.lt_iff_toNat_lt]; exact Nat.not_lt.mpr hge)]

theorem reads_lengthDelimited {body : Bytes} (h : body.length < 2 ^ 64) :
    Reads readLengthDelimited (writeLengthDelimited body) body := by
  refine (reads_varint _).bind (reads_bytes ?_)
  rw [UInt64.toNat_ofNat_of_lt' h]

/-! ### Parts of messages -/

theorem ends_tlvStream {tlv : Bytes} (h : validateTlvStream tlv = .ok ()) : Ends readTlvStream tlv tlv := by
  have hrest : Ends readRemaining tlv tlv := rfl
  refine hrest.build ?_
  rw [h]
  rfl

theorem decodeWhole_eq {α : Type} {x : Decoder α} {what : String} {bytes : Bytes} {a : α} (h : Ends x bytes a) :
    decodeWhole x what bytes = .ok a := by
  unfold decodeWhole
  rw [h]
  rfl

theorem reads_delimited {α : Type} {x : Decoder α} {what : String} {body : Bytes} {a : α} (h : Ends x body a)
    (hlen : body.length < 2 ^ 64) : Reads (readDelimited x what) (writeLengthDelimited body) a := by
  refine (reads_lengthDelimited hlen).build ?_
  rw [decodeWhole_eq h]
  rfl

theorem reads_32s {hashes : List (ByteVec 32)} (h : hashes.length ≤ 65535) :
    Reads read32s (writeU16 (UInt16.ofNat hashes.length) ++ (hashes.map (·.toList)).flatten) hashes := by
  refine (reads_u16 _).bind ?_
  rw [toNat_count h]
  exact Reads.many fun v _ => reads_array v

theorem ends_updateAddHtlcBody {m : UpdateAddHtlc} {b : Bytes} (htlv : validateTlvStream m.tlvStream = .ok ())
    (hb : encodeUpdateAddHtlcBody m = .ok b) : Ends decodeUpdateAddHtlcBody b m := by
  obtain ⟨id, hid, hb⟩ := bind_eq_ok.mp hb
  obtain ⟨amount, hamount, hb⟩ := bind_eq_ok.mp hb
  split at hb
  · cases hb
  · rename_i honion
    cases hb
    simp only [List.append_assoc]
    refine (reads_array m.channelId).andEnds ?_
    refine (reads_u64Overflow hid).andEnds ?_
    refine (reads_u64Overflow hamount).andEnds ?_
    refine (reads_array m.paymentHash).andEnds ?_
    refine (reads_u32 m.cltvExpiry).andEnds ?_
    refine (reads_bytes (not_not.mp honion)).andEnds ?_
    exact (ends_tlvStream htlv).build rfl

theorem ends_init {m : InitHostedChannel} {b : Bytes} (hf : m.features.length ≤ 65535) (hb : m.encode = .ok b) :
    Ends InitHostedChannel.decode b m := by
  obtain ⟨inFlight, hinFlight, hb⟩ := bind_eq_ok.mp hb
  obtain ⟨minimum, hminimum, hb⟩ := bind_eq_ok.mp hb
  obtain ⟨capacity, hcapacity, hb⟩ := bind_eq_ok.mp hb
  obtain ⟨initial, hinitial, hb⟩ := bind_eq_ok.mp hb
  cases hb
  simp only [List.append_assoc]
  refine (reads_u64Overflow hinFlight).andEnds ?_
  refine (reads_u64Overflow hminimum).andEnds ?_
  refine (reads_u16 m.maxAcceptedHtlcs).andEnds ?_
  refine (reads_u64Overflow hcapacity).andEnds ?_
  refine (reads_u64Overflow hinitial).andEnds ?_
  refine (reads_u16 _).andEnds ?_
  rw [toNat_count hf]
  exact (Reads.many fun v _ => reads_u16 v).ends.build rfl

/-- A body is no longer than what it is written into. -/
theorem length_le_delimited (body : Bytes) : body.length ≤ (writeLengthDelimited body).length := by
  rw [writeLengthDelimited, List.length_append]
  exact Nat.le_add_left _ _

theorem reads_htlcs {htlcs : List UpdateAddHtlc} {what : String} {b : Bytes}
    (htlv : ∀ h ∈ htlcs, validateTlvStream h.tlvStream = .ok ()) (hb : LastCrossSignedState.encodeHtlcs htlcs = .ok b)
    (hlen : b.length < 2 ^ 64) : Reads (many (readDelimited decodeUpdateAddHtlcBody what) htlcs.length) b htlcs := by
  induction htlcs generalizing b with
  | nil =>
    cases hb
    exact Reads.pure
  | cons h htlcs ih =>
    obtain ⟨body, hbody, hb⟩ := bind_eq_ok.mp hb
    obtain ⟨rest, hrest, hb⟩ := bind_eq_ok.mp hb
    cases hb
    have hle := length_le_delimited body
    rw [List.length_append] at hlen
    refine (reads_delimited (ends_updateAddHtlcBody (htlv h (by simp)) hbody) (by omega)).bind ?_
    exact (ih (fun h' hh' => htlv h' (by simp [hh'])) hrest (by omega)).build rfl

theorem ends_lcss {m : LastCrossSignedState} {b : Bytes} (hf : m.initHostedChannel.features.length ≤ 65535)
    (hin : m.incomingHtlcs.length ≤ 65535) (hout : m.outgoingHtlcs.length ≤ 65535)
    (htlv : ∀ h ∈ m.incomingHtlcs ++ m.outgoingHtlcs, validateTlvStream h.tlvStream = .ok ()) (hb : m.encode = .ok b)
    (hlen : b.length < 2 ^ 64) : Ends LastCrossSignedState.decode b m := by
  obtain ⟨refund, hrefund, hb⟩ := bind_eq_ok.mp hb
  obtain ⟨init, hinit, hb⟩ := bind_eq_ok.mp hb
  obtain ⟨localBalance, hlocal, hb⟩ := bind_eq_ok.mp hb
  obtain ⟨remoteBalance, hremote, hb⟩ := bind_eq_ok.mp hb
  obtain ⟨incoming, hincoming, hb⟩ := bind_eq_ok.mp hb
  obtain ⟨outgoing, houtgoing, hb⟩ := bind_eq_ok.mp hb
  cases hb
  -- Each delimited part is shorter than the whole.
  have hle := length_le_delimited init
  simp only [List.length_append] at hlen
  simp only [List.append_assoc]
  refine (reads_bool m.isHost).andEnds ?_
  refine (reads_varsize hrefund).andEnds ?_
  refine (reads_delimited (ends_init hf hinit) (by omega)).andEnds ?_
  refine (reads_u32 m.blockDay).andEnds ?_
  refine (reads_u64Overflow hlocal).andEnds ?_
  refine (reads_u64Overflow hremote).andEnds ?_
  refine (reads_u32 m.localUpdates).andEnds ?_
  refine (reads_u32 m.remoteUpdates).andEnds ?_
  refine (reads_u16 _).andEnds ?_
  rw [toNat_count hin]
  refine (reads_htlcs (fun h hh => htlv h (List.mem_append_left _ hh)) hincoming (by omega)).andEnds ?_
  refine (reads_u16 _).andEnds ?_
  rw [toNat_count hout]
  refine (reads_htlcs (fun h hh => htlv h (List.mem_append_right _ hh)) houtgoing (by omega)).andEnds ?_
  refine (reads_array m.remoteSigOfLocal).andEnds ?_
  exact (reads_array m.localSigOfRemote).ends.build rfl

theorem ends_branding {m : HostedChannelBranding} {b : Bytes} (hb : HostedMessage.encodeBranding m = .ok b) :
    Ends HostedChannelBranding.decode b m := by
  unfold HostedMessage.encodeBranding at hb
  obtain ⟨icon, hread, hb⟩ : ∃ icon, Reads readIcon icon m.pngIcon ∧ (if HostedMessage.isUtf8 m.contactInfo then do
      let contact ← writeVarsize m.contactInfo
      return m.rgbColor.toList ++ icon ++ contact
    else .error (.invalidUtf8 "contact_info is not valid UTF-8") : EncodeResult Bytes) = .ok b := by
    cases hpng : m.pngIcon with
    | none =>
      rw [hpng] at hb
      exact ⟨[0], (reads_u8 0).build rfl, hb⟩
    | some png =>
      rw [hpng] at hb
      obtain ⟨bytes, hbytes, hb⟩ := bind_eq_ok.mp hb
      exact ⟨1 :: bytes, (reads_u8 1).bind ((reads_varsize hbytes).build rfl), hb⟩
  split at hb
  · rename_i hutf8
    obtain ⟨contact, hcontact, hb⟩ := bind_eq_ok.mp hb
    cases hb
    simp only [List.append_assoc]
    refine (reads_array m.rgbColor).andEnds (hread.andEnds ?_)
    refine (reads_varsize hcontact).ends.build ?_
    rw [if_pos hutf8]
  · cases hb

theorem ends_channelUpdate {m : ChannelUpdate} {b : Bytes} (hflags : m.messageFlags = 1)
    (htlv : validateTlvStream m.tlvStream = .ok ()) (hb : HostedMessage.encodeChannelUpdate m = .ok b) :
    Ends ChannelUpdate.decode b m := by
  obtain ⟨minimum, hminimum, hb⟩ := bind_eq_ok.mp hb
  obtain ⟨maximum, hmaximum, hb⟩ := bind_eq_ok.mp hb
  cases hb
  simp only [List.append_assoc]
  refine (reads_array m.signature).andEnds ?_
  refine (reads_array m.chainHash).andEnds ?_
  refine (reads_u64 m.shortChannelId).andEnds ?_
  refine (reads_u32 m.timestamp).andEnds ?_
  refine (reads_u8 m.messageFlags).andEnds ?_
  rw [if_neg (not_not.mpr hflags)]
  refine (reads_u8 m.channelFlags).andEnds ?_
  refine (reads_u16 m.cltvExpiryDelta).andEnds ?_
  refine (reads_u64Overflow hminimum).andEnds ?_
  refine (reads_u32 m.feeBaseMsat).andEnds ?_
  refine (reads_u32 m.feeProportionalMillionths).andEnds ?_
  refine (reads_u64Overflow hmaximum).andEnds ?_
  exact (ends_tlvStream htlv).build rfl

/-! ### Messages -/

namespace HostedMessage

/-- What the encoder takes for granted: valid TLV streams, lists that a `u16` can count, and a `channel_update` in one
    of its two wrappings with the flags of the day. -/
def WellFormed : HostedMessage → Prop
  | .initHostedChannel m => m.features.length ≤ 65535
  | .lastCrossSignedState m => m.initHostedChannel.features.length ≤ 65535 ∧ m.incomingHtlcs.length ≤ 65535 ∧
    m.outgoingHtlcs.length ≤ 65535 ∧ ∀ h ∈ m.incomingHtlcs ++ m.outgoingHtlcs, validateTlvStream h.tlvStream = .ok ()
  | .queryPreimages hashes => hashes.length ≤ 65535
  | .replyPreimages preimages => preimages.length ≤ 65535
  | .updateAddHtlc m => validateTlvStream m.tlvStream = .ok ()
  | .updateFulfillHtlc m => validateTlvStream m.tlvStream = .ok ()
  | .updateFailHtlc m => validateTlvStream m.tlvStream = .ok ()
  | .updateFailMalformedHtlc m => validateTlvStream m.tlvStream = .ok ()
  | .error m => validateTlvStream m.tlvStream = .ok ()
  | .phcChannelUpdate m => (m.tag = 64507 ∨ m.tag = 64509) ∧ m.body.messageFlags = 1 ∧
    validateTlvStream m.body.tlvStream = .ok ()
  | _ => True

/-- The body of a message is read back under the message's tag. -/
theorem ends_body {m : HostedMessage} {b : Bytes} (hm : m.WellFormed) (hb : m.encodeBody = .ok b)
    (hlen : b.length < 2 ^ 64) : Ends (decodeWithTag m.tag) b m := by
  cases m with
  | invokeHostedChannel m =>
    obtain ⟨refund, hrefund, hb⟩ := bind_eq_ok.mp hb
    obtain ⟨secret, hsecret, hb⟩ := bind_eq_ok.mp hb
    cases hb
    have hbody : Ends InvokeHostedChannel.decode (m.chainHash.toList ++ refund ++ secret) m := by
      simp only [List.append_assoc]
      refine (reads_array m.chainHash).andEnds ((reads_varsize hrefund).andEnds ?_)
      exact (reads_varsize hsecret).ends.build rfl
    exact hbody.build rfl
  | initHostedChannel m => exact (ends_init hm hb).build rfl
  | lastCrossSignedState m =>
    obtain ⟨hf, hin, hout, htlv⟩ := hm
    exact (ends_lcss hf hin hout htlv hb hlen).build rfl
  | stateUpdate m =>
    cases hb
    have hbody : Ends StateUpdate.decode (writeU32 m.blockDay ++ writeU32 m.localUpdates ++ writeU32 m.remoteUpdates ++
        m.localSigOfRemote.toList) m := by
      simp only [List.append_assoc]
      refine (reads_u32 m.blockDay).andEnds ((reads_u32 m.localUpdates).andEnds ((reads_u32 m.remoteUpdates).andEnds ?_))
      exact (reads_array m.localSigOfRemote).ends.build rfl
    exact hbody.build rfl
  | stateOverride m =>
    obtain ⟨balance, hbalance, hb⟩ := bind_eq_ok.mp hb
    cases hb
    have hbody : Ends StateOverride.decode (writeU32 m.blockDay ++ balance ++ writeU32 m.localUpdates ++
        writeU32 m.remoteUpdates ++ m.localSigOfRemote.toList) m := by
      simp only [List.append_assoc]
      refine (reads_u32 m.blockDay).andEnds ((reads_u64Overflow hbalance).andEnds ?_)
      refine (reads_u32 m.localUpdates).andEnds ((reads_u32 m.remoteUpdates).andEnds ?_)
      exact (reads_array m.localSigOfRemote).ends.build rfl
    exact hbody.build rfl
  | hostedChannelBranding m => exact (ends_branding hb).build rfl
  | announcementSignature m =>
    cases hb
    have hbody : Ends AnnouncementSignature.decode (m.nodeSignature.toList ++ writeBool m.wantsReply) m :=
      (reads_array m.nodeSignature).andEnds ((reads_bool m.wantsReply).ends.build rfl)
    exact hbody.build rfl
  | resizeChannel m =>
    obtain ⟨capacity, hcapacity, hb⟩ := bind_eq_ok.mp hb
    cases hb
    have hbody : Ends ResizeChannel.decode (capacity ++ m.clientSig.toList) m :=
      (reads_u64Overflow hcapacity).andEnds ((reads_array m.clientSig).ends.build rfl)
    exact hbody.build rfl
  | queryPublicHostedChannels chainHash | replyPublicHostedChannelsEnd chainHash | askBrandingInfo chainHash =>
    cases hb
    exact (reads_array chainHash).ends.build rfl
  | queryPreimages hashes | replyPreimages hashes =>
    cases hb
    exact (reads_32s hm).ends.build rfl
  | updateAddHtlc m => exact (ends_updateAddHtlcBody hm hb).build rfl
  | updateFulfillHtlc m =>
    obtain ⟨id, hid, hb⟩ := bind_eq_ok.mp hb
    cases hb
    have hbody : Ends UpdateFulfillHtlc.decodeBody (m.channelId.toList ++ id ++ m.paymentPreimage.toList ++ m.tlvStream)
        m := by
      simp only [List.append_assoc]
      refine (reads_array m.channelId).andEnds ((reads_u64Overflow hid).andEnds ?_)
      exact (reads_array m.paymentPreimage).andEnds ((ends_tlvStream hm).build rfl)
    exact hbody.build rfl
  | updateFailHtlc m =>
    obtain ⟨id, hid, hb⟩ := bind_eq_ok.mp hb
    obtain ⟨reason, hreason, hb⟩ := bind_eq_ok.mp hb
    cases hb
    have hbody : Ends UpdateFailHtlc.decodeBody (m.channelId.toList ++ id ++ reason ++ m.tlvStream) m := by
      simp only [List.append_assoc]
      refine (reads_array m.channelId).andEnds ((reads_u64Overflow hid).andEnds ?_)
      exact (reads_varsize hreason).andEnds ((ends_tlvStream hm).build rfl)
    exact hbody.build rfl
  | updateFailMalformedHtlc m =>
    obtain ⟨id, hid, hb⟩ := bind_eq_ok.mp hb
    cases hb
    have hbody : Ends UpdateFailMalformedHtlc.decodeBody (m.channelId.toList ++ id ++ m.sha256OfOnion.toList ++
        writeU16 m.failureCode ++ m.tlvStream) m := by
      simp only [List.append_assoc]
      refine (reads_array m.channelId).andEnds ((reads_u64Overflow hid).andEnds ?_)
      refine (reads_array m.sha256OfOnion).andEnds ((reads_u16 m.failureCode).andEnds ?_)
      exact (ends_tlvStream hm).build rfl
    exact hbody.build rfl
  | error m =>
    obtain ⟨data, hdata, hb⟩ := bind_eq_ok.mp hb
    cases hb
    have hbody : Ends HcError.decode (m.channelId.toList ++ data ++ m.tlvStream) m := by
      simp only [List.append_assoc]
      exact (reads_array m.channelId).andEnds ((reads_varsize hdata).andEnds ((ends_tlvStream hm).build rfl))
    exact hbody.build rfl
  | phcChannelUpdate m =>
    obtain ⟨htag, hflags, htlv⟩ := hm
    have hbody := ends_channelUpdate hflags htlv hb
    obtain ⟨tag, body⟩ := m
    rcases htag with rfl | rfl
    · exact hbody.build rfl
    · exact hbody.build rfl

/-- A message is read back as it was sent, and nothing is left over. The bytes are those of a buffer, whose length is
    a machine word. -/
theorem decode_encode (m : HostedMessage) (b : Bytes) (hm : m.WellFormed) (hb : m.encodeWithEncoding .strict = .ok b)
    (hlen : b.length < 2 ^ 64) :
    decode b = .ok m ∧ (do decodeWithTag (← readU16) : Decoder HostedMessage).run b = .ok (m, []) := by
  obtain ⟨body, hbody, hb⟩ := bind_eq_ok.mp hb
  cases hb
  rw [List.length_append] at hlen
  have hends : Ends (do decodeWithTag (← readU16) : Decoder HostedMessage) (writeU16 m.tag ++ body) m :=
    (reads_u16 m.tag).andEnds (ends_body hm hbody (by omega))
  exact ⟨decodeWhole_eq hends, hends⟩

/-- A state with one incoming HTLC, whose TLV stream has one record. -/
def sampleState : LastCrossSignedState where
  isHost := true
  lastRefundScriptpubkey := [0, 20]
  initHostedChannel := ⟨1000, 1, 10, 1000, 400, [7]⟩
  blockDay := 6
  localBalanceMsat := 600
  remoteBalanceMsat := 300
  localUpdates := 0
  remoteUpdates := 1
  incomingHtlcs := [⟨ByteVec.fill 32 1, 1, 100, ByteVec.fill 32 2, 1200, List.replicate 1366 0, [1, 2, 0xaa, 0xbb]⟩]
  outgoingHtlcs := []
  remoteSigOfLocal := ByteVec.fill 64 3
  localSigOfRemote := ByteVec.fill 64 4

theorem decode_encode_sample : ∃ b, (lastCrossSignedState sampleState).encodeWithEncoding .strict = .ok b ∧
    decode b = .ok (.lastCrossSignedState sampleState) := by
  have hm : (lastCrossSignedState sampleState).WellFormed := by
    refine ⟨by decide, by decide, by decide, ?_⟩
    intro h hh
    rw [List.mem_singleton.mp hh]
    rfl
  have hlen : ((lastCrossSignedState sampleState).encodeWithEncoding .strict).toOption.any (·.length < 2 ^ 64) = true := by
    decide +kernel
  cases hb : (lastCrossSignedState sampleState).encodeWithEncoding .strict with
  | error e =>
    rw [hb] at hlen
    cases hlen
  | ok b =>
    rw [hb] at hlen
    exact ⟨b, rfl, (decode_encode _ b hm hb (of_decide_eq_true hlen)).1⟩

end HostedMessage
end Canopus
