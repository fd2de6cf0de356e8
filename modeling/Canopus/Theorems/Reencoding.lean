import Canopus.Theorems.WireEncodings

/-! What was decoded is encoded again as it came. Each reader takes only what its writer writes, so that no field has a
    second spelling but a boolean: any byte except zero is read as true, and true is written as one. -/

namespace Canopus
open Buffer

variable {α : Type} {x : Decoder α} {r : α → Bytes → Prop}

/-! ### Primitive readers -/

theorem spells_bytes (n : Nat) : Spells (readBytes n) fun a bs => bs = a ∧ a.length = n := by
  intro u a v h
  simp only [StateT.run, readBytes] at h
  split at h
  · cases h
  · rename_i hlen
    cases h
    exact ⟨u.take n, (List.take_append_drop n u).symm, rfl, List.length_take_of_le (Nat.le_of_not_lt hlen)⟩

theorem spells_array (n : Nat) : Spells (readArray n) fun a bs => bs = a.toList := by
  intro u a v h
  simp only [StateT.run, readArray] at h
  split at h
  · cases h
  · cases h
    exact ⟨u.take n, (List.take_append_drop n u).symm, rfl⟩

/-- A number that is made of `n` bytes is written as these bytes. -/
theorem spells_number (value : α → Nat) {g : Nat → α} {n : Nat} (hg : ∀ k < 256 ^ n, value (g k) = k) :
    Spells (do return g (beNat (← readBytes n)) : Decoder α) fun a bs => bs = beBytes n (value a) := by
  refine (spells_bytes n).bind ?_
  rintro _ bs ⟨rfl, hlen⟩
  refine Spells.pure ?_
  have hlt := beNat_lt bs
  have hspell := beBytes_beNat bs
  rw [hlen] at hlt hspell
  rw [List.append_nil, hg _ hlt, hspell]

theorem spells_u8 : Spells readU8 fun a bs => bs = [a] := by
  refine (spells_number UInt8.toNat fun _ hk => UInt8.toNat_ofNat_of_lt' hk).mono ?_
  rintro a _ rfl
  simp [beBytes]

theorem spells_u16 : Spells readU16 fun a bs => bs = writeU16 a :=
  spells_number UInt16.toNat fun _ hk => UInt16.toNat_ofNat_of_lt' hk

theorem spells_u32 : Spells readU32 fun a bs => bs = writeU32 a :=
  spells_number UInt32.toNat fun _ hk => UInt32.toNat_ofNat_of_lt' hk

theorem spells_u64 : Spells readU64 fun a bs => bs = writeU64 a :=
  spells_number UInt64.toNat fun _ hk => UInt64.toNat_ofNat_of_lt' hk

theorem spells_u64Overflow : Spells readU64Overflow fun a bs => writeU64Overflow a = .ok bs := by
  refine spells_u64.written fun a => ?_
  split
  · exact Spells.fail
  · rename_i ha
    refine Spells.pure ?_
    rw [List.append_nil, writeU64Overflow, if_neg ha]
    rfl

theorem spells_bool : Spells readBool fun a bs => ∃ c, bs = [c] ∧ a = (c != 0) := by
  refine spells_u8.written fun c => ?_
  exact Spells.pure ⟨c, rfl, rfl⟩

theorem spells_varsize : Spells readVarsize fun a bs => writeVarsize a = .ok bs := by
  refine spells_u16.written fun len => ?_
  refine (spells_bytes len.toNat).mono ?_
  rintro a _ ⟨rfl, hlen⟩
  have hle := len.toNat_lt
  rw [writeVarsize, hlen, if_neg (by omega), UInt16.ofNat_toNat]

/-- The four forms of a varint, by the number that is written. -/
theorem writeVarint_eq (v : UInt64) : writeVarint v =
    if v.toNat < 253 then [v.toUInt8]
    else if v.toNat < 2 ^ 16 then 0xfd :: beBytes 2 v.toNat
    else if v.toNat < 2 ^ 32 then 0xfe :: beBytes 4 v.toNat
    else 0xff :: beBytes 8 v.toNat := by
  unfold writeVarint
  simp only [UInt64.lt_iff_toNat_lt, UInt64.le_iff_toNat_le, UInt64.reduceToNat, Nat.reducePow, ← Nat.lt_succ_iff,
    Nat.reduceSucc]

/-- Each of the marked forms holds only values that are too large for the forms before it. -/
theorem spells_varint : Spells readVarint fun a bs => bs = writeVarint a := by
  refine spells_u8.written fun first => ?_
  split_ifs with hff hfe hfd
  · refine spells_u64.written fun a => ?_
    split_ifs with ha
    · exact Spells.fail
    · have hlow : 2 ^ 32 ≤ a.toNat := Nat.le_of_not_lt ha
      refine Spells.pure ?_
      rw [hff, writeVarint_eq, if_neg (by omega), if_neg (by omega), if_neg (by omega)]
      rfl
  · refine spells_u32.written fun a => ?_
    split_ifs with ha
    · exact Spells.fail
    · have hlow : 2 ^ 16 ≤ a.toNat := Nat.le_of_not_lt ha
      have hhigh := a.toNat_lt
      refine Spells.pure ?_
      rw [hfe, writeVarint_eq, UInt32.toNat_toUInt64, if_neg (by omega), if_neg (by omega), if_pos hhigh]
      rfl
  · refine spells_u16.written fun a => ?_
    split_ifs with ha
    · exact Spells.fail
    · have hlow : 253 ≤ a.toNat := Nat.le_of_not_lt ha
      have hhigh := a.toNat_lt
      refine Spells.pure ?_
      rw [hfd, writeVarint_eq, UInt16.toNat_toUInt64, if_neg (by omega), if_pos hhigh]
      rfl
  · refine Spells.pure ?_
    have hlt := first.toNat_lt
    rw [← UInt8.toNat_inj] at hff hfe hfd
    simp only [UInt8.reduceToNat] at hff hfe hfd
    rw [writeVarint_eq, UInt8.toNat_toUInt64, if_pos (by omega)]
    simp

theorem spells_lengthDelimited : Spells readLengthDelimited fun a bs => bs = writeLengthDelimited a := by
  refine spells_varint.bind ?_
  rintro len _ rfl
  refine (spells_bytes len.toNat).mono ?_
  rintro a _ ⟨rfl, hlen⟩
  rw [writeLengthDelimited, hlen, UInt64.ofNat_toNat]

/-! ### Parts of messages -/

theorem spells_lift (e : DecodeResult α) : Spells (liftM e : Decoder α) fun a bs => bs = [] ∧ e = .ok a := by
  cases e with
  | error e => exact Spells.fail
  | ok a => exact Spells.pure ⟨rfl, rfl⟩

theorem spells_tlvStream : Spells readTlvStream fun a bs => bs = a := by
  have hrest : Spells readRemaining fun a bs => bs = a := by
    intro u a v h
    cases h
    exact ⟨u, (List.append_nil u).symm, rfl⟩
  refine hrest.bind ?_
  rintro _ tlv rfl
  refine (spells_lift (validateTlvStream tlv)).bind ?_
  rintro _ _ ⟨rfl, -⟩
  exact Spells.pure (by simp)

/-- The delimited body is read to its end. -/
theorem spells_delimited {what : String} (hx : Spells x r) :
    Spells (readDelimited x what) fun a bs => ∃ body, r a body ∧ bs = writeLengthDelimited body := by
  refine spells_lengthDelimited.bind ?_
  rintro body _ rfl
  refine (spells_lift _).mono ?_
  rintro a _ ⟨rfl, hwhole⟩
  obtain ⟨body', hbody, hr⟩ := hx body a [] (HostedMessage.decodeWhole_eq_ok.mp hwhole)
  rw [List.append_nil] at hbody
  subst hbody
  exact ⟨body, hr, List.append_nil _⟩

theorem spells_updateAddHtlcBody : Spells decodeUpdateAddHtlcBody fun m bs => encodeUpdateAddHtlcBody m = .ok bs := by
  refine (spells_array 32).written fun channelId => ?_
  refine spells_u64Overflow.bind fun id bs hid => ?_
  refine spells_u64Overflow.bind fun amount bs' hamount => ?_
  refine (spells_array 32).written fun hash => ?_
  refine spells_u32.written fun cltv => ?_
  refine (spells_bytes onionRoutingPacketSize).bind ?_
  rintro onion _ ⟨rfl, honion⟩
  refine spells_tlvStream.written fun tlv => ?_
  refine Spells.pure ?_
  simp [encodeUpdateAddHtlcBody, hid, hamount, honion, ok_bind]

theorem spells_init : Spells InitHostedChannel.decode fun m bs => m.encode = .ok bs := by
  refine spells_u64Overflow.bind fun inFlight bs₁ hinFlight => ?_
  refine spells_u64Overflow.bind fun minimum bs₂ hminimum => ?_
  refine spells_u16.written fun maxAccepted => ?_
  refine spells_u64Overflow.bind fun capacity bs₃ hcapacity => ?_
  refine spells_u64Overflow.bind fun initial bs₄ hinitial => ?_
  refine spells_u16.written fun count => ?_
  have hfeatures : Spells (many readU16 count.toNat) fun features bs =>
      features.length = count.toNat ∧ bs = (features.map writeU16).flatten := by
    refine spells_u16.many rfl ?_ count.toNat
    rintro feature features _ _ rfl rfl
    rfl
  refine hfeatures.bind ?_
  rintro features _ ⟨hlen, rfl⟩
  refine Spells.pure ?_
  simp [InitHostedChannel.encode, hinFlight, hminimum, hcapacity, hinitial, hlen, ok_bind, pure, Except.pure]

theorem spells_htlcs {what : String} (count : Nat) : Spells (many (readDelimited decodeUpdateAddHtlcBody what) count)
    fun hs bs => hs.length = count ∧ LastCrossSignedState.encodeHtlcs hs = .ok bs := by
  refine (spells_delimited spells_updateAddHtlcBody).many rfl ?_ count
  rintro h hs _ rest ⟨body, hbody, rfl⟩ hrest
  rw [LastCrossSignedState.encodeHtlcs, hbody, hrest]
  rfl

/-! ### Boolean bytes -/

/-- How the boolean that is read from a byte is written. -/
def boolByte (c : UInt8) : UInt8 := if c != 0 then 1 else 0

theorem boolByte_eq {c : UInt8} (h : boolByte c ≠ c) : c ≠ 0 ∧ c ≠ 1 := by
  constructor <;> rintro rfl <;> exact h rfl

theorem boolByte_bne (c : UInt8) : (boolByte c != 0) = (c != 0) := by
  unfold boolByte
  cases hc : c != 0 <;> rfl

theorem run_u8 {f : UInt8 → Decoder α} (c : UInt8) (u : Bytes) : (readU8 >>= f).run (c :: u) = (f c).run u := by
  have hread : readU8.run (c :: u) = .ok (c, u) := reads_u8 c u
  rw [StateT.run_bind, hread]
  rfl

theorem run_bool {f : Bool → Decoder α} (c : UInt8) (u : Bytes) :
    (readBool >>= f).run (c :: u) = (f (c != 0)).run u := by
  rw [readBool, bind_assoc, run_u8]
  rfl

theorem run_lcss (c : UInt8) (u : Bytes) :
    LastCrossSignedState.decode.run (boolByte c :: u) = LastCrossSignedState.decode.run (c :: u) := by
  rw [LastCrossSignedState.decode, run_bool, run_bool, boolByte_bne]

theorem run_branding {pre : Bytes} (hpre : pre.length = 3) (c : UInt8) (u : Bytes) :
    HostedChannelBranding.decode.run (pre ++ boolByte c :: u) = HostedChannelBranding.decode.run (pre ++ c :: u) := by
  have hicon : readIcon.run (boolByte c :: u) = readIcon.run (c :: u) := by
    rw [readIcon, run_u8, run_u8, boolByte_bne]
  obtain ⟨rgb, hrgb⟩ := takes_array 3 pre hpre
  rw [HostedChannelBranding.decode, StateT.run_bind, StateT.run_bind, hrgb, hrgb, ok_bind, ok_bind, StateT.run_bind,
    StateT.run_bind, hicon]

theorem run_announcement {pre : Bytes} (hpre : pre.length = 64) (c : UInt8) (u : Bytes) :
    AnnouncementSignature.decode.run (pre ++ boolByte c :: u) = AnnouncementSignature.decode.run (pre ++ c :: u) := by
  obtain ⟨signature, hsignature⟩ := takes_array 64 pre hpre
  rw [AnnouncementSignature.decode, readSignature, StateT.run_bind, StateT.run_bind, hsignature, hsignature, ok_bind, ok_bind, run_bool,
    run_bool, boolByte_bne]

theorem spells_lcss : Spells LastCrossSignedState.decode fun m bs =>
    ∃ c rest, bs = c :: rest ∧ m.encode = .ok (boolByte c :: rest) := by
  refine spells_bool.bind ?_
  rintro _ _ ⟨c, rfl, rfl⟩
  refine spells_varsize.bind fun refund bs₁ hrefund => ?_
  refine (spells_delimited spells_init).bind ?_
  rintro init _ ⟨body, hinit, rfl⟩
  refine spells_u32.written fun blockDay => ?_
  refine spells_u64Overflow.bind fun localBalance bs₂ hlocal => ?_
  refine spells_u64Overflow.bind fun remoteBalance bs₃ hremote => ?_
  refine spells_u32.written fun localUpdates => ?_
  refine spells_u32.written fun remoteUpdates => ?_
  refine spells_u16.written fun nIn => ?_
  refine (spells_htlcs nIn.toNat).bind ?_
  rintro incoming bs₄ ⟨hin, hincoming⟩
  refine spells_u16.written fun nOut => ?_
  refine (spells_htlcs nOut.toNat).bind ?_
  rintro outgoing bs₅ ⟨hout, houtgoing⟩
  refine (spells_array 64).written fun remoteSig => ?_
  refine (spells_array 64).written fun localSig => ?_
  refine Spells.pure ⟨c, _, rfl, ?_⟩
  simp [LastCrossSignedState.encode, hrefund, hinit, hlocal, hremote, hincoming, houtgoing, hin, hout, ok_bind, pure,
    Except.pure, writeBool, boolByte]

/-- The icon is read behind its flag, which is read as a boolean is. -/
theorem spells_branding : Spells HostedChannelBranding.decode fun m bs => ∃ c rest, bs = m.rgbColor.toList ++ c :: rest ∧
    HostedMessage.encodeBranding m = .ok (m.rgbColor.toList ++ boolByte c :: rest) := by
  have hicon : Spells readIcon fun icon bs => ∃ c rest, bs = c :: rest ∧
      icon.elim (boolByte c = 0 ∧ rest = []) fun png => boolByte c = 1 ∧ writeVarsize png = .ok rest := by
    refine spells_u8.written fun c => ?_
    split
    · rename_i hc
      exact spells_varsize.bind fun png bs hpng => Spells.pure ⟨c, bs, by simp, by simp [boolByte, hc], hpng⟩
    · rename_i hc
      exact Spells.pure ⟨c, [], rfl, by simp [boolByte, hc], rfl⟩
  refine (spells_array 3).written fun rgb => ?_
  refine hicon.bind ?_
  rintro icon _ ⟨c, rest, rfl, hicon⟩
  refine spells_varsize.bind fun contact bs hcontact => ?_
  split
  · rename_i hutf8
    refine Spells.pure ⟨c, rest ++ bs, by simp, ?_⟩
    cases icon with
    | none =>
      obtain ⟨hc, rfl⟩ := hicon
      simp [HostedMessage.encodeBranding, hutf8, hcontact, hc, ok_bind, pure, Except.pure]
    | some png =>
      obtain ⟨hc, hpng⟩ := hicon
      simp [HostedMessage.encodeBranding, hutf8, hcontact, hc, hpng, ok_bind, pure, Except.pure]
  · exact Spells.fail

/-! ### Messages -/

theorem spells_channelUpdate : Spells ChannelUpdate.decode fun m bs => HostedMessage.encodeChannelUpdate m = .ok bs := by
  refine (spells_array 64).written fun signature => ?_
  refine (spells_array 32).written fun chainHash => ?_
  refine spells_u64.written fun scid => ?_
  refine spells_u32.written fun timestamp => ?_
  refine spells_u8.written fun messageFlags => ?_
  split
  · exact Spells.fail
  refine spells_u8.written fun channelFlags => ?_
  refine spells_u16.written fun delta => ?_
  refine spells_u64Overflow.bind fun minimum bs hminimum => ?_
  refine spells_u32.written fun feeBase => ?_
  refine spells_u32.written fun feeRate => ?_
  refine spells_u64Overflow.bind fun maximum bs' hmaximum => ?_
  refine spells_tlvStream.written fun tlv => ?_
  refine Spells.pure ?_
  simp [HostedMessage.encodeChannelUpdate, hminimum, hmaximum, ok_bind, pure, Except.pure, writeU8]

namespace HostedMessage

/-- Where the strict encoding of a message has a boolean: `is_host`, `wants_reply` or the flag of the icon. -/
def booleanByte : HostedMessage → Option Nat
  | .lastCrossSignedState _ => some 2
  | .hostedChannelBranding _ => some 5
  | .announcementSignature _ => some 66
  | _ => none

/-- The second body is the first one with the boolean of the message written as one or zero. -/
def Respells (m : HostedMessage) (u v : Bytes) : Prop :=
  v = u ∨ ∃ pre c post, u = pre ++ c :: post ∧ v = pre ++ boolByte c :: post ∧ m.booleanByte = some (2 + pre.length)

theorem spells_32s : Spells read32s fun hs bs =>
    bs = writeU16 (UInt16.ofNat hs.length) ++ (hs.map (·.toList)).flatten := by
  refine spells_u16.written fun count => ?_
  have hhashes : Spells (many read32 count.toNat) fun hs bs =>
      hs.length = count.toNat ∧ bs = (hs.map (·.toList)).flatten := by
    refine (spells_array 32).many rfl ?_ count.toNat
    rintro h hs _ _ rfl rfl
    rfl
  refine hhashes.mono ?_
  rintro hs _ ⟨hlen, rfl⟩
  rw [hlen, UInt16.ofNat_toNat]

theorem spells_invoke : Spells InvokeHostedChannel.decode fun m bs => (invokeHostedChannel m).encodeBody = .ok bs := by
  refine (spells_array 32).written fun chainHash => ?_
  refine spells_varsize.bind fun refund bs hrefund => ?_
  refine spells_varsize.bind fun secret bs' hsecret => ?_
  refine Spells.pure ?_
  simp [encodeBody, hrefund, hsecret, ok_bind, pure, Except.pure]

theorem spells_stateUpdate : Spells StateUpdate.decode fun m bs => (stateUpdate m).encodeBody = .ok bs := by
  refine spells_u32.written fun blockDay => ?_
  refine spells_u32.written fun localUpdates => ?_
  refine spells_u32.written fun remoteUpdates => ?_
  refine (spells_array 64).written fun localSig => ?_
  exact Spells.pure (by simp [encodeBody])

theorem spells_stateOverride : Spells StateOverride.decode fun m bs => (stateOverride m).encodeBody = .ok bs := by
  refine spells_u32.written fun blockDay => ?_
  refine spells_u64Overflow.bind fun localBalance bs hlocal => ?_
  refine spells_u32.written fun localUpdates => ?_
  refine spells_u32.written fun remoteUpdates => ?_
  refine (spells_array 64).written fun localSig => ?_
  refine Spells.pure ?_
  simp [encodeBody, hlocal, ok_bind, pure, Except.pure]

theorem spells_announcement : Spells AnnouncementSignature.decode fun m bs => ∃ c,
    bs = m.nodeSignature.toList ++ [c] ∧
    (announcementSignature m).encodeBody = .ok (m.nodeSignature.toList ++ [boolByte c]) := by
  refine (spells_array 64).written fun signature => ?_
  refine spells_bool.bind ?_
  rintro _ _ ⟨c, rfl, rfl⟩
  exact Spells.pure ⟨c, rfl, rfl⟩

theorem spells_resize : Spells ResizeChannel.decode fun m bs => (resizeChannel m).encodeBody = .ok bs := by
  refine spells_u64Overflow.bind fun capacity bs hcapacity => ?_
  refine (spells_array 64).written fun clientSig => ?_
  refine Spells.pure ?_
  simp [encodeBody, hcapacity, ok_bind, pure, Except.pure]

theorem spells_fulfill : Spells UpdateFulfillHtlc.decodeBody fun m bs => (updateFulfillHtlc m).encodeBody = .ok bs := by
  refine (spells_array 32).written fun channelId => ?_
  refine spells_u64Overflow.bind fun id bs hid => ?_
  refine (spells_array 32).written fun preimage => ?_
  refine spells_tlvStream.written fun tlv => ?_
  refine Spells.pure ?_
  simp [encodeBody, hid, ok_bind, pure, Except.pure]

theorem spells_fail : Spells UpdateFailHtlc.decodeBody fun m bs => (updateFailHtlc m).encodeBody = .ok bs := by
  refine (spells_array 32).written fun channelId => ?_
  refine spells_u64Overflow.bind fun id bs hid => ?_
  refine spells_varsize.bind fun reason bs' hreason => ?_
  refine spells_tlvStream.written fun tlv => ?_
  refine Spells.pure ?_
  simp [encodeBody, hid, hreason, ok_bind, pure, Except.pure]

theorem spells_failMalformed :
    Spells UpdateFailMalformedHtlc.decodeBody fun m bs => (updateFailMalformedHtlc m).encodeBody = .ok bs := by
  refine (spells_array 32).written fun channelId => ?_
  refine spells_u64Overflow.bind fun id bs hid => ?_
  refine (spells_array 32).written fun hash => ?_
  refine spells_u16.written fun code => ?_
  refine spells_tlvStream.written fun tlv => ?_
  refine Spells.pure ?_
  simp [encodeBody, hid, ok_bind, pure, Except.pure]

theorem spells_error : Spells HcError.decode fun m bs => (error m).encodeBody = .ok bs := by
  refine (spells_array 32).written fun channelId => ?_
  refine spells_varsize.bind fun data bs hdata => ?_
  refine spells_tlvStream.written fun tlv => ?_
  refine Spells.pure ?_
  simp [encodeBody, hdata, ok_bind, pure, Except.pure]

/-- A body that is encoded exactly as it came. -/
theorem spells_exact {x : Decoder α} {r : α → Bytes → Prop} {g : α → HostedMessage} (hx : Spells x r)
    (hr : ∀ a u, r a u → (g a).encodeBody = .ok u) :
    Spells (do return g (← x) : Decoder HostedMessage) fun m u => ∃ v, m.encodeBody = .ok v ∧ m.Respells u v := by
  refine hx.bind fun a u ha => Spells.pure ⟨u, hr a u ha, Or.inl ?_⟩
  rw [List.append_nil]

/-- The body of a message is encoded as it came, but for its boolean. -/
theorem spells_body (tag : UInt16) : Spells (decodeWithTag tag) fun m u => ∃ v, m.encodeBody = .ok v ∧ m.Respells u v := by
  have hhash {g : ByteVec 32 → HostedMessage} (hg : ∀ v, (g v).encodeBody = .ok v.toList) :
      Spells (do return g (← read32) : Decoder HostedMessage) fun m u => ∃ v, m.encodeBody = .ok v ∧ m.Respells u v :=
    spells_exact (spells_array 32) fun v u hu => hu ▸ hg v
  unfold decodeWithTag
  split
  · exact spells_exact spells_invoke fun _ _ h => h
  · exact spells_exact spells_init fun _ _ h => h
  · refine spells_lcss.bind ?_
    rintro m _ ⟨c, rest, rfl, hm⟩
    exact Spells.pure ⟨_, hm, Or.inr ⟨[], c, rest, by simp, rfl, rfl⟩⟩
  · exact spells_exact spells_stateUpdate fun _ _ h => h
  · exact spells_exact spells_stateOverride fun _ _ h => h
  · refine spells_branding.bind ?_
    rintro m _ ⟨c, rest, rfl, hm⟩
    exact Spells.pure ⟨_, hm, Or.inr ⟨m.rgbColor.toList, c, rest, by simp, rfl, by simp [booleanByte]⟩⟩
  · refine spells_announcement.bind ?_
    rintro m _ ⟨c, rfl, hm⟩
    exact Spells.pure ⟨_, hm, Or.inr ⟨m.nodeSignature.toList, c, [], by simp, rfl, by simp [booleanByte]⟩⟩
  · exact spells_exact spells_resize fun _ _ h => h
  · exact hhash fun _ => rfl
  · exact hhash fun _ => rfl
  · exact spells_exact spells_32s fun _ _ h => h ▸ rfl
  · exact spells_exact spells_32s fun _ _ h => h ▸ rfl
  · exact hhash fun _ => rfl
  · exact spells_exact spells_updateAddHtlcBody fun _ _ h => h
  · exact spells_exact spells_fulfill fun _ _ h => h
  · exact spells_exact spells_fail fun _ _ h => h
  · exact spells_exact spells_failMalformed fun _ _ h => h
  · exact spells_exact spells_error fun _ _ h => h
  · exact spells_exact (g := fun u => phcChannelUpdate ⟨tag, u⟩) spells_channelUpdate fun _ _ h => h
  · exact spells_exact (g := fun u => phcChannelUpdate ⟨tag, u⟩) spells_channelUpdate fun _ _ h => h
  · exact Spells.fail

/-- The decoder does not tell the two bodies apart. -/
theorem Respells.ends {m : HostedMessage} {u v : Bytes} (h : m.Respells u v) (hm : Ends (decodeWithTag m.tag) u m) :
    Ends (decodeWithTag m.tag) v m := by
  obtain rfl | ⟨pre, c, post, rfl, rfl, hpos⟩ := h
  · exact hm
  cases m with
  | lastCrossSignedState m =>
    obtain rfl : pre = [] := by simpa [booleanByte] using hpos
    exact Ends.of_run (x := LastCrossSignedState.decode) (run_lcss c post) hm
  | hostedChannelBranding m =>
    have hpre : pre.length = 3 := by
      have hpos' : 5 = 2 + pre.length := Option.some.inj hpos
      omega
    exact Ends.of_run (x := HostedChannelBranding.decode) (run_branding hpre c post) hm
  | announcementSignature m =>
    have hpre : pre.length = 64 := by
      have hpos' : 66 = 2 + pre.length := Option.some.inj hpos
      omega
    exact Ends.of_run (x := AnnouncementSignature.decode) (run_announcement hpre c post) hm
  | _ => cases hpos

theorem getElem?_ne {pre post : Bytes} {c c' : UInt8} {i : Nat}
    (h : (pre ++ c' :: post)[i]? ≠ (pre ++ c :: post)[i]?) : i = pre.length ∧ c' ≠ c := by
  rw [List.getElem?_append, List.getElem?_append] at h
  split at h
  · exact absurd rfl h
  · rename_i hi
    cases hk : i - pre.length with
    | zero =>
      rw [hk] at h
      exact ⟨by omega, fun hc => h (by rw [hc])⟩
    | succ k =>
      rw [hk] at h
      exact absurd rfl h

/-- What was decoded is encoded with the same length and decodes to the same message. The bytes differ at most in a
    boolean that came as neither zero nor one. -/
theorem encode_of_decode (b : Bytes) (m : HostedMessage) (h : decode b = .ok m) :
    ∃ b', m.encodeWithEncoding .strict = .ok b' ∧ b'.length = b.length ∧ decode b' = .ok m ∧
      ∀ i, b'[i]? ≠ b[i]? → m.booleanByte = some i ∧ ∃ c, b[i]? = some c ∧ c ≠ 0 ∧ c ≠ 1 := by
  have hends := decodeWhole_eq_ok.mp h
  unfold Ends at hends
  rw [StateT.run_bind] at hends
  obtain ⟨⟨tag, body⟩, htag, hm⟩ := bind_eq_ok.mp hends
  obtain ⟨_, rfl, rfl⟩ := spells_u16 b tag body htag
  obtain rfl := tag_of_decodeWithTag hm
  obtain ⟨u, rfl, v, hv, hrespells⟩ := spells_body m.tag body m [] hm
  rw [List.append_nil] at hm h ⊢
  have hencode : m.encodeWithEncoding .strict = .ok (writeU16 m.tag ++ v) := by
    rw [encodeWithEncoding, hv]
    rfl
  refine ⟨writeU16 m.tag ++ v, hencode, ?_, decode_eq_ok.mpr (hrespells.ends hm), ?_⟩
  · obtain rfl | ⟨pre, c, post, rfl, rfl, -⟩ := hrespells
    · rfl
    · simp
  · intro i hi
    obtain rfl | ⟨pre, c, post, rfl, rfl, hpos⟩ := hrespells
    · exact absurd rfl hi
    rw [← List.append_assoc, ← List.append_assoc] at hi
    obtain ⟨rfl, hc⟩ := getElem?_ne hi
    refine ⟨?_, c, by rw [← List.append_assoc]; simp, boolByte_eq hc⟩
    rw [hpos, List.length_append, length_writeU16]

/-- An `announcement_signature` with a boolean of two. -/
theorem encode_of_decode_two : ∃ b', (announcementSignature ⟨ByteVec.fill 64 7, true⟩).encodeWithEncoding .strict = .ok b' ∧
    decode b' = .ok (announcementSignature ⟨ByteVec.fill 64 7, true⟩) := by
  have h : decode (writeU16 65523 ++ (List.replicate 64 7 ++ [2])) = .ok (announcementSignature ⟨ByteVec.fill 64 7, true⟩) := by
    decide +kernel
  obtain ⟨b', hencode, -, hdecode, -⟩ := encode_of_decode _ _ h
  exact ⟨b', hencode, hdecode⟩

end HostedMessage
end Canopus
