import Canopus.Theorems.Records
import Canopus.Theorems.RoundTrip

/-! How much of a state its sighash fixes. The material has no lengths in it: neither the refund script nor the HTLCs
    are delimited, and nothing stands between the incoming HTLCs and the outgoing ones. Who knows these lengths can
    read the whole state back, and nobody else can. -/

namespace Canopus
open Buffer
namespace LastCrossSignedState

/-- The lengths that the material leaves out: of the refund script and of the TLV stream of each HTLC on either side. -/
def shape (s : LastCrossSignedState) : Nat × List Nat × List Nat :=
  (s.lastRefundScriptpubkey.length, s.incomingHtlcs.map (·.tlvStream.length), s.outgoingHtlcs.map (·.tlvStream.length))

/-- The state with everything blanked that a signature does not cover. -/
def covered (s : LastCrossSignedState) : LastCrossSignedState :=
  { s with
    initHostedChannel :=
      ⟨0, 0, 0, s.initHostedChannel.channelCapacityMsat, s.initHostedChannel.initialClientBalanceMsat, []⟩
    remoteSigOfLocal := ByteVec.fill 64 0
    localSigOfRemote := ByteVec.fill 64 0 }

theorem signedAlike_of_covered {s t : LastCrossSignedState} (h : s.covered = t.covered) : SignedAlike s t where
  isHost := congrArg (·.isHost) h
  refund := congrArg (·.lastRefundScriptpubkey) h
  capacity := congrArg (·.initHostedChannel.channelCapacityMsat) h
  initial := congrArg (·.initHostedChannel.initialClientBalanceMsat) h
  blockDay := congrArg (·.blockDay) h
  localBalance := congrArg (·.localBalanceMsat) h
  remoteBalance := congrArg (·.remoteBalanceMsat) h
  localUpdates := congrArg (·.localUpdates) h
  remoteUpdates := congrArg (·.remoteUpdates) h
  incoming := congrArg (·.incomingHtlcs) h
  outgoing := congrArg (·.outgoingHtlcs) h

/-! ### Reading the material -/

def readLe (n : Nat) : Decoder Nat := do return beNat (← readBytes n).reverse

theorem reads_le {n v : Nat} (h : v < 256 ^ n) : Reads (readLe n) (leBytes n v) v := by
  refine (reads_bytes (by simp [leBytes])).build ?_
  rw [leBytes, List.reverse_reverse, beNat_beBytes h]

def readU32Le : Decoder UInt32 := do return UInt32.ofNat (← readLe 4)
def readU64Le : Decoder UInt64 := do return UInt64.ofNat (← readLe 8)

theorem reads_u32Le (v : UInt32) : Reads readU32Le (writeU32Le v) v := by
  refine (reads_le v.toNat_lt).build ?_
  rw [UInt32.ofNat_toNat]

theorem reads_u64Le {v : UInt64} {bs : Bytes} (h : writeU64OverflowLe v = .ok bs) : Reads readU64Le bs v := by
  unfold writeU64OverflowLe at h
  split at h
  · cases h
  · cases h
    refine (reads_le v.toNat_lt).build ?_
    rw [UInt64.ofNat_toNat]

/-- Reads an HTLC whose TLV stream has the given length. -/
def readSigHtlc (tlvLength : Nat) : Decoder UpdateAddHtlc := do
  let channelId ← read32
  let id ← readU64Overflow
  let amountMsat ← readU64Overflow
  let paymentHash ← read32
  let cltvExpiry ← readU32
  let onionRoutingPacket ← readBytes onionRoutingPacketSize
  let tlvStream ← readBytes tlvLength
  return ⟨channelId, id, amountMsat, paymentHash, cltvExpiry, onionRoutingPacket, tlvStream⟩

def readSigHtlcs : List Nat → Decoder (List UpdateAddHtlc)
  | [] => pure []
  | n :: ns => do
    let htlc ← readSigHtlc n
    let htlcs ← readSigHtlcs ns
    return htlc :: htlcs

/-- Reads the material of a state of the given shape. -/
def readSigMaterial : Nat × List Nat × List Nat → Decoder LastCrossSignedState
  | (refundLength, incoming, outgoing) => do
    let lastRefundScriptpubkey ← readBytes refundLength
    let capacity ← readU64Le
    let initial ← readU64Le
    let blockDay ← readU32Le
    let localBalanceMsat ← readU64Le
    let remoteBalanceMsat ← readU64Le
    let localUpdates ← readU32Le
    let remoteUpdates ← readU32Le
    let incomingHtlcs ← readSigHtlcs incoming
    let outgoingHtlcs ← readSigHtlcs outgoing
    let isHost ← readBool
    return ⟨isHost, lastRefundScriptpubkey, ⟨0, 0, 0, capacity, initial, []⟩, blockDay, localBalanceMsat,
      remoteBalanceMsat, localUpdates, remoteUpdates, incomingHtlcs, outgoingHtlcs, ByteVec.fill 64 0, ByteVec.fill 64 0⟩

theorem reads_sigHtlc {htlc : UpdateAddHtlc} {b : Bytes} (hb : encodeUpdateAddHtlcBody htlc = .ok b) :
    Reads (readSigHtlc htlc.tlvStream.length) b htlc := by
  obtain ⟨id, hid, hb⟩ := bind_eq_ok.mp hb
  obtain ⟨amount, hamount, hb⟩ := bind_eq_ok.mp hb
  split at hb
  · cases hb
  · rename_i honion
    cases hb
    simp only [List.append_assoc]
    refine (reads_array htlc.channelId).bind ?_
    refine (reads_u64Overflow hid).bind ?_
    refine (reads_u64Overflow hamount).bind ?_
    refine (reads_array htlc.paymentHash).bind ?_
    refine (reads_u32 htlc.cltvExpiry).bind ?_
    refine (reads_bytes (not_not.mp honion)).bind ?_
    exact (reads_bytes rfl).build rfl

theorem reads_sigHtlcs {htlcs : List UpdateAddHtlc} {b : Bytes} (hb : sigHtlcs htlcs = .ok b) :
    Reads (readSigHtlcs (htlcs.map (·.tlvStream.length))) b htlcs := by
  induction htlcs generalizing b with
  | nil =>
    cases hb
    exact Reads.pure
  | cons htlc htlcs ih =>
    obtain ⟨body, hbody, hb⟩ := bind_eq_ok.mp hb
    obtain ⟨rest, hrest, hb⟩ := bind_eq_ok.mp hb
    cases hb
    exact (reads_sigHtlc hbody).bind ((ih hrest).build rfl)

theorem reads_sigMaterial {s : LastCrossSignedState} {b : Bytes} (hb : s.sigMaterial = .ok b) :
    Reads (readSigMaterial s.shape) b s.covered := by
  obtain ⟨capacity, hcapacity, hb⟩ := bind_eq_ok.mp hb
  obtain ⟨initial, hinitial, hb⟩ := bind_eq_ok.mp hb
  obtain ⟨localBalance, hlocal, hb⟩ := bind_eq_ok.mp hb
  obtain ⟨remoteBalance, hremote, hb⟩ := bind_eq_ok.mp hb
  obtain ⟨incoming, hincoming, hb⟩ := bind_eq_ok.mp hb
  obtain ⟨outgoing, houtgoing, hb⟩ := bind_eq_ok.mp hb
  cases hb
  simp only [List.append_assoc]
  refine (reads_bytes rfl).bind ?_
  refine (reads_u64Le hcapacity).bind ?_
  refine (reads_u64Le hinitial).bind ?_
  refine (reads_u32Le s.blockDay).bind ?_
  refine (reads_u64Le hlocal).bind ?_
  refine (reads_u64Le hremote).bind ?_
  refine (reads_u32Le s.localUpdates).bind ?_
  refine (reads_u32Le s.remoteUpdates).bind ?_
  refine (reads_sigHtlcs hincoming).bind ?_
  refine (reads_sigHtlcs houtgoing).bind ?_
  exact (reads_bool s.isHost).build rfl

/-! ### What the material fixes -/

/-- The host's flag is the last byte. -/
theorem sigMaterial_isHost {s : LastCrossSignedState} {b : Bytes} (hb : s.sigMaterial = .ok b) :
    b.getLast? = some (if s.isHost then 1 else 0) := by
  obtain ⟨_, _, hb⟩ := bind_eq_ok.mp hb
  obtain ⟨_, _, hb⟩ := bind_eq_ok.mp hb
  obtain ⟨_, _, hb⟩ := bind_eq_ok.mp hb
  obtain ⟨_, _, hb⟩ := bind_eq_ok.mp hb
  obtain ⟨_, _, hb⟩ := bind_eq_ok.mp hb
  obtain ⟨_, _, hb⟩ := bind_eq_ok.mp hb
  cases hb
  exact List.getLast?_concat

/-- Two states with the same material have the same host flag, and agree on all that a signature covers exactly if the
    lengths that the material leaves out are the same. -/
theorem sigMaterial_injective_iff (s t : LastCrossSignedState) (b : Bytes) (hs : s.sigMaterial = .ok b)
    (ht : t.sigMaterial = .ok b) : s.isHost = t.isHost ∧ (SignedAlike s t ↔ s.shape = t.shape) := by
  have hflag : (if s.isHost then (1 : UInt8) else 0) = if t.isHost then 1 else 0 :=
    Option.some.inj ((sigMaterial_isHost hs).symm.trans (sigMaterial_isHost ht))
  refine ⟨?_, ?_, ?_⟩
  · cases hs' : s.isHost <;> cases ht' : t.isHost <;> simp_all
  · intro h
    rw [shape, shape, h.refund, h.incoming, h.outgoing]
  · intro h
    have hreads := reads_sigMaterial ht
    rw [← h] at hreads
    exact signedAlike_of_covered ((reads_sigMaterial hs).ends.unique hreads.ends)

theorem sampleState_material : ∃ b, HostedMessage.sampleState.sigMaterial = .ok b := by
  have hok : HostedMessage.sampleState.sigMaterial.isOk = true := by decide +kernel
  cases hb : HostedMessage.sampleState.sigMaterial with
  | error e =>
    rw [hb] at hok
    cases hok
  | ok b => exact ⟨b, rfl⟩

theorem sigMaterial_injective_resigned :
    SignedAlike HostedMessage.sampleState { HostedMessage.sampleState with localSigOfRemote := ByteVec.fill 64 9 } := by
  obtain ⟨b, hb⟩ := sampleState_material
  have hb' : { HostedMessage.sampleState with localSigOfRemote := ByteVec.fill 64 9 }.sigMaterial = .ok b := by
    rw [← hb]
    rfl
  exact (sigMaterial_injective_iff _ _ b hb hb').2.mpr rfl

/-- Without outgoing HTLCs, the incoming ones may as well be the outgoing ones. -/
theorem sigMaterial_moved {s : LastCrossSignedState} (h : s.outgoingHtlcs = []) :
    { s with incomingHtlcs := [], outgoingHtlcs := s.incomingHtlcs }.sigMaterial = s.sigMaterial := by
  have hnil : sigHtlcs [] = pure [] := rfl
  simp only [sigMaterial, h, hnil, pure_bind, List.append_nil]

theorem sigMaterial_ambiguous : ¬ ∀ (s t : LastCrossSignedState) (b : Bytes), s.sigMaterial = .ok b →
    t.sigMaterial = .ok b → SignedAlike s t := by
  intro hall
  obtain ⟨b, hb⟩ := sampleState_material
  have hmoved := sigMaterial_moved (s := HostedMessage.sampleState) rfl
  cases (hall _ _ b hb (hmoved.trans hb)).incoming

end LastCrossSignedState
end Canopus
