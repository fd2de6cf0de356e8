import Canopus.Channel.Forward
import Canopus.Theorems.OnionPanics

/-! What is left of a failure that the host passes back. The failure is padded or cut to 256 bytes behind its length, so
    a failure onion of a downstream hop, which has that size already, loses its end. -/

namespace Canopus.Sphinx
open Mask

variable {P : Primitives} {sharedSecret : ByteVec 32} {message : Bytes}

/-- What the holder of the shared secret reads: the failure without the keystream of the key `um`. -/
def openFailure (P : Primitives) (sharedSecret : ByteVec 32) (wrapped : Bytes) : Bytes :=
  xorInPlace wrapped (chacha20Stream P (deriveKeys P sharedSecret).2.2 wrapped.length)

/-- Its length in two bytes, then the whole message, then zeros. -/
def Recovers (P : Primitives) (sharedSecret : ByteVec 32) (wrapped message : Bytes) : Prop :=
  ∃ padding, openFailure P sharedSecret wrapped =
    beBytes 2 message.length ++ message ++ List.replicate padding 0

theorem length_resize (data : Bytes) (n : Nat) : (resize data n).length = n := by
  rw [resize, List.length_append, List.length_take, List.length_replicate]
  omega

/-- The keystream comes off, and leaves the resized message. -/
theorem openFailure_wrap (P : Primitives) (sharedSecret : ByteVec 32) (message : Bytes) :
    openFailure P sharedSecret (wrapFailure P sharedSecret message) =
      resize (beBytes 2 (UInt16.ofNat message.length).toNat ++ message) 256 := by
  have hlength : (wrapFailure P sharedSecret message).length = 256 := by
    unfold wrapFailure xorInPlace
    rw [length_mask, length_resize]
  unfold openFailure
  rw [hlength]
  exact mask_mask xor_xor

/-- A message that fits is followed by zeros. -/
theorem openFailure_short (h : message.length ≤ 254) : openFailure P sharedSecret (wrapFailure P sharedSecret message) =
    beBytes 2 message.length ++ message ++ List.replicate (254 - message.length) 0 := by
  have hcount : (UInt16.ofNat message.length).toNat = message.length := toNat_count (by omega)
  have hpadding : 256 - (beBytes 2 message.length ++ message).length = 254 - message.length := by
    rw [List.length_append, beBytes_length]
    omega
  rw [openFailure_wrap, hcount, resize, hpadding, List.take_of_length_le]
  rw [List.length_append, beBytes_length]
  omega

/-- Of a longer one, the first 254 bytes are left. -/
theorem openFailure_long (h : 254 ≤ message.length) : openFailure P sharedSecret (wrapFailure P sharedSecret message) =
    beBytes 2 (UInt16.ofNat message.length).toNat ++ message.take 254 := by
  have hpadding : 256 - (beBytes 2 (UInt16.ofNat message.length).toNat ++ message).length = 0 := by
    rw [List.length_append, beBytes_length]
    omega
  rw [openFailure_wrap, resize, hpadding, List.replicate_zero, List.append_nil, List.take_append, beBytes_length,
    List.take_of_length_le (by rw [beBytes_length]; decide)]

theorem length_of_recovers (P : Primitives) (sharedSecret : ByteVec 32) (h : Recovers P sharedSecret (wrapFailure P sharedSecret message) message) :
    message.length ≤ 254 := by
  obtain ⟨padding, h⟩ := h
  have hlength := congrArg List.length h
  rw [openFailure_wrap, length_resize, List.length_append, List.length_append, beBytes_length] at hlength
  omega

/-- A failure message is recovered from its wrapping if it has at most 254 bytes. -/
theorem wrapFailure_recovers_iff (P : Primitives) (sharedSecret : ByteVec 32) (message : Bytes) :
    Recovers P sharedSecret (wrapFailure P sharedSecret message) message ↔ message.length ≤ 254 :=
  ⟨length_of_recovers P sharedSecret, fun h => ⟨_, openFailure_short h⟩⟩

end Canopus.Sphinx

namespace Canopus
open Sphinx

/-- The host with these primitives below its onions. -/
def Host.withOnions (H : Host) (P : Primitives) : Host :=
  { H with crypto := P.crypto H.crypto.signEcdsa H.crypto.verifyEcdsa }

/-- The failure that goes back along a link is recovered by the party with the link's shared secret if it has at most
    254 bytes. -/
theorem wrapForwardFailure_recovers_iff (H : Host) (P : Primitives) (link : ForwardLink) (sharedSecret : ByteVec 32)
    (failure : Bytes) :
    Recovers P sharedSecret
      (wrapForwardFailure (H.withOnions P) { link with sharedSecret := some sharedSecret } failure) failure ↔
    failure.length ≤ 254 :=
  wrapFailure_recovers_iff P sharedSecret failure

/-- A link to a payment that the node has sent for a client. -/
def paidLink : ForwardLink := ⟨1, 0, 2, 0, none, none, ByteVec.fill 32 0, some (ByteVec.fill 32 7)⟩

/-- The failure onion of a downstream hop has 256 bytes. -/
theorem wrapForwardFailure_onion : ¬ Recovers .transparent (ByteVec.fill 32 7)
    (wrapForwardFailure (Host.transparent.withOnions .transparent) paidLink (List.replicate 256 1))
    (List.replicate 256 1) := by
  intro h
  have hlength := length_of_recovers .transparent (ByteVec.fill 32 7) h
  rw [List.length_replicate] at hlength
  omega

end Canopus
