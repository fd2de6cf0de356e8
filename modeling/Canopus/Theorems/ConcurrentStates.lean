import Canopus.Theorems.Concurrency
import Canopus.Theorems.CrossSigned

/-! The signatures on what is stored, while operations run at the same time. A handler that writes back what it has
    read before may undo the commit of another one, but it takes the signatures along with the state that they are
    for. -/

namespace Canopus
open Effect

variable {H : Host} {p : PublicKey} {d d' : ChannelData} {c : Change} {s t : LastCrossSignedState} {cap balance : UInt64}

/-- The host has signed the state. -/
def HostSigned (H : Host) (s : LastCrossSignedState) : Prop := s.reverse.verifyRemoteSig H.crypto H.nodePublic = true

/-- The signature of the client is for the state at some capacity. At another one the host alone has more or less, by
    the difference. -/
def ClientHolds (H : Host) (p : PublicKey) (s : LastCrossSignedState) : Prop :=
  ∃ cap balance, (resizedLcss s cap balance).verifyRemoteSig H.crypto p = true ∧
    balance.toNat + s.initHostedChannel.channelCapacityMsat.toNat = s.localBalanceMsat.toNat + cap.toNat

theorem ClientHolds.of_verify (hv : s.verifyRemoteSig H.crypto p = true) : ClientHolds H p s := by
  have halike : SignedAlike (resizedLcss s s.initHostedChannel.channelCapacityMsat s.localBalanceMsat) s := by
    constructor <;> rfl
  exact ⟨_, _, (halike.verify rfl p).trans hv, rfl⟩

/-- A resize leaves the signature of the client as it is. -/
theorem ClientHolds.resized (h : ClientHolds H p s) (hb : resizedLocalBalance s cap = some balance)
    (hs : (resizedLcss s cap balance).sign H.crypto H.nodeSecret = .ok t) : ClientHolds H p t := by
  obtain ⟨signedCap, signedBalance, hv, hsum⟩ := h
  obtain ⟨hash, -, rfl⟩ := sign_eq_ok hs
  have halike : SignedAlike (resizedLcss { resizedLcss s cap balance with
      localSigOfRemote := H.crypto.signEcdsa hash H.nodeSecret } signedCap signedBalance)
      (resizedLcss s signedCap signedBalance) := by
    constructor <;> rfl
  refine ⟨signedCap, signedBalance, (halike.verify rfl p).trans hv, ?_⟩
  have hbalance := resizedLocalBalance_eq hb
  simp only [resizedLcss]
  omega

/-- The stored state of an established channel has the signatures of both parties, and a proposal that of the host. -/
structure Countersigned (H : Host) (p : PublicKey) (d : ChannelData) : Prop where
  lcss : d.established = true → HostSigned H d.lcss ∧ ClientHolds H p d.lcss
  proposal : ∀ s, d.proposedOverride = some s → HostSigned H s

theorem Countersigned.changes (hkey : H.SignsSoundly) (h : Countersigned H p d) (hc : Changes H p c d d') :
    Countersigned H p d' := by
  have both {s t : LastCrossSignedState} (hv : s.verifyRemoteSig H.crypto p = true)
      (hs : s.sign H.crypto H.nodeSecret = .ok t) : HostSigned H t ∧ ClientHolds H p t :=
    ⟨verify_sign_reverse hkey hs, .of_verify (verifyRemoteSig_sign hs hv)⟩
  cases hc with
  | established _ hv hl => exact ⟨fun _ => both hv hl, h.proposal⟩
  | committed _ _ _ hv hl => exact ⟨fun _ => both hv hl, h.proposal⟩
  | overridden _ _ hv hl => exact ⟨fun _ => both hv hl, fun s hs => by cases hs⟩
  | @adopted _ m hown hv =>
    refine ⟨fun _ => ⟨?_, .of_verify hv⟩, h.proposal⟩
    rw [HostSigned, LastCrossSignedState.reverse_reverse]
    exact hown
  | resized _ _ _ _ _ _ hb hl =>
    exact ⟨fun he => ⟨verify_sign_reverse hkey hl, (h.lcss he).2.resized hb hl⟩, h.proposal⟩
  | errored _ hd =>
    subst hd
    exact ⟨h.lcss, h.proposal⟩
  | proposed hd _ hl =>
    subst hd
    refine ⟨h.lcss, ?_⟩
    rintro s ⟨⟩
    exact verify_sign_reverse hkey hl
  | _ => exact ⟨h.lcss, h.proposal⟩

/-- Nothing is asked of states, terms and preimages. -/
def countersigned (H : Host) : Pledge where
  record p d := Countersigned H p d
  state _ _ := True
  terms _ _ := True
  preimage _ := True

theorem lasting_countersigned (hkey : H.SignsSoundly) : Lasting H (countersigned H) where
  config := trivial
  fair _ _ _ := trivial
  created _ _ _ _ := ⟨fun he => (by cases he), fun s hs => by cases hs⟩
  changes _ _ _ _ h hc _ := h.changes hkey hc
  signs _ _ _ _ _ _ _ := trivial
  replays _ _ _ _ _ _ _ := trivial

/-- However operations interleave, fail and are cut short, the stored state of an established channel carries the
    host's signature and that of its client, who has signed for its own balance, for the HTLCs and for the counters, if
    not for the capacity after a resize. A proposal carries the host's signature. -/
theorem interleavings_stay_signed (H : Host) (P : World → Op → Prop) (s : Crowd iface (Except ChannelError Unit) World)
    (p : PublicKey) (d : ChannelData) (hkey : H.SignsSoundly) (hs : Concurrent H P s) (hd : s.world.channel p = some d) :
    (d.established = true → HostSigned H d.lcss ∧ ClientHolds H p d.lcss) ∧
    ∀ t, d.proposedOverride = some t → HostSigned H t := by
  have hbooks := hs.inBooks (lasting_countersigned hkey)
    (fun _ op _ _ => op.brings_free (fun _ _ => trivial) fun _ _ => trivial) fun _ => trivial
  have h := hbooks.books.records p d hd
  exact ⟨h.lcss, h.proposal⟩

theorem interleavings_stay_signed_contradicted : ∃ d, contradicted.world.channel openPeer = some d ∧
    d.established = true ∧ HostSigned .transparent d.lcss ∧ ClientHolds .transparent openPeer d.lcss := by
  have hrun : (contradicted.world.channel openPeer).any (·.established) = true := by decide +kernel
  obtain ⟨d, hd, he⟩ := exists_of_any hrun
  exact ⟨d, hd, he, (interleavings_stay_signed .transparent _ contradicted openPeer d transparent_signsSoundly
    concurrent_contradicted hd).1 he⟩

end Canopus
