import Canopus.Theorems.Outcomes
import Canopus.Theorems.Restoration

/-! The limits that a channel puts on its HTLCs. A signature covers the capacity and the initial balance of
    `init_hosted_channel`, but not the limits beside them; adopting a state takes these over from the
    message, so they are then what the peer has written there. -/

namespace Canopus
open Effect Fallible

variable {H : Host} {E : Choice → Prop} {p : PublicKey} {w : World} {d d' : ChannelData} {m : LastCrossSignedState}
  {past : List World}

/-- The limits that no signature covers. -/
structure Limits where
  maxHtlcValueInFlightMsat : UInt64
  htlcMinimumMsat : UInt64
  maxAcceptedHtlcs : UInt16
  deriving DecidableEq

def InitHostedChannel.limits (i : InitHostedChannel) : Limits where
  maxHtlcValueInFlightMsat := i.maxHtlcValueInFlightMsat
  htlcMinimumMsat := i.htlcMinimumMsat
  maxAcceptedHtlcs := i.maxAcceptedHtlcs

/-- The host itself has put the parameters into the record: those of a new channel, or of a proposal. -/
def PutForward (d : ChannelData) (i : InitHostedChannel) : Prop :=
  (∃ policy refund, d = initialData policy refund ∧ i = initOf policy) ∨
    ∃ s, d.proposedOverride = some s ∧ i = s.initHostedChannel

/-- The host has put the parameters forward for the channel of `p`, since that channel is there. -/
def OfferedByHost (past : List World) (p : PublicKey) (i : InitHostedChannel) : Prop :=
  ∃ w ∈ past.takeWhile fun w => (w.channel p).isSome, ∃ d, w.channel p = some d ∧ PutForward d i

/-- The limits are those of the record `d`, or ones that the host has put forward. -/
def HostLimits (past : List World) (p : PublicKey) (d : ChannelData) (l : Limits) : Prop :=
  l = d.lcss.initHostedChannel.limits ∨ ∃ i, OfferedByHost past p i ∧ l = i.limits

/-! ### Adopting -/

/-- Where no call fails, a message that is adopted replaces the state. -/
theorem surely_adopted (hE : Unfailing E) (hd : w.channel p = some d) (hm : Adopts H p d m) :
    Surely exec E (handleLcss H p m) (fun _ w' => w'.channel p = some (adoptedData d m)) w := by
  obtain ⟨ho, hv, hl, hr, hne⟩ := hm
  unfold handleLcss
  refine (yields_loadExisting hE hd).bind ?_
  have hbehind : ¬ (m.reverse.localUpdates < d.lcss.localUpdates || m.reverse.remoteUpdates < d.lcss.remoteUpdates) = true := by
    simp only [Bool.or_eq_true, decide_eq_true_eq, not_or, UInt32.not_lt]
    exact ⟨hl, hr⟩
  rw [if_neg (by simp [ho]), if_neg (by simp [hv]), if_neg hbehind, if_neg hne]
  refine (yields_saveChannel hE).bind ?_
  refine (Stays.surely (Bookless.sendMessage p _)).mono ?_
  intro _ w' hq
  rw [hq.channel]
  exact World.channel_put

theorem channel_adopted (hd : w.channel p = some d) (hm : Adopts H p d m) (e : WireEncoding) :
    ((Op.message p e (.lastCrossSignedState m)).next H (fun _ => .calm) w).channel p = some (adoptedData d m) := by
  have hsure : Surely exec (· = .calm) ((Op.message p e (.lastCrossSignedState m)).program H)
      (fun _ w' => w'.channel p = some (adoptedData d m)) w :=
    surely_message (surely_adopted unfailing_calm hd hm)
  exact hsure.run fun _ => rfl

/-- Whatever the store does, the record keeps its limits or gets those of the message, and the latter only
    if the message is adopted. -/
theorem limits_after_message (hd : w.channel p = some d) (e : WireEncoding) (o : Nat → Choice)
    (hd' : ((Op.message p e (.lastCrossSignedState m)).next H o w).channel p = some d') :
    d'.lcss.initHostedChannel = d.lcss.initHostedChannel ∨
      Adopts H p d m ∧ d'.lcss.initHostedChannel = m.initHostedChannel := by
  by_cases h : d'.lcss = d.lcss
  · rw [h]
    exact Or.inl rfl
  · obtain ⟨hl, hm⟩ := adopts_of_replaced hd hd' h
    rw [hl]
    exact Or.inr ⟨hm, rfl⟩

/-- The host adds an HTLC to the client, so it has signed a state that is ahead of the stored one. -/
def aheadScript : List (World → Op) := openScript ++ [
  fun _ => .pay ⟨[Host.transparent.scid openPeer], 500, ByteVec.fill 32 3, 20, ByteVec.fill 32 4⟩]

/-- That state, signed by the client, with limits of the client's choice. -/
def relaxedState (l : Limits) : LastCrossSignedState :=
  let s := clientView .transparent openKey
    (((calmRun .transparent aheadScript).signed.getLast?.map (·.2)).getD (initialLcss Host.transparent.config.policy []))
  { s with initHostedChannel := { s.initHostedChannel with
    maxHtlcValueInFlightMsat := l.maxHtlcValueInFlightMsat
    htlcMinimumMsat := l.htlcMinimumMsat
    maxAcceptedHtlcs := l.maxAcceptedHtlcs } }

theorem relaxedState_limits (l : Limits) : (relaxedState l).initHostedChannel.limits = l := by
  unfold relaxedState InitHostedChannel.limits
  rfl

/-- The limits of the host's policy. -/
def hostLimits : Limits := (initOf Host.transparent.config.policy).limits

/-- Limits that let everything pass. -/
def noLimits : Limits := ⟨18446744073709551615, 0, 65535⟩

/-- What is put forward is stored: in the state of the channel, or in the proposal. -/
theorem PutForward.stored {i : InitHostedChannel} (h : PutForward d i) :
    i = d.lcss.initHostedChannel ∨ ∃ s ∈ d.proposedOverride, i = s.initHostedChannel := by
  rcases h with ⟨policy, refund, rfl, rfl⟩ | h
  · exact Or.inl rfl
  · exact Or.inr h

end Canopus
