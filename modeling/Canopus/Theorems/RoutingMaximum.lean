import Canopus.Theorems.Fold
import Canopus.Theorems.Overrides

/-! The largest HTLC that a channel advertises. It is part of the routing policy, which the operator tunes alone, while
    the capacity is part of the cross-signed state, which the operator proposes to replace and the peer may present.
    Only `set_channel` and a resize look at both. -/

namespace Canopus
open Effect

variable {H : Host} {K : Ctx} {w w' : World} {p : PublicKey} {d d' : ChannelData} {s t : LastCrossSignedState} {c : Change}

/-- The record has a routing policy whose maximum the capacity of `s` holds. -/
def RoutesWithin (d : ChannelData) (s : LastCrossSignedState) : Prop :=
  ∃ r ∈ d.routingPolicy, r.htlcMaximumMsat ≤ s.initHostedChannel.channelCapacityMsat

theorem RoutesWithin.of_capacity (h : RoutesWithin d s) (hr : d'.routingPolicy = d.routingPolicy)
    (hc : t.initHostedChannel.channelCapacityMsat = s.initHostedChannel.channelCapacityMsat) : RoutesWithin d' t := by
  obtain ⟨r, hmem, hle⟩ := h
  exact ⟨r, hr ▸ hmem, hc ▸ hle⟩

/-- Where a proposal is pending, it is the one that will be active again. -/
structure RoutedRecord (d : ChannelData) : Prop where
  settled : d.proposedOverride = none → RoutesWithin d d.lcss
  proposal : ∀ s ∈ d.proposedOverride, RoutesWithin d s

/-- An override is proposed only where the current capacity still holds the maximum, and so does that of a state
    that is adopted while no proposal is pending. -/
structure RespectsRouting (H : Host) (w : World) (op : Op) : Prop where
  proposed : ∀ p balance d, op = .proposeOverride p balance → w.channel p = some d → RoutesWithin d d.lcss
  presented : ∀ p e m d, op = .message p e (.lastCrossSignedState m) → w.channel p = some d → Adopts H p d m →
    d.proposedOverride = none → RoutesWithin d m

theorem no_proposal_of_status (h : deriveStatus d = .active ∨ deriveStatus d = .opening) : d.proposedOverride = none := by
  by_contra hp
  cases hs : d.suspended with
  | false =>
    have hover := overriding_iff.mpr ⟨hs, hp⟩
    rcases h with h | h
    · cases hover.symm.trans h
    · cases hover.symm.trans h
  | true =>
    have hsus : deriveStatus d = .suspended := by
      rw [deriveStatus, if_pos hs]
    rcases h with h | h
    · cases hsus.symm.trans h
    · cases hsus.symm.trans h

/-- A record whose state alone is replaced, by one with the same capacity. -/
theorem RoutedRecord.same_capacity (h : RoutedRecord d) (hr : d'.routingPolicy = d.routingPolicy)
    (hp : d'.proposedOverride = d.proposedOverride)
    (hc : d'.lcss.initHostedChannel.channelCapacityMsat = d.lcss.initHostedChannel.channelCapacityMsat) :
    RoutedRecord d' where
  settled hnone := (h.settled (hp.symm.trans hnone)).of_capacity hr hc
  proposal s hs := (h.proposal s (hp ▸ hs)).of_capacity hr rfl

theorem RoutedRecord.initial (policy : ChannelPolicy) (refund : Bytes) : RoutedRecord (initialData policy refund) where
  settled _ := ⟨.fromPolicy policy, rfl, UInt64.le_refl _⟩
  proposal _ hs := nomatch hs

theorem RoutedRecord.changes (h : RoutedRecord d) (hop : RespectsRouting K.host K.start K.op)
    (hc : Changes K.host p c d d') (ho : c.Cause K w p d) : RoutedRecord d' := by
  cases hc with
  | established _ _ hl => exact h.same_capacity rfl rfl (SignedAlike.sign hl).capacity
  | @committed _ m next _ _ _ hn _ hl =>
    have hinit : next.initHostedChannel = d.lcss.initHostedChannel := (lcssNext_keeps hn).2.init
    refine h.same_capacity rfl rfl ?_
    exact (SignedAlike.sign hl).capacity.trans (congrArg (·.channelCapacityMsat) hinit)
  | overridden _ hp _ hl =>
    exact ⟨fun _ => (h.proposal _ hp).of_capacity rfl (SignedAlike.sign hl).capacity, fun _ hs => nomatch hs⟩
  | @resized _ m cap bal lcss r max hs _ _ _ _ _ _ hl hx =>
    have hcap : lcss.initHostedChannel.channelCapacityMsat = cap := (SignedAlike.sign hl).capacity
    have hnone := no_proposal_of_status (Or.inl hs)
    refine ⟨fun _ => ⟨r, rfl, ?_⟩, fun s hs => nomatch hnone.symm.trans hs⟩
    rw [hx]
    exact hcap ▸ UInt64.le_refl _
  | @retuned _ r hs hx =>
    have hnone := no_proposal_of_status (Or.inl hs)
    exact ⟨fun _ => ⟨r, rfl, hx⟩, fun s hs => nomatch hnone.symm.trans hs⟩
  | @proposed _ _ reason init day bal rem r pending proposal hd _ hl hx =>
    subst hd
    refine ⟨fun hs => (nomatch hs), ?_⟩
    rintro s ⟨⟩
    have hcap : proposal.initHostedChannel.channelCapacityMsat = init.channelCapacityMsat := (SignedAlike.sign hl).capacity
    rcases hx with ⟨x, rfl, hle⟩ | ⟨rfl, rfl, rfl⟩
    · exact ⟨x, rfl, hcap ▸ hle⟩
    · obtain ⟨⟨-, hreason⟩ | ⟨⟨balance, ho⟩, -⟩, hstart⟩ := ho
      · cases hreason
      · exact (hop.proposed p balance d ho hstart).of_capacity rfl hcap
  | @adopted _ m hown hv hl hr hne =>
    obtain ⟨⟨e, ho⟩, hstart⟩ := ho
    refine ⟨fun hnone => ?_, fun s hs => (h.proposal s hs).of_capacity rfl rfl⟩
    exact (hop.presented p e m d ho hstart ⟨hown, hv, hl, hr, hne⟩ hnone).of_capacity rfl rfl
  | errored _ hd =>
    subst hd
    exact h.same_capacity rfl rfl rfl
  | _ => exact h.same_capacity rfl rfl rfl

/-- In every run whose operations respect the routing policies, an active channel routes no more than its capacity. -/
theorem routing_maximum_within_capacity (H : Host) (w : World) (p : PublicKey) (d : ChannelData)
    (hw : Reachable H (Guard.ofOp (RespectsRouting H)) w) (hd : w.channel p = some d) (ha : deriveStatus d = .active) :
    ∃ r ∈ d.routingPolicy, r.htlcMaximumMsat ≤ d.lcss.initHostedChannel.channelCapacityMsat := by
  have hrecord : RoutedRecord d := by
    refine hw.each_record (Q := fun _ d => RoutedRecord d) (fun _ => RoutedRecord.initial) ?_ p d hd
    intro K w p c d d' hK hop hc ho h
    subst hK
    exact h.changes hop hc ho
  exact hrecord.settled (no_proposal_of_status (Or.inl ha))

/-- The operator asks for twice the capacity and the maximum, which takes an override. -/
def doubled : Op := .setChannel openPeer ⟨some 2000000, none, none, none, none, none, some 2000000, none⟩ true

/-- A check of the condition that allows no presented states. -/
def respectsRouting (w : World) : Op → Bool
  | .proposeOverride p _ => (w.channel p).all fun d => d.routingPolicy.any fun r =>
    decide (r.htlcMaximumMsat ≤ d.lcss.initHostedChannel.channelCapacityMsat)
  | .message _ _ (.lastCrossSignedState _) => false
  | _ => true

theorem respectsRouting_sound {op : Op} (h : respectsRouting w op = true) : RespectsRouting H w op where
  proposed := by
    rintro p balance d rfl hd
    rw [respectsRouting, hd, Option.all_some] at h
    obtain ⟨r, hr, hle⟩ := exists_of_any h
    exact ⟨r, hr, of_decide_eq_true hle⟩
  presented := by
    rintro p e m d rfl
    cases h

/-- The client accepts, and the channel has its new capacity. -/
theorem routing_maximum_within_capacity_doubled : ∃ d,
    (calmRun .transparent (openScript ++ [fun _ => doubled, clientAccepts .transparent openKey])).channel openPeer = some d ∧
      d.lcss.initHostedChannel.channelCapacityMsat = 2000000 ∧
      ∃ r ∈ d.routingPolicy, r.htlcMaximumMsat ≤ d.lcss.initHostedChannel.channelCapacityMsat := by
  have hrun : (followsOps respectsRouting .transparent World.empty
        (openScript ++ [fun _ => doubled, clientAccepts .transparent openKey]) &&
      ((calmRun .transparent (openScript ++ [fun _ => doubled, clientAccepts .transparent openKey])).channel openPeer).any
        fun d => decide (deriveStatus d = .active ∧ d.lcss.initHostedChannel.channelCapacityMsat = 2000000)) = true := by
    decide +kernel
  obtain ⟨hfollows, hrun⟩ := Bool.and_eq_true_iff.mp hrun
  obtain ⟨d, hd, hrun⟩ := exists_of_any hrun
  obtain ⟨ha, hcap⟩ := of_decide_eq_true hrun
  have hw : Reachable .transparent (Guard.ofOp (RespectsRouting .transparent)) _ :=
    calmRun_follows (followsOps_sound (fun _ _ => respectsRouting_sound) hfollows)
  exact ⟨d, hd, hcap, routing_maximum_within_capacity .transparent _ openPeer d hw hd ha⟩

/-- The operator proposes an override before the client has accepted: the old capacity comes back, the new maximum
    stays. -/
theorem routing_maximum_exceeds_capacity : ¬ ∀ (H : Host) (w : World) (p : PublicKey) (d : ChannelData),
    Reachable H Guard.free w → w.channel p = some d → deriveStatus d = .active →
      ∃ r ∈ d.routingPolicy, r.htlcMaximumMsat ≤ d.lcss.initHostedChannel.channelCapacityMsat := by
  intro hall
  have hrun : ((calmRun .transparent (openScript ++ [fun _ => doubled, fun _ => .proposeOverride openPeer none,
      clientAccepts .transparent openKey])).channel openPeer).any (fun d => decide (deriveStatus d = .active ∧
        d.routingPolicy.any (fun r => decide (r.htlcMaximumMsat = 2000000)) = true ∧
        d.lcss.initHostedChannel.channelCapacityMsat = 1000000)) = true := by
    decide +kernel
  obtain ⟨d, hd, hrun⟩ := exists_of_any hrun
  obtain ⟨ha, hr, hcap⟩ := of_decide_eq_true hrun
  obtain ⟨r, hr, hmax⟩ := exists_of_any hr
  obtain ⟨r', hr', hle⟩ := hall .transparent _ openPeer d (calmRun_reachable _ _) hd ha
  obtain rfl := Option.some.inj (hr.symm.trans hr')
  rw [of_decide_eq_true hmax, hcap] at hle
  exact absurd hle (by decide)

end Canopus
