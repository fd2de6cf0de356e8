import Canopus.Lib.Atomic
import Canopus.Theorems.ForwardAmount
import Canopus.Theorems.Outcomes
import Canopus.Theorems.RoutingMaximum

/-! What `set_channel` makes of a channel. Its checks all come before its one write, and nothing after the write can
    fail it but the store: the messages are sent on a best-effort basis. So a request that is refused has changed
    nothing, and one that is granted leaves parameters that fit together. -/

namespace Canopus
open Effect Fallible

variable {H : Host} {w : World} {peer : PublicKey} {d : ChannelData} {params : SetChannelParams} {α : Type}
  {A : Choice → World → Call → Prop}

/-- The store answers, and so does the node when it is asked for the block height. Anything else may fail. -/
def Served (x : Choice) (_ : World) (c : Call) : Prop := c.isStore = true ∨ c = .getBlockHeight → x.fails = false

/-! ### The store when it answers -/

theorem succeeds_saveChannel {d' : ChannelData} :
    Succeeds exec Served (saveChannel peer d' none) w fun _ w' => w' = w.put .channels peer d' := by
  unfold Succeeds
  refine wp_saveChannel.mono ?_
  intro r w' h
  cases h with
  | created | updated => exact ⟨(), rfl, rfl⟩
  | failed hx hc hf => cases hf.symm.trans (hx (Or.inl hc))

theorem succeeds_loadExisting (hd : w.channel peer = some d) :
    Succeeds exec Served (loadExisting peer) w fun d' w' => d' = d ∧ w' = w := by
  obtain ⟨g, hl⟩ := Table.exists_entry hd
  have hload : Succeeds exec Served (loadChannel peer) w fun r w' => r = some d ∧ w' = w := by
    refine Succeeds.bind (R := fun r w' => r = .ok (d, g) ∧ w' = w) (Succeeds.ask ?_) ?_
    · intro x hx
      simp [exec, hx (Or.inl rfl), hl]
    · rintro _ _ ⟨rfl, rfl⟩
      exact Succeeds.pure ⟨rfl, rfl⟩
  refine Succeeds.bind hload ?_
  rintro _ _ ⟨rfl, rfl⟩
  exact Succeeds.pure ⟨rfl, rfl⟩

/-! ### Checks -/

theorem atomic_loadExisting : Atomic exec A (loadExisting peer) w fun d w' => w' = w ∧ w.channel peer = some d := by
  have hleads : Leads exec A (loadExisting peer) w fun d _ => w.channel peer = some d :=
    does_loadExisting.post fun _ _ h => h.2
  exact hleads.checks (Reading.loadExisting peer)

/-- The parameters of a channel and its routing policy fit together. -/
structure Fits (init : InitHostedChannel) (routing : ChannelRoutingPolicy) : Prop where
  minimum : init.htlcMinimumMsat ≤ routing.htlcMaximumMsat
  maximum : routing.htlcMaximumMsat ≤ init.channelCapacityMsat

theorem atomic_checkRouting {init : InitHostedChannel} {routing : ChannelRoutingPolicy} :
    Atomic exec A (checkRouting init routing) w fun _ w' => w' = w ∧ Fits init routing := by
  unfold checkRouting
  split
  · exact Atomic.throw
  rename_i hmax
  split
  · exact Atomic.throw
  rename_i hmin
  exact Atomic.pure ⟨rfl, UInt64.not_lt.mp hmin, UInt64.not_lt.mp hmax⟩

theorem atomic_okOr {e : ChannelError} {r : Option α} :
    Atomic exec A (okOr e r) w fun a w' => w' = w ∧ r = some a := by
  cases r with
  | none => exact Atomic.throw
  | some a => exact Atomic.pure ⟨rfl, rfl⟩

theorem Reading.atomic {x : Ctl α} (h : Reading x) : Atomic exec A x w fun _ w' => w' = w ∧ True := by
  have hleads : Leads exec A x w fun _ _ => True := h.does.post fun _ _ _ => trivial
  exact hleads.checks h

/-! ### Proposing -/

/-- The state in which the channel is, or will be once the client has accepted. -/
def ChannelData.effective (d : ChannelData) : LastCrossSignedState := d.proposedOverride.getD d.lcss

/-- What a proposal says of the record that it is made for. -/
structure Proposes (d : ChannelData) (s : LastCrossSignedState) : Prop where
  funds : s.localBalanceMsat.toNat + s.remoteBalanceMsat.toNat = s.initHostedChannel.channelCapacityMsat.toNat
  incoming : s.incomingHtlcs = []
  outgoing : s.outgoingHtlcs = []
  localUpdates : s.localUpdates = d.lcss.localUpdates + 1
  remoteUpdates : s.remoteUpdates = d.lcss.remoteUpdates + 1

/-- What a granted request makes of the record `d`. -/
structure Updated (params : SetChannelParams) (d d' : ChannelData) : Prop where
  lcss : d'.lcss = d.lcss
  routing : ∃ r ∈ d'.routingPolicy, Fits d'.effective.initHostedChannel r
  proposed : d'.proposedOverride.isSome ↔ params.affectsLcss = true ∨ deriveStatus d = .overriding
  proposal : ∀ s ∈ d'.proposedOverride, Proposes d s

/-- Whether the peer has been told of the update makes no difference. -/
theorem Updated.told {d' : ChannelData} {pending : Bool} (h : Updated params d d') :
    Updated params d { d' with channelUpdatePending := pending } where
  lcss := h.lcss
  routing := h.routing
  proposed := h.proposed
  proposal := h.proposal

/-- Signing changes nothing that a proposal is checked for. -/
theorem Proposes.sign {init : InitHostedChannel} {day : UInt32} {balance remainder : UInt64} {s : LastCrossSignedState}
    (hb : checkedSub init.channelCapacityMsat remainder = some balance)
    (hs : (overrideLcss d init day balance remainder).sign H.crypto H.nodeSecret = .ok s) :
    Proposes d s ∧ s.initHostedChannel = init := by
  obtain ⟨hash, -, rfl⟩ := sign_eq_ok hs
  exact ⟨⟨(checkedSub_eq_some hb).symm, rfl, rfl, rfl, rfl⟩, rfl⟩

theorem atomic_signFor {s : LastCrossSignedState} :
    Atomic exec A (signFor H peer s) w fun t w' =>
      s.sign H.crypto H.nodeSecret = .ok t ∧ w' = w.noteSigned peer t := by
  unfold signFor
  cases hs : s.sign H.crypto H.nodeSecret with
  | error e => exact Atomic.commit (R := fun _ _ => False) Atomic.throw fun _ _ h => h.elim
  | ok t =>
    refine Atomic.commit (R := fun t' w' => t' = t ∧ w' = w) (Atomic.pure ⟨rfl, rfl⟩) ?_
    rintro _ v ⟨rfl, rfl⟩
    refine Succeeds.bind (Succeeds.ask (R := fun _ w' => w' = v.noteSigned peer _) fun x _ => rfl) ?_
    rintro _ _ rfl
    exact Succeeds.pure ⟨rfl, rfl⟩

/-- A proposal is persisted once it is signed. -/
theorem atomic_proposeState {reason : LocalError} {proposal : LastCrossSignedState} :
    Atomic exec Served (proposeState H peer d reason proposal) w fun d' w' => w'.channel peer = some d' ∧
      ∃ s, proposal.sign H.crypto H.nodeSecret = .ok s ∧ d' = proposedData d reason s := by
  unfold proposeState
  refine Atomic.commit atomic_signFor ?_
  rintro s _ ⟨hs, rfl⟩
  refine Succeeds.bind succeeds_saveChannel ?_
  rintro _ _ rfl
  exact Succeeds.pure ⟨World.channel_put, s, hs, rfl⟩

/-- A message is tried, and leaves the record as it is. -/
theorem Silent.tried {x : Ctl α} (h : Silent x) (peer : PublicKey) :
    Succeeds exec A (Canopus.logged x) w fun _ w' => w'.channel peer = w.channel peer := by
  refine Succeeds.bind (Stays.attempted h) ?_
  intro _ w' hquiet
  exact Succeeds.pure (hquiet.channel peer)

theorem atomic_setChannelOverride {base : LastCrossSignedState} {routing : ChannelRoutingPolicy}
    (hp : params.affectsLcss = true ∨ deriveStatus d = .overriding) :
    Atomic exec Served (setChannelOverride H peer d base params routing) w fun _ w' =>
      ∃ d', w'.channel peer = some d' ∧ Updated params d d' := by
  unfold setChannelOverride
  dsimp only
  split
  · exact Atomic.throw
  refine Atomic.bind atomic_okOr ?_
  intro balance hbalance
  refine Atomic.bind atomic_checkRouting ?_
  intro _ hfits
  refine Atomic.bind Reading.currentBlockDay.atomic ?_
  intro day _
  refine Atomic.commit atomic_proposeState ?_
  rintro d' w₁ ⟨hd', s, hs, rfl⟩
  obtain ⟨hproposes, hinit⟩ := Proposes.sign hbalance hs
  refine Succeeds.bind ((Silent.sendFirstError H peer _).tried peer) ?_
  intro _ w₂ hw₂
  refine ((Silent.sendMessage peer _ rfl).tried peer).post ?_
  intro _ w₃ hw₃
  refine ⟨_, hw₃.trans (hw₂.trans hd'), rfl, ⟨routing, rfl, ?_⟩, iff_of_true rfl hp, ?_⟩
  · exact hinit.symm ▸ hfits
  · rintro t ⟨⟩
    exact hproposes

/-! ### Routing -/

/-- A record in which only the note of a pending update differs. -/
def SameButPending (d d' : ChannelData) : Prop := ∃ pending, d' = { d with channelUpdatePending := pending }

/-- The announcement of an update takes its note back, or does nothing to the record. -/
theorem does_sendPendingChannelUpdate_record (hd : w.channel peer = some d) :
    Does exec A (RecordStep peer (SameButPending d)) (fun _ => True) (sendPendingChannelUpdate H peer) w
      fun _ _ => True := by
  unfold sendPendingChannelUpdate
  refine Does.bind does_loadExisting ?_
  intro d₁ _ hpost
  obtain ⟨rfl, hd₁⟩ := hpost
  obtain rfl : d₁ = d := Option.some.inj (hd₁.symm.trans hd)
  split
  · exact Does.pure trivial
  refine Does.bind (Silent.sendChannelUpdate H peer).bookless.does_record fun _ w' hsame => ?_
  refine Does.bind does_loadExisting ?_
  intro d₂ _ hpost
  obtain ⟨rfl, hd₂⟩ := hpost
  obtain rfl : d₂ = d₁ := Option.some.inj (hd₂.symm.trans (hsame.trans hd))
  exact (does_saveChannel_record fun _ => ⟨false, rfl⟩).post fun _ _ _ => trivial

theorem atomic_setChannelRouting {routing : ChannelRoutingPolicy} (hs : deriveStatus d = .active)
    (hp : ¬ params.affectsLcss = true) :
    Atomic exec Served (setChannelRouting H peer d routing) w fun _ w' =>
      ∃ d', w'.channel peer = some d' ∧ Updated params d d' := by
  have hnone := no_proposal_of_status (Or.inl hs)
  have hupdated (hfits : Fits d.lcss.initHostedChannel routing) :
      Updated params d { d with routingPolicy := some routing, channelUpdatePending := true } := by
    refine ⟨rfl, ⟨routing, rfl, ?_⟩, ?_, ?_⟩
    · simpa [ChannelData.effective, hnone] using hfits
    · simp [hnone, hp, hs]
    · simp [hnone]
  unfold setChannelRouting
  refine Atomic.bind atomic_checkRouting ?_
  intro _ hfits
  refine Atomic.commit succeeds_saveChannel.atomic ?_
  rintro _ _ rfl
  refine Succeeds.bind (Does.attempted (does_sendPendingChannelUpdate_record World.channel_put)) ?_
  intro _ w' ht
  refine Succeeds.pure ?_
  rcases RecordStep.trace ht with hsame | ⟨_, hd', pending, rfl⟩
  · exact ⟨_, hsame.trans World.channel_put, hupdated hfits⟩
  · exact ⟨_, hd', (hupdated hfits).told⟩

/-! ### The request -/

theorem atomic_updateChannel (hs : deriveStatus d ≠ .overriding → deriveStatus d = .active) :
    Atomic exec Served (updateChannel H peer d params) w fun _ w' =>
      ∃ d', w'.channel peer = some d' ∧ Updated params d d' := by
  unfold updateChannel
  refine Atomic.bind (Reading.routingPolicyForData H d).atomic ?_
  intro r _
  dsimp only
  split
  · rename_i hover
    exact Atomic.bind atomic_okOr fun base _ => atomic_setChannelOverride (Or.inr hover)
  rename_i hover
  split
  · exact atomic_setChannelOverride (Or.inl ‹_›)
  · exact atomic_setChannelRouting (hs hover) ‹_›

theorem atomic_setChannel {force : Bool} :
    Atomic exec Served (setChannel H peer params force) w fun r w' => r.2 = true →
      ∃ d d', w.channel peer = some d ∧ w'.channel peer = some d' ∧ Updated params d d' := by
  unfold setChannel
  refine Atomic.bind atomic_loadExisting ?_
  intro d hd
  split
  · refine Atomic.bind (Reading.channelParametersForData H d).atomic ?_
    intro p _
    exact Atomic.pure fun h => nomatch h
  split
  · exact Atomic.throw
  rename_i hs
  split
  · exact Atomic.throw
  split
  · exact Atomic.throw
  refine Atomic.commit (atomic_updateChannel fun h => by_contra fun h' => hs ⟨h', h⟩) ?_
  rintro _ w' ⟨d', hd', hupdated⟩
  refine Succeeds.bind (succeeds_loadExisting hd') ?_
  rintro d' w₁ ⟨rfl, rfl⟩
  refine Succeeds.bind (R := fun _ w' => w' = w₁) ?_ ?_
  · -- The record has a routing policy now, so that of new channels is not read.
    obtain ⟨r, hr, hfits⟩ := hupdated.routing
    unfold channelParametersForData routingPolicyForData
    rw [hr]
    exact Succeeds.pure rfl
  · rintro _ _ rfl
    exact Succeeds.pure fun _ => ⟨_, _, hd, hd', hupdated⟩

/-- With the store and the block height at hand, a request that is refused has changed nothing and sent nothing, and
    one that is granted leaves parameters that fit together, and a proposal that is sound if it makes one. -/
theorem setChannel_all_or_nothing (H : Host) (w : World) (peer : PublicKey) (params : SetChannelParams) (force : Bool)
    (o : Nat → Choice) (hserved : Prog.Kept exec Served o (setChannel H peer params force).run w) :
    (∀ e, (Prog.run exec o (setChannel H peer params force).run w).1 = .error e →
      (Prog.run exec o (setChannel H peer params force).run w).2 = w) ∧
    ∀ p, (Prog.run exec o (setChannel H peer params force).run w).1 = .ok (p, true) →
      ∃ d d', w.channel peer = some d ∧
        (Prog.run exec o (setChannel H peer params force).run w).2.channel peer = some d' ∧ Updated params d d' := by
  obtain ⟨herr, hok⟩ := Atomic.run (atomic_setChannel (H := H)) hserved
  exact ⟨herr, fun p hp => hok (p, true) hp rfl⟩

/-- Twice the capacity, and HTLCs up to it. -/
def doubledParams : SetChannelParams := ⟨some 2000000, none, none, none, none, none, some 2000000, none⟩

/-- The operator doubles an open channel; the client is to be told of the proposal. -/
theorem setChannel_all_or_nothing_doubled : ∃ d d', openWorld.channel openPeer = some d ∧
    (Prog.run exec (fun _ => .calm) (setChannel .transparent openPeer doubledParams true).run openWorld).2.channel
      openPeer = some d' ∧ Updated doubledParams d d' := by
  have hserved : Prog.Kept exec Served (fun _ => .calm) (setChannel .transparent openPeer doubledParams true).run
      openWorld := Prog.kept_of_forall fun _ _ _ _ => rfl
  obtain ⟨-, hok⟩ := setChannel_all_or_nothing .transparent openWorld openPeer doubledParams true _ hserved
  have hrun : ((Prog.run exec (fun _ => .calm)
      (setChannel .transparent openPeer doubledParams true).run openWorld).1.toOption.any (·.2)) = true := by
    decide +kernel
  obtain ⟨⟨p, updated⟩, hp, rfl⟩ := exists_of_any hrun
  exact hok p (eq_ok_of_toOption hp)

end Canopus
