import Canopus.Theorems.Overrides

/-! Proposals that another one has replaced. The host has signed each of them, and the client keeps the
    signatures. By a `state_update` only the pending proposal can be accepted, and the counters keep commits
    and later proposals apart from the earlier ones. What does not look at the pending proposal is the
    reconciliation of a presented state: it takes a replaced proposal as it takes any state that is ahead. -/

namespace Canopus
open Effect

variable {H : Host} {K : Ctx} {w w' : World} {p : PublicKey} {d d' : ChannelData} {c : Change} {act : Act}
  {s t : LastCrossSignedState} {past : List World}

theorem SignedAlike.symm (h : SignedAlike s t) : SignedAlike t s where
  isHost := h.isHost.symm
  refund := h.refund.symm
  capacity := h.capacity.symm
  initial := h.initial.symm
  blockDay := h.blockDay.symm
  localBalance := h.localBalance.symm
  remoteBalance := h.remoteBalance.symm
  localUpdates := h.localUpdates.symm
  remoteUpdates := h.remoteUpdates.symm
  incoming := h.incoming.symm
  outgoing := h.outgoing.symm

theorem SignedAlike.trans {r : LastCrossSignedState} (h : SignedAlike r s) (h' : SignedAlike s t) : SignedAlike r t where
  isHost := h.isHost.trans h'.isHost
  refund := h.refund.trans h'.refund
  capacity := h.capacity.trans h'.capacity
  initial := h.initial.trans h'.initial
  blockDay := h.blockDay.trans h'.blockDay
  localBalance := h.localBalance.trans h'.localBalance
  remoteBalance := h.remoteBalance.trans h'.remoteBalance
  localUpdates := h.localUpdates.trans h'.localUpdates
  remoteUpdates := h.remoteUpdates.trans h'.remoteUpdates
  incoming := h.incoming.trans h'.incoming
  outgoing := h.outgoing.trans h'.outgoing

/-- In the course of the worlds, the latest first, the proposal `s` for `p`'s channel was pending and not the
    channel's state when another one took its place, and it has not been proposed again since. -/
inductive Superseded (p : PublicKey) (s : LastCrossSignedState) : List World → Prop
  | replaced {w₀ w : World} {past : List World} {d₀ d : ChannelData} {t : LastCrossSignedState}
    (hd₀ : w₀.channel p = some d₀) (hs : d₀.proposedOverride = some s) (hd : w.channel p = some d)
    (ht : d.proposedOverride = some t) (hne : ¬ SignedAlike t s) (hl : ¬ SignedAlike d.lcss s) :
    Superseded p s (w :: w₀ :: past)
  | stays {w : World} {past : List World} (h : Superseded p s past)
    (hp : ∀ d t, w.channel p = some d → d.proposedOverride = some t → ¬ SignedAlike t s) : Superseded p s (w :: past)

/-- The capacity in satoshi that `p` asks for by an operation. -/
def Op.resizedBy (p : PublicKey) : Op → Option UInt64
  | .message q _ (.resizeChannel m) => if q = p then some m.newCapacitySat else none
  | _ => none

/-- The operation does not remove `p`'s channel, whose counters fit; a state that is adopted for it is not a
    proposal that has been replaced, and it is not resized to the capacity of such a proposal. -/
structure LeavesSuperseded (H : Host) (p : PublicKey) (hist : List World) (op : Op) : Prop where
  keeps : op.removes p = false
  fits : ∀ w ∈ hist.head?, ∀ d, w.channel p = some d → CountersFit d
  adopts : ∀ m ∈ op.presentedBy p, ∀ w ∈ hist.head?, ∀ d, w.channel p = some d → Adopts H p d m →
    ∀ s, Superseded p s hist → ¬ SignedAlike m.reverse s
  resizes : ∀ sat ∈ op.resizedBy p, ∀ cap, checkedMul sat 1000 = some cap →
    ∀ s, Superseded p s hist → cap ≠ s.initHostedChannel.channelCapacityMsat

/-! ### Counters -/

/-- The counters of `s` are at most one ahead of the state of the channel, not ahead of a pending proposal, and not
    ahead of the state at all where there is none; then the channel is also established. -/
structure Outrun (s : LastCrossSignedState) (d : ChannelData) : Prop where
  near : s.localUpdates.toNat ≤ d.lcss.localUpdates.toNat + 1 ∧ s.remoteUpdates.toNat ≤ d.lcss.remoteUpdates.toNat + 1
  settled : d.proposedOverride = none → d.established = true ∧ CountersLe s d.lcss
  pending : ∀ t, d.proposedOverride = some t → CountersLe s t

theorem CountersLe.near (h : CountersLe s t) :
    s.localUpdates.toNat ≤ t.localUpdates.toNat + 1 ∧ s.remoteUpdates.toNat ≤ t.remoteUpdates.toNat + 1 := by
  obtain ⟨hl, hr⟩ := h
  rw [UInt32.le_iff_toNat_le] at hl hr
  omega

/-- A new proposal is one ahead of the state in both counters. -/
theorem CountersFit.proposal_toNat (h : CountersFit d) (init : InitHostedChannel) (day : UInt32) (bal rem : UInt64) :
    (overrideLcss d init day bal rem).localUpdates.toNat = d.lcss.localUpdates.toNat + 1 ∧
      (overrideLcss d init day bal rem).remoteUpdates.toNat = d.lcss.remoteUpdates.toNat + 1 := by
  obtain ⟨hl, hr⟩ := h
  have hsize : UInt32.size = 2 ^ 32 := rfl
  constructor
  · show (d.lcss.localUpdates + 1).toNat = _
    rw [UInt32.toNat_add]
    exact Nat.mod_eq_of_lt (by simp only [UInt32.toNat_one]; omega)
  · show (d.lcss.remoteUpdates + 1).toNat = _
    rw [UInt32.toNat_add]
    exact Nat.mod_eq_of_lt (by simp only [UInt32.toNat_one]; omega)

theorem CountersFit.proposal_outruns (h : CountersFit d) {init : InitHostedChannel} {day : UInt32} {bal rem : UInt64}
    (hs : s.localUpdates.toNat ≤ d.lcss.localUpdates.toNat + 1 ∧ s.remoteUpdates.toNat ≤ d.lcss.remoteUpdates.toNat + 1) :
    CountersLe s (overrideLcss d init day bal rem) := by
  obtain ⟨hl, hr⟩ := h.proposal_toNat init day bal rem
  constructor
  · rw [UInt32.le_iff_toNat_le, hl]
    exact hs.1
  · rw [UInt32.le_iff_toNat_le, hr]
    exact hs.2

theorem eq_zero_of_add_eq {a : UInt32} {n : Nat} (hn : a.toNat + n < UInt32.size) (h : a + UInt32.ofNat n = a) : n = 0 := by
  have hsize : UInt32.size = 2 ^ 32 := rfl
  have hnat := congrArg UInt32.toNat h
  rw [UInt32.toNat_add, UInt32.toNat_ofNat', Nat.mod_eq_of_lt (a := n) (by omega), Nat.mod_eq_of_lt (by omega)] at hnat
  omega

/-- The next state with at least one update is ahead in one of the counters. -/
theorem CountersFit.next_ahead (h : CountersFit d) (hu : d.uncommitted ≠ []) {C : Crypto}
    (hn : StateManager.lcssNext C ⟨d.lcss, d.uncommitted⟩ = .ok t) :
    ¬ (t.localUpdates = d.lcss.localUpdates ∧ t.remoteUpdates = d.lcss.remoteUpdates) := by
  obtain ⟨r, -, rfl⟩ := lcssNext_eq_ok hn
  rintro ⟨hl, hr⟩
  have hlocal : d.uncommitted.countP (·.isLocal) ≤ d.uncommitted.length := List.countP_le_length
  have hremote : d.uncommitted.countP (·.isRemote) ≤ d.uncommitted.length := List.countP_le_length
  obtain ⟨hfl, hfr⟩ := h
  have hl0 : d.uncommitted.countP (·.isLocal) = 0 := eq_zero_of_add_eq (a := d.lcss.localUpdates) (by omega) hl
  have hr0 : d.uncommitted.countP (·.isRemote) = 0 := eq_zero_of_add_eq (a := d.lcss.remoteUpdates) (by omega) hr
  rw [List.countP_eq_zero] at hl0 hr0
  obtain ⟨u, us, heq⟩ := List.exists_cons_of_ne_nil hu
  have hmem : u ∈ d.uncommitted := by simp [heq]
  cases u with
  | ofLocal u => exact hl0 _ hmem rfl
  | ofRemote u => exact hr0 _ hmem rfl

/-! ### Single changes -/

theorem no_proposal_of_opening (h : deriveStatus d = .opening) : d.proposedOverride = none := by
  unfold deriveStatus at h
  split_ifs at h with _ hp
  · simpa using hp
  · simpa using hp

/-- A change that keeps the state of the channel and the proposal. -/
theorem Outrun.same (h : Outrun s d) (hl : d'.lcss = d.lcss) (he : d'.established = d.established)
    (hp : d'.proposedOverride = d.proposedOverride) : Outrun s d' where
  near := by
    rw [hl]
    exact h.near
  settled := by
    rw [hp, he, hl]
    exact h.settled
  pending := by
    rw [hp]
    exact h.pending

/-- A record that is established, has no proposal and is not behind `s`. -/
theorem Outrun.of_settled (hp : d.proposedOverride = none) (he : d.established = true) (hle : CountersLe s d.lcss) :
    Outrun s d where
  near := hle.near
  settled _ := ⟨he, hle⟩
  pending t ht := by cases hp.symm.trans ht

/-- The record that a commit finds has counters that fit. -/
theorem CountersFit.of_committed {m : StateUpdate} (ho : Change.Cause K w p d (.committed m))
    (hfit : ∀ d, K.start.channel p = some d → CountersFit d) : CountersFit d := by
  obtain ⟨-, d₀, hd₀, hrep⟩ := ho
  rcases hrep with rfl | rfl
  · exact hfit _ hd₀
  · exact (hfit _ hd₀).deduplicated

theorem Outrun.changes (h : Outrun s d) (hfit : ∀ d, K.start.channel p = some d → CountersFit d)
    (hc : Changes K.host p c d d') (ho : c.Cause K w p d) : Outrun s d' := by
  cases hc with
  | established hst =>
    -- A channel that has had a proposal never goes back to opening.
    cases (h.settled (no_proposal_of_opening hst)).1.symm.trans (not_established_of_opening hst)
  | @committed _ m next lcss hs _ hn _ hl =>
    have hd := CountersFit.of_committed ho hfit
    have hnone := no_proposal_of_active hs
    have hle : CountersLe d.lcss next := hd.next hn
    have hnext : CountersLe d.lcss (proposedNext next m) := hle
    have hest := established_of_active hs
    exact .of_settled hnone hest ((h.settled hnone).2.trans (hnext.trans (countersLe_sign hl)))
  | @overridden _ m proposed lcss _ hp _ hl =>
    have hsigned : CountersLe s { proposed with remoteSigOfLocal := m.localSigOfRemote } := h.pending proposed hp
    exact .of_settled rfl rfl (hsigned.trans (countersLe_sign hl))
  | errored _ hd =>
    subst hd
    exact h.same rfl rfl rfl
  | resized _ _ _ _ _ _ _ hl =>
    obtain ⟨_, -, rfl⟩ := sign_eq_ok hl
    exact ⟨h.near, h.settled, h.pending⟩
  | proposed hd _ hl =>
    subst hd
    refine ⟨h.near, fun hnone => (by cases hnone), ?_⟩
    intro t ht
    obtain rfl := Option.some.inj ht
    exact ((hfit d ho.2).proposal_outruns h.near).trans (countersLe_sign hl)
  | @adopted _ m _ _ hl hr =>
    have hle : CountersLe d.lcss m.reverse := ⟨hl, hr⟩
    refine ⟨?_, fun hnone => ?_, h.pending⟩
    · obtain ⟨hnl, hnr⟩ := h.near
      rw [UInt32.le_iff_toNat_le] at hl hr
      constructor
      · show s.localUpdates.toNat ≤ m.reverse.localUpdates.toNat + 1
        omega
      · show s.remoteUpdates.toNat ≤ m.reverse.remoteUpdates.toNat + 1
        omega
    · obtain ⟨he, hs⟩ := h.settled hnone
      exact ⟨he, hs.trans hle⟩
  | _ => exact h.same rfl rfl rfl

/-- A proposal is outrun from the moment it is made. -/
theorem Changes.outrun_proposal (hfit : ∀ d, K.start.channel p = some d → CountersFit d)
    (hc : Changes K.host p c d d') (ho : c.Cause K w p d) (h : ∀ s, d.proposedOverride = some s → Outrun s d) :
    ∀ s, d'.proposedOverride = some s → Outrun s d' := by
  intro s hs
  rcases hc.proposal with hsame | hnone | ⟨reason, rfl⟩
  · exact (h s (hsame.symm.trans hs)).changes hfit hc ho
  · cases hnone.symm.trans hs
  · cases hc with
    | @proposed _ _ _ init day bal rem _ _ _ hd _ hl _ =>
      subst hd
      obtain rfl := Option.some.inj hs
      have halike := SignedAlike.sign hl
      obtain ⟨hnl, hnr⟩ := (hfit d ho.2).proposal_toNat init day bal rem
      refine ⟨⟨?_, ?_⟩, fun hnone => (by cases hnone), ?_⟩
      · rw [halike.localUpdates, hnl]
        exact Nat.le_refl _
      · rw [halike.remoteUpdates, hnr]
        exact Nat.le_refl _
      · intro t ht
        obtain rfl := Option.some.inj ht
        exact CountersLe.refl _

/-- What keeps the state of the channel apart from a proposal that was replaced. -/
theorem Outrun.apart (h : Outrun s d) (hne : ¬ SignedAlike d.lcss s) (hop : LeavesSuperseded K.host p (K.start :: past) K.op)
    (hs : Superseded p s (K.start :: past)) (hc : Changes K.host p c d d') (ho : c.Cause K w p d) :
    ¬ SignedAlike d'.lcss s := by
  have hpending : ∀ d t, K.start.channel p = some d → d.proposedOverride = some t → ¬ SignedAlike t s := by
    cases hs with
    | replaced _ _ hd ht hne =>
      intro d₁ t₁ hd₁ ht₁
      obtain rfl := Option.some.inj (hd.symm.trans hd₁)
      obtain rfl := Option.some.inj (ht.symm.trans ht₁)
      exact hne
    | stays _ hp => exact hp
  cases hc with
  | established hst =>
    cases (h.settled (no_proposal_of_opening hst)).1.symm.trans (not_established_of_opening hst)
  | @committed _ m next lcss hst _ hn _ hl hu =>
    intro halike
    have hd := CountersFit.of_committed ho (hop.fits _ rfl)
    have hsigned := SignedAlike.sign hl
    have hnext : CountersLe d.lcss next := hd.next hn
    obtain ⟨hsl, hsr⟩ := (h.settled (no_proposal_of_active hst)).2
    -- The commit is ahead of the state, which is not behind `s`.
    have hll : next.localUpdates = s.localUpdates := hsigned.localUpdates.symm.trans halike.localUpdates
    have hrr : next.remoteUpdates = s.remoteUpdates := hsigned.remoteUpdates.symm.trans halike.remoteUpdates
    refine hd.next_ahead hu hn ⟨?_, ?_⟩
    · exact UInt32.le_antisymm (hll ▸ hsl) hnext.1
    · exact UInt32.le_antisymm (hrr ▸ hsr) hnext.2
  | @overridden _ m proposed lcss _ hp _ hl =>
    intro halike
    have hsame : SignedAlike { proposed with remoteSigOfLocal := m.localSigOfRemote } proposed := by
      constructor <;> rfl
    exact hpending d proposed ho.2 hp (hsame.symm.trans ((SignedAlike.sign hl).symm.trans halike))
  | errored _ hd =>
    subst hd
    exact hne
  | @resized _ m cap bal lcss _ _ _ _ _ _ hcap _ _ hl _ =>
    intro halike
    obtain ⟨⟨e, ho⟩, -⟩ := ho
    have hresizes := hop.resizes
    rw [ho] at hresizes
    exact hresizes m.newCapacitySat (if_pos rfl) cap hcap s hs
      ((SignedAlike.sign hl).capacity.symm.trans halike.capacity)
  | proposed hd =>
    subst hd
    exact hne
  | @adopted _ m hown hv hl hr hahead =>
    obtain ⟨⟨e, ho⟩, hd⟩ := ho
    have hadopts := hop.adopts
    rw [ho] at hadopts
    exact hadopts m (if_pos rfl) _ rfl d hd ⟨hown, hv, hl, hr, hahead⟩ s hs
  | _ => exact hne

/-! ### Operations -/

/-- A step keeps `s` outrun, and changes the state of the channel by a change that is allowed only. -/
theorem Outrun.step (hs : Step K act w w') (hkeep : K.op.removes p = false)
    (hfit : ∀ d, K.start.channel p = some d → CountersFit d) (hd : w.channel p = some d) (hsus : d.suspended = false)
    (h : Outrun s d) : ∃ d', w'.channel p = some d' ∧ d'.suspended = false ∧ Outrun s d' ∧
      (d' = d ∨ ∃ c, Changes K.host p c d d' ∧ c.Cause K w p d) := by
  cases hs.record p with
  | same heq => exact ⟨d, heq.trans hd, hsus, h, Or.inl rfl⟩
  | created hn =>
    rcases hn d hd with hn | hn
    · have hnone : d.proposedOverride = none := by
        unfold deriveStatus at hn
        split_ifs at hn with _ hp
        simpa using hp
      cases (h.settled hnone).1.symm.trans (not_established_of_notOpened hn)
    · cases (suspended_of_status hn).symm.trans hsus
  | wrote hd₀ hc ho _ _ heq =>
    obtain rfl := Option.some.inj (hd₀.symm.trans hd)
    exact ⟨_, heq, hc.suspended hsus, h.changes hfit hc ho, Or.inr ⟨_, hc, ho⟩⟩
  | removed ho =>
    obtain ⟨force, ho⟩ := ho
    rw [ho] at hkeep
    exact absurd rfl (of_decide_eq_false hkeep)

section Operation
variable {op : Op} {o : Nat → Choice}

theorem Outrun.next (hkeep : op.removes p = false) (hfit : ∀ d, w.channel p = some d → CountersFit d)
    (hd : w.channel p = some d) (hsus : d.suspended = false) (h : Outrun s d) :
    ∃ d', (op.next H o w).channel p = some d' ∧ Outrun s d' := by
  have hend := (trace_free H w op o).keeps (P := fun v => ∃ d, v.channel p = some d ∧ d.suspended = false ∧ Outrun s d)
    ?_ ⟨d, hd, hsus, h⟩
  · obtain ⟨d', hd', -, h'⟩ := hend
    exact ⟨d', hd', h'⟩
  · rintro _ v v' _ hs ⟨d₁, hd₁, hsus₁, h₁⟩
    obtain ⟨d₂, hd₂, hsus₂, h₂, -⟩ := h₁.step hs hkeep hfit hd₁ hsus₁
    exact ⟨d₂, hd₂, hsus₂, h₂⟩

theorem Outrun.next_apart (hop : LeavesSuperseded H p (w :: past) op) (hs : Superseded p s (w :: past))
    (hd : w.channel p = some d) (hsus : d.suspended = false) (h : Outrun s d) (hne : ¬ SignedAlike d.lcss s) :
    ∃ d', (op.next H o w).channel p = some d' ∧ ¬ SignedAlike d'.lcss s := by
  have hend := (trace_free H w op o).keeps (P := fun v => ∃ d, v.channel p = some d ∧ d.suspended = false ∧
    Outrun s d ∧ ¬ SignedAlike d.lcss s) ?_ ⟨d, hd, hsus, h, hne⟩
  · obtain ⟨d', hd', -, -, h'⟩ := hend
    exact ⟨d', hd', h'⟩
  · rintro _ v v' _ hstep ⟨d₁, hd₁, hsus₁, h₁, hne₁⟩
    obtain ⟨d₂, hd₂, hsus₂, h₂, hchange⟩ := h₁.step hstep hop.keeps (hop.fits w rfl) hd₁ hsus₁
    refine ⟨d₂, hd₂, hsus₂, h₂, ?_⟩
    rcases hchange with rfl | ⟨c, hc, ho⟩
    · exact hne₁
    · exact h₁.apart (K := .free H w op) hne₁ hop hs hc ho

/-- Every pending proposal is outrun. -/
theorem outrun_pending_next (hfit : ∀ d, w.channel p = some d → CountersFit d)
    (h : ∀ d s, w.channel p = some d → d.proposedOverride = some s → Outrun s d) :
    ∀ d s, (op.next H o w).channel p = some d → d.proposedOverride = some s → Outrun s d := by
  refine (trace_free H w op o).keeps
    (P := fun v => ∀ d s, v.channel p = some d → d.proposedOverride = some s → Outrun s d) ?_ h
  intro _ v v' _ hs hv d s hd hps
  cases hs.record p with
  | same heq => exact hv d s (heq.symm.trans hd) hps
  | created _ _ _ _ heq =>
    obtain rfl := Option.some.inj (heq.symm.trans hd)
    cases hps
  | wrote hd₀ hc ho _ _ heq =>
    obtain rfl := Option.some.inj (heq.symm.trans hd)
    exact hc.outrun_proposal (K := .free H w op) hfit ho (fun s hs => hv _ s hd₀ hs) s hps
  | removed _ heq => cases heq.symm.trans hd

end Operation

/-! ### Runs -/

/-- What holds along a run: pending proposals are outrun, and so are replaced ones, which are not the state of the
    channel. -/
structure KeptApart (p : PublicKey) (w : World) (past : List World) : Prop where
  pending : ∀ d s, w.channel p = some d → d.proposedOverride = some s → Outrun s d
  replaced : ∀ s, Superseded p s (w :: past) → ∃ d, w.channel p = some d ∧ Outrun s d ∧ ¬ SignedAlike d.lcss s

theorem KeptApart.next {op : Op} {o : Nat → Choice} (h : KeptApart p w past)
    (hsus : ∀ d, w.channel p = some d → d.suspended = false) (hop : LeavesSuperseded H p (w :: past) op) :
    KeptApart p (op.next H o w) (w :: past) where
  pending := outrun_pending_next (hop.fits w rfl) h.pending
  replaced := by
    intro s hs
    cases hs with
    | replaced hd₀ hs₀ hd ht _ hl =>
      obtain ⟨d', hd', h'⟩ := (h.pending _ s hd₀ hs₀).next (H := H) (o := o) hop.keeps (hop.fits w rfl) hd₀ (hsus _ hd₀)
      obtain rfl := Option.some.inj (hd'.symm.trans hd)
      exact ⟨_, hd', h', hl⟩
    | stays hs =>
      obtain ⟨d, hd, hout, hne⟩ := h.replaced s hs
      obtain ⟨d₁, hd₁, h₁⟩ := hout.next (H := H) (o := o) hop.keeps (hop.fits w rfl) hd (hsus d hd)
      obtain ⟨d₂, hd₂, h₂⟩ := hout.next_apart (o := o) hop hs hd (hsus d hd) hne
      obtain rfl := Option.some.inj (hd₁.symm.trans hd₂)
      exact ⟨_, hd₁, h₁, h₂⟩

theorem Run.keptApart (hrun : Run H (fun hist op _ => LeavesSuperseded H p hist op) (w :: past)) :
    KeptApart p w past := by
  generalize hhist : w :: past = hist at hrun
  induction hrun generalizing w past with
  | start =>
    obtain ⟨rfl, rfl⟩ := List.cons.inj hhist
    refine ⟨fun d s hd => (by cases hd), ?_⟩
    intro s hs
    cases hs with
    | stays hs => cases hs
  | step op o hw hop ih =>
    obtain ⟨rfl, rfl⟩ := List.cons.inj hhist
    exact (ih rfl).next (hw.reachable.not_suspended p) hop

/-- In every run in which no proposal that was replaced is adopted from a presented state, nor its capacity
    resized to, and in which the counters fit, no such proposal becomes the state of the channel. -/
theorem superseded_never_enacted (H : Host) (p : PublicKey) (w : World) (past : List World)
    (s : LastCrossSignedState) (d : ChannelData)
    (hrun : Run H (fun hist op _ => LeavesSuperseded H p hist op) (w :: past)) (hs : Superseded p s (w :: past))
    (hd : w.channel p = some d) : ¬ SignedAlike d.lcss s := by
  obtain ⟨d', hd', -, hne⟩ := hrun.keptApart.replaced s hs
  obtain rfl := Option.some.inj (hd'.symm.trans hd)
  exact hne

/-- Operations that neither present a state nor resize. -/
def Guard.plain (p : PublicKey) : Guard := .ofOp fun w op =>
  op.removes p = false ∧ (∀ d ∈ w.channel p, CountersFit d) ∧ op.presentedBy p = none ∧ op.resizedBy p = none

instance (w : World) (op : Op) : Decidable ((Guard.plain p).op w op) := inferInstanceAs (Decidable (_ ∧ _))

instance (w : World) (q : PublicKey) (d : ChannelData) : Decidable ((Guard.plain p).record w q d) := .isTrue trivial

instance (w : World) (k : HtlcKey) (l : ForwardLink) : Decidable ((Guard.plain p).link w k l) := .isTrue trivial

theorem Guard.plain.leaves {op : Op} (h : (Guard.plain p).op w op) : LeavesSuperseded H p (w :: past) op := by
  obtain ⟨hkeep, hfit, hshow, hsize⟩ := h
  refine ⟨hkeep, ?_, ?_, ?_⟩
  · intro v hv d hd
    cases hv
    exact hfit d hd
  · intro m hm
    rw [hshow] at hm
    cases hm
  · intro sat hsat
    rw [hsize] at hsat
    cases hsat

/-- The operator replaces the proposal. -/
def replacement : Op := .proposeOverride openPeer (some 500000)

/-- The world after the replacement. -/
def replacedWorld : World := replacement.next .transparent (fun _ => .calm) (calmRun .transparent overrideScript)

/-- Both proposals of the run: they differ in the balance. -/
theorem replaced_proposals : ∃ d₀ s d t, (calmRun .transparent overrideScript).channel openPeer = some d₀ ∧
    d₀.proposedOverride = some s ∧ replacedWorld.channel openPeer = some d ∧ d.proposedOverride = some t ∧
    s.localBalanceMsat ≠ t.localBalanceMsat ∧ s.localUpdates ≠ d.lcss.localUpdates := by
  have hrun : ((calmRun .transparent overrideScript).channel openPeer).any (fun d₀ => d₀.proposedOverride.any fun s =>
      (replacedWorld.channel openPeer).any fun d => d.proposedOverride.any fun t =>
        decide (s.localBalanceMsat ≠ t.localBalanceMsat ∧ s.localUpdates ≠ d.lcss.localUpdates)) = true := by
    decide +kernel
  obtain ⟨d₀, hd₀, hrun⟩ := exists_of_any hrun
  obtain ⟨s, hs, hrun⟩ := exists_of_any hrun
  obtain ⟨d, hd, hrun⟩ := exists_of_any hrun
  obtain ⟨t, ht, hrun⟩ := exists_of_any hrun
  exact ⟨d₀, s, d, t, hd₀, hs, hd, ht, of_decide_eq_true hrun⟩

/-- The first proposal of the run is replaced. -/
theorem replaced_superseded (past : List World) : ∃ d₀ s, (calmRun .transparent overrideScript).channel openPeer = some d₀ ∧
    d₀.proposedOverride = some s ∧ Superseded openPeer s (replacedWorld :: calmRun .transparent overrideScript :: past) := by
  obtain ⟨d₀, s, d, t, hd₀, hs, hd, ht, hbal, hcount⟩ := replaced_proposals
  refine ⟨d₀, s, hd₀, hs, .replaced hd₀ hs hd ht ?_ ?_⟩
  · exact fun h => hbal h.localBalance.symm
  · exact fun h => hcount h.localUpdates.symm

/-- The world after the client has accepted the second proposal. -/
def acceptedWorld : World :=
  (clientAccepts .transparent openKey replacedWorld).next .transparent (fun _ => .calm) replacedWorld

/-- The second proposal is accepted, and the first one is not the state of the channel. -/
theorem superseded_never_enacted_accepted : ∃ d₀ s d, (calmRun .transparent overrideScript).channel openPeer = some d₀ ∧
    d₀.proposedOverride = some s ∧ acceptedWorld.channel openPeer = some d ∧ deriveStatus d = .active ∧
    ¬ SignedAlike d.lcss s := by
  have hfollows : (Guard.plain openPeer).follows .transparent World.empty (overrideScript ++ [fun _ => replacement,
      clientAccepts .transparent openKey]) = true := by
    decide +kernel
  have hleaves : ∀ w past op, (Guard.plain openPeer).Allows .transparent (fun _ => .calm) op w →
      LeavesSuperseded .transparent openPeer (w :: past) op := fun _ _ _ h => Guard.plain.leaves h.1
  have hrun : Run .transparent (fun hist op _ => LeavesSuperseded .transparent openPeer hist op) _ :=
    calmHistory_follows hleaves (Guard.follows_sound hfollows)
  have hacc : (acceptedWorld.channel openPeer).any (fun d => deriveStatus d == .active) = true := by
    decide +kernel
  obtain ⟨d, hd, hact⟩ := exists_of_any hacc
  have hactive : deriveStatus d = .active := by simpa using hact
  have hhist : calmHistory .transparent (overrideScript ++ [fun _ => replacement, clientAccepts .transparent openKey]) =
      acceptedWorld :: replacedWorld :: calmHistory .transparent overrideScript := by
    rw [calmHistory, List.foldl_append]
    show List.foldl _ (calmHistory .transparent overrideScript) _ = _
    rw [calmHistory_eq]
    rfl
  rw [hhist, calmHistory_eq] at hrun
  obtain ⟨d₀, s, hd₀, hs, hsup⟩ := replaced_superseded (calmHistory .transparent overrideScript).tail
  refine ⟨d₀, s, d, hd₀, hs, hd, hactive, superseded_never_enacted .transparent openPeer _ _ s d hrun (.stays hsup ?_) hd⟩
  intro d' t hd' ht
  obtain rfl := Option.some.inj (hd.symm.trans hd')
  cases (no_proposal_of_active hactive).symm.trans ht

/-- The client presents the first proposal, with its own signature, after it was replaced. -/
theorem superseded_enacted : ¬ ∀ (H : Host) (p : PublicKey) (w : World) (past : List World) (s : LastCrossSignedState)
    (d : ChannelData), Run H (fun _ op _ => op.removes p = false) (w :: past) → Superseded p s (w :: past) →
    w.channel p = some d → ¬ SignedAlike d.lcss s := by
  intro hall
  have hrun : ((calmRun .transparent overrideScript).channel openPeer).any (fun d₀ => d₀.proposedOverride.any fun s =>
      (((clientShows .transparent openKey openPeer 1 replacedWorld).next .transparent (fun _ => .calm)
        replacedWorld).channel openPeer).any fun d => d.proposedOverride.all (fun t =>
          decide (t.localBalanceMsat ≠ s.localBalanceMsat)) &&
            decide ({ d.lcss with remoteSigOfLocal := s.remoteSigOfLocal, localSigOfRemote := s.localSigOfRemote } = s)) =
      true := by
    decide +kernel
  obtain ⟨d₀, hd₀, hrun⟩ := exists_of_any hrun
  obtain ⟨s, hs, hrun⟩ := exists_of_any hrun
  obtain ⟨d, hd, hrun⟩ := exists_of_any hrun
  obtain ⟨hpend, hsame⟩ := Bool.and_eq_true_iff.mp hrun
  have halike : SignedAlike d.lcss s := by
    rw [← of_decide_eq_true hsame]
    constructor <;> rfl
  obtain ⟨d₁, s₁, hd₁, hs₁, hsup⟩ := replaced_superseded (calmHistory .transparent overrideScript).tail
  obtain rfl := Option.some.inj (hd₁.symm.trans hd₀)
  obtain rfl := Option.some.inj (hs₁.symm.trans hs)
  have hhist : Run .transparent (fun _ op _ => op.removes openPeer = false) (calmHistory .transparent overrideScript) := by
    refine calmHistory_run overrideScript ?_
    intro op hop w past
    exact overrideScript_keeps op hop w
  rw [calmHistory_eq] at hhist
  have hkeep : (clientShows .transparent openKey openPeer 1 replacedWorld).removes openPeer = false := by
    rcases clientShows_cases .transparent openKey openPeer 1 replacedWorld with h | ⟨m, -, h⟩
    · rw [h]
      rfl
    · rw [h]
      rfl
  refine hall .transparent openPeer _ _ s₁ d (.step _ (fun _ => .calm) (.step replacement (fun _ => .calm) hhist rfl) hkeep)
    (.stays hsup ?_) hd halike
  intro d' t hd' ht
  obtain rfl := Option.some.inj (hd.symm.trans hd')
  rw [ht] at hpend
  exact fun h => of_decide_eq_true hpend h.localBalance

end Canopus
