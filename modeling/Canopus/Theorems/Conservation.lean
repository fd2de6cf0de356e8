import Canopus.Theorems.Fold
import Canopus.Theorems.Records
import Canopus.Transparent

/-! Capacity conservation: the two balances and the HTLCs of a channel always add up to its capacity. Five
    writers compute balances by different formulas, and adoption takes over a state from the peer, so the
    invariant also covers every state that the host has ever signed. -/

namespace Canopus
open Effect

/-- The state accounts for exactly the capacity of the channel. -/
def Balanced (s : LastCrossSignedState) : Prop := s.funds = s.initHostedChannel.channelCapacityMsat.toNat

def HtlcFree (s : LastCrossSignedState) : Prop := s.incomingHtlcs = [] ∧ s.outgoingHtlcs = []

/-- Runs in which no channel is removed, every secret grants a balance within its capacity, and a state
    that a peer presents with the host's signature is one that the host has signed for its channel. -/
def Guard.conserving (H : Host) : Guard := .ofOp fun w op => match op with
  | .removeChannel _ _ => False
  | .addSecret _ capacity initial => initial ≤ capacity
  | .message p _ (.lastCrossSignedState m) =>
    m.verifyRemoteSig H.crypto H.nodePublic = true → ∃ s, (p, s) ∈ w.signed ∧ SignedAlike m.reverse s
  | _ => True

variable {H : Host} {K : Ctx} {w w' : World} {p : PublicKey} {d d' : ChannelData} {c : Change} {act : Act}
  {s t : LastCrossSignedState} {C : Crypto} {key : SecretKey}

/-! ### Single states -/

theorem Balanced.sign (h : Balanced s) (hs : s.sign C key = .ok t) : Balanced t := by
  obtain ⟨_, -, rfl⟩ := sign_eq_ok hs
  exact h

theorem HtlcFree.sign (h : HtlcFree s) (hs : s.sign C key = .ok t) : HtlcFree t := by
  obtain ⟨_, -, rfl⟩ := sign_eq_ok hs
  exact h

theorem SignedAlike.balanced (ha : SignedAlike s t) (h : Balanced t) : Balanced s := by
  unfold Balanced LastCrossSignedState.funds at h ⊢
  rw [ha.localBalance, ha.remoteBalance, ha.incoming, ha.outgoing, ha.capacity]
  exact h

theorem SignedAlike.htlcFree (ha : SignedAlike s t) (h : HtlcFree t) : HtlcFree s :=
  ⟨ha.incoming.trans h.1, ha.outgoing.trans h.2⟩

theorem Balanced.next {us : List UncommittedUpdate} (h : Balanced s) (hn : StateManager.lcssNext C ⟨s, us⟩ = .ok t) :
    Balanced t := by
  obtain ⟨hf, ht⟩ := lcssNext_keeps hn
  unfold Balanced
  rw [hf, ht.init]
  exact h

theorem Balanced.opened {m : StateUpdate} (h : Balanced s) (hf : HtlcFree s) : Balanced (openedLcss s m) := by
  unfold Balanced LastCrossSignedState.funds at h ⊢
  rw [hf.1, hf.2] at h
  exact h

theorem balanced_initial {policy : ChannelPolicy} {refund : Bytes}
    (h : policy.initialClientBalanceMsat ≤ policy.channelCapacityMsat) : Balanced (initialLcss policy refund) := by
  have hsub := UInt64.toNat_sub_of_le _ _ h
  have hle := UInt64.le_iff_toNat_le.mp h
  simp only [Balanced, LastCrossSignedState.funds, initialLcss, initOf, totalAmount, List.map_nil, List.sum_nil]
  omega

theorem balanced_override {init : InitHostedChannel} {day : UInt32} {bal rem : UInt64}
    (h : checkedSub init.channelCapacityMsat bal = some rem ∨ checkedSub init.channelCapacityMsat rem = some bal) :
    Balanced (overrideLcss d init day bal rem) := by
  simp only [Balanced, LastCrossSignedState.funds, overrideLcss, totalAmount, List.map_nil, List.sum_nil]
  rcases h with h | h
  · have := checkedSub_eq_some h
    omega
  · have := checkedSub_eq_some h
    omega

/-- Resizing moves the host's balance by what the capacity moves. -/
theorem resizedLocalBalance_eq {cap bal : UInt64} (hb : resizedLocalBalance s cap = some bal) :
    bal.toNat + s.initHostedChannel.channelCapacityMsat.toNat = s.localBalanceMsat.toNat + cap.toNat := by
  unfold resizedLocalBalance at hb
  dsimp only at hb
  split at hb
  · rename_i hle
    have := checkedAdd_eq_some hb
    have := UInt64.toNat_sub_of_le _ _ hle
    have := UInt64.le_iff_toNat_le.mp hle
    omega
  · rename_i hlt
    have hle := UInt64.le_of_lt (UInt64.not_le.mp hlt)
    have := checkedSub_eq_some hb
    have := UInt64.toNat_sub_of_le _ _ hle
    have := UInt64.le_iff_toNat_le.mp hle
    omega

theorem Balanced.resized {cap bal : UInt64} (h : Balanced s) (hb : resizedLocalBalance s cap = some bal) :
    Balanced (resizedLcss s cap bal) := by
  simp only [Balanced, LastCrossSignedState.funds, resizedLcss] at h ⊢
  have := resizedLocalBalance_eq hb
  omega

theorem HtlcFree.next (h : HtlcFree s) (hn : StateManager.lcssNext C ⟨s, []⟩ = .ok t) : HtlcFree t := by
  obtain ⟨r, hr, rfl⟩ := lcssNext_eq_ok hn
  cases hr
  exact h

/-! ### Records -/

/-- A record in order. The `fresh` part is what lets opening a channel clear the HTLC lists. -/
structure SoundRecord (d : ChannelData) : Prop where
  lcss : Balanced d.lcss
  proposal : ∀ s, d.proposedOverride = some s → Balanced s ∧ HtlcFree s
  fresh : d.established = false → d.uncommitted = [] ∧ HtlcFree d.lcss
  running : d.suspended = false

theorem SoundRecord.established_of_incoming (h : SoundRecord d) (hi : d.lcss.incomingHtlcs ≠ []) :
    d.established = true := by
  by_contra hn
  exact hi (h.fresh (by simpa using hn)).2.1

theorem SoundRecord.established_of_outgoing (h : SoundRecord d) (ho : d.lcss.outgoingHtlcs ≠ []) :
    d.established = true := by
  by_contra hn
  exact ho (h.fresh (by simpa using hn)).2.2

/-- The record after a change of its uncommitted updates. -/
theorem SoundRecord.withUpdates (h : SoundRecord d) (us : List UncommittedUpdate)
    (he : d.established = true ∨ us = []) : SoundRecord { d with uncommitted := us } where
  lcss := h.lcss
  proposal := h.proposal
  fresh hf := by
    rcases he with he | he
    · cases he.symm.trans hf
    · exact ⟨he, (h.fresh hf).2⟩
  running := h.running

/-- The record after a change of its state, with no update pending. -/
theorem SoundRecord.withState (h : SoundRecord d) {t : LastCrossSignedState} (ht : Balanced t)
    (hf : d.established = false → HtlcFree t) : SoundRecord { d with lcss := t, uncommitted := [] } where
  lcss := ht
  proposal := h.proposal
  fresh he := ⟨rfl, hf he⟩
  running := h.running

/-- Every change keeps a record in order; what adoption takes over must be in order by itself. -/
theorem SoundRecord.changes (h : SoundRecord d) (hc : Changes H p c d d')
    (hm : ∀ m, c = .adopted m → Balanced m.reverse ∧ (d.established = false → HtlcFree m.reverse)) :
    SoundRecord d' := by
  cases hc with
  | deduplicated =>
    refine ⟨h.lcss, h.proposal, ?_, h.running⟩
    intro hf
    refine ⟨?_, (h.fresh hf).2⟩
    rw [(h.fresh hf).1]
    rfl
  | established hs _ hl =>
    have hfree := (h.fresh (not_established_of_opening hs)).2
    exact ⟨(h.lcss.opened hfree).sign hl, h.proposal, fun hf => (by cases hf), h.running⟩
  | @committed _ m next _ hs _ hn _ hl =>
    have he := established_of_active hs
    have hb : Balanced next := h.lcss.next hn
    exact h.withState (Balanced.sign (s := proposedNext next m) hb hl) fun hf => by cases he.symm.trans hf
  | @overridden _ m proposed _ _ hp _ hl =>
    have hb := (h.proposal _ hp).1
    refine ⟨Balanced.sign (s := { proposed with remoteSigOfLocal := m.localSigOfRemote }) hb hl, ?_, ?_, rfl⟩
    · intro s hs
      cases hs
    · intro hf
      cases hf
  | receivedAdd hs => exact h.withUpdates _ (Or.inl (established_of_active hs))
  | receivedResolution _ _ ho => exact h.withUpdates _ (Or.inl (h.established_of_outgoing (ne_nil_of_any ho)))
  | @errored extra _ older e hd =>
    subst hd
    refine ⟨h.lcss, h.proposal, ?_, h.running⟩
    intro hf
    exact ⟨(List.append_eq_nil_iff.mp (h.fresh hf).1).1, (h.fresh hf).2⟩
  | resolved hi => exact h.withUpdates _ (Or.inl (h.established_of_incoming (ne_nil_of_any hi)))
  | added hs => exact h.withUpdates _ (Or.inl (established_of_active hs))
  | resized hs _ _ _ _ _ hb hl =>
    have he := established_of_active hs
    exact ⟨(h.lcss.resized hb).sign hl, h.proposal, fun hf => (by cases he.symm.trans hf), h.running⟩
  | proposed hd hb hl =>
    subst hd
    refine ⟨h.lcss, ?_, h.fresh, h.running⟩
    intro s hs
    obtain rfl := Option.some.inj hs
    exact ⟨(balanced_override hb).sign hl, HtlcFree.sign ⟨rfl, rfl⟩ hl⟩
  | adopted =>
    obtain ⟨hb, hf⟩ := hm _ rfl
    exact h.withState hb hf
  | remoteErrored => exact ⟨h.lcss, h.proposal, h.fresh, h.running⟩
  | resizeAllowed => exact ⟨h.lcss, h.proposal, h.fresh, h.running⟩
  | retuned => exact ⟨h.lcss, h.proposal, h.fresh, h.running⟩
  | updateSent => exact ⟨h.lcss, h.proposal, h.fresh, h.running⟩

/-! ### Runs -/

/-- The invariant of the runs: the records, every state that the host has signed, and the terms on which
    it opens channels are in order. -/
structure Conserved (H : Host) (w : World) : Prop where
  records : ∀ p d, w.channel p = some d → SoundRecord d
  signed : ∀ p s, (p, s) ∈ w.signed → Balanced s
  fresh : ∀ p s, (p, s) ∈ w.signed → (∀ d, w.channel p = some d → d.established = false) → HtlcFree s
  policy : (w.effectivePolicy H).initialClientBalanceMsat ≤ (w.effectivePolicy H).channelCapacityMsat
  secrets : ∀ k s, (w.store .secrets).value? k = some s → s.initialBalanceMsat ≤ s.capacityMsat

/-- What the host signs is in order. -/
theorem Conserved.signs (h : Conserved H w) (hs : Signs H w p s) :
    Balanced s ∧ ((∀ d, w.channel p = some d → d.established = false) → HtlcFree s) := by
  cases hs with
  | @next us d next _ day sig hd hu hn hs =>
    have hr := h.records p d hd
    have hb : Balanced next := hr.lcss.next hn
    refine ⟨Balanced.sign (s := { next with blockDay := day, remoteSigOfLocal := sig }) hb hs, ?_⟩
    intro hf
    obtain ⟨hu₀, hfree⟩ := hr.fresh (hf d hd)
    have hus : us = [] := by
      rcases hu with hu | hu | hu
      · exact hu
      · cases (established_of_active hu).symm.trans (hf d hd)
      · exact absurd hfree.1 hu
    rw [hu₀, hus] at hn
    have hnext : HtlcFree next := hfree.next hn
    exact HtlcFree.sign (s := { next with blockDay := day, remoteSigOfLocal := sig }) hnext hs
  | opened hd ho hs =>
    have hr := h.records p _ hd
    have hfree := (hr.fresh (not_established_of_opening ho)).2
    exact ⟨(hr.lcss.opened hfree).sign hs, fun _ => HtlcFree.sign ⟨rfl, rfl⟩ hs⟩
  | @overridden d proposed _ sig hd hp hs =>
    obtain ⟨hb, hfree⟩ := (h.records p _ hd).proposal _ hp
    exact ⟨Balanced.sign (s := { proposed with remoteSigOfLocal := sig }) hb hs,
      fun _ => HtlcFree.sign (s := { proposed with remoteSigOfLocal := sig }) hfree hs⟩
  | proposed _ hb hs => exact ⟨(balanced_override hb).sign hs, fun _ => HtlcFree.sign ⟨rfl, rfl⟩ hs⟩
  | resized hd ha hb hs =>
    refine ⟨((h.records p _ hd).lcss.resized hb).sign hs, ?_⟩
    intro hf
    cases (established_of_active ha).symm.trans (hf _ hd)

theorem Step.effectivePolicy (hs : Step K act w w') : w'.effectivePolicy H = w.effectivePolicy H ∨
    (w'.effectivePolicy H).initialClientBalanceMsat ≤ (w'.effectivePolicy H).channelCapacityMsat := by
  cases hs with
  | policyChanged _ hp =>
    right
    simpa [World.effectivePolicy, World.put_store_self] using hp
  | removed | unlinked | secretRemoved =>
    left
    simp [World.effectivePolicy, World.erase_store_ne]
  | forwarded | signed | answered | sent | stored => exact Or.inl rfl
  | quiet h =>
    left
    rw [World.effectivePolicy, World.effectivePolicy, h.policy]
  | _ =>
    left
    simp [World.effectivePolicy, World.put_store_ne]

/-- A secret after a step was there before, with the same terms, or the operator has just added it. -/
theorem Step.secret (hs : Step K act w w') {key : Bytes} {s : ChannelSecret}
    (hk : (w'.store .secrets).value? key = some s) :
    (∃ s₀ : ChannelSecret, (w.store .secrets).value? key = some s₀ ∧
      s.initialBalanceMsat = s₀.initialBalanceMsat ∧ s.capacityMsat = s₀.capacityMsat) ∨
    ∃ text, K.op = .addSecret text s.capacityMsat s.initialBalanceMsat := by
  cases hs with
  | @secretAdded _ text key' _ _ ho =>
    rw [World.put_store_self] at hk
    by_cases he : key = key'
    · subst he
      rw [Table.value?_put] at hk
      obtain rfl := Option.some.inj hk
      exact Or.inr ⟨text, ho⟩
    · rw [Table.value?_put_ne he] at hk
      exact Or.inl ⟨s, hk, rfl, rfl⟩
  | @secretConsumed _ key' s' hs =>
    rw [World.put_store_self] at hk
    by_cases he : key = key'
    · subst he
      rw [Table.value?_put] at hk
      obtain rfl := Option.some.inj hk
      exact Or.inl ⟨s', hs, rfl, rfl⟩
    · rw [Table.value?_put_ne he] at hk
      exact Or.inl ⟨s, hk, rfl, rfl⟩
  | @secretRemoved _ key' =>
    rw [World.erase_store_self] at hk
    by_cases he : key = key'
    · subst he
      simp at hk
    · rw [Table.value?_erase_ne he] at hk
      exact Or.inl ⟨s, hk, rfl, rfl⟩
  | removed | unlinked =>
    rw [World.erase_store_ne (by decide)] at hk
    exact Or.inl ⟨s, hk, rfl, rfl⟩
  | forwarded | signed | answered | sent | stored => exact Or.inl ⟨s, hk, rfl, rfl⟩
  | offered =>
    rw [World.put_store_ne (by decide), World.put_store_ne (by decide)] at hk
    exact Or.inl ⟨s, hk, rfl, rfl⟩
  | quiet h =>
    rw [h.secrets] at hk
    exact Or.inl ⟨s, hk, rfl, rfl⟩
  | _ =>
    rw [World.put_store_ne (by decide)] at hk
    exact Or.inl ⟨s, hk, rfl, rfl⟩

/-- The terms on which the host opens channels grant no balance above the capacity. -/
structure FairTerms (H : Host) (w : World) : Prop where
  policy : (w.effectivePolicy H).initialClientBalanceMsat ≤ (w.effectivePolicy H).channelCapacityMsat
  secrets : ∀ k s, (w.store .secrets).value? k = some s → s.initialBalanceMsat ≤ s.capacityMsat

theorem FairTerms.granted (h : FairTerms H w) {policy : ChannelPolicy} (hp : Granted H w policy) :
    policy.initialClientBalanceMsat ≤ policy.channelCapacityMsat := by
  rcases hp with rfl | ⟨k, s, hs, rfl⟩
  · exact h.policy
  · exact h.secrets k s hs

theorem FairTerms.step (h : FairTerms H w) (hs : Step K act w w')
    (hop : ∀ text capacity initial, K.op = .addSecret text capacity initial → initial ≤ capacity) : FairTerms H w' where
  policy := by
    rcases hs.effectivePolicy (H := H) with he | he
    · rw [he]
      exact h.policy
    · exact he
  secrets := by
    intro k s hk
    rcases hs.secret hk with ⟨s₀, hs₀, hi, hc⟩ | ⟨text, ho⟩
    · rw [hi, hc]
      exact h.secrets k s₀ hs₀
    · exact hop text _ _ ho

theorem Conserved.terms (h : Conserved H w) : FairTerms H w := ⟨h.policy, h.secrets⟩

theorem conserved_empty (hpolicy : H.config.policy.initialClientBalanceMsat ≤ H.config.policy.channelCapacityMsat) :
    Conserved H World.empty where
  records p d hd := by cases hd
  signed p s hs := by cases hs
  fresh p s hs := by cases hs
  policy := hpolicy
  secrets k s hs := by cases hs

/-- The state that a peer presents with the host's signature is in order. -/
theorem Conserved.presented (h : Conserved H w) {m : LastCrossSignedState} (hd : w.channel p = some d)
    (hm : ∃ s, (p, s) ∈ w.signed ∧ SignedAlike m.reverse s) :
    Balanced m.reverse ∧ (d.established = false → HtlcFree m.reverse) := by
  obtain ⟨s, hs, halike⟩ := hm
  refine ⟨halike.balanced (h.signed p s hs), ?_⟩
  intro he
  refine halike.htlcFree (h.fresh p s hs ?_)
  intro d₀ hd₀
  obtain rfl := Option.some.inj (hd₀.symm.trans hd)
  exact he

/-- One step keeps the invariant. -/
theorem Conserved.step (hK : K.host = H) (hop : (Guard.conserving H).op K.start K.op) (hstart : Conserved H K.start)
    (ht : K.Trace Act.all K.start w) (hs : Step K act w w') (h : Conserved H w) : Conserved H w' := by
  subst hK
  have hkeep : ∀ p force, K.op ≠ .removeChannel p force := by
    intro p force he
    rw [he] at hop
    exact hop
  -- A channel that is not established after the step was not before it.
  have hfresh : ∀ p, (∀ d', w'.channel p = some d' → d'.established = false) →
      ∀ d, w.channel p = some d → d.established = false := by
    intro p hall d hd
    by_contra he
    obtain ⟨d', hd', he'⟩ := hs.established hd (by simpa using he) (h.records p d hd).running (hkeep p)
    cases (hall d' hd').symm.trans he'
  have hterms : FairTerms K.host w' := h.terms.step hs fun text capacity initial ho => by
    rw [ho] at hop
    exact hop
  constructor
  case records =>
    intro p d hd
    cases hs.record p with
    | same he => exact h.records p d (he ▸ hd)
    | created _ _ hp _ he =>
      obtain rfl := Option.some.inj (he.symm.trans hd)
      exact ⟨balanced_initial (hstart.terms.granted hp), fun _ hs => (by cases hs), fun _ => ⟨rfl, rfl, rfl⟩, rfl⟩
    | wrote hd₀ hc ho _ _ he =>
      obtain rfl := Option.some.inj (he.symm.trans hd)
      refine (h.records p _ hd₀).changes hc ?_
      intro m hm
      subst hm
      obtain ⟨⟨e, ho⟩, -⟩ := ho
      rw [ho] at hop
      cases hc with
      | adopted hv =>
        obtain ⟨s, hmem, halike⟩ := hop hv
        exact h.presented hd₀ ⟨s, signed_of_trace ht hmem, halike⟩
    | removed ho => exact absurd ho.choose_spec (hkeep p _)
  case signed =>
    intro p s hmem
    rcases hs.signed_eq with he | ⟨q, t, hsign, he⟩
    · exact h.signed p s (he ▸ hmem)
    · rw [he, List.mem_append, List.mem_singleton] at hmem
      rcases hmem with hmem | hmem
      · exact h.signed p s hmem
      · cases hmem
        exact (h.signs hsign).1
  case fresh =>
    intro p s hmem hall
    rcases hs.signed_eq with he | ⟨q, t, hsign, he⟩
    · exact h.fresh p s (he ▸ hmem) (hfresh p hall)
    · rw [he, List.mem_append, List.mem_singleton] at hmem
      rcases hmem with hmem | hmem
      · exact h.fresh p s hmem (hfresh p hall)
      · cases hmem
        exact (h.signs hsign).2 (hfresh p hall)
  case policy => exact hterms.policy
  case secrets => exact hterms.secrets

/-- In every run the balances and the HTLCs of a channel add up to its capacity, in the stored state and
    in a proposed override. -/
theorem capacity_conserved (H : Host) (w : World) (p : PublicKey) (d : ChannelData)
    (hpolicy : H.config.policy.initialClientBalanceMsat ≤ H.config.policy.channelCapacityMsat)
    (hw : Reachable H (Guard.conserving H) w) (hd : w.channel p = some d) :
    d.lcss.funds = d.lcss.initHostedChannel.channelCapacityMsat.toNat ∧
      ∀ s, d.proposedOverride = some s → s.funds = s.initHostedChannel.channelCapacityMsat.toNat := by
  have hc : Conserved H w := by
    refine hw.keeps (conserved_empty hpolicy) ?_
    intro K act w w' hK _ hop hstart ht hs h
    exact Conserved.step hK hop hstart ht hs h
  have hr := hc.records p d hd
  exact ⟨hr.lcss, fun s hs => (hr.proposal s hs).1⟩

/-- The client opens a channel, sends an HTLC and commits to it; then it presents its state again. -/
def heldScript : List (World → Op) := openScript ++ [
  clientAdds openKey 1 1000 (ByteVec.fill 32 3) 77, clientCommits .transparent openKey,
  clientShows .transparent openKey openPeer 0]

theorem conserving_commits (key : SecretKey) (w : World) : (Guard.conserving H).op w (clientCommits H key w) := by
  rcases clientCommits_cases H key w with h | ⟨m, h⟩
  · rw [h]
    trivial
  · rw [h]
    trivial

/-- A client that presents a state the host has signed for its channel meets the guard. -/
theorem conserving_shows (key : SecretKey) (n : Nat) (w : World) :
    (Guard.conserving H).op w (clientShows H key (publicOf key) n w) := by
  rcases clientShows_cases H key (publicOf key) n w with h | ⟨s, hs, h⟩
  · rw [h]
    trivial
  · rw [h]
    intro _
    exact ⟨s, hs, SignedAlike.resigned s _⟩

theorem capacity_conserved_held : ∃ d, (calmRun .transparent heldScript).channel openPeer = some d ∧
    d.lcss.incomingHtlcs.length = 1 ∧ d.lcss.funds = d.lcss.initHostedChannel.channelCapacityMsat.toNat := by
  have hrun : ((calmRun .transparent heldScript).channel openPeer).any
      (fun d => decide (d.lcss.incomingHtlcs.length = 1)) = true := by
    decide +kernel
  obtain ⟨d, hd, hlen⟩ := exists_of_any hrun
  have hw : Reachable .transparent (Guard.conserving .transparent) (calmRun .transparent heldScript) := by
    refine calmRun_follows (Guard.ofOp_follows ?_ _)
    intro op hop w
    simp only [heldScript, openScript, List.cons_append, List.nil_append, List.mem_cons, List.not_mem_nil, or_false] at hop
    rcases hop with rfl | rfl | rfl | rfl | rfl
    · trivial
    · exact conserving_commits openKey w
    · trivial
    · exact conserving_commits openKey w
    · exact conserving_shows openKey 0 w
  exact ⟨d, hd, of_decide_eq_true hlen, (capacity_conserved .transparent _ openPeer d (by decide) hw hd).1⟩

end Canopus
