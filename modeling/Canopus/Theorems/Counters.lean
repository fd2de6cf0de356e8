import Canopus.Theorems.Adoption
import Canopus.Theorems.Fold
import Canopus.Theorems.Records

/-! The two counters of a channel. Commits, adoptions and overrides each move them, and each from a state
    that was read at another time: a proposal is one ahead of the state that was stored when it was made,
    and adoption does not look at it. So the counters can go back when a proposal is accepted after a state
    that is further ahead has been adopted; without that, they never do. -/

namespace Canopus
open Effect

variable {H : Host} {G : Guard} {K : Ctx} {w w' : World} {p : PublicKey} {d d' : ChannelData} {c : Change} {act : Act}
  {s t : LastCrossSignedState} {us : List UncommittedUpdate}

/-- The counters of `t` are not behind those of `s`. -/
def CountersLe (s t : LastCrossSignedState) : Prop :=
  s.localUpdates ≤ t.localUpdates ∧ s.remoteUpdates ≤ t.remoteUpdates

instance : Decidable (CountersLe s t) := inferInstanceAs (Decidable (_ ∧ _))

/-- The pending updates and one more fit into both counters. -/
def CountersFit (d : ChannelData) : Prop :=
  d.lcss.localUpdates.toNat + d.uncommitted.length + 1 < UInt32.size ∧
    d.lcss.remoteUpdates.toNat + d.uncommitted.length + 1 < UInt32.size

instance : Decidable (CountersFit d) := inferInstanceAs (Decidable (_ ∧ _))

/-- The operation removes the channel of `p`. -/
def Op.removes (p : PublicKey) : Op → Bool
  | .removeChannel q _ => q = p
  | _ => false

/-- The state that `p` presents by an operation. -/
def Op.presentedBy (p : PublicKey) : Op → Option LastCrossSignedState
  | .message q _ (.lastCrossSignedState m) => if q = p then some m else none
  | _ => none

/-- Runs in which the channel of `p` is not removed and its counters fit, and a state is adopted for it only
    once it is established and only if a pending proposal is not behind that state. -/
def Guard.advancing (H : Host) (p : PublicKey) : Guard := .ofOp fun w op =>
  op.removes p = false ∧ (∀ d ∈ w.channel p, CountersFit d) ∧
    ∀ m ∈ op.presentedBy p, ∀ d ∈ w.channel p, Adopts H p d m →
      d.established = true ∧ ∀ s ∈ d.proposedOverride, CountersLe m.reverse s

/-! ### Single changes -/

theorem CountersLe.refl (s : LastCrossSignedState) : CountersLe s s := ⟨UInt32.le_refl _, UInt32.le_refl _⟩

theorem CountersLe.trans {r : LastCrossSignedState} (h : CountersLe r s) (h' : CountersLe s t) : CountersLe r t :=
  ⟨UInt32.le_trans h.1 h'.1, UInt32.le_trans h.2 h'.2⟩

theorem countersLe_sign {C : Crypto} {key : SecretKey} (hs : s.sign C key = .ok t) : CountersLe s t := by
  obtain ⟨_, -, rfl⟩ := sign_eq_ok hs
  exact CountersLe.refl s

theorem le_add_of_fits {a : UInt32} {n m : Nat} (hn : n ≤ m) (h : a.toNat + m < UInt32.size) : a ≤ a + UInt32.ofNat n := by
  have hsize : UInt32.size = 2 ^ 32 := rfl
  rw [UInt32.le_iff_toNat_le, UInt32.toNat_add, UInt32.toNat_ofNat', Nat.mod_eq_of_lt (a := n) (by omega),
    Nat.mod_eq_of_lt (by omega)]
  omega

/-- Counters that fit the pending updates fit those left when repeated resolutions are removed. -/
theorem CountersFit.deduplicated (h : CountersFit d) :
    CountersFit { d with uncommitted := deduplicateUncommittedResolutions d.uncommitted } := by
  have hle : (deduplicateUncommittedResolutions d.uncommitted).length ≤ d.uncommitted.length :=
    (dedupFrom_sublist [] d.uncommitted).length_le
  obtain ⟨hl, hr⟩ := h
  constructor
  · show d.lcss.localUpdates.toNat + (deduplicateUncommittedResolutions d.uncommitted).length + 1 < UInt32.size
    omega
  · show d.lcss.remoteUpdates.toNat + (deduplicateUncommittedResolutions d.uncommitted).length + 1 < UInt32.size
    omega

theorem CountersFit.next (h : CountersFit d) {C : Crypto}
    (hn : StateManager.lcssNext C ⟨d.lcss, d.uncommitted⟩ = .ok t) : CountersLe d.lcss t := by
  obtain ⟨r, -, rfl⟩ := lcssNext_eq_ok hn
  obtain ⟨hl, hr⟩ := h
  constructor
  · exact le_add_of_fits List.countP_le_length (Nat.lt_of_succ_lt hl)
  · exact le_add_of_fits List.countP_le_length (Nat.lt_of_succ_lt hr)

theorem CountersFit.proposal (h : CountersFit d) (init : InitHostedChannel) (day : UInt32) (bal rem : UInt64) :
    CountersLe d.lcss (overrideLcss d init day bal rem) := by
  obtain ⟨hl, hr⟩ := h
  constructor
  · exact le_add_of_fits (n := 1) (m := 1) (Nat.le_refl 1) (by omega)
  · exact le_add_of_fits (n := 1) (m := 1) (Nat.le_refl 1) (by omega)

theorem no_proposal_of_active (h : deriveStatus d = .active) : d.proposedOverride = none := by
  unfold deriveStatus at h
  split_ifs at h with _ hp
  simpa using hp

theorem zero_of_notOpened (h : deriveStatus d = .notOpened) : d.lcss.localUpdates = 0 ∧ d.lcss.remoteUpdates = 0 := by
  unfold deriveStatus at h
  split_ifs at h with _ _ _ _ hz
  simpa using hz

/-- A record whose counters are in order: both are zero until the channel is established, and a proposal
    is not behind. -/
structure OrderedRecord (d : ChannelData) : Prop where
  running : d.suspended = false
  fresh : d.established = false → d.lcss.localUpdates = 0 ∧ d.lcss.remoteUpdates = 0
  proposal : ∀ s, d.proposedOverride = some s → CountersLe d.lcss s

theorem OrderedRecord.initial (policy : ChannelPolicy) (refund : Bytes) : OrderedRecord (initialData policy refund) where
  running := rfl
  fresh _ := ⟨rfl, rfl⟩
  proposal s hs := by cases hs

/-- A change that keeps the state of the channel, and its proposal. -/
theorem OrderedRecord.same (h : OrderedRecord d) (hl : d'.lcss = d.lcss) (he : d'.established = d.established)
    (hr : d'.suspended = d.suspended) (hp : d'.proposedOverride = d.proposedOverride) :
    OrderedRecord d' ∧ CountersLe d.lcss d'.lcss := by
  refine ⟨⟨hr.trans h.running, ?_, ?_⟩, ?_⟩
  · rw [he, hl]
    exact h.fresh
  · rw [hp, hl]
    exact h.proposal
  · rw [hl]
    exact CountersLe.refl _

/-- A new state that is not behind, in a record that is established and has no proposal. -/
theorem OrderedRecord.advanced (hr : d'.suspended = false) (he : d'.established = true)
    (hp : d'.proposedOverride = none) (hle : CountersLe d.lcss d'.lcss) : OrderedRecord d' ∧ CountersLe d.lcss d'.lcss := by
  refine ⟨⟨hr, ?_, ?_⟩, hle⟩
  · intro hf
    cases he.symm.trans hf
  · intro s hs
    cases hp.symm.trans hs

/-- Every change keeps a record in order and moves its counters forward. -/
theorem OrderedRecord.changes (h : OrderedRecord d) (hop : (Guard.advancing K.host p).op K.start K.op)
    (hc : Changes K.host p c d d') (ho : c.Cause K w p d) : OrderedRecord d' ∧ CountersLe d.lcss d'.lcss := by
  obtain ⟨-, hfit, hop⟩ := hop
  cases hc with
  | @established _ m _ hs _ hl =>
    -- The state of a new channel has both counters at zero.
    obtain ⟨hzl, hzr⟩ := h.fresh (not_established_of_opening hs)
    obtain ⟨_, -, rfl⟩ := sign_eq_ok hl
    have hle : CountersLe d.lcss (openedLcss d.lcss m) := ⟨UInt32.le_of_eq hzl, UInt32.le_of_eq hzr⟩
    refine ⟨⟨h.running, fun hf => (by cases hf), ?_⟩, hle⟩
    intro s hp
    obtain ⟨hsl, hsr⟩ := h.proposal s hp
    rw [hzl] at hsl
    rw [hzr] at hsr
    exact ⟨hsl, hsr⟩
  | @committed _ m next lcss hs _ hn _ hl =>
    obtain ⟨-, d₀, hd₀, hrep⟩ := ho
    have hfit₀ := hfit d₀ hd₀
    have hd : CountersFit d := by
      rcases hrep with rfl | rfl
      · exact hfit₀
      · exact hfit₀.deduplicated
    have hle : CountersLe d.lcss next := hd.next hn
    have hnext : CountersLe d.lcss (proposedNext next m) := hle
    have hest := established_of_active hs
    have hnone := no_proposal_of_active hs
    exact OrderedRecord.advanced h.running hest hnone (hnext.trans (countersLe_sign hl))
  | @overridden _ m proposed lcss _ hp _ hl =>
    have hle : CountersLe d.lcss proposed := h.proposal _ hp
    have hsigned : CountersLe d.lcss { proposed with remoteSigOfLocal := m.localSigOfRemote } := hle
    exact OrderedRecord.advanced rfl rfl rfl (hsigned.trans (countersLe_sign hl))
  | errored _ hd =>
    subst hd
    exact h.same rfl rfl rfl rfl
  | resized _ _ _ _ _ _ _ hl =>
    obtain ⟨_, -, rfl⟩ := sign_eq_ok hl
    exact ⟨⟨h.running, h.fresh, h.proposal⟩, CountersLe.refl _⟩
  | proposed hd _ hl =>
    subst hd
    refine ⟨⟨h.running, h.fresh, ?_⟩, CountersLe.refl _⟩
    intro s hs
    obtain rfl := Option.some.inj hs
    exact CountersLe.trans ((hfit d ho.2).proposal _ _ _ _) (countersLe_sign hl)
  | @adopted _ m hown hv hle hre hne =>
    obtain ⟨⟨e, ho⟩, hd⟩ := ho
    rw [ho] at hop
    obtain ⟨hest, hprop⟩ := hop m (if_pos rfl) d hd ⟨hown, hv, hle, hre, hne⟩
    refine ⟨⟨h.running, ?_, ?_⟩, hle, hre⟩
    · intro hf
      cases hest.symm.trans hf
    · intro s hs
      exact hprop s hs
  | _ => exact h.same rfl rfl rfl rfl

/-! ### Runs -/

/-- One step keeps the record of `p` in order. A channel that is created anew had no counters to lose. -/
theorem OrderedRecord.step (hK : K.host = H) (hop : (Guard.advancing H p).op K.start K.op) (hs : Step K act w w')
    (h : ∀ d, w.channel p = some d → OrderedRecord d) :
    (∀ d', w'.channel p = some d' → OrderedRecord d') ∧
      ∀ d, w.channel p = some d → ∃ d', w'.channel p = some d' ∧ CountersLe d.lcss d'.lcss := by
  subst hK
  cases hs.record p with
  | same he =>
    rw [he]
    exact ⟨h, fun d hd => ⟨d, hd, CountersLe.refl _⟩⟩
  | created hn _ _ _ he =>
    refine ⟨?_, ?_⟩
    · intro d' hd'
      obtain rfl := Option.some.inj (he.symm.trans hd')
      exact .initial _ _
    · intro d hd
      refine ⟨_, he, ?_⟩
      rcases hn d hd with hn | hn
      · obtain ⟨hzl, hzr⟩ := zero_of_notOpened hn
        exact ⟨UInt32.le_of_eq hzl, UInt32.le_of_eq hzr⟩
      · cases (suspended_of_status hn).symm.trans (h d hd).running
  | wrote hd₀ hc ho _ _ he =>
    obtain ⟨hrec, hle⟩ := (h _ hd₀).changes hop hc ho
    refine ⟨?_, ?_⟩
    · intro d' hd'
      obtain rfl := Option.some.inj (he.symm.trans hd')
      exact hrec
    · intro d hd
      obtain rfl := Option.some.inj (hd₀.symm.trans hd)
      exact ⟨_, he, hle⟩
  | removed ho =>
    obtain ⟨force, ho⟩ := ho
    have hkeep := hop.1
    rw [ho] at hkeep
    exact absurd rfl (of_decide_eq_false hkeep)

theorem Reachable.ordered (hw : Reachable H (Guard.advancing H p) w) : ∀ d, w.channel p = some d → OrderedRecord d := by
  refine hw.keeps (P := fun w => ∀ d, w.channel p = some d → OrderedRecord d) ?_ ?_
  · intro d hd
    cases hd
  · intro K act w w' hK _ hop _ _ hs h
    exact (OrderedRecord.step hK hop hs h).1

/-- In every run in which the channel is not removed, its counters fit, and no adopted state passes a
    pending proposal, every operation leaves both counters as they were or moves them forward. -/
theorem counters_never_go_back (H : Host) (w : World) (p : PublicKey) (d : ChannelData) (op : Op) (o : Nat → Choice)
    (hw : Reachable H (Guard.advancing H p) w) (hop : (Guard.advancing H p).op w op) (hd : w.channel p = some d) :
    ∃ d', (op.next H o w).channel p = some d' ∧ CountersLe d.lcss d'.lcss := by
  let K : Ctx := ⟨H, Guard.advancing H p, w, op, fun _ _ _ => True⟩
  let P : World → Prop := fun v => (∀ d', v.channel p = some d' → OrderedRecord d') ∧
    ∃ d', v.channel p = some d' ∧ CountersLe d.lcss d'.lcss
  have hnext : P (op.next H o w) := by
    refine (trace_next (K := K) (Guard.ofOp_allows H hop) (Prog.kept_of_forall fun _ _ _ => trivial)).keeps ?_
      ⟨hw.ordered, d, hd, CountersLe.refl _⟩
    intro act v v' _ hs hP
    obtain ⟨hrec, d₁, hd₁, hle₁⟩ := hP
    obtain ⟨hrec', hmove⟩ := OrderedRecord.step (K := K) rfl hop hs hrec
    obtain ⟨d₂, hd₂, hle₂⟩ := hmove d₁ hd₁
    exact ⟨hrec', d₂, hd₂, hle₁.trans hle₂⟩
  exact hnext.2

/-- The host has added one HTLC when the channel fails and it proposes a state; the client has that state and
    accepts the proposal. -/
def proposalScript : List (World → Op) := openScript ++ [
  hostPays 3, clientErrs openKey, fun _ => .proposeOverride openPeer none,
  clientShows .transparent openKey openPeer 1]

instance (w : World) (op : Op) : Decidable ((Guard.advancing H p).op w op) := inferInstanceAs (Decidable (_ ∧ _))

instance (w : World) (q : PublicKey) (d : ChannelData) : Decidable ((Guard.advancing H p).record w q d) := .isTrue trivial

instance (w : World) (k : HtlcKey) (l : ForwardLink) : Decidable ((Guard.advancing H p).link w k l) := .isTrue trivial

theorem counters_never_go_back_accepted : ∃ d d', (calmRun .transparent proposalScript).channel openPeer = some d ∧
    ((clientAccepts .transparent openKey (calmRun .transparent proposalScript)).next .transparent (fun _ => .calm)
      (calmRun .transparent proposalScript)).channel openPeer = some d' ∧
    d.lcss.localUpdates = 1 ∧ d'.lcss.remoteUpdates = 1 ∧ CountersLe d.lcss d'.lcss := by
  have hrun : ((calmRun .transparent proposalScript).channel openPeer).any (fun d => decide (d.lcss.localUpdates = 1 ∧
      ∀ d' ∈ ((clientAccepts .transparent openKey (calmRun .transparent proposalScript)).next .transparent (fun _ => .calm)
        (calmRun .transparent proposalScript)).channel openPeer, d'.lcss.remoteUpdates = 1)) = true := by
    decide +kernel
  have hfollows : (Guard.advancing .transparent openPeer).follows .transparent World.empty proposalScript = true := by
    decide +kernel
  have hop : (Guard.advancing .transparent openPeer).op (calmRun .transparent proposalScript)
      (clientAccepts .transparent openKey (calmRun .transparent proposalScript)) := by
    decide +kernel
  obtain ⟨d, hd, hrun⟩ := exists_of_any hrun
  obtain ⟨hl, hr⟩ := of_decide_eq_true hrun
  obtain ⟨d', hd', hle⟩ := counters_never_go_back .transparent _ openPeer d _ (fun _ => .calm)
    (calmRun_follows (Guard.follows_sound hfollows)) hop hd
  exact ⟨d, d', hd, hd', hl, hr d' hd', hle⟩

/-- The host has added two HTLCs before it proposes: the client holds a state further ahead than the
    proposal, and presents it before it accepts. -/
def passedScript : List (World → Op) := openScript ++ [
  hostPays 3, hostPays 4, clientErrs openKey,
  fun _ => .proposeOverride openPeer none, clientShows .transparent openKey openPeer 1]

theorem counters_go_back : ¬ ∀ (H : Host) (w : World) (p : PublicKey) (d d' : ChannelData) (op : Op) (o : Nat → Choice),
    Reachable H (.ofOp fun _ op => op.removes p = false) w → op.removes p = false → w.channel p = some d →
    (op.next H o w).channel p = some d' → CountersLe d.lcss d'.lcss := by
  intro hall
  have hrun : ((calmRun .transparent passedScript).channel openPeer).any (fun d =>
      (((clientAccepts .transparent openKey (calmRun .transparent passedScript)).next .transparent (fun _ => .calm)
        (calmRun .transparent passedScript)).channel openPeer).any fun d' => decide (¬ CountersLe d.lcss d'.lcss)) = true := by
    decide +kernel
  obtain ⟨d, hd, hrun⟩ := exists_of_any hrun
  obtain ⟨d', hd', hrun⟩ := exists_of_any hrun
  refine of_decide_eq_true hrun (hall .transparent _ openPeer d d' _ (fun _ => .calm) ?_ ?_ hd hd')
  · refine calmRun_follows (Guard.ofOp_follows ?_ _)
    intro op hop w
    simp only [passedScript, openScript, List.cons_append, List.nil_append, List.mem_cons, List.not_mem_nil, or_false] at hop
    rcases hop with rfl | rfl | rfl | rfl | rfl | rfl | rfl
    · rfl
    · rcases clientCommits_cases .transparent openKey w with h | ⟨m, h⟩ <;> rw [h] <;> rfl
    · rfl
    · rfl
    · rfl
    · rfl
    · rcases clientShows_cases .transparent openKey openPeer 1 w with h | ⟨s, -, h⟩ <;> rw [h] <;> rfl
  · rcases clientAccepts_cases .transparent openKey (calmRun .transparent passedScript) with h | ⟨m, h⟩ <;> rw [h] <;> rfl

end Canopus
