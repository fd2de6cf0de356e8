import Canopus.Theorems.Counters
import Canopus.Theorems.Redemption
import Canopus.Theorems.Restoration

/-! Errors and overrides. A channel that carries an error, or a proposal of the operator, is not active
    again before the client has accepted a proposal with its signature. Whether the client can do so on a
    later day than that of the proposal is another matter. -/

namespace Canopus
open Effect Fallible

variable {H : Host} {K : Ctx} {B : Act → Prop} {w w' : World} {p : PublicKey} {d d' : ChannelData} {c : Change} {act : Act}

/-! ### Marks -/

/-- The record carries an error, or a proposal to replace its state. -/
def ChannelData.Marked (d : ChannelData) : Prop := d.localErrors ≠ [] ∨ d.remoteErrors ≠ [] ∨ d.proposedOverride ≠ none

theorem errored_iff : deriveStatus d = .errored ↔
    d.suspended = false ∧ d.proposedOverride = none ∧ (d.localErrors ≠ [] ∨ d.remoteErrors ≠ []) := by
  unfold deriveStatus
  cases d.proposedOverride with
  | none => split_ifs <;> simp_all
  | some s => split_ifs <;> simp_all

theorem overriding_iff : deriveStatus d = .overriding ↔ d.suspended = false ∧ d.proposedOverride ≠ none := by
  unfold deriveStatus
  cases d.proposedOverride with
  | none => split_ifs <;> simp_all
  | some s => split_ifs <;> simp_all

theorem ChannelData.Marked.status (h : d.Marked) (hs : d.suspended = false) :
    deriveStatus d = .errored ∨ deriveStatus d = .overriding := by
  by_cases hp : d.proposedOverride = none
  · rcases h with h | h | h
    · exact Or.inl (errored_iff.mpr ⟨hs, hp, Or.inl h⟩)
    · exact Or.inl (errored_iff.mpr ⟨hs, hp, Or.inr h⟩)
    · exact absurd hp h
  · exact Or.inr (overriding_iff.mpr ⟨hs, hp⟩)

theorem marked_of_status (h : deriveStatus d = .errored ∨ deriveStatus d = .overriding) : d.Marked := by
  rcases h with h | h
  · exact (errored_iff.mp h).2.2.imp id Or.inl
  · exact Or.inr (Or.inr (overriding_iff.mp h).2)

/-- Only the acceptance of a proposal takes the marks away. -/
theorem Changes.marked (hc : Changes H p c d d') (h : d.Marked) : d'.Marked ∨ ∃ m, c = .overridden m := by
  cases hc with
  | overridden => exact Or.inr ⟨_, rfl⟩
  | errored _ hd => exact Or.inl (Or.inl (List.append_ne_nil_of_right_ne_nil _ (List.cons_ne_nil _ _)))
  | remoteErrored => exact Or.inl (Or.inr (Or.inl (List.append_ne_nil_of_right_ne_nil _ (List.cons_ne_nil _ _))))
  | proposed => exact Or.inl (Or.inr (Or.inr (Option.some_ne_none _)))
  | _ => exact Or.inl h

/-- A change that sets a proposal is that of the operator. -/
theorem Changes.proposal (hc : Changes H p c d d') :
    d'.proposedOverride = d.proposedOverride ∨ d'.proposedOverride = none ∨ ∃ reason, c = .proposed reason := by
  cases hc with
  | overridden => exact Or.inr (Or.inl rfl)
  | errored _ hd =>
    subst hd
    exact Or.inl rfl
  | proposed => exact Or.inr (Or.inr ⟨_, rfl⟩)
  | _ => exact Or.inl rfl

/-! ### One operation -/

/-- The update `m` of `p` accepts the proposal that is pending: it has the mirrored counters of the proposal,
    and its signature is one over it. -/
structure Accepts (H : Host) (p : PublicKey) (d : ChannelData) (m : StateUpdate) : Prop where
  status : deriveStatus d = .overriding
  proposal : ∃ s, d.proposedOverride = some s ∧ m.localUpdates = s.remoteUpdates ∧ m.remoteUpdates = s.localUpdates ∧
    { s with remoteSigOfLocal := m.localSigOfRemote }.verifyRemoteSig H.crypto p = true

/-- The operation that is running accepts the proposal that was pending when it started. -/
def Ctx.Accepts (K : Ctx) (p : PublicKey) : Prop :=
  ∃ e m d, K.op = .message p e (.stateUpdate m) ∧ K.start.channel p = some d ∧ Canopus.Accepts K.host p d m

/-- The marks of `p`'s channel stay, or the operation accepts the proposal. -/
theorem Step.marked (hs : Step K act w w') (hop : K.op.removes p = false)
    (h : K.Accepts p ∨ ∃ d, w.channel p = some d ∧ d.Marked ∧ d.suspended = false) :
    K.Accepts p ∨ ∃ d, w'.channel p = some d ∧ d.Marked ∧ d.suspended = false := by
  rcases h with h | ⟨d, hd, hm, hsus⟩
  · exact Or.inl h
  cases hs.record p with
  | same heq => exact Or.inr ⟨d, heq.trans hd, hm, hsus⟩
  | created hn =>
    rcases hn d hd with hn | hn
    · rcases hm.status hsus with he | he
      · cases hn.symm.trans he
      · cases hn.symm.trans he
    · cases (suspended_of_status hn).symm.trans hsus
  | removed ho =>
    obtain ⟨force, ho⟩ := ho
    rw [ho] at hop
    simp [Op.removes] at hop
  | wrote hd₀ hc ho _ _ heq =>
    obtain rfl := Option.some.inj (hd₀.symm.trans hd)
    rcases hc.marked hm with hm' | ⟨m, rfl⟩
    · exact Or.inr ⟨_, heq, hm', hc.suspended hsus⟩
    · obtain ⟨⟨e, ho⟩, hstart⟩ := ho
      cases hc with
      | overridden hst hp hv _ hcs => exact Or.inl ⟨e, m, _, ho, hstart, hst, _, hp, hcs.1, hcs.2, hv⟩

/-- Whatever proposal `p`'s channel has was there when the operation started, or the operation is one of the
    operator's two that make proposals. -/
theorem Step.proposal (hs : Step K act w w')
    (h : ∀ d, w.channel p = some d → ∀ s, d.proposedOverride = some s →
      (∃ d₀, K.start.channel p = some d₀ ∧ d₀.proposedOverride = some s) ∨
        (∃ params force, K.op = .setChannel p params force) ∨ ∃ balance, K.op = .proposeOverride p balance) :
    ∀ d, w'.channel p = some d → ∀ s, d.proposedOverride = some s →
      (∃ d₀, K.start.channel p = some d₀ ∧ d₀.proposedOverride = some s) ∨
        (∃ params force, K.op = .setChannel p params force) ∨ ∃ balance, K.op = .proposeOverride p balance := by
  intro d hd s hps
  cases hs.record p with
  | same heq => exact h d (heq.symm.trans hd) s hps
  | created _ _ _ _ heq =>
    obtain rfl := Option.some.inj (heq.symm.trans hd)
    cases hps
  | removed _ heq => cases heq.symm.trans hd
  | wrote hd₀ hc ho _ _ heq =>
    obtain rfl := Option.some.inj (heq.symm.trans hd)
    rcases hc.proposal with hsame | hnone | ⟨reason, rfl⟩
    · exact h _ hd₀ s (hsame.symm.trans hps)
    · cases hnone.symm.trans hps
    · exact Or.inr (ho.1.imp And.left And.left)

/-- A message leaves an errored channel errored. -/
theorem Step.errored (hs : Step K act w w') (hop : ∃ q e msg, K.op = .message q e msg)
    (h : ∃ d, w.channel p = some d ∧ deriveStatus d = .errored) :
    ∃ d, w'.channel p = some d ∧ deriveStatus d = .errored := by
  obtain ⟨d, hd, hst⟩ := h
  obtain ⟨q, e, msg, hop⟩ := hop
  cases hs.record p with
  | same heq => exact ⟨d, heq.trans hd, hst⟩
  | created hn =>
    rcases hn d hd with hn | hn
    · cases hn.symm.trans hst
    · cases hn.symm.trans hst
  | removed ho =>
    obtain ⟨force, ho⟩ := ho
    cases hop.symm.trans ho
  | wrote hd₀ hc ho _ _ heq =>
    obtain rfl := Option.some.inj (hd₀.symm.trans hd)
    obtain ⟨hsus, hnone, -⟩ := errored_iff.mp hst
    have hmark := hc.marked (marked_of_status (Or.inl hst))
    rcases hmark with hmark | ⟨m, rfl⟩
    · rcases hc.proposal with hsame | hnone' | ⟨reason, rfl⟩
      · exact ⟨_, heq, (hmark.status (hc.suspended hsus)).resolve_right fun h =>
          (overriding_iff.mp h).2 (hsame.trans hnone)⟩
      · exact ⟨_, heq, (hmark.status (hc.suspended hsus)).resolve_right fun h => (overriding_iff.mp h).2 hnone'⟩
      · rcases ho.1 with ⟨⟨params, force, ho⟩, -⟩ | ⟨⟨balance, ho⟩, -⟩
        · cases hop.symm.trans ho
        · cases hop.symm.trans ho
    · cases hc with
      | overridden hov => cases hov.symm.trans hst

/-! ### Runs -/

/-- The world after messages of peers, each with what the environment does while it is handled. -/
def World.receive (H : Host) (w : World) (msgs : List ((PublicKey × WireEncoding × HostedMessage) × (Nat → Choice))) :
    World :=
  msgs.foldl (fun w m => (Op.message m.1.1 m.1.2.1 m.1.2.2).next H m.2 w) w

theorem receive_errored {msgs : List ((PublicKey × WireEncoding × HostedMessage) × (Nat → Choice))}
    (h : ∃ d, w.channel p = some d ∧ deriveStatus d = .errored) :
    ∃ d, (w.receive H msgs).channel p = some d ∧ deriveStatus d = .errored := by
  induction msgs generalizing w with
  | nil => exact h
  | cons m msgs ih =>
    exact ih ((trace_free H w _ m.2).keeps (fun _ _ _ _ hs => hs.errored ⟨_, _, _, rfl⟩) h)

/-- Errors stay until a cross-signed override: where the channel of `p` is not removed, what makes it active
    again is an update of `p` that accepts the proposal that is pending; proposals come from the operator
    alone; and so no sequence of messages makes an errored channel active. -/
theorem errors_sticky (H : Host) (p : PublicKey) (w : World)
    (hw : Reachable H (.ofOp fun _ op => op.removes p = false) w) :
    (∀ (op : Op) o d d', op.removes p = false → w.channel p = some d →
      deriveStatus d = .errored ∨ deriveStatus d = .overriding →
      (op.next H o w).channel p = some d' → deriveStatus d' = .active →
      ∃ e m, op = .message p e (.stateUpdate m) ∧ Accepts H p d m) ∧
    (∀ (op : Op) o (d' : ChannelData) s, (op.next H o w).channel p = some d' → d'.proposedOverride = some s →
      (∃ d, w.channel p = some d ∧ d.proposedOverride = some s) ∨
        (∃ params force, op = .setChannel p params force) ∨ ∃ balance, op = .proposeOverride p balance) ∧
    ∀ msgs d, w.channel p = some d → deriveStatus d = .errored →
      ∃ d', (w.receive H msgs).channel p = some d' ∧ deriveStatus d' = .errored := by
  refine ⟨?_, ?_, ?_⟩
  · intro op o d d' hop hd hst hd' hact
    have hkept := (trace_free H w op o).keeps (fun _ _ _ _ hs => hs.marked hop)
      (Or.inr ⟨d, hd, marked_of_status hst, hw.not_suspended p d hd⟩)
    rcases hkept with ⟨e, m, d₁, ho, hd₁, ha⟩ | ⟨d₁, hd₁, hm, hsus⟩
    · obtain rfl := Option.some.inj (hd₁.symm.trans hd)
      exact ⟨e, m, ho, ha⟩
    · obtain rfl := Option.some.inj (hd₁.symm.trans hd')
      rcases hm.status hsus with he | he
      · cases he.symm.trans hact
      · cases he.symm.trans hact
  · intro op o d' s hd' hps
    exact (trace_free H w op o).keeps (P := fun v => ∀ d, v.channel p = some d → ∀ s, d.proposedOverride = some s →
      (∃ d₀, w.channel p = some d₀ ∧ d₀.proposedOverride = some s) ∨
        (∃ params force, op = .setChannel p params force) ∨ ∃ balance, op = .proposeOverride p balance)
      (fun _ _ _ _ hs => hs.proposal) (fun d hd s hs => Or.inl ⟨d, hd, hs⟩) d' hd' s hps
  · exact fun msgs d hd hst => receive_errored ⟨d, hd, hst⟩

/-- The operator proposes an override for an errored channel. -/
def overrideScript : List (World → Op) := openScript ++ [clientErrs openKey, fun _ => .proposeOverride openPeer none]

theorem overrideScript_keeps : ∀ op ∈ overrideScript, ∀ w, (op w).removes openPeer = false := by
  intro op hop w
  simp only [overrideScript, openScript, List.cons_append, List.nil_append, List.mem_cons, List.not_mem_nil,
    or_false] at hop
  rcases hop with rfl | rfl | rfl | rfl
  · rfl
  · rcases clientCommits_cases .transparent openKey w with h | ⟨m, h⟩
    · rw [h]
      rfl
    · rw [h]
      rfl
  · rfl
  · rfl

/-- The client accepts it, and the channel is active again. -/
theorem errors_sticky_accepted : ∃ d d' e m, (calmRun .transparent overrideScript).channel openPeer = some d ∧
    ((clientAccepts .transparent openKey (calmRun .transparent overrideScript)).next .transparent (fun _ => .calm)
      (calmRun .transparent overrideScript)).channel openPeer = some d' ∧ deriveStatus d' = .active ∧
    clientAccepts .transparent openKey (calmRun .transparent overrideScript) = .message openPeer e (.stateUpdate m) ∧
    Accepts .transparent openPeer d m := by
  have hrun : ((calmRun .transparent overrideScript).channel openPeer).any (fun d => deriveStatus d == .overriding &&
      (((clientAccepts .transparent openKey (calmRun .transparent overrideScript)).next .transparent (fun _ => .calm)
        (calmRun .transparent overrideScript)).channel openPeer).any (fun d' => deriveStatus d' == .active)) = true := by
    decide +kernel
  obtain ⟨d, hd, hrun⟩ := exists_of_any hrun
  obtain ⟨hst, hrun⟩ := Bool.and_eq_true_iff.mp hrun
  obtain ⟨d', hd', hact⟩ := exists_of_any hrun
  have hkeep : (clientAccepts .transparent openKey (calmRun .transparent overrideScript)).removes openPeer = false := by
    rcases clientAccepts_cases .transparent openKey (calmRun .transparent overrideScript) with h | ⟨m, h⟩
    · rw [h]
      rfl
    · rw [h]
      rfl
  have hsticky := errors_sticky .transparent openPeer (calmRun .transparent overrideScript)
    (calmRun_follows (Guard.ofOp_follows overrideScript_keeps _))
  obtain ⟨e, m, hop, ha⟩ := hsticky.1 _ _ d d' hkeep hd (Or.inr (by simpa using hst)) hd' (by simpa using hact)
  exact ⟨d, d', e, m, hd, hd', by simpa using hact, hop, ha⟩

/-! ### Acceptance -/

/-- The host has signed whatever it proposes. -/
theorem Reachable.proposals_signed {G : Guard} (hw : Reachable H G w) :
    ∀ p d, w.channel p = some d → ∀ s, d.proposedOverride = some s → SignedByHost H s := by
  refine hw.each_record (fun _ _ _ _ hs => by cases hs) ?_
  intro K w p c d d' _ _ hc _ ih s hs
  rcases hc.proposal with hsame | hnone | ⟨reason, rfl⟩
  · exact ih s (hsame.symm.trans hs)
  · cases hnone.symm.trans hs
  · cases hc with
    | proposed _ _ hl =>
      cases hs
      exact .sign hl

/-- The proposal `s`, signed by `p` with `m` and by the host, is the state of an active channel without errors. -/
def Enacted (H : Host) (p : PublicKey) (s : LastCrossSignedState) (m : StateUpdate) (w : World) : Prop :=
  ∃ d, w.channel p = some d ∧ deriveStatus d = .active ∧ d.lcss = { s with remoteSigOfLocal := m.localSigOfRemote } ∧
    d.lcss.verifyRemoteSig H.crypto p = true ∧ SignedByHost H d.lcss ∧ d.localErrors = [] ∧ d.remoteErrors = [] ∧
    d.proposedOverride = none

section Acceptance
variable {s : LastCrossSignedState} {m : StateUpdate} {height : UInt32} {E : Choice → Prop}

theorem Enacted.quiet {w' : World} (h : Enacted H p s m w) (hw : SameBooks w w') : Enacted H p s m w' := by
  obtain ⟨d, hd, hrest⟩ := h
  exact ⟨d, (hw.channel p).trans hd, hrest⟩

/-- An announcement of the channel leaves its state alone. -/
theorem surely_sendPendingChannelUpdate (hE : Unfailing E) (h : Enacted H p s m w) :
    Surely exec E (sendPendingChannelUpdate H p) (fun _ w' => Enacted H p s m w') w := by
  obtain ⟨d, hd, hrest⟩ := id h
  refine (yields_loadExisting hE hd).bind ?_
  split
  · exact Surely.pure h
  refine Surely.andThen (Stays.surely (Silent.sendChannelUpdate H p)) ?_ ?_
  · intro _ w' hq
    refine (yields_loadExisting hE ((hq.channel p).trans hd)).bind (Surely.mono (yields_saveChannel hE) ?_)
    rintro _ _ ⟨-, rfl⟩
    exact ⟨_, World.channel_put, hrest⟩
  · intro _ w' hq
    exact h.quiet hq.toSameBooks

/-- The proposal is enacted before anything else is tried. -/
theorem surely_accepted (hd : w.channel p = some d) (hst : deriveStatus d = .overriding)
    (hs : d.proposedOverride = some s) (hsigned : SignedByHost H s) (hday : m.blockDay = height / 144)
    (hl : m.localUpdates = s.remoteUpdates) (hr : m.remoteUpdates = s.localUpdates)
    (hv : { s with remoteSigOfLocal := m.localSigOfRemote }.verifyRemoteSig H.crypto p = true) :
    Surely exec (CalmAt height) (handleStateUpdate H p m) (fun _ w' => Enacted H p s m w') w := by
  obtain ⟨hash, hhash, hsig⟩ := id hsigned
  have halike : SignedAlike { s with remoteSigOfLocal := m.localSigOfRemote }.reverse s.reverse := by
    constructor <;> rfl
  -- The host's signature over the proposal is there already, so signing again changes nothing.
  have hsign : { s with remoteSigOfLocal := m.localSigOfRemote }.sign H.crypto H.nodeSecret =
      .ok { s with remoteSigOfLocal := m.localSigOfRemote } := by
    unfold LastCrossSignedState.sign
    rw [halike.hash, hhash, hsig]
    rfl
  have hactive : deriveStatus (overriddenData d { s with remoteSigOfLocal := m.localSigOfRemote }) = .active := rfl
  unfold handleStateUpdate
  refine (yields_loadExisting CalmAt.unfailing hd).bind ?_
  rw [hst]
  dsimp only
  unfold handleOverrideAcceptance
  rw [hs]
  refine Yields.pure.bind ?_
  rw [if_neg (by simp [hl, hr])]
  refine (yields_currentBlockDay CalmAt.unfailing fun _ hx => hx.2).bind ?_
  rw [if_neg (by simp [hday]), if_neg (by simp [hv])]
  refine (yields_signFor hsign).bind ?_
  refine (yields_saveChannel CalmAt.unfailing).bind ?_
  have henacted : Enacted H p s m ((w.noteSigned p { s with remoteSigOfLocal := m.localSigOfRemote }).put .channels p
      (overriddenData d { s with remoteSigOfLocal := m.localSigOfRemote })) :=
    ⟨_, World.channel_put, hactive, rfl, hv, ⟨hash, halike.hash.trans hhash, hsig⟩, rfl, rfl, rfl⟩
  refine Surely.andThen (Stays.surely (Recording.recordLedgerOnce _ _ _ _ _ _)) ?_
    fun _ _ hq => henacted.quiet hq.toSameBooks
  intro _ w₁ h₁
  refine Surely.andThen (Stays.surely (Bookless.sendMessage p _)) ?_
    fun _ _ hq => (henacted.quiet h₁.toSameBooks).quiet hq
  intro _ w₂ h₂
  have henacted₂ := (henacted.quiet h₁.toSameBooks).quiet h₂
  split
  · exact surely_sendPendingChannelUpdate CalmAt.unfailing henacted₂
  · exact (Stays.surely (Silent.sendChannelUpdate H p)).mono fun _ _ hq => henacted₂.quiet hq.toSameBooks

/-- On another day than that of the proposal nothing happens. -/
theorem surely_ignored (hd : w.channel p = some d) (hst : deriveStatus d = .overriding)
    (hday : m.blockDay ≠ height / 144) :
    Surely exec (CalmAt height) (handleStateUpdate H p m) (fun _ w' => w'.channel p = some d) w := by
  unfold handleStateUpdate
  refine (yields_loadExisting CalmAt.unfailing hd).bind ?_
  rw [hst]
  dsimp only
  unfold handleOverrideAcceptance
  cases d.proposedOverride with
  | none => exact Yields.fail Yields.throw hd
  | some s =>
    refine Yields.pure.bind ?_
    split
    · exact Surely.pure hd
    refine (yields_currentBlockDay CalmAt.unfailing fun _ hx => hx.2).bind ?_
    rw [if_pos hday]
    exact Surely.pure hd

end Acceptance

/-- Where no call fails, a client that answers a proposal with the proposal's own block day, the mirrored counters
    and a valid signature has it enacted exactly on that day: the handler compares the answer's block day with the
    current one instead of the proposal's. -/
theorem override_accepted_iff (H : Host) (w : World) (p : PublicKey) (d : ChannelData) (s : LastCrossSignedState)
    (e : WireEncoding) (m : StateUpdate) (height : UInt32) (o : Nat → Choice) (hw : Reachable H Guard.free w)
    (hd : w.channel p = some d) (hst : deriveStatus d = .overriding) (hs : d.proposedOverride = some s)
    (hday : m.blockDay = s.blockDay) (hl : m.localUpdates = s.remoteUpdates) (hr : m.remoteUpdates = s.localUpdates)
    (hv : { s with remoteSigOfLocal := m.localSigOfRemote }.verifyRemoteSig H.crypto p = true)
    (ho : ∀ n, (o n).fails = false ∧ (o n).height = height) :
    Enacted H p s m ((Op.message p e (.stateUpdate m)).next H o w) ↔ height / 144 = s.blockDay := by
  constructor
  · intro henacted
    by_contra hne
    have hsure : Surely exec (CalmAt height) ((Op.message p e (.stateUpdate m)).program H)
        (fun _ w' => w'.channel p = some d) w := by
      refine surely_message (surely_ignored (w := { w with peerWireEncodings := _ }) hd hst ?_)
      rw [hday]
      exact fun h => hne h.symm
    obtain ⟨d', hd', hact, -⟩ := henacted
    obtain rfl := Option.some.inj (hd'.symm.trans (hsure.run ho))
    cases hact.symm.trans hst
  · intro hheight
    have hsure : Surely exec (CalmAt height) ((Op.message p e (.stateUpdate m)).program H)
        (fun _ w' => Enacted H p s m w') w :=
      surely_message (surely_accepted (w := { w with peerWireEncodings := _ }) hd hst hs (hw.proposals_signed p d hd s hs)
        (hday.trans hheight.symm) hl hr hv)
    exact hsure.run ho

/-- The client's answer to a proposal. -/
def acceptance (s : LastCrossSignedState) : StateUpdate where
  blockDay := s.blockDay
  localUpdates := s.remoteUpdates
  remoteUpdates := s.localUpdates
  localSigOfRemote := clientSig .transparent openKey s

/-- The proposal of the script, which is dated with the day it was made on. -/
theorem overrideScript_proposes : ∃ d s, (calmRun .transparent overrideScript).channel openPeer = some d ∧
    deriveStatus d = .overriding ∧ d.proposedOverride = some s ∧ s.blockDay = 6 ∧
    { s with remoteSigOfLocal := (acceptance s).localSigOfRemote }.verifyRemoteSig Host.transparent.crypto openPeer =
      true := by
  have hrun : ((calmRun .transparent overrideScript).channel openPeer).any (fun d => deriveStatus d == .overriding &&
      d.proposedOverride.any fun s => s.blockDay == 6 &&
        { s with remoteSigOfLocal := (acceptance s).localSigOfRemote }.verifyRemoteSig Host.transparent.crypto openPeer) =
      true := by
    decide +kernel
  obtain ⟨d, hd, hrun⟩ := exists_of_any hrun
  obtain ⟨hst, hrun⟩ := Bool.and_eq_true_iff.mp hrun
  obtain ⟨s, hs, hrun⟩ := exists_of_any hrun
  obtain ⟨hday, hv⟩ := Bool.and_eq_true_iff.mp hrun
  exact ⟨d, s, hd, by simpa using hst, hs, by simpa using hday, hv⟩

/-- On the day of the proposal the answer is taken. -/
theorem override_accepted_same_day : ∃ s, Enacted .transparent openPeer s (acceptance s)
    ((Op.message openPeer .strict (.stateUpdate (acceptance s))).next .transparent (fun _ => .calm)
      (calmRun .transparent overrideScript)) := by
  obtain ⟨d, s, hd, hst, hs, hday, hv⟩ := overrideScript_proposes
  exact ⟨s, (override_accepted_iff .transparent _ openPeer d s .strict (acceptance s) 1000 (fun _ => .calm)
    (calmRun_reachable _ _) hd hst hs rfl rfl rfl hv fun _ => ⟨rfl, rfl⟩).mpr hday.symm⟩

/-- The environment's choice a thousand blocks later. -/
def Choice.late : Choice := { Choice.calm with height := 2000 }

theorem Choice.late_calm (_ : Nat) : CalmAt 2000 Choice.late := ⟨rfl, rfl⟩

/-- A thousand blocks later the same answer is ignored. -/
theorem override_ignored_later : ¬ ∀ (H : Host) (w : World) (p : PublicKey) (d : ChannelData) (s : LastCrossSignedState)
    (e : WireEncoding) (m : StateUpdate) (height : UInt32) (o : Nat → Choice), Reachable H Guard.free w →
    w.channel p = some d → deriveStatus d = .overriding → d.proposedOverride = some s → m.blockDay = s.blockDay →
    m.localUpdates = s.remoteUpdates → m.remoteUpdates = s.localUpdates →
    { s with remoteSigOfLocal := m.localSigOfRemote }.verifyRemoteSig H.crypto p = true →
    (∀ n, (o n).fails = false ∧ (o n).height = height) →
    Enacted H p s m ((Op.message p e (.stateUpdate m)).next H o w) := by
  intro hall
  obtain ⟨d, s, hd, hst, hs, hday, hv⟩ := overrideScript_proposes
  have hw := calmRun_reachable .transparent overrideScript
  generalize calmRun .transparent overrideScript = w at hw hd
  obtain ⟨d', hd', hact, -⟩ := hall .transparent w openPeer d s .strict (acceptance s) 2000 (fun _ => .late)
    hw hd hst hs rfl rfl rfl hv Choice.late_calm
  have hsure : Surely exec (CalmAt 2000) ((Op.message openPeer .strict (.stateUpdate (acceptance s))).program .transparent)
      (fun _ w' => w'.channel openPeer = some d) w := by
    refine surely_message (surely_ignored (w := { w with peerWireEncodings := _ }) hd hst ?_)
    show s.blockDay ≠ 2000 / 144
    rw [hday]
    decide
  have hsame := hsure.run Choice.late_calm
  obtain rfl := Option.some.inj (hd'.symm.trans hsame)
  cases hact.symm.trans hst

end Canopus
