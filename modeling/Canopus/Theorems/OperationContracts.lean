import Canopus.Theorems.Contracts

/-! The contract of the handlers and of the operations. What an operation brings along from outside counts too: a state
    that a peer presents must look like one that the host has signed, and a secret must be worth its terms. -/

namespace Canopus
open Effect Fallible

variable {H : Host} {B : Pledge} {p : PublicKey} {d d' : ChannelData}

/-- What an operation brings along is in order. -/
def Op.brings (B : Pledge) (H : Host) : Op → Prop
  | .message _ _ (.lastCrossSignedState m) =>
    m.verifyRemoteSig H.crypto H.nodePublic = true → ∃ q s, B.state q s ∧ SignedAlike m.reverse s
  | .addSecret _ capacity initial => B.terms initial capacity
  | _ => True

section
variable (hL : Lasting H B)
include hL

/-! ### Establishing -/

theorem abides_consumeSecret (secret : Bytes) : Abides B (consumeSecret H secret) fun r =>
    ∀ policy, r = some policy → B.terms policy.initialClientBalanceMsat policy.channelCapacityMsat := by
  unfold consumeSecret
  split
  · exact Heeds.pure fun policy h => by cases h
  refine Heeds.bind (Heeds.ask trivial) fun r hr => ?_
  rcases r with e | ⟨s, g⟩
  · cases e with
    | notFound => exact Heeds.pure fun policy h => by cases h
    | _ => exact Heeds.throw
  have hs : B.terms s.initialBalanceMsat s.capacityMsat := hr s g rfl
  dsimp only
  split
  · exact Heeds.pure fun policy h => by cases h
  refine (abides_effectivePolicy hL).bind fun base _ => Heeds.bind (Heeds.ask hs) fun _ _ => ?_
  refine (abides_liftStore _).bind fun _ _ => (orderly_ask rfl).bind fun _ _ => (abides_liftStore _).bind fun _ _ => ?_
  refine Heeds.pure fun policy h => ?_
  obtain rfl := Option.some.inj h
  exact hs

theorem abides_grantedPolicy (secret : Bytes) : Abides B (grantedPolicy H secret) fun r =>
    ∀ policy, r = some policy → B.terms policy.initialClientBalanceMsat policy.channelCapacityMsat := by
  have effective : Abides B (do return some (← effectivePolicy H) : Ctl (Option ChannelPolicy)) fun r =>
      ∀ policy, r = some policy → B.terms policy.initialClientBalanceMsat policy.channelCapacityMsat := by
    refine (abides_effectivePolicy hL).bind fun base hb => Heeds.pure fun policy h => ?_
    obtain rfl := Option.some.inj h
    exact hb
  unfold grantedPolicy
  split
  · split
    · exact Heeds.pure fun policy h => by cases h
    · exact abides_consumeSecret hL secret
  split
  · refine (abides_consumeSecret hL secret).bind fun r hr => ?_
    rcases r with - | policy
    · exact effective
    · exact Heeds.pure hr
  · exact effective

theorem orderly_handleNewChannelInvoke (m : InvokeHostedChannel) : Orderly B (handleNewChannelInvoke H p m) := by
  refine (abides_grantedPolicy hL m.secret).bind fun r hr => ?_
  rcases r with - | policy
  · exact orderly_pure _
  · exact orderly_bind (orderly_saveChannel (hL.created p policy _ (hr policy rfl))) fun _ => orderly_tell rfl

theorem orderly_handleReconnectActive (hd : B.record p d) : Orderly B (handleReconnectActive H p d) := by
  refine (abides_repair hL hd).bind fun d' hd' => orderly_bind (orderly_tell rfl) fun _ => ?_
  refine orderly_bind (Heeds.forEach fun u hu => ?_) fun _ => orderly_bind ?_ fun _ => ?_
  · cases u with
    | ofLocal u => exact orderly_sendMessage (hL.replays p d' u hd'.1 hu)
    | ofRemote u => exact orderly_pure _
  · unfold sendStateUpdateIfPending
    split
    · exact orderly_pure _
    · exact orderly_bind (orderly_signNext hL hd'.1) fun _ => orderly_tell rfl
  · exact orderly_bind (orderly_sendPendingChannelUpdate hL) fun _ => orderly_logged (orderly_recoverChannelHtlcs hL true)

omit hL in
theorem orderly_sendFirstError : Orderly B (sendFirstError H p d) := by
  unfold sendFirstError
  split
  · exact orderly_tell rfl
  · exact orderly_pure _

omit hL in
theorem orderly_handleReconnectErrored : Orderly B (handleReconnectErrored H p d) := by
  refine orderly_bind (orderly_tell rfl) fun _ => orderly_bind orderly_sendFirstError fun _ => ?_
  split
  · exact orderly_tell rfl
  · exact orderly_pure _

theorem orderly_handleInvoke (m : InvokeHostedChannel) : Orderly B (handleInvoke H p m) := by
  unfold handleInvoke
  split
  · exact orderly_bind (orderly_tell rfl) fun _ => Heeds.throw
  refine abides_loadChannel.bind fun found hfound => ?_
  rcases found with - | d
  · exact orderly_handleNewChannelInvoke hL m
  have hd := hfound d rfl
  dsimp only
  split
  · exact orderly_handleNewChannelInvoke hL m
  · exact orderly_handleNewChannelInvoke hL m
  · exact orderly_handleReconnectErrored
  · exact orderly_handleReconnectErrored
  · exact orderly_handleReconnectActive hL hd
  · exact orderly_handleReconnectActive hL hd

/-! ### State updates -/

theorem orderly_handleOpeningStateUpdate (m : StateUpdate) (hd : B.record p d) (hs : deriveStatus d = .opening) :
    Orderly B (handleOpeningStateUpdate H p d m) := by
  unfold handleOpeningStateUpdate
  refine orderly_bind orderly_currentBlockDay fun day => ?_
  split
  · exact orderly_pure _
  split
  · exact orderly_pure _
  rename_i hv
  refine (abides_signFor hL hd fun t ht => Signs.opened channel_holding hs ht).bind fun lcss hl => ?_
  have hd' := hL.keeps hd (Changes.established hs (by simpa using hv) hl) trivial
  refine orderly_bind (orderly_saveChannel hd') fun _ => orderly_bind (orderly_recordLedgerOnce _ _ _ _ _) fun _ => ?_
  exact orderly_bind (orderly_tell rfl) fun _ => orderly_sendChannelUpdate hL

theorem orderly_commitUpdates (m : StateUpdate) (hd : B.record p d) (hs : deriveStatus d = .active)
    (hc : countersMatch d m = true) (hu : d.uncommitted ≠ []) : Orderly B (commitUpdates H p d m) := by
  unfold commitUpdates
  refine (abides_liftState _).bind fun next hn => ?_
  split
  · exact orderly_pure _
  rename_i hv
  refine Heeds.bind (abides_signFor hL hd fun t ht => Signs.next [] channel_holding (Or.inl rfl) ?_ ht (by simp))
    fun lcss hl => ?_
  · rw [List.append_nil]
    exact hn
  have hd' := hL.keeps hd (Changes.committed hs hc hn (by simpa using hv) hl hu) trivial
  dsimp only
  refine orderly_bind (orderly_saveChannel hd') fun _ => orderly_bind (orderly_recordCommittedUpdateEvents _ _ _) fun _ => ?_
  exact orderly_bind (orderly_tell rfl) fun _ => orderly_dispatchCommittedEffects hL _ _ _

theorem orderly_handleActiveStateUpdate (m : StateUpdate) (hd : B.record p d) (hs : deriveStatus d = .active) :
    Orderly B (handleActiveStateUpdate H p d m) := by
  unfold handleActiveStateUpdate
  refine (abides_repair hL hd).bind fun d' hd' => ?_
  split
  · exact orderly_pure _
  rename_i hu
  split
  · exact orderly_pure _
  rename_i hc
  refine orderly_bind orderly_currentBlockDay fun day => ?_
  split
  · exact orderly_pure _
  · exact orderly_commitUpdates hL m hd'.1 (hd'.2.trans hs) (by simpa using hc) (by simpa using hu)

theorem orderly_handleOverrideAcceptance (m : StateUpdate) (hd : B.record p d) (hs : deriveStatus d = .overriding) :
    Orderly B (handleOverrideAcceptance H p d m) := by
  unfold handleOverrideAcceptance
  refine (abides_okOr _ _).bind fun proposed hp => ?_
  split
  · exact orderly_pure _
  rename_i hc
  refine orderly_bind orderly_currentBlockDay fun day => ?_
  split
  · exact orderly_pure _
  split
  · exact orderly_pure _
  rename_i hv
  refine (abides_signFor hL hd fun t ht => Signs.overridden channel_holding hp ht).bind fun lcss hl => ?_
  have hd' := hL.keeps hd (Changes.overridden hs hp (by simpa using hv) hl (by simpa using hc)) trivial
  refine orderly_bind (orderly_saveChannel hd') fun _ => orderly_bind (orderly_recordLedgerOnce _ _ _ _ _) fun _ => ?_
  refine orderly_bind (orderly_tell rfl) fun _ => ?_
  split
  · exact orderly_sendPendingChannelUpdate hL
  · exact orderly_sendChannelUpdate hL

theorem orderly_handleStateUpdate (m : StateUpdate) : Orderly B (handleStateUpdate H p m) := by
  refine abides_loadExisting.bind fun d hd => ?_
  split
  · exact orderly_handleOpeningStateUpdate hL m hd ‹_›
  · exact orderly_handleOverrideAcceptance hL m hd ‹_›
  · exact orderly_handleActiveStateUpdate hL m hd ‹_›
  · exact orderly_pure _
  · exact orderly_pure _
  · exact orderly_pure _

/-! ### HTLCs and errors -/

theorem orderly_handleUpdateAdd (htlc : UpdateAddHtlc) : Orderly B (handleUpdateAdd H p htlc) := by
  unfold handleUpdateAdd
  refine abides_loadExisting.bind fun d hd => ?_
  split
  · exact orderly_tell rfl
  rename_i hs
  refine (abides_liftState _).bind fun next hn => ?_
  split
  · exact orderly_bind (orderly_markErrored hL hd _) fun _ => orderly_tell rfl
  · rename_i ha
    exact orderly_saveChannel (hL.keeps hd (Changes.receivedAdd (by simpa using hs) hn (UInt64.not_lt.mp ha))
      trivial)

/-- A resolution from the peer that passes the checks may be saved. -/
theorem Lasting.received {u : PendingUpdate} {id : UInt64} (hd : B.record p d) (hs : ¬ (!takesResolutions d) = true)
    (hr : ¬ hasUncommittedRemoteResolution d id = true) (ho : ¬ (!d.lcss.outgoingHtlcs.any (·.id == id)) = true)
    (hk : resolutionKey (.ofRemote u) = some (false, id))
    (hf : ∀ channelId preimage, u = .fulfill channelId id preimage → ∃ htlc,
      d.lcss.outgoingHtlcs.find? (·.id == id) = some htlc ∧ htlc.paymentHash = H.crypto.sha256 preimage.toList) :
    B.record p (d.push (.ofRemote u)) := by
  refine hL.keeps hd (Changes.receivedResolution ?_ ?_ ?_ hk hf) trivial
  · simpa using hs
  · simpa using hr
  · simpa using ho

theorem orderly_handleUpdateFailMalformed (m : UpdateFailMalformedHtlc) : Orderly B (handleUpdateFailMalformed p m) := by
  unfold handleUpdateFailMalformed
  refine abides_loadExisting.bind fun d hd => ?_
  split
  · exact orderly_pure _
  rename_i hs
  split
  · exact orderly_pure _
  split
  · exact orderly_pure _
  rename_i hr
  split
  · exact orderly_pure _
  rename_i ho
  exact orderly_saveChannel (hL.received hd hs hr ho rfl fun _ _ h => by cases h)

theorem orderly_handleUpdateFail (m : UpdateFailHtlc) : Orderly B (handleUpdateFail p m) := by
  unfold handleUpdateFail
  refine abides_loadExisting.bind fun d hd => ?_
  split
  · exact orderly_pure _
  rename_i hs
  split
  · exact orderly_pure _
  rename_i hr
  split
  · exact orderly_pure _
  rename_i ho
  split
  · exact orderly_markErrored hL hd _
  · exact orderly_saveChannel (hL.received hd hs hr ho rfl fun _ _ h => by cases h)

theorem orderly_handleUpdateFulfill (m : UpdateFulfillHtlc) : Orderly B (handleUpdateFulfill H p m) := by
  unfold handleUpdateFulfill
  refine abides_loadExisting.bind fun d hd => ?_
  split
  · exact orderly_pure _
  rename_i hs
  split
  · exact orderly_pure _
  split
  · exact orderly_pure _
  rename_i hr
  split
  · exact orderly_pure _
  rename_i htlc hf
  have hid : htlc.id = m.id := by simpa using List.find?_some hf
  have ho : d.lcss.outgoingHtlcs.any (·.id == m.id) = true :=
    List.any_eq_true.mpr ⟨htlc, List.mem_of_find?_eq_some hf, by simp [hid]⟩
  split
  · exact orderly_pure _
  rename_i hhash
  refine orderly_bind (orderly_hostedSettlementIsSafe hL htlc) fun safe => ?_
  split
  · have hd' : B.record p (d.push (.ofRemote (.fulfill m.channelId m.id m.paymentPreimage))) := by
      refine hL.received hd hs hr (by simp [ho]) rfl ?_
      rintro _ _ ⟨⟩
      exact ⟨htlc, hf, of_not_not hhash⟩
    refine Heeds.bind (Heeds.ask trivial) fun r hr => (abides_liftNode r).bind fun _ hok => ?_
    exact orderly_bind (orderly_saveChannel hd') fun _ => orderly_resolveForwardFulfill hL _ _ (hr hok)
  · exact orderly_bind (orderly_markErrored hL hd _) fun _ => orderly_tell rfl

/-! ### Resizing and reconciliation -/

theorem orderly_handleResizeChannel (m : ResizeChannel) : Orderly B (handleResizeChannel H p m) := by
  unfold handleResizeChannel
  refine abides_loadExisting.bind fun d hd => ?_
  split
  · exact orderly_pure _
  rename_i hs
  simp only [ne_eq, decide_not, Bool.or_eq_true, Bool.not_eq_true', decide_eq_false_iff_not, not_or, Decidable.not_not,
    Bool.not_eq_false] at hs
  split
  · exact orderly_pure _
  rename_i max ha
  split
  · exact orderly_pure _
  rename_i hm
  refine (abides_okOr _ _).bind fun cap hc => ?_
  split
  · exact orderly_pure _
  rename_i hr
  unfold applyResize
  refine (abides_okOr _ _).bind fun bal hb => orderly_bind (orderly_routingPolicyForData hL) fun r => ?_
  refine (abides_signFor hL hd fun t ht => Signs.resized channel_holding hs.1 hb ht).bind fun lcss hl => ?_
  have hd' := hL.keeps hd (Changes.resized (r := { r with htlcMaximumMsat := cap }) hs.1 hs.2 ha (UInt64.not_lt.mp hm) hc
    hr hb hl rfl) trivial
  refine orderly_bind (orderly_saveChannel hd') fun _ => orderly_bind (orderly_recordLedgerOnce _ _ _ _ _) fun _ => ?_
  exact orderly_bind (orderly_tell rfl) fun _ => orderly_logged (orderly_sendPendingChannelUpdate hL)

theorem orderly_handleLcss (m : LastCrossSignedState)
    (hm : m.verifyRemoteSig H.crypto H.nodePublic = true → ∃ q s, B.state q s ∧ SignedAlike m.reverse s) :
    Orderly B (handleLcss H p m) := by
  unfold handleLcss
  refine abides_loadExisting.bind fun d hd => ?_
  split
  · exact orderly_bind (orderly_markErrored hL hd _) fun _ => orderly_bind (orderly_tell rfl) fun _ => Heeds.throw
  rename_i ho
  split
  · exact orderly_bind (orderly_markErrored hL hd _) fun _ => Heeds.throw
  rename_i hv
  split
  · exact orderly_tell rfl
  rename_i hlt
  split
  · exact orderly_tell rfl
  rename_i hne
  simp only [Bool.or_eq_true, decide_eq_true_eq, not_or, UInt32.not_lt] at hlt
  have ho : m.verifyRemoteSig H.crypto H.nodePublic = true := by simpa using ho
  have hd' : B.record p { d with lcss := m.reverse, uncommitted := [] } := by
    exact hL.keeps hd (Changes.adopted ho (by simpa using hv) hlt.1 hlt.2 hne) (hm ho)
  exact orderly_bind (orderly_saveChannel hd') fun _ => orderly_tell rfl

omit hL in
theorem abides_knownPreimages (hashes : List Hash) : Abides B (knownPreimages hashes) fun preimages =>
    ∀ preimage ∈ preimages, B.preimage preimage := by
  induction hashes with
  | nil => exact Heeds.pure fun _ h => by cases h
  | cons hash hashes ih =>
    refine Heeds.bind (Heeds.ask trivial) fun r hr => (abides_liftNode r).bind fun known hok => ?_
    refine ih.bind fun rest hrest => Heeds.pure fun preimage hmem => ?_
    rcases List.mem_append.mp hmem with hmem | hmem
    · exact hr preimage (hok.trans (congrArg _ (Option.mem_toList.mp hmem)))
    · exact hrest preimage hmem

theorem orderly_handleMessage (msg : HostedMessage) (hm : ∀ m, msg = .lastCrossSignedState m →
    m.verifyRemoteSig H.crypto H.nodePublic = true → ∃ q s, B.state q s ∧ SignedAlike m.reverse s) :
    Orderly B (handleMessage H p msg) := by
  cases msg with
  | invokeHostedChannel m => exact orderly_handleInvoke hL m
  | lastCrossSignedState m => exact orderly_handleLcss hL m (hm m rfl)
  | stateUpdate m => exact orderly_handleStateUpdate hL m
  | updateAddHtlc m => exact orderly_handleUpdateAdd hL m
  | updateFulfillHtlc m => exact orderly_handleUpdateFulfill hL m
  | updateFailHtlc m => exact orderly_handleUpdateFail hL m
  | updateFailMalformedHtlc m => exact orderly_handleUpdateFailMalformed hL m
  | resizeChannel m => exact orderly_handleResizeChannel hL m
  | queryPreimages hashes =>
    refine (abides_knownPreimages hashes).bind fun preimages hknown => ?_
    split
    · exact orderly_pure _
    · exact orderly_sendMessage hknown
  | replyPreimages preimages =>
    exact Heeds.forEach fun preimage _ => orderly_bind (orderly_ask rfl) fun _ => orderly_liftNode _
  | error m =>
    exact abides_loadExisting.bind fun d hd =>
      orderly_saveChannel (hL.keeps hd Changes.remoteErrored trivial)
  | askBrandingInfo hash =>
    show Orderly B (handleAskBranding H p)
    unfold handleAskBranding
    split
    · exact orderly_pure _
    · exact orderly_tell rfl
  | _ => exact orderly_pure _

/-! ### The operator -/

theorem orderly_acceptResize (max : Option UInt64) : Orderly B (acceptResize p max) := by
  have hcas : ∀ attempts, Orderly B (casJson .channels p (fun d => { d with acceptingResizeSat := max }) attempts) := by
    intro attempts
    induction attempts with
    | zero => exact Heeds.throw
    | succ attempts ih =>
      refine Heeds.bind (Heeds.ask trivial) fun r hr => (abides_liftStore _).bind ?_
      rintro ⟨d, g⟩ hd
      have hd' : B.record p { d with acceptingResizeSat := max } :=
        hL.keeps (hr d g hd) Changes.resizeAllowed trivial
      refine Heeds.bind (Heeds.ask hd') fun r _ => ?_
      rcases r with e | u
      · cases e with
        | generationMismatch expected actual =>
          dsimp only
          split
          · exact Heeds.throw
          · exact ih
        | _ => exact Heeds.throw
      · exact orderly_pure _
  exact hcas maxRetries

omit hL in
theorem abides_checkRouting (init : InitHostedChannel) (r : ChannelRoutingPolicy) :
    Abides B (checkRouting init r) fun _ => r.htlcMaximumMsat ≤ init.channelCapacityMsat := by
  unfold checkRouting
  split
  · exact Heeds.throw
  rename_i hx
  split
  · exact Heeds.throw
  · exact Heeds.pure (UInt64.not_lt.mp hx)

theorem orderly_proposeState {reason : LocalError} {init : InitHostedChannel} {day : UInt32} {bal rem : UInt64}
    (r : Option ChannelRoutingPolicy) (pending : Bool) (hd : B.record p d)
    (hd' : d' = { d with routingPolicy := r, channelUpdatePending := pending })
    (hb : checkedSub init.channelCapacityMsat bal = some rem ∨ checkedSub init.channelCapacityMsat rem = some bal)
    (hx : (∃ x, r = some x ∧ x.htlcMaximumMsat ≤ init.channelCapacityMsat) ∨
      reason = .hostProposedOverride ∧ r = d.routingPolicy ∧ init = d.lcss.initHostedChannel) :
    Orderly B (proposeState H p d' reason (overrideLcss d init day bal rem)) := by
  refine (abides_signFor hL hd fun t ht => Signs.proposed channel_holding hb ht).bind fun proposal hl => ?_
  exact orderly_bind (orderly_saveChannel (hL.keeps hd (Changes.proposed hd' hb hl hx) trivial)) fun _ =>
    orderly_pure _

theorem orderly_setChannelOverride (base : LastCrossSignedState) (params : SetChannelParams) (r : ChannelRoutingPolicy)
    (hd : B.record p d) : Orderly B (setChannelOverride H p d base params r) := by
  unfold setChannelOverride
  dsimp only
  split
  · exact Heeds.throw
  refine (abides_okOr _ _).bind fun bal hb => (abides_checkRouting _ _).bind fun _ hx => ?_
  refine orderly_bind orderly_currentBlockDay fun day => ?_
  refine orderly_bind (orderly_proposeState hL _ _ hd rfl (Or.inr hb) (Or.inl ⟨r, rfl, hx⟩)) fun d' => ?_
  refine orderly_bind (orderly_logged orderly_sendFirstError) fun _ => ?_
  split
  · exact orderly_logged (orderly_tell rfl)
  · exact orderly_pure _

theorem orderly_updateChannel (params : SetChannelParams) (hd : B.record p d)
    (hs : deriveStatus d ≠ .overriding → deriveStatus d = .active) : Orderly B (updateChannel H p d params) := by
  unfold updateChannel
  refine orderly_bind (orderly_routingPolicyForData hL) fun r => ?_
  dsimp only
  split
  · exact orderly_bind (abides_okOr _ _).plain fun base => orderly_setChannelOverride hL base params _ hd
  split
  · exact orderly_setChannelOverride hL _ params _ hd
  · rename_i hno _
    refine (abides_checkRouting _ _).bind fun _ hx => ?_
    refine orderly_bind (orderly_saveChannel (hL.keeps hd (Changes.retuned (hs hno) hx) trivial)) fun _ => ?_
    exact orderly_logged (orderly_sendPendingChannelUpdate hL)

theorem orderly_setChannel (params : SetChannelParams) (force : Bool) : Orderly B (setChannel H p params force) := by
  have report : ∀ (d : ChannelData) (b : Bool),
      Orderly B (do return (← channelParametersForData H d, b) : Ctl (ChannelParameters × Bool)) := fun d b =>
    orderly_bind (orderly_bind (orderly_routingPolicyForData hL) fun _ => orderly_pure _) fun _ => orderly_pure _
  unfold setChannel
  refine abides_loadExisting.bind fun d hd => ?_
  split
  · exact report d false
  split
  · exact Heeds.throw
  rename_i hs
  split
  · exact Heeds.throw
  split
  · exact Heeds.throw
  refine orderly_bind (orderly_updateChannel hL params hd fun h => by_contra fun h' => hs ⟨h', h⟩) fun _ => ?_
  exact abides_loadExisting.bind fun d' _ => report d' true

theorem orderly_proposeOverride (balance : Option UInt64) : Orderly B (proposeOverride H p balance) := by
  unfold proposeOverride
  refine abides_loadExisting.bind fun d hd => ?_
  split
  · exact Heeds.throw
  dsimp only
  refine (abides_okOr _ _).bind fun rem hb => orderly_bind orderly_currentBlockDay fun day => ?_
  refine orderly_bind (orderly_proposeState hL d.routingPolicy d.channelUpdatePending hd rfl (Or.inl hb)
    (Or.inr ⟨rfl, rfl, rfl⟩)) fun d' => ?_
  refine orderly_bind orderly_sendFirstError fun _ => ?_
  split
  · exact orderly_tell rfl
  · exact orderly_pure _

theorem orderly_handlePolicy (params : PolicyParams) : Orderly B (handlePolicy H params) := by
  refine orderly_bind (abides_effectivePolicy hL).plain fun base => ?_
  dsimp only
  split
  · exact Heeds.throw
  rename_i hp
  have hp := hL.fair _ _ (UInt64.not_lt.mp hp)
  split
  · unfold setPolicy
    refine orderly_bind (Heeds.bind (Heeds.ask hp) fun r _ => ?_) fun _ => orderly_pure _
    split
    · exact orderly_pure _
    · refine orderly_bind (orderly_ask rfl) fun _ => orderly_bind (abides_liftStore _).plain fun _ => ?_
      exact Heeds.bind (Heeds.ask hp) fun _ _ => (abides_liftStore _).plain
    · exact Heeds.throw
  · exact orderly_pure _

omit hL in
theorem orderly_parseSecretHex (text : String) : Orderly B (parseSecretHex text) := by
  unfold parseSecretHex
  split
  · split
    · exact orderly_pure _
    · exact Heeds.throw
  · exact Heeds.throw

omit hL in
theorem orderly_addSecret (text : String) {capacity initial : UInt64} (h : B.terms initial capacity) :
    Orderly B (addSecret text capacity initial) := by
  refine orderly_bind (orderly_parseSecretHex _) fun key => Heeds.bind (Heeds.ask h) fun r _ => ?_
  split
  · exact orderly_pure _
  · exact Heeds.throw
  · exact Heeds.throw

omit hL in
theorem orderly_removeChannel (force : Bool) : Orderly B (removeChannel H p force) := by
  refine abides_loadExisting.bind fun d _ => orderly_bind (abides_liftState _).plain fun next => ?_
  split
  · exact Heeds.throw
  refine orderly_bind (orderly_ask rfl) fun _ => orderly_bind (abides_liftStore _).plain fun keys => ?_
  refine orderly_bind (Heeds.forEach fun key _ => orderly_bind (orderly_ask rfl) fun _ => (abides_liftStore _).plain) fun _ => ?_
  exact orderly_bind (orderly_ask rfl) fun _ => orderly_bind (abides_liftStore _).plain fun _ => orderly_ask rfl

/-! ### Deadlines, connections and hooks -/

omit hL in
theorem orderly_readLink (key : HtlcKey) : Orderly B (readLink key) := by
  refine orderly_bind (orderly_ask rfl) fun r => ?_
  rcases r with e | ⟨l, g⟩
  · cases e with
    | notFound => exact orderly_pure _
    | _ => exact Heeds.throw
  · exact orderly_pure _

omit hL in
theorem orderly_firstUncommittedLate (scid now : UInt64) (htlcs : List UpdateAddHtlc) :
    Orderly B (firstUncommittedLate scid now htlcs) := by
  induction htlcs with
  | nil => exact orderly_pure _
  | cons htlc htlcs ih =>
    refine orderly_bind (orderly_readLink _) fun r => ?_
    split
    · split
      · split
        · exact ih
        · exact orderly_pure _
      · exact ih
    · exact ih

omit hL in
theorem orderly_firstExpired (scid : UInt64) (htlcs : List UpdateAddHtlc) (height : Option UInt32) :
    Orderly B (firstExpired scid htlcs height) := by
  have hheight : ∀ height, Orderly B (cachedHeight height) := by
    intro height
    cases height
    · exact orderly_getBlockHeight
    · exact orderly_pure _
  induction htlcs generalizing height with
  | nil => exact orderly_pure _
  | cons htlc htlcs ih =>
    refine orderly_bind (orderly_readLink _) fun r => ?_
    split
    · split
      · exact ih height
      · refine orderly_bind (hheight height) fun h => ?_
        split
        · exact ih _
        · exact orderly_pure _
    · exact ih height

theorem orderly_enforceDeadlinesOf (now : UInt64) (height : Option UInt32) :
    Orderly B (enforceDeadlinesOf H p now height) := by
  have giveUp : ∀ {d} htlc e code (r : Option UInt32), B.record p d →
      Orderly B (do giveUpOn H p d htlc e code; pure r) := fun htlc e code r hd =>
    orderly_bind (orderly_bind (orderly_markErrored hL hd e) fun _ => orderly_resolveForwardFail hL _ _ _) fun _ =>
      orderly_pure _
  refine abides_loadChannel.bind fun found hfound => ?_
  rcases found with - | d
  · exact orderly_pure _
  have hd := hfound d rfl
  dsimp only
  split
  · exact orderly_pure _
  refine orderly_bind (orderly_firstUncommittedLate _ _ _) fun late => ?_
  rcases late with - | htlc
  · refine orderly_bind (orderly_firstExpired _ _ _) fun expired => ?_
    split
    · exact giveUp _ _ _ _ hd
    · exact orderly_pure _
  · exact giveUp _ _ _ _ hd

theorem orderly_enforceDeadlinesFrom (now : UInt64) (peers : List PublicKey) (height : Option UInt32) :
    Orderly B (enforceDeadlinesFrom H now peers height) := by
  induction peers generalizing height with
  | nil => exact orderly_pure _
  | cons peer peers ih => exact orderly_bind (orderly_enforceDeadlinesOf hL now height) fun _ => ih _

theorem orderly_handleConnect : Orderly B (handleConnect H p) := by
  refine orderly_bind (orderly_ask rfl) fun _ => orderly_bind abides_loadChannel.plain fun found => ?_
  rcases found with - | d
  · exact orderly_pure _
  refine orderly_bind ?_ fun _ => orderly_recoverChannelHtlcs hL true
  unfold sendUpdateIfPending
  split
  · exact orderly_sendPendingChannelUpdate hL
  · exact orderly_pure _

theorem orderly_handleHtlcAccepted (r : HtlcAcceptedRequest) : Orderly B (handleHtlcAccepted H r) := by
  unfold handleHtlcAccepted
  split
  · exact orderly_pure _
  refine orderly_bind (orderly_peerForHostedScid _).attempt.plain fun found => ?_
  split
  · exact orderly_pure _
  · exact orderly_pure _
  split
  · exact orderly_pure _
  refine orderly_bind (orderly_channelHandleHtlcAdd hL _ _ _ _ _ _).attempt.plain fun reply => ?_
  rcases reply with e | u
  · exact orderly_pure _
  · exact orderly_pure _

theorem orderly_handlePay (r : PayRequest) : Orderly B (handlePay H r) := by
  have pays : ∀ peer, Orderly B (payHosted H peer r) := by
    intro peer
    refine orderly_bind (orderly_ask rfl) fun known => ?_
    split
    · exact orderly_pure _
    refine orderly_bind orderly_heightOrZero fun height => orderly_bind (abides_effectivePolicy hL).plain fun policy => ?_
    exact orderly_bind (orderly_sendDirectPayment hL _ _ _ _) fun _ => orderly_pure _
  have target : ∀ hints, Orderly B (hostedInvoiceTarget H hints) := by
    intro hints
    induction hints with
    | nil => exact orderly_pure _
    | cons scid scids ih =>
      refine orderly_bind (orderly_peerForHostedScid _) fun found => ?_
      rcases found with - | peer
      · exact ih
      · exact orderly_pure _
  refine orderly_bind (target _).attempt.plain fun found => ?_
  split
  · exact orderly_pure _
  · exact orderly_pure _
  refine orderly_bind (pays _).attempt.plain fun reply => ?_
  rcases reply with e | u
  · exact orderly_pure _
  · exact orderly_pure _

/-- Every operation keeps to the contract. -/
theorem orderly_program {op : Op} (hop : op.brings B H) : Orderly B (op.program H) := by
  cases op with
  | message peer e msg =>
    refine orderly_bind (orderly_ask rfl) fun _ => orderly_logged (orderly_handleMessage hL msg ?_)
    rintro m rfl
    exact hop
  | htlcAccepted r => exact orderly_bind (orderly_handleHtlcAccepted hL r) fun _ => orderly_pure _
  | pay r => exact orderly_bind (orderly_handlePay hL r) fun _ => orderly_pure _
  | paymentResult scid id status => exact orderly_handleOutgoingPaymentResult hL scid id status
  | recoverCommittedHtlcs =>
    refine orderly_bind orderly_listChannels fun peers => ?_
    exact Heeds.forEach fun peer _ => orderly_logged (orderly_recoverChannelHtlcs hL false)
  | enforceForwardDeadlines =>
    refine orderly_bind (orderly_ask rfl) fun _ => orderly_bind (abides_okOr _ _).plain fun now => ?_
    exact orderly_bind orderly_listChannels fun peers => orderly_enforceDeadlinesFrom hL now peers none
  | connect peer => exact orderly_handleConnect hL
  | disconnect peer => exact orderly_bind (orderly_ask rfl) fun _ => orderly_ask rfl
  | initialPeerConnections connections =>
    refine Heeds.forEach fun c _ => orderly_bind (orderly_ask rfl) fun known => ?_
    rcases known with - | b
    · exact orderly_ask rfl
    · exact orderly_pure _
  | acceptResize peer max => exact orderly_acceptResize hL max
  | setChannel peer params force => exact orderly_bind (orderly_setChannel hL params force) fun _ => orderly_pure _
  | proposeOverride peer balance => exact orderly_proposeOverride hL balance
  | addSecret secret capacity initial => exact orderly_addSecret secret hop
  | removeSecret secret =>
    refine orderly_bind (orderly_parseSecretHex _) fun key => orderly_bind (orderly_ask rfl) fun _ => ?_
    exact (abides_liftStore _).plain
  | policy params => exact orderly_bind (orderly_handlePolicy hL params) fun _ => orderly_pure _
  | removeChannel peer force => exact orderly_removeChannel force
  | restart => exact orderly_pure _

end

end Canopus
