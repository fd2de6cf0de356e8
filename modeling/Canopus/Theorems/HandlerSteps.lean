import Canopus.Theorems.ForwardSteps

/-! The steps of the operations, and the induction over runs: what holds at the start and what every
    step keeps holds in every reachable world. -/

namespace Canopus
open Effect Fallible

variable {K : Ctx} {w w' : World} {peer : PublicKey} {d : ChannelData} {B : Act → Prop} [Serves peer B]

/-! ### Establishment -/

theorem does_updateSecret {key : Bytes} {s : ChannelSecret} {g g' : Nat} (hb : B .secretChanged)
    (hs : (w.store .secrets).lookup key = some (g', s)) :
    K.Does B (updateJson .secrets key { s with consumed := true } g) w fun _ w' =>
      (∀ q, w'.channel q = w.channel q) ∧ w'.store .policy = w.store .policy := by
  refine does_updateJson (P := fun w' => (∀ q, w'.channel q = w.channel q) ∧ w'.store .policy = w.store .policy)
    ⟨fun _ => rfl, rfl⟩ fun _ _ _ => ?_
  refine ⟨Trace.single hb (Step.secretConsumed (Table.value?_of_entry hs)), fun q => ?_, ?_⟩
  · simp [World.channel, World.put_store_ne]
  · exact World.put_store_ne (by decide)

theorem does_deleteSecret {key : Bytes} (hb : B .secretChanged) :
    K.Does B (deleteKey .secrets key) w fun _ w' =>
      (∀ q, w'.channel q = w.channel q) ∧ w'.store .policy = w.store .policy := by
  refine does_deleteKey (P := fun w' => (∀ q, w'.channel q = w.channel q) ∧ w'.store .policy = w.store .policy)
    ⟨fun _ => rfl, rfl⟩ ?_
  refine ⟨Trace.single hb Step.secretRemoved, fun q => ?_, ?_⟩
  · simp [World.channel, World.erase_store_ne]
  · exact World.erase_store_ne (by decide)

theorem does_consumeSecret [Mild B] {secret : Bytes} (hb : B .secretChanged) (hs : w.store .secrets = K.start.store .secrets)
    (hp : w.store .policy = K.start.store .policy) :
    K.Does B (consumeSecret K.host secret) w fun r w' => (∀ policy, r = some policy → Granted K.host K.start policy) ∧
      (∀ q, w'.channel q = w.channel q) ∧ w'.store .policy = w.store .policy := by
  unfold consumeSecret
  split
  · exact Does.pure ⟨by simp, fun _ => rfl, rfl⟩
  refine Does.bind does_getJson ?_
  intro r _ hpost
  obtain ⟨rfl, hok, -⟩ := hpost
  rcases r with e | ⟨s, g⟩
  · cases e with
    | notFound => exact Does.pure ⟨by simp, fun _ => rfl, rfl⟩
    | _ => exact Does.throw
  · have he := hok s g rfl
    dsimp only
    split
    · exact Does.pure ⟨by simp, fun _ => rfl, rfl⟩
    refine Does.bind does_effectivePolicy ?_
    intro base _ hpost
    obtain ⟨rfl, rfl⟩ := hpost
    refine Does.bind (does_updateSecret hb he) ?_
    intro _ w₁ hpost
    obtain ⟨hc₁, hp₁⟩ := hpost
    refine Does.bind (Reading.liftStore _).does ?_
    intro _ _ hpost
    subst hpost
    refine Does.bind (does_deleteSecret hb) ?_
    intro _ w₂ hpost
    obtain ⟨hc₂, hp₂⟩ := hpost
    refine Does.bind (Reading.liftStore _).does ?_
    intro _ _ hpost
    subst hpost
    refine Does.pure ⟨?_, fun q => (hc₂ q).trans (hc₁ q), hp₂.trans hp₁⟩
    intro policy hpost
    obtain ⟨⟩ := hpost
    refine Or.inr ⟨secret, s, hs ▸ Table.value?_of_entry he, ?_⟩
    simp only [World.effectivePolicy, hp]

theorem does_grantedPolicy [Mild B] {secret : Bytes} (hb : B .secretChanged) (hs : w.store .secrets = K.start.store .secrets)
    (hp : w.store .policy = K.start.store .policy) :
    K.Does B (grantedPolicy K.host secret) w fun r w' => (∀ policy, r = some policy → Granted K.host K.start policy) ∧
      (∀ q, w'.channel q = w.channel q) := by
  have effective : ∀ {w' : World}, w'.store .policy = w.store .policy → (∀ q, w'.channel q = w.channel q) →
      K.Does B (do return some (← effectivePolicy K.host) : Ctl (Option ChannelPolicy)) w' fun r w'' =>
        (∀ policy, r = some policy → Granted K.host K.start policy) ∧ ∀ q, w''.channel q = w.channel q := by
    intro w' hp' hc'
    refine Does.bind does_effectivePolicy ?_
    intro policy _ hpost
    obtain ⟨rfl, rfl⟩ := hpost
    refine Does.pure ⟨?_, hc'⟩
    intro policy hpost
    obtain ⟨⟩ := hpost
    exact Or.inl (by simp only [World.effectivePolicy, hp', hp])
  unfold grantedPolicy
  split
  · split
    · exact Does.pure ⟨by simp, fun _ => rfl⟩
    · exact (does_consumeSecret hb hs hp).post fun _ _ h => ⟨h.1, h.2.1⟩
  split
  · refine Does.bind (does_consumeSecret hb hs hp) ?_
    intro r w₁ hpost
    obtain ⟨hg, hc₁, hp₁⟩ := hpost
    rcases r with - | policy
    · exact effective hp₁ hc₁
    · exact Does.pure ⟨hg, hc₁⟩
  · exact effective rfl fun _ => rfl

theorem does_handleNewChannelInvoke {m : InvokeHostedChannel}
    (hop : ∃ e m, K.op = .message peer e (.invokeHostedChannel m)) (hs : w.store .secrets = K.start.store .secrets)
    (hp : w.store .policy = K.start.store .policy)
    (hn : ∀ d, w.channel peer = some d → deriveStatus d = .notOpened ∨ deriveStatus d = .suspended) :
    K.Does B (handleNewChannelInvoke K.host peer m) w fun _ _ => True := by
  refine Does.bind (does_grantedPolicy (Serves.secretChanged peer) hs hp) ?_
  intro r w₁ hpost
  obtain ⟨hg, hc⟩ := hpost
  rcases r with - | policy
  · exact Does.pure trivial
  · have created : ∀ {d}, d = initialData policy m.refundScriptpubkey → K.guard.record w₁ peer d →
        K.Trace B w₁ (w₁.put .channels peer d) := by
      rintro _ rfl hr
      exact Trace.single Serves.created (Step.created (fun d hd => hn d (hc peer ▸ hd)) hop (hg policy rfl) hr)
    refine Does.bind (does_saveChannel (fun _ hs hg => created rfl (hg.1 hs)) fun _ _ hs hg => created rfl (hg.1 hs)) fun _ w₂ _ => ?_
    exact (Silent.sendMessage peer _ rfl).does.post fun _ _ _ => trivial

/-- The local updates of the record are told to the peer again. -/
theorem does_replayLocals (hd : w.channel peer = some d) :
    K.Does B (forEach (replayLocal K.host peer) d.uncommitted) w fun _ w' => SameBooks w w' := by
  refine Does.forEach (J := fun v => SameBooks w v) ?_ (SameBooks.refl w)
  intro u hu v hv
  cases u with
  | ofLocal u =>
    refine (does_sendUpdate (Or.inr ⟨d, u, (hv.channel peer).trans hd, hu, rfl⟩)).post ?_
    exact fun _ _ hv' => hv.trans hv'
  | ofRemote u => exact Does.pure hv

theorem does_sendStateUpdateIfPending (hd : w.channel peer = some d) :
    K.Does B (sendStateUpdateIfPending K.host peer d) w fun _ _ => True := by
  unfold sendStateUpdateIfPending
  split
  · exact Does.pure trivial
  · have hn := does_signNext (K := K) (B := B) [] hd (Or.inl rfl) (by simp)
    rw [List.append_nil] at hn
    refine Does.bind hn fun _ _ _ => ?_
    exact (Silent.sendMessage peer _ rfl).does.post fun _ _ _ => trivial

theorem does_handleReconnectActive (hop : ∃ e m, K.op = .message peer e (.invokeHostedChannel m))
    (hd : w.channel peer = some d) (hd₀ : K.start.channel peer = some d) (hu : K.Untold w) :
    K.Does B (handleReconnectActive K.host peer d) w fun _ _ => True := by
  obtain ⟨e, m, hop⟩ := hop
  have hrecovers : K.op.recovers peer := by
    rw [hop]
    rfl
  have hof : ∀ q, K.op.peer = some q → q = peer := by
    rw [hrecovers.peer]
    exact fun q h => (Option.some.inj h).symm
  unfold handleReconnectActive
  refine Does.bind (does_repair (Serves.wrote _) hd (by rw [hop]; exact decide_eq_true rfl) hd₀ hu) ?_
  intro d' w₁ hpost
  obtain ⟨hd₁, -⟩ := hpost
  refine Does.bind (Silent.sendMessage peer _ rfl).does fun _ w₂ h₂ => ?_
  have hd₂ := (h₂.channel peer).trans hd₁
  refine Does.bind (does_replayLocals hd₂) fun _ w₃ h₃ => ?_
  refine Does.bind (does_sendStateUpdateIfPending ((h₃.channel peer).trans hd₂)) fun _ w₄ _ => ?_
  refine Does.bind (does_sendPendingChannelUpdate (Serves.wrote _)) fun _ w₅ _ => ?_
  exact does_logged (does_recoverChannelHtlcs (Or.inr ⟨peer, by rw [hd₀]; rfl, rfl⟩) hof fun _ => hrecovers)

theorem Silent.sendFirstError (H : Host) (peer : PublicKey) (d : ChannelData) : Silent (sendFirstError H peer d) := by
  unfold Canopus.sendFirstError
  split
  · exact Silent.sendError H peer _
  · exact Stays.pure _

theorem Silent.handleReconnectErrored (H : Host) (peer : PublicKey) (d : ChannelData) :
    Silent (handleReconnectErrored H peer d) := by
  refine (Silent.sendMessage peer _ rfl).bind fun _ => (Silent.sendFirstError H peer d).bind fun _ => ?_
  split
  · exact Silent.sendMessage peer _ rfl
  · exact Stays.pure _

theorem does_handleInvoke {m : InvokeHostedChannel} (hop : ∃ e m, K.op = .message peer e (.invokeHostedChannel m))
    (hw : w.channel peer = K.start.channel peer) (hs : w.store .secrets = K.start.store .secrets)
    (hp : w.store .policy = K.start.store .policy) (hu : K.Untold w) :
    K.Does B (handleInvoke K.host peer m) w fun _ _ => True := by
  unfold handleInvoke
  split
  · exact Does.bind (Silent.sendError K.host peer _).does fun _ _ _ => Does.throw
  refine Does.bind does_loadChannel ?_
  intro found w₀ hpost
  obtain ⟨rfl, hd⟩ := hpost
  rcases found with - | d
  · exact does_handleNewChannelInvoke hop hs hp fun d h => by simp [← hd] at h
  have new : (deriveStatus d = .notOpened ∨ deriveStatus d = .suspended) →
      K.Does B (handleNewChannelInvoke K.host peer m) w₀ fun _ _ => True := by
    intro hst
    refine does_handleNewChannelInvoke hop hs hp fun d' h => ?_
    obtain rfl : d = d' := Option.some.inj (hd.trans h)
    exact hst
  have hd₀ : K.start.channel peer = some d := hw.symm.trans hd.symm
  dsimp only
  split
  · rename_i hst
    exact new (Or.inl hst)
  · rename_i hst
    exact new (Or.inr hst)
  · exact (Silent.handleReconnectErrored K.host peer d).does.post fun _ _ _ => trivial
  · exact (Silent.handleReconnectErrored K.host peer d).does.post fun _ _ _ => trivial
  · exact does_handleReconnectActive hop hd.symm hd₀ hu
  · exact does_handleReconnectActive hop hd.symm hd₀ hu

/-! ### State updates -/

section StateUpdates
variable {m : StateUpdate}

theorem Op.books_of_stateUpdate {op : Op} (hop : ∃ e, op = .message peer e (.stateUpdate m)) : op.books = true := by
  obtain ⟨e, rfl⟩ := hop
  rfl

variable (hop : ∃ e, K.op = .message peer e (.stateUpdate m))
include hop

theorem does_handleOpeningStateUpdate (hd : w.channel peer = some d) (hd₀ : K.start.channel peer = some d)
    (hs : deriveStatus d = .opening) :
    K.Does B (handleOpeningStateUpdate K.host peer d m) w fun _ _ => True := by
  have hbooks := Op.books_of_stateUpdate hop
  unfold handleOpeningStateUpdate
  refine Does.bind Reading.currentBlockDay.does ?_
  intro day _ hpost
  subst hpost
  split
  · exact Does.pure trivial
  split
  · exact Does.pure trivial
  rename_i hv
  refine Does.bind (does_signFor fun t ht => Signs.opened hd hs ht) ?_
  intro lcss _ hpost
  obtain ⟨hl, rfl⟩ := hpost
  refine Does.bind (does_change (c := .established m) (Serves.wrote _) hd
    (Changes.established hs (by simpa using hv) hl) ⟨hop, hd₀⟩ trivial) ?_
  intro _ _ hpost
  subst hpost
  refine Does.bind ((Recording.recordLedgerOnce _ _ _ _ _ _).does hbooks) fun _ _ _ => ?_
  refine Does.bind (Silent.sendMessage peer _ rfl).does fun _ _ _ => ?_
  exact (Silent.sendChannelUpdate K.host peer).does.post fun _ _ _ => trivial

theorem does_commitUpdates {d₀ : ChannelData} (hd : w.channel peer = some d) (hd₀ : K.start.channel peer = some d₀)
    (hrep : d = d₀ ∨ d = { d₀ with uncommitted := deduplicateUncommittedResolutions d₀.uncommitted })
    (hs : deriveStatus d = .active) (hc : countersMatch d m = true) (hu : d.uncommitted ≠ []) :
    K.Does B (commitUpdates K.host peer d m) w fun _ _ => True := by
  have hbooks := Op.books_of_stateUpdate hop
  unfold commitUpdates
  refine Does.bind does_liftState ?_
  intro next _ hpost
  obtain ⟨rfl, hn⟩ := hpost
  split
  · exact Does.pure trivial
  rename_i hv
  refine Does.bind (does_signFor fun t ht => Signs.next [] hd (Or.inl rfl) ?_ ht (by simp)) ?_
  · rw [List.append_nil]
    exact hn
  intro lcss _ hpost
  obtain ⟨hl, rfl⟩ := hpost
  dsimp only
  refine Does.bind (does_change (c := .committed m) (Serves.wrote _) hd
    (Changes.committed hs hc hn (by simpa using hv) hl hu) ⟨hop, d₀, hd₀, hrep⟩ trivial) ?_
  intro _ _ hpost
  subst hpost
  refine Does.bind ((Recording.recordCommittedUpdateEvents _ _ _ _).does hbooks) fun _ _ _ => ?_
  refine Does.bind (Silent.sendMessage peer _ rfl).does fun _ _ _ => ?_
  refine does_dispatchCommittedEffects (Or.inr ⟨peer, by rw [hd₀]; rfl, rfl⟩) ?_ (fun q _ h => Serves.added peer q h)
    fun q _ e => Serves.errored peer q e
  obtain ⟨e, hop⟩ := hop
  rw [hop]
  exact fun q h => (Option.some.inj h).symm

theorem does_handleActiveStateUpdate (hd : w.channel peer = some d) (hd₀ : K.start.channel peer = some d)
    (hs : deriveStatus d = .active) (hu : K.Untold w) :
    K.Does B (handleActiveStateUpdate K.host peer d m) w fun _ _ => True := by
  have hrepairs : K.op.repairs peer := by
    obtain ⟨e, hop⟩ := hop
    rw [hop]
    exact decide_eq_true rfl
  unfold handleActiveStateUpdate
  refine Does.bind (does_repair (Serves.wrote _) hd hrepairs hd₀ hu) ?_
  intro d' w₁ hpost
  obtain ⟨hd₁, hrep⟩ := hpost
  have hs₁ : deriveStatus d' = .active := by
    rcases hrep with rfl | rfl
    · exact hs
    · exact hs
  split
  · exact Does.pure trivial
  rename_i hne
  split
  · exact Does.pure trivial
  rename_i hc
  refine Does.bind Reading.currentBlockDay.does ?_
  intro day _ hpost
  subst hpost
  split
  · exact Does.pure trivial
  · exact does_commitUpdates hop hd₁ hd₀ hrep hs₁ (by simpa using hc) (by simpa using hne)

theorem does_handleOverrideAcceptance (hd : w.channel peer = some d) (hd₀ : K.start.channel peer = some d)
    (hs : deriveStatus d = .overriding) :
    K.Does B (handleOverrideAcceptance K.host peer d m) w fun _ _ => True := by
  have hbooks := Op.books_of_stateUpdate hop
  unfold handleOverrideAcceptance
  refine Does.bind does_okOr ?_
  intro proposed _ hpost
  obtain ⟨rfl, hp⟩ := hpost
  split
  · exact Does.pure trivial
  rename_i hc
  refine Does.bind Reading.currentBlockDay.does ?_
  intro day _ hpost
  subst hpost
  split
  · exact Does.pure trivial
  split
  · exact Does.pure trivial
  rename_i hv
  refine Does.bind (does_signFor fun t ht => Signs.overridden hd hp ht) ?_
  intro lcss _ hpost
  obtain ⟨hl, rfl⟩ := hpost
  refine Does.bind (does_change (c := .overridden m) (Serves.wrote _) hd
    (Changes.overridden hs hp (by simpa using hv) hl (by simpa using hc)) ⟨hop, hd₀⟩ trivial) ?_
  intro _ _ hpost
  subst hpost
  refine Does.bind ((Recording.recordLedgerOnce _ _ _ _ _ _).does hbooks) fun _ _ _ => ?_
  refine Does.bind (Silent.sendMessage peer _ rfl).does fun _ _ _ => ?_
  split
  · exact does_sendPendingChannelUpdate (Serves.wrote _)
  · exact (Silent.sendChannelUpdate K.host peer).does.post fun _ _ _ => trivial

theorem does_handleStateUpdate (hw : w.channel peer = K.start.channel peer) (hu : K.Untold w) :
    K.Does B (handleStateUpdate K.host peer m) w fun _ _ => True := by
  refine Does.bind does_loadExisting ?_
  intro d _ hpost
  obtain ⟨rfl, hd⟩ := hpost
  have hd₀ := hw.symm.trans hd
  split
  · exact does_handleOpeningStateUpdate hop hd hd₀ ‹_›
  · exact does_handleOverrideAcceptance hop hd hd₀ ‹_›
  · exact does_handleActiveStateUpdate hop hd hd₀ ‹_› hu
  · exact Does.pure trivial
  · exact Does.pure trivial
  · exact Does.pure trivial

end StateUpdates

/-! ### HTLCs and preimages -/

theorem does_handleUpdateAdd {htlc : UpdateAddHtlc} (hop : ∃ e, K.op = .message peer e (.updateAddHtlc htlc))
    (hw : w.channel peer = K.start.channel peer) :
    K.Does B (handleUpdateAdd K.host peer htlc) w fun _ _ => True := by
  unfold handleUpdateAdd
  refine Does.bind does_loadExisting ?_
  intro d _ hpost
  obtain ⟨rfl, hd⟩ := hpost
  split
  · exact (does_sendUpdate (Or.inl ⟨d, hw.symm.trans hd, ‹_›⟩)).post fun _ _ _ => trivial
  rename_i hs
  refine Does.bind does_liftState ?_
  intro next _ hpost
  obtain ⟨rfl, hn⟩ := hpost
  split
  · refine Does.bind (does_markErrored (Serves.wrote _) hd (by decide)) fun _ _ _ => ?_
    exact (Silent.sendError K.host peer _).does.post fun _ _ _ => trivial
  · rename_i ha
    refine (does_change (c := .received (.add htlc)) (Serves.wrote _) hd
      (Changes.receivedAdd (by simpa using hs) hn (UInt64.not_lt.mp ha)) ⟨hop, hw.symm.trans hd⟩ trivial).post
        fun _ _ _ => trivial

/-- A resolution from the peer that passes the checks is added. -/
theorem does_receiveResolution {u : PendingUpdate} {id : UInt64} (hd : w.channel peer = some d)
    (hs : ¬ (!takesResolutions d) = true) (hr : ¬ hasUncommittedRemoteResolution d id = true)
    (ho : ¬ (!d.lcss.outgoingHtlcs.any (·.id == id)) = true) (hk : resolutionKey (.ofRemote u) = some (false, id))
    (hf : ∀ channelId preimage, u = .fulfill channelId id preimage → ∃ htlc,
      d.lcss.outgoingHtlcs.find? (·.id == id) = some htlc ∧ htlc.paymentHash = K.host.crypto.sha256 preimage.toList) :
    K.Does B (saveChannel peer (d.push (.ofRemote u)) none) w fun _ w' =>
      w' = w.put .channels peer (d.push (.ofRemote u)) := by
  have hcause : Change.Cause K w peer d (.received u) := by
    cases u with
    | add => cases hk
    | _ => trivial
  refine does_change (c := .received u) (Serves.wrote _) hd (Changes.receivedResolution ?_ ?_ ?_ hk hf) hcause trivial
  · simpa using hs
  · simpa using hr
  · simpa using ho

theorem does_handleUpdateFailMalformed {m : UpdateFailMalformedHtlc} :
    K.Does B (handleUpdateFailMalformed peer m) w fun _ _ => True := by
  unfold handleUpdateFailMalformed
  refine Does.bind does_loadExisting ?_
  intro d _ hpost
  obtain ⟨rfl, hd⟩ := hpost
  split
  · exact Does.pure trivial
  rename_i hs
  split
  · exact Does.pure trivial
  split
  · exact Does.pure trivial
  rename_i hr
  split
  · exact Does.pure trivial
  rename_i ho
  exact (does_receiveResolution hd hs hr ho rfl fun _ _ h => by cases h).post fun _ _ _ => trivial

theorem does_handleUpdateFail {m : UpdateFailHtlc} : K.Does B (handleUpdateFail peer m) w fun _ _ => True := by
  unfold handleUpdateFail
  refine Does.bind does_loadExisting ?_
  intro d _ hpost
  obtain ⟨rfl, hd⟩ := hpost
  split
  · exact Does.pure trivial
  rename_i hs
  split
  · exact Does.pure trivial
  rename_i hr
  split
  · exact Does.pure trivial
  rename_i ho
  split
  · exact (does_markErrored (Serves.wrote _) hd (by decide)).post fun _ _ _ => trivial
  · exact (does_receiveResolution hd hs hr ho rfl fun _ _ h => by cases h).post fun _ _ _ => trivial

theorem does_handleUpdateFulfill {m : UpdateFulfillHtlc} (hop : K.op.settles peer) :
    K.Does B (handleUpdateFulfill K.host peer m) w fun _ _ => True := by
  unfold handleUpdateFulfill
  refine Does.bind does_loadExisting ?_
  intro d _ hpost
  obtain ⟨rfl, hd⟩ := hpost
  split
  · exact Does.pure trivial
  rename_i hs
  split
  · exact Does.pure trivial
  split
  · exact Does.pure trivial
  rename_i hr
  split
  · exact Does.pure trivial
  rename_i htlc hf
  have hmem := List.mem_of_find?_eq_some hf
  have hid : htlc.id = m.id := by simpa using List.find?_some hf
  split
  · exact Does.pure trivial
  rename_i hhash
  refine Does.bind does_hostedSettlementIsSafe ?_
  intro safe w₀ hpost
  obtain ⟨rfl, hsafe, -⟩ := hpost
  split
  · rename_i hsafe'
    have ho : d.lcss.outgoingHtlcs.any (·.id == m.id) = true := List.any_eq_true.mpr ⟨htlc, hmem, by simp [hid]⟩
    refine Does.bind (does_storePreimage (Stores.checked (of_not_not hhash).symm)) fun _ w₁ h₁ => ?_
    refine Does.bind (Reading.liftNode _).does ?_
    intro _ _ hpost
    subst hpost
    have hright : ∀ channelId preimage, PendingUpdate.fulfill m.channelId m.id m.paymentPreimage =
        .fulfill channelId m.id preimage → ∃ htlc, d.lcss.outgoingHtlcs.find? (·.id == m.id) = some htlc ∧
          htlc.paymentHash = K.host.crypto.sha256 preimage.toList := by
      intro channelId preimage h
      cases h
      exact ⟨htlc, hf, of_not_not hhash⟩
    refine Does.bind (does_receiveResolution ((h₁.channel peer).trans hd) hs hr (by simp [ho]) rfl hright) ?_
    intro _ _ hpost
    subst hpost
    refine does_resolveForwardFulfill ?_
    intro l hl hnormal
    -- What was found out about the link before the record was written still holds.
    rw [World.link_put_channel, h₁.link] at hl
    have hnormal₀ : ∀ q, (w₀.channel q).isSome → K.host.scid q ≠ l.incomingScid := by
      intro q hq
      refine hnormal q ?_
      by_cases he : q = peer
      · rw [he, World.channel_put]
        rfl
      · rw [World.channel_put_ne he, h₁.channel]
        exact hq
    have ht := hsafe hsafe' l (hid ▸ hl) hnormal₀
    obtain ⟨⟨d₀, e, hd₀, he, hle⟩, hheight⟩ := ht
    obtain rfl := Option.some.inj (hd₀.symm.trans hd)
    refine Answers.settled hop World.channel_put hmem ?_ rfl ⟨⟨_, e, World.channel_put, he, ?_⟩, hheight⟩ (Or.inl ?_)
    · rw [World.link_put_channel, h₁.link, hid]
      exact hl
    · have hrouting : ((w₁.put .channels peer (d₀.push (.ofRemote (.fulfill m.channelId m.id m.paymentPreimage)))).routing
          K.host (d₀.push (.ofRemote (.fulfill m.channelId m.id m.paymentPreimage)))) = w₀.routing K.host d₀ := by
        unfold World.routing World.effectivePolicy
        rw [World.put_store_ne (by decide), h₁.policy]
        rfl
      rw [hrouting]
      exact hle
    · exact (of_not_not hhash).symm
  · refine Does.bind (does_markErrored (Serves.wrote _) hd (by decide)) fun _ _ _ => ?_
    exact (Silent.sendError K.host peer _).does.post fun _ _ _ => trivial

theorem does_handleError {m : HcError} : K.Does B (handleError peer m) w fun _ _ => True := by
  refine Does.bind does_loadExisting ?_
  intro d _ hpost
  obtain ⟨rfl, hd⟩ := hpost
  exact (does_markRemoteErrored (Serves.wrote _) hd).post fun _ _ _ => trivial

theorem Reading.knownPreimages (hashes : List Hash) : Reading (knownPreimages hashes) := by
  induction hashes with
  | nil => exact Stays.pure _
  | cons hash hashes ih =>
    refine (reading_ask rfl).bind fun _ => (Reading.liftNode _).bind fun _ => ?_
    exact ih.bind fun _ => Stays.pure _

theorem Silent.handleQueryPreimages (peer : PublicKey) (hashes : List Hash) :
    Silent (handleQueryPreimages peer hashes) := by
  refine (Reading.knownPreimages hashes).silent.bind fun _ => ?_
  split
  · exact Stays.pure _
  · exact Silent.sendMessage peer _ rfl

theorem does_handleReplyPreimages [Steady B] {preimages : List (ByteVec 32)} :
    K.Does B (handleReplyPreimages K.host preimages) w fun _ _ => True := by
  refine Does.forEach (J := fun _ => True) (fun _ _ _ _ => ?_) trivial
  refine Does.bind (does_storePreimage (Stores.checked rfl)) fun _ _ _ => ?_
  exact (Reading.liftNode _).does.post fun _ _ _ => trivial

theorem Silent.handleAskBranding (H : Host) (peer : PublicKey) : Silent (handleAskBranding H peer) := by
  unfold Canopus.handleAskBranding
  split
  · exact Stays.pure _
  · exact Silent.sendMessage peer _ rfl

/-! ### Resizing and reconciliation -/

theorem does_handleResizeChannel {m : ResizeChannel} (hop : ∃ e, K.op = .message peer e (.resizeChannel m))
    (hw : w.channel peer = K.start.channel peer) :
    K.Does B (handleResizeChannel K.host peer m) w fun _ _ => True := by
  have hbooks : K.op.books = true := by
    obtain ⟨e, hop⟩ := hop
    rw [hop]
    rfl
  unfold handleResizeChannel
  refine Does.bind does_loadExisting ?_
  intro d _ hpost
  obtain ⟨rfl, hd⟩ := hpost
  split
  · exact Does.pure trivial
  rename_i hs
  simp only [ne_eq, decide_not, Bool.or_eq_true, Bool.not_eq_true', decide_eq_false_iff_not, not_or, Decidable.not_not,
    Bool.not_eq_false] at hs
  split
  · exact Does.pure trivial
  rename_i max ha
  split
  · exact Does.pure trivial
  rename_i hm
  refine Does.bind does_okOr ?_
  intro cap _ hpost
  obtain ⟨rfl, hc⟩ := hpost
  split
  · exact Does.pure trivial
  rename_i hr
  unfold applyResize
  refine Does.bind does_okOr ?_
  intro bal _ hpost
  obtain ⟨rfl, hb⟩ := hpost
  refine Does.bind (Reading.routingPolicyForData K.host d).does ?_
  intro r _ hpost
  subst hpost
  refine Does.bind (does_signFor fun t ht => Signs.resized hd hs.1 hb ht) ?_
  intro lcss _ hpost
  obtain ⟨hl, rfl⟩ := hpost
  refine Does.bind (does_change (c := .resized m) (Serves.wrote _) hd
    (Changes.resized hs.1 hs.2 ha (UInt64.not_lt.mp hm) hc hr hb hl rfl) ⟨hop, hw ▸ hd⟩ trivial) ?_
  intro _ _ hpost
  subst hpost
  refine Does.bind ((Recording.recordLedgerOnce _ _ _ _ _ _).does hbooks) fun _ _ _ => ?_
  refine Does.bind (Silent.sendMessage peer _ rfl).does fun _ _ _ => ?_
  exact does_logged (does_sendPendingChannelUpdate (Serves.wrote _))

theorem does_handleLcss {m : LastCrossSignedState} (hop : ∃ e, K.op = .message peer e (.lastCrossSignedState m))
    (hw : w.channel peer = K.start.channel peer) :
    K.Does B (handleLcss K.host peer m) w fun _ _ => True := by
  unfold handleLcss
  refine Does.bind does_loadExisting ?_
  intro d _ hpost
  obtain ⟨rfl, hd⟩ := hpost
  split
  · refine Does.bind (does_markErrored (Serves.wrote _) hd (by decide)) fun _ _ _ => ?_
    exact Does.bind (Silent.sendError K.host peer _).does fun _ _ _ => Does.throw
  rename_i ho
  split
  · exact Does.bind (does_markErrored (Serves.wrote _) hd (by decide)) fun _ _ _ => Does.throw
  rename_i hv
  split
  · exact (Silent.sendMessage peer _ rfl).does.post fun _ _ _ => trivial
  rename_i hlt
  split
  · exact (Silent.sendMessage peer _ rfl).does.post fun _ _ _ => trivial
  rename_i hne
  simp only [Bool.or_eq_true, decide_eq_true_eq, not_or, UInt32.not_lt] at hlt
  refine Does.bind (does_change (c := .adopted m) (Serves.wrote _) hd
    (Changes.adopted (by simpa using ho) (by simpa using hv) hlt.1 hlt.2 hne) ⟨hop, hw.symm.trans hd⟩ trivial) fun _ _ _ => ?_
  exact (Silent.sendMessage peer _ rfl).does.post fun _ _ _ => trivial

/-! ### The operator -/

theorem does_casJson {f : ChannelData → ChannelData} {c : Change}
    (hf : ∀ d, Changes K.host peer c d (f d)) (ho : ∀ w d, c.Cause K w peer d) (hb : ∀ w, c.Bare K w peer)
    (attempts : Nat) :
    K.Does Act.all (casJson .channels peer f attempts) w fun _ _ => True := by
  induction attempts generalizing w with
  | zero => exact Does.throw
  | succ n ih =>
    unfold casJson
    refine Does.bind does_getJson ?_
    intro r w₀ hpost
    obtain ⟨rfl, hok, -⟩ := hpost
    refine Does.bind does_liftStore ?_
    rintro ⟨v, g⟩ _ ⟨rfl, rfl⟩
    have hv := Table.value?_of_entry (hok v g rfl)
    refine Does.bind (R := fun _ _ => True) ?_ ?_
    · refine does_updateJson trivial fun x hg hs => ?_
      exact ⟨Trace.single (by exact trivial) (Step.wrote hv (hf v) (ho _ v) (hg.1 hs) (hb _)), trivial⟩
    · rintro r w₁ -
      rcases r with e | u
      · cases e with
        | generationMismatch expected actual =>
          dsimp only
          split
          · exact Does.throw
          · exact ih
        | _ => exact Does.throw
      · exact Does.pure trivial

theorem does_acceptResize {c : Option UInt64} : K.Does Act.all (acceptResize peer c) w fun _ _ => True :=
  does_casJson (c := .resizeAllowed) (fun _ => Changes.resizeAllowed) (fun _ _ => trivial) (fun _ => trivial) maxRetries

theorem Reading.channelParametersForData (H : Host) (d : ChannelData) : Reading (channelParametersForData H d) :=
  (Reading.routingPolicyForData H d).bind fun _ => Stays.pure _

theorem Reading.checkRouting (init : InitHostedChannel) (r : ChannelRoutingPolicy) : Reading (checkRouting init r) := by
  unfold Canopus.checkRouting
  split
  · exact Stays.throw _
  split
  · exact Stays.throw _
  · exact Stays.pure _

theorem does_checkRouting {init : InitHostedChannel} {r : ChannelRoutingPolicy} :
    K.Does Act.all (checkRouting init r) w fun _ w' =>
      w' = w ∧ r.htlcMaximumMsat ≤ init.channelCapacityMsat := by
  unfold checkRouting
  split
  · exact Does.throw
  rename_i hx
  split
  · exact Does.throw
  · exact Does.pure ⟨rfl, UInt64.not_lt.mp hx⟩

/-- A proposal whose balances make up its capacity. -/
theorem does_proposeState {d' : ChannelData} {reason : LocalError} {init : InitHostedChannel} {day : UInt32}
    {bal rem : UInt64} (r : Option ChannelRoutingPolicy) (pending : Bool) (hd : w.channel peer = some d)
    (hd₀ : (∃ params force, K.op = .setChannel peer params force) ∧ reason = .forcedParameterOverride ∨
      (∃ balance, K.op = .proposeOverride peer balance) ∧ reason = .hostProposedOverride)
    (hd₁ : K.start.channel peer = some d)
    (hd' : d' = { d with routingPolicy := r, channelUpdatePending := pending })
    (hx : (∃ x, r = some x ∧ x.htlcMaximumMsat ≤ init.channelCapacityMsat) ∨
      reason = .hostProposedOverride ∧ r = d.routingPolicy ∧ init = d.lcss.initHostedChannel)
    (hb : checkedSub init.channelCapacityMsat bal = some rem ∨ checkedSub init.channelCapacityMsat rem = some bal) :
    K.Does Act.all (proposeState K.host peer d' reason (overrideLcss d init day bal rem)) w fun _ _ => True := by
  unfold proposeState
  refine Does.bind (does_signFor fun t ht => Signs.proposed hd hb ht) ?_
  intro proposal _ hpost
  obtain ⟨hl, rfl⟩ := hpost
  refine Does.bind (does_change (c := .proposed reason) trivial hd (Changes.proposed hd' hb hl hx) ⟨hd₀, hd₁⟩ trivial)
    fun _ _ _ => ?_
  exact Does.pure trivial

theorem does_setChannelOverride {base : LastCrossSignedState} {params : SetChannelParams} {r : ChannelRoutingPolicy}
    (hop : ∃ params force, K.op = .setChannel peer params force)
    (hd : w.channel peer = some d) (hd₀ : K.start.channel peer = some d) :
    K.Does Act.all (setChannelOverride K.host peer d base params r) w fun _ _ => True := by
  unfold setChannelOverride
  dsimp only
  split
  · exact Does.throw
  refine Does.bind does_okOr ?_
  intro bal _ hpost
  obtain ⟨rfl, hb⟩ := hpost
  refine Does.bind does_checkRouting ?_
  intro _ _ hpost
  obtain ⟨rfl, hx⟩ := hpost
  refine Does.bind Reading.currentBlockDay.does ?_
  intro day _ hpost
  subst hpost
  refine Does.bind (does_proposeState _ _ hd (Or.inl ⟨hop, rfl⟩) hd₀ rfl (Or.inl ⟨r, rfl, hx⟩) (Or.inr hb)) fun _ _ _ => ?_
  refine Does.bind (Silent.logged (Silent.sendFirstError K.host peer _)).does fun _ _ _ => ?_
  split
  · exact (Silent.logged (Silent.sendMessage peer _ rfl)).does.post fun _ _ _ => trivial
  · exact Does.pure trivial

theorem does_updateChannel {params : SetChannelParams} (hop : ∃ params force, K.op = .setChannel peer params force)
    (hd : w.channel peer = some d) (hd₀ : K.start.channel peer = some d)
    (hs : deriveStatus d ≠ .overriding → deriveStatus d = .active) :
    K.Does Act.all (updateChannel K.host peer d params) w fun _ _ => True := by
  unfold updateChannel
  refine Does.bind (Reading.routingPolicyForData K.host d).does ?_
  intro r _ hpost
  subst hpost
  dsimp only
  split
  · refine Does.bind (Reading.okOr _ _).does ?_
    intro base _ hpost
    subst hpost
    exact does_setChannelOverride hop hd hd₀
  split
  · exact does_setChannelOverride hop hd hd₀
  · unfold setChannelRouting
    refine Does.bind does_checkRouting ?_
    intro _ _ hpost
    obtain ⟨rfl, hx⟩ := hpost
    refine Does.bind (does_change (c := .retuned) trivial hd (Changes.retuned (hs ‹_›) hx) hop trivial)
      fun _ _ _ => ?_
    exact does_logged (does_sendPendingChannelUpdate trivial)

theorem does_setChannel {params : SetChannelParams} {force : Bool} (hop : K.op = .setChannel peer params force) (hw : w.channel peer = K.start.channel peer) :
    K.Does Act.all (setChannel K.host peer params force) w fun _ _ => True := by
  unfold setChannel
  refine Does.bind does_loadExisting ?_
  intro d _ hpost
  obtain ⟨rfl, hd⟩ := hpost
  split
  · refine Does.bind (Reading.channelParametersForData K.host d).does fun _ _ _ => ?_
    exact Does.pure trivial
  split
  · exact Does.throw
  rename_i hs
  split
  · exact Does.throw
  split
  · exact Does.throw
  refine Does.bind (does_updateChannel ⟨_, _, hop⟩ hd (hw.symm.trans hd) fun h => by_contra fun h' => hs ⟨h', h⟩) fun _ _ _ => ?_
  refine Does.bind (Reading.loadExisting peer).does fun _ _ _ => ?_
  refine Does.bind (Reading.channelParametersForData K.host _).does fun _ _ _ => ?_
  exact Does.pure trivial

theorem Silent.announceOverride (H : Host) (peer : PublicKey) (d : ChannelData) : Silent (announceOverride H peer d) := by
  refine (Silent.sendFirstError H peer d).bind fun _ => ?_
  split
  · exact Silent.sendMessage peer _ rfl
  · exact Stays.pure _

theorem does_proposeOverride {balance : Option UInt64} (hop : K.op = .proposeOverride peer balance) (hw : w.channel peer = K.start.channel peer) :
    K.Does Act.all (proposeOverride K.host peer balance) w fun _ _ => True := by
  unfold proposeOverride
  refine Does.bind does_loadExisting ?_
  intro d _ hpost
  obtain ⟨rfl, hd⟩ := hpost
  split
  · exact Does.throw
  dsimp only
  refine Does.bind does_okOr ?_
  intro rem _ hpost
  obtain ⟨rfl, hb⟩ := hpost
  refine Does.bind Reading.currentBlockDay.does ?_
  intro day _ hpost
  subst hpost
  refine Does.bind (does_proposeState d.routingPolicy d.channelUpdatePending hd (Or.inr ⟨⟨_, hop⟩, rfl⟩)
    (hw.symm.trans hd) rfl (Or.inr ⟨rfl, rfl, rfl⟩) (Or.inl hb))
    fun _ _ _ => ?_
  exact (Silent.announceOverride K.host peer _).does.post fun _ _ _ => trivial

theorem Reading.parseSecretHex (text : String) : Reading (parseSecretHex text) := by
  unfold Canopus.parseSecretHex
  split
  · split
    · exact Stays.pure _
    · exact Stays.throw _
  · exact Stays.throw _

theorem does_addSecret {text : String} {capacity initial : UInt64} (hop : K.op = .addSecret text capacity initial) :
    K.Does Act.all (addSecret text capacity initial) w fun _ _ => True := by
  refine Does.bind (Reading.parseSecretHex text).does ?_
  intro key _ hpost
  subst hpost
  refine Does.bind (R := fun _ _ => True) ?_ ?_
  · exact does_createJson trivial fun _ _ _ => ⟨Trace.single (by exact trivial) (Step.secretAdded hop), trivial⟩
  · rintro r w₁ -
    rcases r with e | u
    · cases e <;> exact Does.throw
    · exact Does.pure trivial

theorem does_removeSecret {text : String} : K.Does Act.all (removeSecret text) w fun _ _ => True := by
  refine Does.bind (Reading.parseSecretHex text).does ?_
  intro key _ hpost
  subst hpost
  refine Does.bind (does_deleteSecret trivial) fun _ _ _ => ?_
  exact (Reading.liftStore _).does.post fun _ _ _ => trivial

theorem does_setPolicy {policy : ChannelPolicy} (hop : ∃ params, K.op = .policy params) (hp : policy.initialClientBalanceMsat ≤ policy.channelCapacityMsat) :
    K.Does Act.all (setPolicy policy) w fun _ _ => True := by
  unfold setPolicy
  refine Does.bind (R := fun _ _ => True) ?_ ?_
  · exact does_createJson trivial fun _ _ _ => ⟨Trace.single (by exact trivial) (Step.policyChanged hop hp), trivial⟩
  · rintro r w₁ -
    rcases r with e | u
    · cases e with
      | alreadyExists =>
        refine Does.bind reading_getJson.does ?_
        intro r _ hpost
        subst hpost
        refine Does.bind (Reading.liftStore _).does ?_
        rintro ⟨_, g⟩ _ rfl
        refine Does.bind (R := fun _ _ => True) ?_ fun _ _ _ => ?_
        · exact does_updateJson trivial fun _ _ _ =>
            ⟨Trace.single (by exact trivial) (Step.policyChanged hop hp), trivial⟩
        · exact (Reading.liftStore _).does.post fun _ _ _ => trivial
      | _ => exact Does.throw
    · exact Does.pure trivial

theorem does_handlePolicy {params : PolicyParams} (hop : K.op = .policy params) :
    K.Does Act.all (handlePolicy K.host params) w fun _ _ => True := by
  unfold handlePolicy
  refine Does.bind (Reading.effectivePolicy K.host).does ?_
  intro policy _ hpost
  subst hpost
  dsimp only
  split
  · exact Does.throw
  rename_i hp
  split
  · refine Does.bind (does_setPolicy ⟨_, hop⟩ (UInt64.not_lt.mp hp)) fun _ _ _ => ?_
    exact Does.pure trivial
  · exact Does.pure trivial

/-! ### Removal and deadlines -/

theorem does_listForwards {scid : UInt64} : K.Does Act.all (ask (.listForwards scid)) w fun r w' => w' = w ∧
    ∀ keys, r = .ok keys → ∀ k ∈ keys, k.1 = scid := by
  refine (does_read rfl).post ?_
  intro r w' hpost
  obtain ⟨rfl, x, rfl⟩ := hpost
  refine ⟨rfl, fun keys hk k hm => ?_⟩
  simp only [exec, backendError] at hk
  split at hk
  · cases hk
  · obtain rfl := Except.ok.inj hk
    simpa using (List.mem_filter.mp hm).2

theorem does_removeChannel {force : Bool} (hop : K.op = .removeChannel peer force) :
    K.Does Act.all (removeChannel K.host peer force) w fun _ _ => True := by
  unfold removeChannel
  refine Does.bind does_loadExisting ?_
  intro d w₀ hpost
  obtain ⟨rfl, hd⟩ := hpost
  refine Does.bind (Reading.liftState _).does ?_
  intro next _ hpost
  subst hpost
  split
  · exact Does.throw
  refine Does.bind does_listForwards ?_
  intro r _ hpost
  obtain ⟨rfl, hk⟩ := hpost
  refine Does.bind does_liftStore ?_
  intro keys w₁ hpost
  obtain ⟨rfl, rfl⟩ := hpost
  refine Does.bind (Does.forEach (J := fun w => (w.channel peer).isSome) (fun k hm w hw => ?_) (by simp [hd])) ?_
  · refine Does.bind (does_deleteLink (Drops.closing hw (hk keys rfl k hm))) ?_
    rintro _ w₂ h₂
    refine (Reading.liftStore _).does.post ?_
    intro _ _ hpost
    subst hpost
    rcases h₂ with rfl | rfl
    · exact hw
    · rw [World.channel_erase_link]
      exact hw
  rintro _ w₂ -
  refine Does.bind (R := fun _ _ => True) ?_ fun _ w₃ _ => ?_
  · exact does_deleteKey trivial ⟨Trace.single (by exact trivial) (Step.removed ⟨force, hop⟩), trivial⟩
  refine Does.bind (Reading.liftStore _).does fun _ w₄ _ => ?_
  refine Silent.does (Stays.ask fun x w => ?_) |>.post fun _ _ _ => trivial
  exact Quiet.memory

theorem Reading.readLink (k : HtlcKey) : Reading (readLink k) := by
  refine reading_getJson.bind fun r => ?_
  rcases r with e | ⟨l, g⟩
  · cases e with
    | notFound => exact Stays.pure _
    | _ => exact Stays.throw _
  · exact Stays.pure _

theorem Reading.firstUncommittedLate (scid now : UInt64) (htlcs : List UpdateAddHtlc) :
    Reading (firstUncommittedLate scid now htlcs) := by
  induction htlcs with
  | nil => exact Stays.pure _
  | cons htlc htlcs ih =>
    refine (Reading.readLink _).bind fun r => ?_
    split
    · split
      · split
        · exact ih
        · exact Stays.pure _
      · exact ih
    · exact ih

theorem Reading.cachedHeight (height : Option UInt32) : Reading (cachedHeight height) := by
  cases height
  · exact Reading.getBlockHeight
  · exact Stays.pure _

theorem Reading.firstExpired (scid : UInt64) (htlcs : List UpdateAddHtlc) (height : Option UInt32) :
    Reading (firstExpired scid htlcs height) := by
  induction htlcs generalizing height with
  | nil => exact Stays.pure _
  | cons htlc htlcs ih =>
    refine (Reading.readLink _).bind fun r => ?_
    split
    · split
      · exact ih height
      · refine (Reading.cachedHeight height).bind fun h => ?_
        split
        · exact ih _
        · exact Stays.pure _
    · exact ih height

theorem does_giveUpOn {htlc : UpdateAddHtlc} {e : LocalError} {code : UInt16} (hd : w.channel peer = some d)
    (he : e ≠ .outlivedDeadline) :
    K.Does Act.all (giveUpOn K.host peer d htlc e code) w fun _ _ => True :=
  Does.bind (does_markErrored trivial hd he) fun _ _ _ => does_resolveForwardFail

theorem does_enforceDeadlinesOf {now : UInt64} {height : Option UInt32} :
    K.Does Act.all (enforceDeadlinesOf K.host peer now height) w fun _ _ => True := by
  unfold enforceDeadlinesOf
  refine Does.bind does_loadChannel ?_
  intro found w₀ hpost
  obtain ⟨rfl, hd⟩ := hpost
  rcases found with - | d
  · exact Does.pure trivial
  dsimp only
  split
  · exact Does.pure trivial
  refine Does.bind (Reading.firstUncommittedLate _ _ _).does ?_
  intro late _ hpost
  subst hpost
  rcases late with - | htlc
  · refine Does.bind (Reading.firstExpired _ _ _).does ?_
    rintro ⟨expired, height'⟩ _ rfl
    rcases expired with - | htlc
    · exact Does.pure trivial
    · exact Does.bind (does_giveUpOn hd.symm (by decide)) fun _ _ _ => Does.pure trivial
  · exact Does.bind (does_giveUpOn hd.symm (by decide)) fun _ _ _ => Does.pure trivial

theorem does_enforceDeadlinesFrom {now : UInt64} (peers : List PublicKey) (height : Option UInt32) :
    K.Does Act.all (enforceDeadlinesFrom K.host now peers height) w fun _ _ => True := by
  induction peers generalizing w height with
  | nil => exact Does.pure trivial
  | cons peer peers ih => exact Does.bind does_enforceDeadlinesOf fun height _ _ => ih height

theorem does_enforceForwardDeadlines : K.Does Act.all (enforceForwardDeadlines K.host) w fun _ _ => True := by
  refine Does.bind (reading_ask rfl).does ?_
  intro _ _ hpost
  subst hpost
  refine Does.bind (Reading.okOr _ _).does ?_
  intro now _ hpost
  subst hpost
  refine Does.bind Reading.listChannels.does ?_
  intro peers _ hpost
  subst hpost
  exact does_enforceDeadlinesFrom peers none

/-! ### Connections and hooks -/

theorem Silent.notePeerConnection (peer : PublicKey) (connected : Bool) :
    Silent (ask (.notePeerConnection peer connected)) :=
  Stays.ask fun _ _ => Quiet.memory

theorem does_handleConnect (hop : K.op = .connect peer) :
    K.Does B (handleConnect K.host peer) K.start fun _ _ => True := by
  refine Does.bind (Silent.notePeerConnection peer true).does fun _ w₁ h₁ => ?_
  refine Does.bind does_loadChannel ?_
  intro found _ hpost
  obtain ⟨rfl, hfound⟩ := hpost
  rcases found with - | d
  · exact Does.pure trivial
  have hp : (K.start.channel peer).isSome := by
    rw [← h₁.channel, ← hfound]
    rfl
  have hrecovers : K.op.recovers peer := by
    rw [hop]
    rfl
  have hof : ∀ q, K.op.peer = some q → q = peer := by
    rw [hrecovers.peer]
    exact fun q h => (Option.some.inj h).symm
  refine Does.bind (R := fun _ _ => True) ?_ fun _ _ _ =>
    does_recoverChannelHtlcs (Or.inr ⟨peer, hp, rfl⟩) hof fun _ => hrecovers
  unfold sendUpdateIfPending
  split
  · exact does_sendPendingChannelUpdate (Serves.wrote _)
  · exact Does.pure trivial

theorem Silent.handleDisconnect (peer : PublicKey) : Silent (handleDisconnect peer) :=
  (Silent.notePeerConnection peer false).bind fun _ =>
    Stays.ask fun _ _ => Quiet.memory

theorem Silent.noteInitialPeerConnections (connections : List (PublicKey × Bool)) :
    Silent (noteInitialPeerConnections connections) := by
  refine Stays.forEach (fun ⟨peer, connected⟩ => ?_) connections
  refine (reading_ask rfl).silent.bind fun known => ?_
  split
  · exact Stays.pure _
  · exact Silent.notePeerConnection peer connected

section Hook
variable {B : Act → Prop} [Mild B] (hb : ∀ q h, B (.wrote q (.added h))) (he : ∀ q e, B (.wrote q (.errored e)))
include hb he

theorem does_acceptHtlc {a : HtlcAccepted} (hop : ∃ r, K.op = .htlcAccepted r) :
    K.Does B (acceptHtlc K.host peer a) w fun _ _ => True := by
  have hto : K.op.peer ≠ some peer := by
    obtain ⟨r, hop⟩ := hop
    rw [hop]
    exact fun h => by cases h
  refine Does.bind (Does.attempt (does_channelHandleHtlcAdd (Or.inl hop) rfl hto (fun h _ => hb peer h) (he peer)))
    fun r _ _ => ?_
  rcases r with e | u
  · exact Does.pure trivial
  · exact Does.pure trivial

theorem does_handleHtlcAccepted {r : HtlcAcceptedRequest} (hop : K.op = .htlcAccepted r) :
    K.Does B (handleHtlcAccepted K.host r) w fun _ _ => True := by
  unfold handleHtlcAccepted
  split
  · exact Does.pure trivial
  refine Does.bind (Reading.does (Stays.attempt (Reading.peerForHostedScid K.host _))) ?_
  intro found _ hpost
  subst hpost
  split
  · exact Does.pure trivial
  · exact Does.pure trivial
  · split
    · exact Does.pure trivial
    · exact does_acceptHtlc hb he ⟨r, hop⟩

end Hook

theorem Reading.hostedInvoiceTarget (H : Host) (scids : List UInt64) : Reading (hostedInvoiceTarget H scids) := by
  induction scids with
  | nil => exact Stays.pure _
  | cons scid scids ih =>
    refine (Reading.peerForHostedScid H scid).bind fun r => ?_
    rcases r with - | peer
    · exact ih
    · exact Stays.pure _

theorem does_payHosted {r : PayRequest} (hop : ∃ r, K.op = .pay r) : K.Does Act.all (payHosted K.host peer r) w fun _ _ => True := by
  refine Does.bind (reading_ask rfl).does ?_
  intro known _ hpost
  subst hpost
  split
  · exact Does.pure trivial
  refine Does.bind Reading.heightOrZero.does ?_
  intro height _ hpost
  subst hpost
  refine Does.bind (Reading.effectivePolicy K.host).does ?_
  intro policy _ hpost
  subst hpost
  exact Does.bind (does_sendDirectPayment hop fun _ => trivial) fun _ _ _ => Does.pure trivial

theorem does_handlePay {r : PayRequest} (hop : K.op = .pay r) : K.Does Act.all (handlePay K.host r) w fun _ _ => True := by
  refine Does.bind (Reading.does (Stays.attempt (Reading.hostedInvoiceTarget K.host _))) ?_
  intro found _ hpost
  subst hpost
  split
  · exact Does.pure trivial
  · exact Does.pure trivial
  refine Does.bind (Does.attempt (does_payHosted ⟨r, hop⟩)) fun reply _ _ => ?_
  rcases reply with e | reply
  · exact Does.pure trivial
  · exact Does.pure trivial

/-! ### Operations and runs -/

theorem does_handleMessage {encoding : WireEncoding} {msg : HostedMessage} (hop : K.op = .message peer encoding msg)
    (hw : Quiet K.start w) : K.Does B (handleMessage K.host peer msg) w fun _ _ => True := by
  cases msg with
  | invokeHostedChannel m => exact does_handleInvoke ⟨encoding, m, hop⟩ (hw.channel peer) hw.secrets hw.policy hw.sent
  | lastCrossSignedState m => exact does_handleLcss ⟨encoding, hop⟩ (hw.channel peer)
  | stateUpdate m => exact does_handleStateUpdate ⟨encoding, hop⟩ (hw.channel peer) hw.sent
  | updateAddHtlc m => exact does_handleUpdateAdd ⟨encoding, hop⟩ (hw.channel peer)
  | updateFulfillHtlc m => exact does_handleUpdateFulfill (by rw [hop]; rfl)
  | updateFailHtlc m => exact does_handleUpdateFail
  | updateFailMalformedHtlc m => exact does_handleUpdateFailMalformed
  | resizeChannel m => exact does_handleResizeChannel ⟨encoding, hop⟩ (hw.channel peer)
  | queryPreimages hashes => exact (Silent.handleQueryPreimages peer hashes).does.post fun _ _ _ => trivial
  | replyPreimages preimages => exact does_handleReplyPreimages
  | error m => exact does_handleError
  | askBrandingInfo _ => exact (Silent.handleAskBranding K.host peer).does.post fun _ _ _ => trivial
  | _ => exact Does.pure trivial

theorem does_handleCustommsg {encoding : WireEncoding} {msg : HostedMessage} (hop : K.op = .message peer encoding msg) :
    K.Does B (handleCustommsg K.host peer encoding msg) K.start fun _ _ => True := by
  have note : Silent (ask (.noteWireEncoding peer encoding)) :=
    Stays.ask fun _ _ => Quiet.memory
  refine Does.bind note.does fun _ w₁ h₁ => ?_
  exact does_logged (does_handleMessage hop h₁)

/-- Every operation is a sequence of steps. -/
theorem does_program (K : Ctx) : K.Does Act.all (K.op.program K.host) K.start fun _ _ => True := by
  cases hop : K.op with
  | message peer encoding msg => exact does_handleCustommsg hop
  | htlcAccepted r => exact Does.bind (does_handleHtlcAccepted (fun _ _ => trivial) (fun _ _ => trivial) hop) fun _ _ _ => Does.pure trivial
  | pay r => exact Does.bind (does_handlePay hop) fun _ _ _ => Does.pure trivial
  | paymentResult scid id status =>
    refine does_handleOutgoingPaymentResult fun preimage h => Or.inl ?_
    rw [hop, h]
  | recoverCommittedHtlcs => exact does_recoverCommittedHtlcs hop
  | enforceForwardDeadlines => exact does_enforceForwardDeadlines
  | connect peer => exact does_handleConnect hop
  | disconnect peer => exact (Silent.handleDisconnect peer).does.post fun _ _ _ => trivial
  | initialPeerConnections cs => exact (Silent.noteInitialPeerConnections cs).does.post fun _ _ _ => trivial
  | acceptResize peer c => exact does_acceptResize
  | setChannel peer params force => exact Does.bind (does_setChannel hop rfl) fun _ _ _ => Does.pure trivial
  | proposeOverride peer balance => exact does_proposeOverride hop rfl
  | addSecret text capacity initial => exact does_addSecret hop
  | removeSecret text => exact does_removeSecret
  | policy params => exact Does.bind (does_handlePolicy hop) fun _ _ _ => Does.pure trivial
  | removeChannel peer force => exact does_removeChannel hop
  | restart => exact Does.pure trivial

theorem trace_next {K : Ctx} {o : Nat → Choice} (h : K.guard.Allows K.host o K.op K.start)
    (he : Prog.Kept exec K.env o (K.op.program K.host).run K.start) :
    K.Trace Act.all K.start (K.op.next K.host o K.start) := by
  have run := Does.run (does_program K) (Ctx.kept_assumes h.2 he)
  cases hop : K.op with
  | restart => exact trace_quiet Quiet.memory
  | _ => simpa only [Op.next, hop] using run

/-- The context of an operation in a run without restrictions. -/
def Ctx.free (H : Host) (w : World) (op : Op) : Ctx := ⟨H, .free, w, op, fun _ _ _ => True⟩

theorem trace_free (H : Host) (w : World) (op : Op) (o : Nat → Choice) :
    (Ctx.free H w op).Trace Act.all w (op.next H o w) :=
  trace_next (K := .free H w op) (Guard.ofOp_allows H trivial) (Prog.kept_of_forall fun _ _ _ => trivial)

/-- What holds of the empty world and is kept by every step holds of every reachable world. A step may
    rely on what held when its operation started and on how the operation has come to it. -/
theorem Reachable.keeps {H : Host} {G : Guard} {P : World → Prop} (h : Reachable H G w) (start : P World.empty)
    (step : ∀ (K : Ctx) act w w', K.host = H → K.guard = G → G.op K.start K.op → P K.start →
      K.Trace Act.all K.start w → Step K act w w' → P w → P w') : P w := by
  induction h with
  | start => exact start
  | @step w op o hw hop ih =>
    let K : Ctx := ⟨H, G, w, op, fun _ _ _ => True⟩
    exact Trace.extends (trace_next (K := K) hop (Prog.kept_of_forall fun _ _ _ => trivial))
      (fun act w₁ w₂ _ ht hs => step K act w₁ w₂ rfl rfl hop.1 ih ht hs) ih

end Canopus
