import Canopus.Theorems.Replay
import Canopus.Theorems.PendingUpdates

/-! Orphaned links. A link to a hosted channel should be that of an HTLC pending there, so that the upstream HTLC
    is answered when the hosted one goes. A commit saves the new state first and settles the failed HTLCs after
    that, and an error in between leaves their links behind; nothing settles the HTLCs that an adopted state or an
    accepted override drops. Where commits of failures run to their end, and no other save drops an HTLC with a
    link, every link keeps its HTLC. -/

namespace Canopus
open Effect Fallible

variable {H : Host} {K : Ctx} {B : Act → Prop} {w w' v : World} {p q : PublicKey} {d d' d₀ : ChannelData} {c : Change}
  {act : Act} {l : ForwardLink} {id : UInt64} {O : PublicKey → UInt64 → Prop}

/-- Every link to a hosted channel is that of an HTLC which the channel has, committed or still to be added. -/
def NoOrphans (H : Host) (w : World) : Prop := ∀ p d k l, w.channel p = some d → w.link k = some l →
  l.outgoingScid = H.scid p → l.outgoingHtlcId ∈ d.offers.map (·.id)

/-- The HTLCs that the peer fails by a list of updates. -/
def remoteFails (us : List UncommittedUpdate) : List UInt64 :=
  us.filterMap fun
    | .ofRemote (.fail _ id _) | .ofRemote (.failMalformed _ id _ _) => some id
    | _ => none

/-- The operations that may commit the pending updates of `p`. -/
def Op.commits (p : PublicKey) : Op → Bool
  | .message q _ (.stateUpdate _) => q = p
  | _ => false

/-- Operations that drop no HTLC whose link is stored, save one that a commit takes off because the peer has failed
    it, and that create no channel under the short channel id of another one or of a stored link. -/
def Guard.anchoring (H : Host) (op : Op) : Guard where
  op _ _ := True
  record w p d' := (w.channel p = none → (∀ q ∈ w.peers, H.scid q ≠ H.scid p) ∧ ∀ k ∈ w.linkKeys, k.1 ≠ H.scid p) ∧
    ∀ d ∈ w.channel p, ∀ k ∈ w.linkKeys, k.1 = H.scid p → k.2 ∈ d.offers.map (·.id) →
      k.2 ∈ d'.offers.map (·.id) ∨ op.commits p = true ∧ deriveStatus d = .active ∧ k.2 ∈ remoteFails d.uncommitted
  link _ _ _ := True

/-- The invariant: every link has its HTLC, but for those that `O` says are owed an answer. -/
structure Anchored (H : Host) (O : PublicKey → UInt64 → Prop) (w : World) : Prop where
  scids : ∀ p q, (w.channel p).isSome → (w.channel q).isSome → H.scid p = H.scid q → p = q
  keyed : ∀ k l, w.link k = some l → k = (l.outgoingScid, l.outgoingHtlcId)
  offered : ∀ p d id, w.channel p = some d → (w.link (H.scid p, id)).isSome → id ∈ d.offers.map (·.id) ∨ O p id

theorem Anchored.noOrphans (h : Anchored H (fun _ _ => False) w) : NoOrphans H w := by
  intro p d k l hd hl hp
  have hk := h.keyed k l hl
  rw [hp] at hk
  subst hk
  rcases h.offered p d l.outgoingHtlcId hd (by rw [hl]; rfl) with hid | hid
  · exact hid
  · exact hid.elim

theorem Anchored.mono {O' : PublicKey → UInt64 → Prop} (h : Anchored H O w)
    (hO : ∀ p id, (w.channel p).isSome → (w.link (H.scid p, id)).isSome → O p id → O' p id) : Anchored H O' w where
  scids := h.scids
  keyed := h.keyed
  offered p d id hd hl := (h.offered p d id hd hl).imp_right (hO p id (by rw [hd]; rfl) hl)

theorem Anchored.same (h : Anchored H O w) (hc : ∀ q, w'.channel q = w.channel q) (hl : ∀ k, w'.link k = w.link k) :
    Anchored H O w' where
  scids p q hp hq := h.scids p q (hc p ▸ hp) (hc q ▸ hq)
  keyed k l hk := h.keyed k l (hl k ▸ hk)
  offered p d id hd hk := h.offered p d id (hc p ▸ hd) (hl _ ▸ hk)

/-! ### One change -/

theorem mem_offers_of (hid : id ∈ d.offers.map (·.id)) (ho : d'.lcss.outgoingHtlcs = d.lcss.outgoingHtlcs)
    (hu : ∀ h ∈ localAdds d.uncommitted, h ∈ localAdds d'.uncommitted) : id ∈ d'.offers.map (·.id) := by
  obtain ⟨h, hmem, rfl⟩ := List.mem_map.mp hid
  refine List.mem_map_of_mem ?_
  unfold ChannelData.offers at hmem ⊢
  rw [uncommittedLocalAdds_eq] at hmem ⊢
  rw [ho]
  rcases List.mem_append.mp hmem with hmem | hmem
  · exact List.mem_append_left _ hmem
  · exact List.mem_append_right _ (hu h hmem)

theorem mem_offers_push {u : UncommittedUpdate} (hid : id ∈ d.offers.map (·.id)) : id ∈ (d.push u).offers.map (·.id) := by
  refine mem_offers_of hid rfl ?_
  intro h hmem
  have happ : localAdds (d.push u).uncommitted = localAdds d.uncommitted ++ localAdds [u] := localAdds_append _ _
  rw [happ]
  exact List.mem_append_left _ hmem

/-- The changes that may drop an HTLC that the host has offered. -/
theorem Changes.keeps_offers (hc : Changes H p c d d') (hid : id ∈ d.offers.map (·.id)) :
    id ∈ d'.offers.map (·.id) ∨ deriveStatus d = .opening ∨ deriveStatus d = .overriding ∨ (∃ m, c = .adopted m) ∨
      ∃ m, c = .committed m := by
  cases hc with
  | established hs => exact Or.inr (Or.inl hs)
  | overridden hs => exact Or.inr (Or.inr (Or.inl hs))
  | adopted => exact Or.inr (Or.inr (Or.inr (Or.inl ⟨_, rfl⟩)))
  | committed => exact Or.inr (Or.inr (Or.inr (Or.inr ⟨_, rfl⟩)))
  | deduplicated =>
    refine Or.inl (mem_offers_of hid rfl ?_)
    intro h hmem
    have hdedup : localAdds (deduplicateUncommittedResolutions d.uncommitted) = localAdds d.uncommitted :=
      localAdds_dedupFrom []
    rw [hdedup]
    exact hmem
  | errored extra hd hx =>
    subst hd
    refine Or.inl (mem_offers_of hid rfl ?_)
    intro h hmem
    have hnone : localAdds extra = [] := localAdds_resolutions fun u hu => by
      obtain ⟨id, hk⟩ := hx u hu
      rw [hk]
      rfl
    rw [localAdds_append, hnone, List.append_nil] at hmem
    exact hmem
  | receivedAdd | receivedResolution | resolved | added => exact Or.inl (mem_offers_push hid)
  | proposed hd =>
    subst hd
    exact Or.inl hid
  | resized _ _ _ _ _ _ _ hl =>
    have hout := outgoing_sign hl
    exact Or.inl (mem_offers_of hid hout fun _ h => h)
  | _ => exact Or.inl hid

theorem offers_initial (policy : ChannelPolicy) (refund : Bytes) : (initialData policy refund).offers = [] := rfl

/-! ### One step -/

/-- The operation commits, and finds HTLCs that the peer has failed. -/
def Ctx.Owes (K : Ctx) (w : World) (act : Act) (p : PublicKey) (id : UInt64) : Prop :=
  ∃ m d, act = .wrote p (.committed m) ∧ w.channel p = some d ∧ Change.Cause K w p d (.committed m) ∧
    deriveStatus d = .active ∧ id ∈ remoteFails d.uncommitted

/-- What a save that the guard permits leaves of the HTLCs with links. -/
theorem Anchored.wrote (h : Anchored K.host O w) (hd : w.channel p = some d) (hc : Changes K.host p c d d')
    (ho : c.Cause K w p d) (hg : (Guard.anchoring K.host K.op).record w p d')
    (howed : ∀ id, K.Owes w (.wrote p c) p id → O p id) (hl : (w.link (K.host.scid p, id)).isSome) :
    id ∈ d'.offers.map (·.id) ∨ O p id := by
  rcases h.offered p d id hd hl with hid | hid
  · rcases hg.2 d hd (K.host.scid p, id) (World.mem_linkKeys.mpr hl) rfl hid with hkept | ⟨hcom, hact, hfail⟩
    · exact Or.inl hkept
    · rcases hc.keeps_offers hid with hkept | hst | hst | ⟨m, rfl⟩ | ⟨m, rfl⟩
      · exact Or.inl hkept
      · cases hact.symm.trans hst
      · cases hact.symm.trans hst
      · obtain ⟨⟨e, ho⟩, -⟩ := ho
        rw [ho] at hcom
        cases hcom
      · exact Or.inr (howed id ⟨m, d, rfl, hd, ho, hact, hfail⟩)
  · exact Or.inr hid

theorem Anchored.scids_step (h : Anchored K.host O w) (hs : Step K act w w')
    (hG : ∀ v q d', K.guard.record v q d' → (Guard.anchoring K.host K.op).record v q d') :
    ∀ p q, (w'.channel p).isSome → (w'.channel q).isSome → K.host.scid p = K.host.scid q → p = q := by
  intro p q hp hq he
  rcases hs.newcomer with hold | ⟨new, d, hg, hnew⟩
  · exact h.scids p q (hold p hp) (hold q hq) he
  · cases hch : w.channel new with
    | some _ =>
      have hold : ∀ q, (w'.channel q).isSome → (w.channel q).isSome := by
        intro q hq
        rcases hnew q hq with rfl | hq
        · rw [hch]
          rfl
        · exact hq
      exact h.scids p q (hold p hp) (hold q hq) he
    | none =>
      obtain ⟨hapart, -⟩ := (hG _ _ _ hg).1 hch
      rcases hnew p hp with rfl | hp₀
      · rcases hnew q hq with rfl | hq₀
        · rfl
        · exact absurd he.symm (hapart q (World.mem_peers.mpr hq₀))
      · rcases hnew q hq with rfl | hq₀
        · exact absurd he (hapart p (World.mem_peers.mpr hp₀))
        · exact h.scids p q hp₀ hq₀ he

theorem Anchored.keyed_step (h : Anchored K.host O w) (hs : Step K act w w') {k : HtlcKey} (hk : w'.link k = some l) :
    k = (l.outgoingScid, l.outgoingHtlcId) := by
  cases hs.link with
  | same he => exact h.keyed k l (he k ▸ hk)
  | linked _ _ _ _ he =>
    rw [he] at hk
    split at hk
    · rename_i hnew
      obtain rfl := Option.some.inj hk
      exact hnew
    · exact h.keyed k l hk
  | unlinked _ he =>
    rw [he] at hk
    split at hk
    · cases hk
    · exact h.keyed k l hk

/-- A channel that is set up anew was not active, and there is no link to it. -/
theorem Anchored.created {policy : ChannelPolicy} {refund : Bytes} (h : Anchored K.host O w)
    (hn : ∀ d, w.channel p = some d → deriveStatus d = .notOpened ∨ deriveStatus d = .suspended)
    (hg : (Guard.anchoring K.host K.op).record w p (initialData policy refund))
    (hl : (w.link (K.host.scid p, id)).isSome) : O p id := by
  cases hch : w.channel p with
  | none => exact ((hg.1 hch).2 (K.host.scid p, id) (World.mem_linkKeys.mpr hl) rfl).elim
  | some d =>
    rcases h.offered p d id hch hl with hid | hid
    · rcases hg.2 d hch (K.host.scid p, id) (World.mem_linkKeys.mpr hl) rfl hid with hnil | ⟨-, hact, -⟩
      · rw [offers_initial] at hnil
        cases hnil
      · rcases hn d hch with hst | hst
        · cases hact.symm.trans hst
        · cases hact.symm.trans hst
    · exact hid

/-- The HTLC that is offered gets the link. -/
theorem Anchored.offered_step {htlc : UpdateAddHtlc} (h : Anchored K.host O w) (hd : w.channel p = some d)
    (hc : Changes K.host p (.added htlc) d d') (hb : l.BuiltFor K.host p htlc) {d₁ : ChannelData}
    (hq : ((w.put .htlcForwards (l.outgoingScid, l.outgoingHtlcId) l).put .channels p d').channel q = some d₁)
    (hl : (((w.put .htlcForwards (l.outgoingScid, l.outgoingHtlcId) l).put .channels p d').link (K.host.scid q, id)).isSome) :
    id ∈ d₁.offers.map (·.id) ∨ O q id := by
  rw [World.link_put_channel] at hl
  have hother : q ≠ p → w.channel q = some d₁ := by
    intro hne
    rw [World.channel_put_ne hne, World.channel_put_link] at hq
    exact hq
  have hd' : q = p → d₁ = d.push (.ofLocal (.add htlc)) := by
    rintro rfl
    rw [World.channel_put] at hq
    cases hc with
    | added => exact (Option.some.inj hq).symm
  by_cases hk : (K.host.scid q, id) = (l.outgoingScid, l.outgoingHtlcId)
  · obtain ⟨hscid, rfl⟩ := Prod.mk.inj hk
    have heq : q = p := by
      by_contra hne
      exact hne (h.scids q p (by rw [hother hne]; rfl) (by rw [hd]; rfl) (hscid.trans hb.scid))
    have hadds : localAdds (d.push (.ofLocal (.add htlc))).uncommitted = localAdds d.uncommitted ++ [htlc] :=
      localAdds_append _ _
    have hmem : htlc ∈ (d.push (.ofLocal (.add htlc))).offers := by
      unfold ChannelData.offers
      rw [uncommittedLocalAdds_eq, hadds]
      simp
    rw [hd' heq, hb.id]
    exact Or.inl (List.mem_map_of_mem hmem)
  · rw [World.link_put_ne hk] at hl
    by_cases heq : q = p
    · rw [hd' heq]
      subst heq
      exact (h.offered q d id hd hl).imp_left mem_offers_push
    · exact h.offered q d₁ id (hother heq) hl

theorem Anchored.step (h : Anchored K.host O w) (hs : Step K act w w')
    (hG : ∀ v q d', K.guard.record v q d' → (Guard.anchoring K.host K.op).record v q d') (hstore : ¬ K.StoreFails)
    (howed : ∀ p id, K.Owes w act p id → O p id) : Anchored K.host O w' := by
  refine ⟨h.scids_step hs hG, fun k l => h.keyed_step hs, ?_⟩
  intro q d id hd hl
  cases hs with
  | @created _ p policy refund hn _ _ hg =>
    rw [World.link_put_channel] at hl
    by_cases hq : q = p
    · subst hq
      exact Or.inr (h.created hn (hG _ _ _ hg) hl)
    · rw [World.channel_put_ne hq] at hd
      exact h.offered q d id hd hl
  | @wrote _ p c d₁ d' hd₁ hc ho hg =>
    rw [World.link_put_channel] at hl
    by_cases hq : q = p
    · subst hq
      obtain rfl := Option.some.inj (World.channel_put.symm.trans hd)
      exact h.wrote hd₁ hc ho (hG _ _ _ hg) (howed q) hl
    · rw [World.channel_put_ne hq] at hd
      exact h.offered q d id hd hl
  | @removed _ p =>
    rw [World.link_erase_channel] at hl
    by_cases hq : q = p
    · subst hq
      rw [World.channel_erase] at hd
      cases hd
    · rw [World.channel_erase_ne hq] at hd
      exact h.offered q d id hd hl
  | offered hd₁ hc hb => exact h.offered_step hd₁ hc hb hd hl
  | @linked _ l hi ha =>
    rw [World.channel_put_link] at hd
    by_cases hk : (K.host.scid q, id) = (l.outgoingScid, l.outgoingHtlcId)
    · obtain ⟨hscid, rfl⟩ := Prod.mk.inj hk
      rcases ha with hnone | ⟨hfail, -⟩
      · exact absurd hscid (hnone q (by rw [hd]; rfl))
      · exact absurd hfail hstore
    · rw [World.link_put_ne hk] at hl
      exact h.offered q d id hd hl
  | @unlinked _ k =>
    rw [World.channel_erase_link] at hd
    by_cases hk : (K.host.scid q, id) = k
    · subst hk
      rw [World.link_erase] at hl
      cases hl
    · rw [World.link_erase_ne hk] at hl
      exact h.offered q d id hd hl
  | forwarded | signed | answered | sent | stored => exact h.offered q d id hd hl
  | secretAdded | secretConsumed | policyChanged =>
    exact h.offered q d id (by simpa [World.channel, World.put_store_ne] using hd)
      (by simpa [World.link, World.put_store_ne] using hl)
  | secretRemoved =>
    exact h.offered q d id (by simpa [World.channel, World.erase_store_ne] using hd)
      (by simpa [World.link, World.erase_store_ne] using hl)
  | quiet hr =>
    refine h.offered q d id ((hr.channel q).symm.trans hd) ?_
    rw [World.link, hr.links] at hl
    exact hl

/-- The acts that commit nothing. -/
def Act.uncommitting : Act → Prop
  | .wrote _ (.committed _) => False
  | _ => True

instance : Mild Act.uncommitting := ⟨trivial, trivial, trivial, trivial, trivial⟩

instance : Steady Act.uncommitting := ⟨trivial, trivial, trivial, fun _ _ => trivial⟩

/-- Such acts owe nothing. -/
theorem Ctx.Owes.committing (h : K.Owes w act p id) : ¬ act.uncommitting := by
  obtain ⟨m, d, rfl, -⟩ := h
  exact fun hact => hact

theorem Anchored.trace (h : Anchored K.host O w) (ht : K.Trace Act.uncommitting w w')
    (hG : ∀ v q d', K.guard.record v q d' → (Guard.anchoring K.host K.op).record v q d') (hstore : ¬ K.StoreFails) :
    Anchored K.host O w' :=
  ht.keeps (P := fun v => Anchored K.host O v)
    (fun _ _ _ hact hs hv => hv.step hs hG hstore fun _ _ howes => absurd hact howes.committing) h

/-! ### The HTLCs that a commit takes off -/

section Commit
variable {e : WireEncoding} {m : StateUpdate}

/-- A peer has a channel, and the links are anchored. -/
structure Tended (K : Ctx) (O : PublicKey → UInt64 → Prop) (p : PublicKey) (w : World) : Prop where
  anchored : Anchored K.host O w
  hosted : (w.channel p).isSome

theorem Step.keeps_hosted (hs : Step K act w w') (hop : K.op.peer = some p) (h : (w.channel p).isSome) :
    (w'.channel p).isSome := by
  cases hs.record p with
  | same he =>
    rw [he]
    exact h
  | created _ _ _ _ he =>
    rw [he]
    rfl
  | wrote _ _ _ _ _ he =>
    rw [he]
    rfl
  | removed ho =>
    obtain ⟨force, ho⟩ := ho
    rw [ho] at hop
    cases hop

/-- No link to the channel is created by an operation of its own peer. -/
theorem Step.keeps_unlinked (hs : Step K act w w') (hop : K.op.peer = some p) (h : Tended K O p w)
    (hl : w.link (K.host.scid p, id) = none) : w'.link (K.host.scid p, id) = none := by
  cases hs.link with
  | same he => exact (he _).trans hl
  | @linked l _ hout _ _ he =>
    rw [he]
    split
    · rename_i hk
      have hscid := (Prod.mk.inj hk).1
      rcases hout with hnone | ⟨q, hq, hsome, hqs⟩
      · exact absurd hscid (hnone p h.hosted)
      · obtain rfl := h.anchored.scids q p hsome h.hosted (hqs.trans hscid.symm)
        exact absurd hop hq
    · exact hl
  | unlinked _ he =>
    rw [he]
    split
    · rfl
    · exact hl

theorem does_dropForwardLink_erases {k : HtlcKey} [Steady B] (hstore : ¬ K.StoreFails) (h : Drops K.host K.guard w k) :
    K.Does B (dropForwardLink k) w fun _ w' => w'.link k = none := by
  refine Does.bind (R := fun _ w' => w'.link k = none) (Does.ask fun x hx => ?_) fun _ _ hnone => Does.pure hnone
  have hf : x.fails = false := by
    by_contra hne
    exact hstore ⟨x, w, _, hx.2, rfl, by simpa using hne⟩
  have hexec : exec x (.delete .htlcForwards k) w = (.ok (), w.erase .htlcForwards k) := by
    simp [exec, hf]
  rw [hexec]
  exact ⟨Trace.single Steady.unlinked (Step.unlinked h), World.link_erase⟩

/-- Where the upstream HTLC of a link has been failed, the link is gone. -/
theorem does_resolveForwardFail_unlinks [Steady B] {scid : UInt64} {failure : Bytes} (hstore : ¬ K.StoreFails) :
    K.Does B (resolveForwardFail K.host scid id failure) w fun _ w' => w'.link (scid, id) = none := by
  refine Does.bind does_getJson ?_
  intro r _ hpost
  obtain ⟨rfl, hok, hnone⟩ := hpost
  rcases r with e | ⟨l, g⟩
  · cases e with
    | notFound => exact Does.pure (by simp [World.link, Table.value?, hnone rfl])
    | _ => exact Does.throw
  · have hl : World.link _ (scid, id) = some l := Table.value?_of_entry (hok l g rfl)
    refine Does.bind (does_answerIncoming (fun _ => Answers.failed hl rfl) fun _ => does_sendLocalFail) ?_
    intro _ w₁ hpost
    obtain ⟨ha, hk⟩ := hpost
    exact does_dropForwardLink_erases hstore (Drops.answered ((hk _).trans hl) ha)

variable (hG : ∀ v q d', K.guard.record v q d' → (Guard.anchoring K.host K.op).record v q d') (hstore : ¬ K.StoreFails)
include hG hstore

theorem Tended.step (h : Tended K O p w) (hop : K.op.peer = some p) (hs : Step K act w w') (hact : act.uncommitting) :
    Tended K O p w' where
  anchored := h.anchored.step hs hG hstore fun _ _ howes => absurd hact howes.committing
  hosted := hs.keeps_hosted hop h.hosted

theorem Tended.trace (h : Tended K O p w) (hop : K.op.peer = some p) (ht : K.Trace Act.uncommitting w w') :
    Tended K O p w' :=
  ht.keeps (P := fun v => Tended K O p v) (fun _ _ _ hact hs hv => hv.step hG hstore hop hs hact) h

theorem Tended.unlinked (h : Tended K O p w) (hop : K.op.peer = some p) (ht : K.Trace Act.uncommitting w w')
    (hl : w.link (K.host.scid p, id) = none) : w'.link (K.host.scid p, id) = none := by
  refine (ht.keeps (P := fun v => Tended K O p v ∧ v.link (K.host.scid p, id) = none) ?_ ⟨h, hl⟩).2
  rintro _ _ _ hact hs ⟨hv, hnone⟩
  exact ⟨hv.step hG hstore hop hs hact, hs.keeps_unlinked hop hv hnone⟩

/-- The failures that a commit has taken in are passed on, one after the other, and their links deleted. -/
theorem does_dispatchRemoteFails (h : Tended K O p w) (hop : K.op.peer = some p) (us : List UncommittedUpdate) :
    K.Does Act.uncommitting (forEach (dispatchRemoteFail K.host (K.host.scid p)) us) w fun _ w' =>
      ∀ id ∈ remoteFails us, w'.link (K.host.scid p, id) = none := by
  induction us generalizing w with
  | nil => exact Does.pure fun _ hid => by cases hid
  | cons u us ih =>
    have hone : K.Does Act.uncommitting (dispatchRemoteFail K.host (K.host.scid p) u) w fun _ w' =>
        ∀ id ∈ remoteFails [u], w'.link (K.host.scid p, id) = none := by
      unfold dispatchRemoteFail
      split
      · exact (does_resolveForwardFail_unlinks hstore).post fun _ _ hl => by simpa [remoteFails] using hl
      · exact (does_resolveForwardFail_unlinks hstore).post fun _ _ hl => by simpa [remoteFails] using hl
      · rename_i hfail hmal
        refine Does.pure ?_
        intro id hid
        simp only [remoteFails, List.mem_filterMap, List.mem_singleton, exists_eq_left] at hid
        cases hid
    refine Does.bind hone.traced ?_
    rintro _ w₁ ⟨hnone, ht⟩
    have h₁ := h.trace hG hstore hop ht
    refine (ih h₁).traced.post ?_
    rintro _ w' ⟨hrest, ht'⟩ id hid
    have happ : remoteFails (u :: us) = remoteFails [u] ++ remoteFails us := by
      unfold remoteFails
      rw [← List.filterMap_append]
      rfl
    rw [happ] at hid
    rcases List.mem_append.mp hid with hid | hid
    · exact h₁.unlinked hG hstore hop ht' (hnone id hid)
    · exact hrest id hid

/-- What a commit does after it has been saved. -/
theorem does_dispatchEffects_unlinks {old new : ChannelData} {us : List UncommittedUpdate} (h : Tended K O p w)
    (hop : K.op.peer = some p) (hp : K.Comes (K.host.scid p)) :
    K.Does Act.uncommitting (dispatchCommittedEffects K.host p old new us) w fun _ w' =>
      Tended K O p w' ∧ ∀ id ∈ remoteFails us, w'.link (K.host.scid p, id) = none := by
  have hof : ∀ q, K.op.peer = some q → q = p := by
    intro q hq
    exact Option.some.inj (hq.symm.trans hop)
  refine Does.bind (Does.forEach (J := Tended K O p) (fun htlc _ v hv => ?_) h) fun _ w₁ h₁ => ?_
  · split
    · exact Does.pure hv
    · refine (does_dispatchCommittedIncomingHtlc hp hof (fun _ _ _ _ => trivial) fun _ _ _ => trivial).traced.post ?_
      rintro _ v' ⟨-, ht⟩
      exact hv.trace hG hstore hop ht
  · refine (does_dispatchRemoteFails hG hstore h₁ hop us).traced.post ?_
    rintro _ w' ⟨hnone, ht⟩
    exact ⟨h₁.trace hG hstore hop ht, hnone⟩

/-- The save of a commit leaves links behind, of HTLCs that the peer has failed. -/
theorem Anchored.committed (h : Anchored K.host (fun _ _ => False) w) (hd : w.channel p = some d)
    (ht : K.Trace (· = .wrote p (.committed m)) w w') :
    Anchored K.host (fun q id => q = p ∧ id ∈ remoteFails d.uncommitted) w' := by
  refine (ht.keeps (P := fun v => Anchored K.host (fun q id => q = p ∧ id ∈ remoteFails d.uncommitted) v ∧
    ∀ d', v.channel p = some d' → ∀ id ∈ remoteFails d'.uncommitted, id ∈ remoteFails d.uncommitted) ?_ ⟨?_, ?_⟩).1
  · rintro _ v v' rfl hs ⟨hv, hlist⟩
    refine ⟨hv.step hs hG hstore ?_, ?_⟩
    · rintro q id ⟨m', d', hact, hd', -, -, hid⟩
      obtain rfl : p = q := by
        cases hact
        rfl
      exact ⟨rfl, hlist d' hd' id hid⟩
    · intro d' hd' id hid
      cases hs with
      | wrote _ hc =>
        rw [World.channel_put] at hd'
        obtain rfl := Option.some.inj hd'
        cases hc
        cases hid
  · exact h.mono fun _ _ _ _ hno => hno.elim
  · intro d' hd' id hid
    obtain rfl := Option.some.inj (hd.symm.trans hd')
    exact hid

/-- No link is left over by a commit that returns. -/
theorem does_commitUpdates_anchors {d₀ : ChannelData} (h : Anchored K.host (fun _ _ => False) w)
    (hop : K.op = .message p e (.stateUpdate m)) (hd : w.channel p = some d) (hd₀ : K.start.channel p = some d₀)
    (hrep : d = d₀ ∨ d = { d₀ with uncommitted := deduplicateUncommittedResolutions d₀.uncommitted })
    (hs : deriveStatus d = .active) (hc : countersMatch d m = true) (hu : d.uncommitted ≠ []) :
    K.Does Act.all (commitUpdates K.host p d m) w fun _ w' => Anchored K.host (fun _ _ => False) w' := by
  have hbooks := Op.books_of_stateUpdate ⟨e, hop⟩
  have hpeer : K.op.peer = some p := by
    rw [hop]
    rfl
  unfold commitUpdates
  refine Does.bind does_liftState ?_
  intro next _ hpost
  obtain ⟨rfl, hn⟩ := hpost
  split
  · exact Does.pure h
  rename_i hv
  refine Does.bind (does_signFor fun t ht => Signs.next [] hd (Or.inl rfl) ?_ ht (by simp)) ?_
  · rw [List.append_nil]
    exact hn
  intro lcss _ hpost
  obtain ⟨hl, rfl⟩ := hpost
  have h₁ : Anchored K.host (fun _ _ => False) (World.noteSigned _ p lcss) := h.same (fun _ => rfl) fun _ => rfl
  have hd₁ : World.channel (World.noteSigned _ p lcss) p = some d := hd
  have hsaves := does_change (B := (· = .wrote p (.committed m))) rfl hd₁
    (Changes.committed hs hc hn (by simpa using hv) hl hu) ⟨⟨e, hop⟩, d₀, hd₀, hrep⟩ trivial
  dsimp only
  refine Does.bind (hsaves.traced.mono fun _ _ => trivial) ?_
  rintro _ w₂ ⟨hput, hsave⟩
  have h₂ : Tended K (fun q id => q = p ∧ id ∈ remoteFails d.uncommitted) p w₂ := by
    refine ⟨h₁.committed hG hstore hd₁ hsave, ?_⟩
    rw [hput, World.channel_put]
    rfl
  -- From here on nothing is committed.
  refine Does.mono (S := Act.uncommitting) ?_ fun _ _ => trivial
  refine Does.bind ((Recording.recordCommittedUpdateEvents _ _ _ _).does hbooks).traced ?_
  rintro _ w₃ ⟨-, ht₃⟩
  have h₃ := h₂.trace hG hstore hpeer ht₃
  refine Does.bind (Silent.sendMessage p _ rfl).does.traced ?_
  rintro _ w₄ ⟨-, ht₄⟩
  have h₄ := h₃.trace hG hstore hpeer ht₄
  refine (does_dispatchEffects_unlinks hG hstore h₄ hpeer (Or.inr ⟨p, by rw [hd₀]; rfl, rfl⟩)).post ?_
  rintro _ w' ⟨h', hnone⟩
  refine h'.anchored.mono ?_
  rintro q id - hl ⟨rfl, hid⟩
  rw [hnone id hid] at hl
  cases hl

theorem does_handleActiveStateUpdate_anchors (h : Anchored K.host (fun _ _ => False) w)
    (hop : K.op = .message p e (.stateUpdate m)) (hd : w.channel p = some d) (hd₀ : K.start.channel p = some d)
    (hs : deriveStatus d = .active) (hu : K.Untold w) :
    K.Does Act.all (handleActiveStateUpdate K.host p d m) w fun _ w' => Anchored K.host (fun _ _ => False) w' := by
  have hrepairs : K.op.repairs p := by
    rw [hop]
    exact decide_eq_true rfl
  unfold handleActiveStateUpdate
  refine Does.bind ((does_repair (B := Act.uncommitting) trivial hd hrepairs hd₀ hu).traced.mono fun _ _ => trivial) ?_
  rintro d' w₁ ⟨⟨hd₁, hrep⟩, ht⟩
  have h₁ := h.trace ht hG hstore
  have hs₁ : deriveStatus d' = .active := by
    rcases hrep with rfl | rfl
    · exact hs
    · exact hs
  split
  · exact Does.pure h₁
  rename_i hne
  split
  · exact Does.pure h₁
  rename_i hc
  refine Does.bind Reading.currentBlockDay.does ?_
  intro day _ hpost
  subst hpost
  split
  · exact Does.pure h₁
  · exact does_commitUpdates_anchors hG hstore h₁ hop hd₁ hd₀ hrep hs₁ (by simpa using hc) (by simpa using hne)

/-- Nor by the handling of a `state_update`. -/
theorem does_handleStateUpdate_anchors (h : Anchored K.host (fun _ _ => False) w)
    (hop : K.op = .message p e (.stateUpdate m)) (hd : w.channel p = some d) (hd₀ : K.start.channel p = some d)
    (hs : deriveStatus d = .active) (hu : K.Untold w) :
    K.Does Act.all (handleStateUpdate K.host p m) w fun _ w' => Anchored K.host (fun _ _ => False) w' := by
  refine Does.bind does_loadExisting ?_
  intro d' _ hpost
  obtain ⟨rfl, hd'⟩ := hpost
  obtain rfl := Option.some.inj (hd.symm.trans hd')
  rw [hs]
  exact does_handleActiveStateUpdate_anchors hG hstore h hop hd hd₀ hs hu

end Commit

/-! ### Runs -/

/-- The operation may commit to the failure of an HTLC of `p`. -/
structure Ctx.MayOwe (K : Ctx) (p : PublicKey) (id : UInt64) : Prop where
  op : ∃ e m, K.op = .message p e (.stateUpdate m)
  failed : ∃ d, K.start.channel p = some d ∧ deriveStatus d = .active ∧ id ∈ remoteFails d.uncommitted

theorem remoteFails_dedup {us : List UncommittedUpdate} (h : id ∈ remoteFails (deduplicateUncommittedResolutions us)) :
    id ∈ remoteFails us :=
  ((dedupFrom_sublist [] us).filterMap _).subset h

theorem Ctx.Owes.mayOwe (h : K.Owes w act p id) : K.MayOwe p id := by
  obtain ⟨m, d, rfl, -, ⟨⟨e, hop⟩, d₀, hd₀, hrep⟩, hact, hid⟩ := h
  refine ⟨⟨e, m, hop⟩, d₀, hd₀, ?_⟩
  rcases hrep with rfl | rfl
  · exact ⟨hact, hid⟩
  · exact ⟨hact, remoteFails_dedup hid⟩

/-- An operation that finds no link of an HTLC that the peer has failed leaves none behind. -/
theorem Anchored.unowed (h : Anchored K.host (fun _ _ => False) K.start)
    (hG : ∀ v q d', K.guard.record v q d' → (Guard.anchoring K.host K.op).record v q d') (hstore : ¬ K.StoreFails)
    (hnone : ∀ p id, K.MayOwe p id → K.start.link (K.host.scid p, id) = none) (ht : K.Trace Act.all K.start w) :
    Anchored K.host (fun _ _ => False) w := by
  have hend : Anchored K.host K.MayOwe w ∧ ∀ p id, K.MayOwe p id →
      (w.channel p).isSome ∧ w.link (K.host.scid p, id) = none := by
    refine ht.keeps (P := fun v => Anchored K.host K.MayOwe v ∧ ∀ p id, K.MayOwe p id →
      (v.channel p).isSome ∧ v.link (K.host.scid p, id) = none) ?_ ⟨h.mono fun _ _ _ _ hno => hno.elim, ?_⟩
    · rintro act v v' - hs ⟨hv, hunlinked⟩
      refine ⟨hv.step hs hG hstore fun _ _ howes => howes.mayOwe, ?_⟩
      intro p id hout
      obtain ⟨e, m, hop⟩ := hout.op
      have hpeer : K.op.peer = some p := by
        rw [hop]
        rfl
      obtain ⟨hsome, hl⟩ := hunlinked p id hout
      exact ⟨hs.keeps_hosted hpeer hsome, hs.keeps_unlinked hpeer ⟨hv, hsome⟩ hl⟩
    · intro p id hout
      obtain ⟨d, hd, -⟩ := hout.failed
      exact ⟨by rw [hd]; rfl, hnone p id hout⟩
  refine hend.1.mono ?_
  rintro p id - hl hout
  rw [(hend.2 p id hout).2] at hl
  cases hl

/-- Nor does one that commits nothing. -/
theorem Anchored.unreplaced (h : Anchored K.host (fun _ _ => False) K.start)
    (hG : ∀ v q d', K.guard.record v q d' →
      (Guard.anchoring K.host K.op).record v q d' ∧ (Guard.unreplaced p K.op).record v q d')
    (hop : K.op = .message p e (.stateUpdate m)) (hstore : ¬ K.StoreFails) (ht : K.Trace Act.all K.start w) :
    Anchored K.host (fun _ _ => False) w := by
  refine ht.keeps (P := fun v => Anchored K.host (fun _ _ => False) v) ?_ h
  rintro act v v' - hs hv
  refine hv.step hs (fun v q d' hg => (hG v q d' hg).1) hstore ?_
  rintro q id ⟨m', d, rfl, hd, ⟨⟨e', hop'⟩, -⟩, -⟩
  obtain rfl : p = q := by
    rw [hop] at hop'
    cases hop'
    rfl
  cases hs with
  | wrote hd₁ hc _ hg =>
    obtain rfl := Option.some.inj (hd.symm.trans hd₁)
    cases hc with
    | committed _ _ _ _ _ hu =>
      exact hu ((hG _ _ _ hg).2 rfl (by simp [hop, Op.replaces]) rfl _ hd)

/-- A run in which every save leaves a channel the HTLCs that have links, but for those that a commit takes off
    because the peer has failed them; in which a commit to such failures returns without an error; and in which no
    channel is created under the short channel id of another one or of a stored link, and the store does not fail. -/
structure Careful (H : Host) (w : World) (op : Op) (o : Nat → Choice) : Prop where
  anchors : (Guard.anchoring H op).Allows H o op w
  stores : Prog.Kept exec (fun x _ call => Call.isStore call = true → x.fails = false) o (op.program H).run w
  returns : ∀ p e m d id, op = .message p e (.stateUpdate m) → w.channel p = some d → deriveStatus d = .active →
    id ∈ remoteFails d.uncommitted → (w.link (H.scid p, id)).isSome →
      Prog.Allowed exec (Guard.unreplaced p op).call o (op.program H).run w ∨
      (Prog.run exec o (do ask (.noteWireEncoding p e); handleMessage H p (.stateUpdate m) : Ctl Unit).run w).1 = .ok ()

theorem logged_run (x : Ctl Unit) : (logged x).run = x.run >>= fun _ => Prog.pure (.ok ()) := by
  show ((x.run >>= fun r => Prog.pure (Except.ok r)) >>= _) = _
  generalize x.run = y
  induction y with
  | pure a => rfl
  | call c k ih => exact congrArg (Prog.call c) (funext fun r => ih r)

/-- Handling a message is followed by nothing but the log. -/
theorem handleCustommsg_run (H : Host) (p : PublicKey) (e : WireEncoding) (msg : HostedMessage) :
    (handleCustommsg H p e msg).run =
      (do ask (.noteWireEncoding p e); handleMessage H p msg : Ctl Unit).run >>= fun _ => Prog.pure (.ok ()) := by
  show Prog.call _ _ = Prog.call _ _
  exact congrArg (Prog.call _) (funext fun _ => logged_run _)

theorem Anchored.returned {o : Nat → Choice} (h : Anchored K.host (fun _ _ => False) K.start)
    (hG : ∀ v q d', K.guard.record v q d' → (Guard.anchoring K.host K.op).record v q d') (hstore : ¬ K.StoreFails)
    (hop : K.op = .message p e (.stateUpdate m)) (hd : K.start.channel p = some d) (hs : deriveStatus d = .active)
    (hkept : Prog.Kept exec K.Assumes o (handleCustommsg K.host p e (.stateUpdate m)).run K.start)
    (hret : (Prog.run exec o (do ask (.noteWireEncoding p e); handleMessage K.host p (.stateUpdate m) : Ctl Unit).run
      K.start).1 = .ok ()) :
    Anchored K.host (fun _ _ => False) (Prog.run exec o (handleCustommsg K.host p e (.stateUpdate m)).run K.start).2 := by
  rw [handleCustommsg_run] at hkept ⊢
  rw [Prog.run_map]
  have note : Silent (ask (.noteWireEncoding p e)) := Stays.ask fun _ _ => Quiet.memory
  have hdoes : K.Does Act.all (do ask (.noteWireEncoding p e); handleMessage K.host p (.stateUpdate m) : Ctl Unit) K.start
      fun _ w' => Anchored K.host (fun _ _ => False) w' := by
    refine Does.bind note.does fun _ w₁ h₁ => ?_
    have hd₁ : w₁.channel p = some d := (h₁.channel p).trans hd
    exact does_handleStateUpdate_anchors hG hstore (h.same h₁.channel h₁.link) hop hd₁ hd hs h₁.sent
  exact hdoes.returns (Prog.kept_of_map hkept) hret

/-- In such a run every link to a hosted channel is that of an HTLC which the channel has: where a hosted HTLC goes,
    its link has gone. -/
theorem no_orphaned_links (H : Host) (w : World) (past : List World)
    (hrun : Run H (fun past op o => ∀ w ∈ past.head?, Careful H w op o) (w :: past)) : NoOrphans H w := by
  have hall : Anchored H (fun _ _ => False) w := by
    generalize hhist : w :: past = hist at hrun
    induction hrun generalizing w past with
    | start =>
      obtain ⟨rfl, rfl⟩ := List.cons.inj hhist
      exact ⟨fun _ _ hp => (by cases hp), fun _ _ hl => (by cases hl), fun _ _ _ hd => by cases hd⟩
    | @step w₀ past op o _ hop ih =>
      obtain ⟨rfl, rfl⟩ := List.cons.inj hhist
      have h := ih w₀ past rfl
      obtain ⟨hanch, hstores, hreturns⟩ := hop w₀ rfl
      by_cases howed : ∃ p e m d id, op = .message p e (.stateUpdate m) ∧ w₀.channel p = some d ∧
          deriveStatus d = .active ∧ id ∈ remoteFails d.uncommitted ∧ (w₀.link (H.scid p, id)).isSome
      · obtain ⟨p, e, m, d, id, rfl, hd, hs, hid, hl⟩ := howed
        rcases hreturns p e m d id rfl hd hs hid hl with hun | hret
        · let K : Ctx := ⟨H, (Guard.anchoring H (.message p e (.stateUpdate m))).both
            (Guard.unreplaced p (.message p e (.stateUpdate m))), w₀, .message p e (.stateUpdate m),
            fun x _ call => call.isStore = true → x.fails = false⟩
          have ht := trace_next (K := K) (o := o) ⟨⟨trivial, trivial⟩, Guard.both_allowed hanch.2 hun⟩ hstores
          refine Anchored.unreplaced (K := K) h (fun _ _ _ hg => hg) rfl ?_ ht
          rintro ⟨x, v, c, hx, hc, hf⟩
          rw [hx hc] at hf
          cases hf
        · let K : Ctx := ⟨H, Guard.anchoring H (.message p e (.stateUpdate m)), w₀, .message p e (.stateUpdate m),
            fun x _ call => call.isStore = true → x.fails = false⟩
          refine Anchored.returned (K := K) h (fun _ _ _ hg => hg) ?_ rfl hd hs
            (Ctx.kept_assumes (K := K) hanch.2 hstores) hret
          rintro ⟨x, v, c, hx, hc, hf⟩
          rw [hx hc] at hf
          cases hf
      · let K : Ctx := ⟨H, Guard.anchoring H op, w₀, op, fun x _ call => call.isStore = true → x.fails = false⟩
        refine Anchored.unowed (K := K) h (fun _ _ _ hg => hg) ?_ ?_ (trace_next (K := K) hanch hstores)
        · rintro ⟨x, v, c, hx, hc, hf⟩
          rw [hx hc] at hf
          cases hf
        · rintro p id ⟨⟨e, m, hop⟩, d, hd, hs, hid⟩
          by_contra hne
          exact howed ⟨p, e, m, d, id, hop, hd, hs, hid, Option.isSome_iff_ne_none.mpr hne⟩
  exact hall.noOrphans

/-! ### A run with a failure -/

/-- What `Guard.anchoring` asks of a record, computed. -/
def Guard.anchors (H : Host) (op : Op) (w : World) (p : PublicKey) (d' : ChannelData) : Bool :=
  ((w.channel p).isSome || w.peers.all (H.scid · != H.scid p) && w.linkKeys.all (·.1 != H.scid p)) &&
    (w.channel p).all fun d => w.linkKeys.all fun k => decide (k.1 = H.scid p → k.2 ∈ d.offers.map (·.id) →
      k.2 ∈ d'.offers.map (·.id) ∨ op.commits p = true ∧ deriveStatus d = .active ∧ k.2 ∈ remoteFails d.uncommitted)

theorem Guard.anchors_iff {op : Op} {d' : ChannelData} :
    Guard.anchors H op w p d' = true ↔ (Guard.anchoring H op).record w p d' := by
  unfold Guard.anchors Guard.anchoring
  cases hd : w.channel p with
  | none => simp [hd]
  | some d =>
    simp only [hd, Option.isSome_some, Option.all_some, List.all_eq_true, decide_eq_true_eq, Option.mem_def,
      Option.some.injEq, forall_eq', Bool.true_or, Bool.true_and, reduceCtorEq, false_implies, true_and]

instance (w : World) (op : Op) (p : PublicKey) (d' : ChannelData) : Decidable ((Guard.anchoring H op).record w p d') :=
  decidable_of_iff _ Guard.anchors_iff

instance (w : World) (op : Op) (k : HtlcKey) (l : ForwardLink) : Decidable ((Guard.anchoring H op).link w k l) :=
  .isTrue trivial

/-- The operation is careful when nothing fails, and if it is a `state_update` it is handled without an error. -/
def carefulWhenCalm (H : Host) (w : World) (op : Op) : Bool :=
  Prog.Allowed.check exec (Guard.anchoring H op).call (fun _ => .calm) (op.program H).run w &&
    match op with
    | .message p e (.stateUpdate m) => (Prog.run exec (fun _ => .calm)
        (do ask (.noteWireEncoding p e); handleMessage H p (.stateUpdate m) : Ctl Unit).run w).1.toOption.isSome
    | _ => true

theorem careful_of_calm {op : Op} (h : carefulWhenCalm H w op = true) : Careful H w op (fun _ => .calm) := by
  obtain ⟨hguard, hmsg⟩ := Bool.and_eq_true_iff.mp h
  refine ⟨⟨trivial, Prog.allowed_of_check hguard⟩, Prog.kept_of_forall fun _ _ _ _ => rfl, ?_⟩
  rintro p e m d id rfl - - - -
  obtain ⟨u, hu⟩ := Option.isSome_iff_exists.mp hmsg
  exact Or.inr (eq_ok_of_toOption hu)

/-- Two HTLCs are offered to the client of the open channel; it commits to both, and then to the failure of the first. -/
def failedScript : List (World → Op) := openScript ++ [
  hookOffers (digest [1]) 1 1100, hookOffers (digest [2]) 2 1100, clientCommits .transparent openKey,
  clientFails openKey 1, clientCommits .transparent openKey]

theorem no_orphaned_links_failed : NoOrphans .transparent (calmRun .transparent failedScript) := by
  have hcalm : followsOps (carefulWhenCalm .transparent) .transparent World.empty failedScript = true := by decide +kernel
  have hfollows : (Guard.ofOp fun w op => Careful .transparent w op fun _ => .calm).Follows .transparent World.empty
      failedScript :=
    followsOps_sound (fun _ _ h => careful_of_calm h) hcalm
  have hrun : Run .transparent (fun past op o => ∀ w ∈ past.head?, Careful .transparent w op o)
      (calmHistory .transparent failedScript) := by
    refine calmHistory_follows ?_ hfollows
    intro w past op hop v hv
    obtain rfl := Option.some.inj hv
    exact hop.1
  rw [calmHistory_eq] at hrun
  exact no_orphaned_links _ _ _ hrun

end Canopus
