import Canopus.Theorems.BaseSteps

/-! The steps of forwarding: what offering, dispatching, resolving and recovering an HTLC can do. -/

namespace Canopus
open Effect Fallible

variable {K : Ctx} {B : Act → Prop} {w w' : World} {peer q : PublicKey} {id : UInt64} {k : HtlcKey}
  {l : ForwardLink} {H : Host} {A : Choice → World → Call → Prop} {L : Type} {step : L → World → World → Prop} {S : L → Prop}

/-! ### Finding channels and links -/

theorem does_findPeer {scid : UInt64} : Does exec A step S (peerForHostedScid H scid) w fun r w' => w' = w ∧
    r = w.peers.find? (H.scid · == scid) := by
  refine Does.bind does_listChannels ?_
  intro peers _ hpost
  obtain ⟨rfl, rfl⟩ := hpost
  exact Does.pure ⟨rfl, rfl⟩

theorem does_peerForHostedScid {scid : UInt64} : Does exec A step S (peerForHostedScid H scid) w fun r w' => w' = w ∧
    (∀ q, r = some q → (w.channel q).isSome ∧ H.scid q = scid) ∧
    (r = none → ∀ q, (w.channel q).isSome → H.scid q ≠ scid) := by
  refine Does.post does_findPeer ?_
  intro r _ hpost
  obtain ⟨rfl, rfl⟩ := hpost
  refine ⟨rfl, fun q hq => ?_, fun hn q hq => ?_⟩
  · have hm := List.mem_of_find?_eq_some hq
    have he := List.find?_some hq
    exact ⟨World.mem_peers.mp hm, by simpa using he⟩
  · have := List.find?_eq_none.mp hn q (World.mem_peers.mpr hq)
    simpa using this

theorem Reading.peerForHostedScid (H : Host) (scid : UInt64) : Reading (peerForHostedScid H scid) :=
  Reading.listChannels.bind fun _ => Stays.pure _

theorem Reading.firstLinkAmong (scid id : UInt64) (keys : List HtlcKey) : Reading (firstLinkAmong scid id keys) := by
  induction keys with
  | nil => exact Stays.pure _
  | cons key keys ih =>
    refine reading_getJson.bind fun r => ?_
    rcases r with e | ⟨l, g⟩
    · cases e with
      | notFound => exact ih
      | _ => exact Stays.throw _
    · dsimp only
      split
      · exact Stays.pure _
      · exact ih

theorem Reading.forwardLinkForIncoming (scid id : UInt64) : Reading (forwardLinkForIncoming scid id) := by
  refine (reading_ask rfl).bind fun _ => (Reading.liftStore _).bind fun scids => ?_
  induction scids with
  | nil => exact Stays.pure _
  | cons s scids ih =>
    refine (reading_ask rfl).bind fun _ => (Reading.liftStore _).bind fun keys => ?_
    refine (Reading.firstLinkAmong scid id keys).bind fun r => ?_
    cases r with
    | none => exact ih
    | some l => exact Stays.pure _

/-- A link that is stored, and comes from the given HTLC. -/
def FoundLink (w : World) (scid id : UInt64) (r : Option ForwardLink) : Prop :=
  ∀ l, r = some l → (∃ k, w.link k = some l) ∧ l.incomingScid = scid ∧ l.incomingHtlcId = id

theorem does_firstLinkAmong {scid : UInt64} (keys : List HtlcKey) :
    Does exec A step S (firstLinkAmong scid id keys) w fun r w' => w' = w ∧ FoundLink w scid id r := by
  induction keys with
  | nil => exact Does.pure ⟨rfl, by simp [FoundLink]⟩
  | cons key keys ih =>
    refine Does.bind does_getJson ?_
    intro r _ hpost
    obtain ⟨rfl, hok, -⟩ := hpost
    rcases r with e | ⟨l, g⟩
    · cases e with
      | notFound => exact ih
      | _ => exact Does.throw
    · dsimp only
      split
      · rename_i hc
        refine Does.pure ⟨rfl, ?_⟩
        intro l' hpost
        obtain ⟨⟩ := hpost
        simp only [ForwardLink.comesFrom, Bool.and_eq_true, beq_iff_eq] at hc
        exact ⟨⟨key, Table.value?_of_entry (hok l g rfl)⟩, hc⟩
      · exact ih

theorem does_firstLinkUnder {scid : UInt64} (scids : List UInt64) :
    Does exec A step S (firstLinkUnder scid id scids) w fun r w' => w' = w ∧ FoundLink w scid id r := by
  induction scids with
  | nil => exact Does.pure ⟨rfl, by simp [FoundLink]⟩
  | cons s scids ih =>
    refine Does.bind (does_read rfl) ?_
    intro r _ hpost
    obtain ⟨rfl, -⟩ := hpost
    refine Does.bind does_liftStore ?_
    intro keys _ hpost
    obtain ⟨rfl, -⟩ := hpost
    refine Does.bind (does_firstLinkAmong keys) ?_
    intro r _ hpost
    obtain ⟨rfl, hr⟩ := hpost
    rcases r with - | l
    · exact ih
    · exact Does.pure ⟨rfl, hr⟩

theorem does_forwardLinkForIncoming {scid : UInt64} :
    Does exec A step S (forwardLinkForIncoming scid id) w fun r w' => w' = w ∧ FoundLink w scid id r := by
  refine Does.bind (does_read rfl) ?_
  intro r _ hpost
  obtain ⟨rfl, -⟩ := hpost
  refine Does.bind does_liftStore ?_
  intro scids _ hpost
  obtain ⟨rfl, -⟩ := hpost
  exact does_firstLinkUnder scids

theorem Bookless.resolveUpstream (key : HtlcKey) (r : HtlcResolution) : Bookless (resolveUpstream key r) := by
  refine (Stays.ask fun x w => ?_).bind fun _ => (Reading.liftNode _).silent.bookless
  simp only [exec, rpcError]
  split
  · exact SameBooks.refl w
  · exact ⟨rfl, rfl, rfl, rfl⟩

theorem Bookless.storePreimage (h : Hash) (preimage : ByteVec 32) : Bookless (ask (.storePreimage h preimage)) := by
  refine Stays.ask fun x w => ?_
  simp only [exec, rpcError]
  split
  · exact SameBooks.refl w
  · exact ⟨rfl, rfl, rfl, rfl⟩

/-- An answer that there is a reason for. -/
theorem does_resolveUpstream [Mild B] {key : HtlcKey} {r : HtlcResolution} (ha : Answers K w key r) :
    K.Does B (resolveUpstream key r) w fun _ w' => SameBooks w w' := by
  refine Does.bind (Does.ask (R := fun _ w' => SameBooks w w') fun x _ => ?_) ?_
  · simp only [exec, rpcError]
    split
    · exact ⟨Trace.refl, SameBooks.refl w⟩
    · exact ⟨Trace.single Mild.answered (Step.answered ha), ⟨rfl, rfl, rfl, rfl⟩⟩
  · intro r w' hbooks
    refine (Reading.liftNode _).does.post ?_
    intro _ _ hpost
    subst hpost
    exact hbooks

theorem does_storePreimage [Steady B] {hash : Hash} {preimage : ByteVec 32} (hr : Stores K w hash preimage) :
    K.Does B (ask (.storePreimage hash preimage)) w fun _ w' => SameBooks w w' := by
  refine Does.ask fun x hx => ?_
  simp only [exec, rpcError]
  split
  · exact ⟨Trace.refl, SameBooks.refl w⟩
  · exact ⟨Trace.single Steady.stored (Step.stored hx.2 hr), ⟨rfl, rfl, rfl, rfl⟩⟩

/-! ### Resolving -/

section Resolving
variable [Steady B]

theorem Settled.of_channel (h : Settled w q id) (hw : w'.channel q = w.channel q) : Settled w' q id := by
  obtain ⟨d, hd, hs⟩ := h
  exact ⟨d, hw.trans hd, hs⟩

theorem hasUncommittedLocalResolution_push {d : ChannelData} {u : PendingUpdate}
    (hk : resolutionKey (.ofLocal u) = some (true, id)) :
    hasUncommittedLocalResolution (d.push (.ofLocal u)) id = true := by
  cases u <;> simp_all [resolutionKey, hasUncommittedLocalResolution, ChannelData.push]

theorem hasUncommittedLocalResolution_push_ne {d : ChannelData} {u : PendingUpdate} {id' : UInt64}
    (hk : resolutionKey (.ofLocal u) = some (true, id)) (hne : id ≠ id') :
    hasUncommittedLocalResolution (d.push (.ofLocal u)) id' = hasUncommittedLocalResolution d id' := by
  cases u <;> simp_all [resolutionKey, hasUncommittedLocalResolution, ChannelData.push]

/-- The peer is told of the update that has just been added. -/
theorem Tells.pushed {d : ChannelData} {u : PendingUpdate} {msg : HostedMessage}
    (hd : w.channel peer = some (d.push (.ofLocal u))) (hm : msg = replayMessage K.host peer u) : Tells K w peer msg :=
  Or.inr ⟨_, u, hd, List.mem_append_right _ (List.mem_singleton.mpr rfl), hm⟩

theorem ne_nil_of_any {α : Type} {xs : List α} {f : α → Bool} (h : xs.any f = true) : xs ≠ [] := by
  intro he
  simp [he] at h

theorem does_sendLocalResolution {u : PendingUpdate} {msg : HostedMessage}
    (hk : resolutionKey (.ofLocal u) = some (true, id)) (hm : msg = replayMessage K.host peer u) :
    K.Does B (sendLocalResolution K.host peer id u msg) w fun _ w' => Settled w' peer id ∧
      ∀ k, w'.link k = w.link k := by
  unfold sendLocalResolution
  refine Does.bind does_loadExisting ?_
  intro d _ hpost
  obtain ⟨rfl, hd⟩ := hpost
  split
  · rename_i hi
    exact Does.pure ⟨⟨d, hd, Or.inl (by simpa using hi)⟩, fun _ => rfl⟩
  · rename_i hi
    have hi : d.lcss.incomingHtlcs.any (·.id == id) = true := by simpa using hi
    dsimp only
    refine Does.bind (does_stateUpdateForUncommitted [.ofLocal u] hd rfl rfl
      (Or.inr (Or.inr (ne_nil_of_any hi))) (by simp [UncommittedUpdate.isLocal])) ?_
    intro su _ hpost
    obtain ⟨⟨t, rfl⟩, next, hn⟩ := hpost
    refine Does.bind (does_change (c := .resolved u) (Steady.resolved peer u) hd (Changes.resolved hi hk hn) trivial trivial) ?_
    intro _ _ hpost
    subst hpost
    refine Does.bind (does_sendUpdate (Tells.pushed World.channel_put hm)) fun _ w₁ h₁ => ?_
    refine (Silent.sendMessage peer _ rfl).does.post fun _ w₂ h₂ => ⟨⟨d.push (.ofLocal u), ?_, Or.inr ?_⟩, fun k => ?_⟩
    · rw [h₂.channel, h₁.channel, World.channel_put]
    · exact hasUncommittedLocalResolution_push hk
    · rw [h₂.link, h₁.link, World.link_put_channel, World.noteSigned_link]

theorem does_sendLocalFulfill {preimage : ByteVec 32} :
    K.Does B (sendLocalFulfill K.host peer l preimage) w fun _ w' => Settled w' peer l.incomingHtlcId ∧
      ∀ k, w'.link k = w.link k :=
  does_sendLocalResolution rfl rfl

theorem does_sendLocalFailForHtlc {reason : Bytes} :
    K.Does B (sendLocalFailForHtlc K.host peer id reason) w fun _ w' => Settled w' peer id ∧
      ∀ k, w'.link k = w.link k :=
  does_sendLocalResolution rfl rfl

theorem does_sendLocalFail {reason : Bytes} :
    K.Does B (sendLocalFail K.host peer l reason) w fun _ w' => Settled w' peer l.incomingHtlcId ∧
      ∀ k, w'.link k = w.link k :=
  does_sendLocalFailForHtlc

/-! ### Carrying an outcome back -/

omit [Steady B] in
theorem does_withForwardLink {f : ForwardLink → Ctl Unit}
    (h : ∀ l, w.link k = some l → K.Does B (f l) w fun _ _ => True) :
    K.Does B (withForwardLink k f) w fun _ _ => True := by
  refine Does.bind does_getJson ?_
  intro r _ hpost
  obtain ⟨rfl, hok, -⟩ := hpost
  rcases r with e | ⟨l, g⟩
  · cases e with
    | notFound => exact Does.pure trivial
    | _ => exact Does.throw
  · exact h l (Table.value?_of_entry (hok l g rfl))

/-- Deleting a link that there is a reason to delete. -/
theorem does_deleteLink (h : Drops K.host K.guard w k) :
    K.Does B (deleteKey .htlcForwards k) w fun _ w' => w' = w ∨ w' = w.erase .htlcForwards k := by
  exact does_deleteKey (P := fun w' => w' = w ∨ w' = w.erase .htlcForwards k) (Or.inl rfl)
    ⟨Trace.single Steady.unlinked (Step.unlinked h), Or.inr rfl⟩

theorem does_dropForwardLink (h : Drops K.host K.guard w k) :
    K.Does B (dropForwardLink k) w fun _ _ => True :=
  Does.bind (does_deleteLink h) fun _ _ _ => Does.pure trivial

/-- Whoever the HTLC of a link came from has been answered. -/
def Answered (H : Host) (w : World) (l : ForwardLink) : Prop :=
  (∀ q, (w.channel q).isSome → H.scid q ≠ l.incomingScid) ∨
    ∃ q, H.scid q = l.incomingScid ∧ Settled w q l.incomingHtlcId

theorem does_answerIncoming {toPeer : PublicKey → Ctl Unit} {r : HtlcResolution}
    (hr : (∀ q, (w.channel q).isSome → K.host.scid q ≠ l.incomingScid) →
      Answers K w (l.incomingScid, l.incomingHtlcId) r)
    (h : ∀ q, K.Does B (toPeer q) w fun _ w' => Settled w' q l.incomingHtlcId ∧ ∀ k, w'.link k = w.link k) :
    K.Does B (answerIncoming K.host l toPeer r) w fun _ w' => Answered K.host w' l ∧ ∀ k, w'.link k = w.link k := by
  refine Does.bind does_peerForHostedScid ?_
  intro found _ hpost
  obtain ⟨rfl, hsome, hnone⟩ := hpost
  rcases found with - | q
  · refine (does_resolveUpstream (hr (hnone rfl))).post fun _ w₁ h₁ => ⟨Or.inl fun q hq => ?_, h₁.link⟩
    exact hnone rfl q (h₁.channel q ▸ hq)
  · exact (h q).post fun _ w₁ h₁ => ⟨Or.inr ⟨q, (hsome q rfl).2, h₁.1⟩, h₁.2⟩

theorem does_resolveForwardFulfill {scid : UInt64} {preimage : ByteVec 32}
    (hr : ∀ l, w.link (scid, id) = some l → (∀ q, (w.channel q).isSome → K.host.scid q ≠ l.incomingScid) →
      Answers K w (l.incomingScid, l.incomingHtlcId) (.resolve preimage)) :
    K.Does B (resolveForwardFulfill K.host scid id preimage) w fun _ _ => True := by
  refine does_withForwardLink fun l hl => ?_
  refine Does.bind (does_answerIncoming (hr l hl) fun _ => does_sendLocalFulfill) ?_
  intro _ w₁ hpost
  obtain ⟨ha, hk⟩ := hpost
  exact does_dropForwardLink (Drops.answered ((hk _).trans hl) ha)

theorem does_resolveForwardFail {scid : UInt64} {failure : Bytes} :
    K.Does B (resolveForwardFail K.host scid id failure) w fun _ _ => True := by
  refine does_withForwardLink fun l hl => ?_
  refine Does.bind (does_answerIncoming (fun _ => Answers.failed hl rfl) fun _ => does_sendLocalFail) ?_
  intro _ w₁ hpost
  obtain ⟨ha, hk⟩ := hpost
  exact does_dropForwardLink (Drops.answered ((hk _).trans hl) ha)

theorem does_handleOutgoingPaymentResult {scid : UInt64} {status : PaymentStatus}
    (hr : ∀ preimage, status = .succeeded preimage → Reported K w (scid, id) preimage) :
    K.Does B (handleOutgoingPaymentResult K.host scid id status) w fun _ _ => True := by
  refine does_withForwardLink fun l hl => ?_
  refine Does.bind does_peerForHostedScid ?_
  intro found _ hpost
  obtain ⟨rfl, hsome, -⟩ := hpost
  rcases found with - | q
  · exact Does.pure trivial
  · cases status with
    | succeeded preimage =>
      refine Does.bind (does_storePreimage (Stores.paid hl rfl (hr preimage rfl))) fun _ w₁ h₁ => ?_
      refine Does.bind (Reading.liftNode _).does ?_
      intro _ _ hpost
      subst hpost
      refine Does.bind does_sendLocalFulfill ?_
      intro _ w₂ hpost
      obtain ⟨hs, hk⟩ := hpost
      refine does_dropForwardLink (Drops.answered (l := l) ?_ (Or.inr ⟨q, (hsome q rfl).2, hs⟩))
      rw [hk, h₁.link, hl]
    | failed onion =>
      refine Does.bind does_sendLocalFail ?_
      intro _ w₂ hpost
      obtain ⟨hs, hk⟩ := hpost
      exact does_dropForwardLink (Drops.answered ((hk _).trans hl) (Or.inr ⟨q, (hsome q rfl).2, hs⟩))
    | pending => exact Does.pure trivial
    | unknown => exact Does.pure trivial

end Resolving

/-! ### Offering -/

section Offering
variable [Mild B]

theorem LinkAt.of_link (h : LinkAt K.guard w k l) (hw : w'.link k = w.link k) : LinkAt K.guard w' k l := by
  rcases h with h | ⟨w₀, hg, h₀, hs⟩
  · exact Or.inl (hw.trans h)
  · exact Or.inr ⟨w₀, hg, h₀.trans hw.symm, hw ▸ hs⟩

/-- A link is stored, or another one is there already, or nothing has changed. -/
inductive Linked (A : Choice → World → Call → Prop) (w : World) (k : HtlcKey) (l : ForwardLink) :
    Except ChannelError Unit → World → Prop
  | created {x : Choice} (hf : x.fails = false) (hx : A x w (.create .htlcForwards k l)) (hn : w.link k = none) :
    Linked A w k l (.ok ()) (w.put .htlcForwards k l)
  | present {x : Choice} (hf : x.fails = false) (hx : A x w (.create .htlcForwards k l)) (hs : (w.link k).isSome) :
    Linked A w k l (.ok ()) w
  | failed {e : ChannelError} : Linked A w k l (.error e) w

theorem wp_createForwardLink : Wp exec A (createForwardLink k l) (Linked A w k l) w := by
  unfold createForwardLink
  refine Wp.bind (Wp.ask ?_)
  intro x hx
  by_cases hf : x.fails = true
  · simp only [exec, hf, if_true]
    exact Wp.throw .failed
  cases he : (w.store .htlcForwards).lookup k with
  | none =>
    simp only [exec, hf, if_false, he, Bool.false_eq_true]
    exact Wp.pure (.created (Bool.eq_false_iff.mpr hf) hx (Table.value?_eq_none_of_entry he))
  | some e =>
    simp only [exec, hf, if_false, he, Bool.false_eq_true]
    have hs : (w.link k).isSome := by
      simp only [World.link, Table.value?, he, Option.map_some, Option.isSome_some]
    exact Wp.pure (.present (Bool.eq_false_iff.mpr hf) hx hs)

theorem does_createForwardLink_record {q : PublicKey} {P : ChannelData → Prop} :
    Does exec A (RecordStep q P) (fun _ => True) (createForwardLink k l) w fun _ w' => ∀ p, w'.channel p = w.channel p := by
  refine Does.of_wp (wp_createForwardLink.mono ?_)
  intro r w' h
  cases h with
  | created => exact ⟨RecordStep.same World.channel_put_link, fun _ _ _ => World.channel_put_link⟩
  | present | failed => exact ⟨Trace.refl, fun _ _ _ => rfl⟩

/-- A link that is stored without an HTLC of a hosted channel. -/
theorem does_createForwardLink (hk : k = (l.outgoingScid, l.outgoingHtlcId)) (hi : K.Comes l.incomingScid)
    (ha : K.Alone w l) :
    K.Does B (createForwardLink k l) w fun _ w' => LinkAt K.guard w' k l ∧ ∀ q, w'.channel q = w.channel q := by
  subst hk
  refine Does.of_wp (wp_createForwardLink.mono ?_)
  intro r w' h
  cases h with
  | created hf hx hn =>
    refine ⟨Trace.single Mild.linked (Step.linked hi ha hn (hx.1 hf)), fun _ _ => ⟨Or.inl World.link_put, ?_⟩⟩
    exact fun _ => World.channel_put_link
  | present hf hx hs => exact ⟨Trace.refl, fun _ _ => ⟨Or.inr ⟨w, hx.1 hf, rfl, hs⟩, fun _ => rfl⟩⟩
  | failed => exact ⟨Trace.refl, fun _ he => by cases he⟩

/-- The link of a hosted HTLC and the record with the HTLC are written together, or the store fails in between. -/
theorem does_linkAndSave {α : Type} {P : α → World → Prop} {f : Ctl α} {d d' : ChannelData} {htlc : UpdateAddHtlc}
    (hact : B (.wrote peer (.added htlc))) (hd : w.channel peer = some d) (hc : Changes K.host peer (.added htlc) d d')
    (hk : k = (l.outgoingScid, l.outgoingHtlcId)) (hb : l.BuiltFor K.host peer htlc) (hi : K.Comes l.incomingScid)
    (hto : K.op.peer ≠ some peer) (hf : ∀ w', w'.channel peer = some d' → K.Does B f w' P) :
    K.Does B (do createForwardLink k l; saveChannel peer d' none; f) w P := by
  subst hk
  refine Does.joined (R := fun _ _ w' => w'.channel peer = some d') (wp_createForwardLink.mono ?_) fun _ _ w' hw' => hf w' hw'
  intro r v h
  cases h with
  | created hf₁ hx hn =>
    have hd₁ : (w.put .htlcForwards (l.outgoingScid, l.outgoingHtlcId) l).channel peer = some d := by
      rw [World.channel_put_link]
      exact hd
    refine wp_saveChannel.mono ?_
    intro r w' h
    cases h with
    | created hf₂ hy | updated hf₂ hy =>
      exact ⟨Trace.single hact (Step.offered hd hc hb hi hto hn (hx.1 hf₁) (hy.1 hf₂)), fun _ _ => World.channel_put⟩
    | @failed _ y c hy hstore hfail =>
      refine ⟨Trace.single Mild.linked (Step.linked hi ?_ hn (hx.1 hf₁)), fun _ he => by cases he⟩
      exact Or.inr ⟨⟨y, _, c, hy.2, hstore, hfail⟩, peer, hto, by rw [hd]; rfl, hb.scid.symm⟩
  | present hf₁ hx hs =>
    have hs' : (w.link (K.host.scid peer, htlc.id)).isSome := by
      rw [← hb.scid, ← hb.id]
      exact hs
    refine wp_saveChannel.mono ?_
    intro r w' h
    cases h with
    | created hf₂ hy | updated hf₂ hy =>
      exact ⟨Trace.single hact (Step.wrote hd hc hto (hy.1 hf₂) (Or.inr hs')), fun _ _ => World.channel_put⟩
    | failed => exact ⟨Trace.refl, fun _ he => by cases he⟩
  | failed => exact Trace.refl

omit [Mild B] in
/-- A message that is sent, or whose failure is noted in the record. -/
theorem does_deliver {d : ChannelData} {msg : HostedMessage} (he : ∀ e, B (.wrote peer (.errored e)))
    (hd : w.channel peer = some d) (hs : K.Does B (sendMessage peer msg) w fun _ w' => SameBooks w w') :
    K.Does B (deliver peer d msg) w fun _ w' => SameBooks w w' := by
  refine Does.bind (Does.attempt_stays hs (Bookless.sendMessage peer msg)) ?_
  intro r w₁ h₁
  rcases r with e | u
  · refine Does.bind (does_markErrored (he _) ((h₁.channel peer).trans hd) (by decide)) ?_
    rintro _ _ -
    exact Does.throw
  · exact Does.pure h₁

theorem Reading.hostedCommitDeadline : Reading hostedCommitDeadline := by
  refine (reading_ask rfl).bind fun _ => ?_
  exact (Reading.okOr _ _).bind fun _ => Reading.okOr _ _

theorem does_offerHtlc {d : ChannelData} {htlc : UpdateAddHtlc} {next : LastCrossSignedState} {scid : UInt64}
    {secret : Option (ByteVec 32)} {expiry : Option UInt32} (hd : w.channel peer = some d) (hi : K.Comes scid)
    (hto : K.op.peer ≠ some peer)
    (hb : ∀ h, h.amountMsat = htlc.amountMsat → B (.wrote peer (.added h))) (he : ∀ e, B (.wrote peer (.errored e)))
    (hs : deriveStatus d = .active) (hn : d.next K.host = .ok next) (ha : htlc.amountMsat ≤ next.localBalanceMsat) :
    K.Does B (offerHtlc K.host peer d htlc scid id secret expiry) w fun _ _ => True := by
  unfold offerHtlc
  dsimp only
  refine Does.bind Reading.hostedCommitDeadline.does ?_
  intro deadline _ hpost
  subst hpost
  have hact := hb { htlc with channelId := K.host.channelId peer, id := nextHtlcId d } rfl
  refine does_linkAndSave hact hd (Changes.added hs hn ha rfl) rfl ⟨rfl, rfl, rfl⟩ hi hto ?_
  intro w₁ hd₁
  refine Does.bind (does_deliver he hd₁ (does_sendUpdate (Tells.pushed hd₁ ?_))) fun _ w₂ h₂ => ?_
  · rfl
  have hd₂ := (h₂.channel peer).trans hd₁
  refine Does.bind (R := fun t w₃ => w₃ = w₂.noteSigned peer t) ?_ ?_
  · have := does_signNext (K := K) (B := B) [] hd₂ (Or.inl rfl) (by simp)
    rw [List.append_nil] at this
    exact this.post fun _ _ h => h.1
  · intro t _ hpost
    subst hpost
    refine (does_deliver he (w := w₂.noteSigned peer t) hd₂ ?_).post fun _ _ _ => trivial
    exact (Silent.sendMessage peer _ rfl).does.post fun _ _ h => h.toSameBooks

theorem Reading.cltvTooClose (b : Bool) (e : Option UInt32) (c : UInt32) (d : UInt16) : Reading (cltvTooClose b e c d) := by
  unfold Canopus.cltvTooClose
  split
  · split
    · exact (Reading.okOr _ _).bind fun _ => Stays.pure _
    · exact Stays.pure _
  · exact Stays.pure _

theorem le_of_hasNoRoom {policy : InitHostedChannel} {next : LastCrossSignedState} {amount : UInt64}
    (h : ¬ hasNoRoom policy next amount = true) : amount ≤ next.localBalanceMsat := by
  simp only [hasNoRoom, Bool.or_eq_true, decide_eq_true_eq, not_or] at h
  exact UInt64.not_lt.mp h.1.1

theorem does_checkAndOffer {d : ChannelData} {htlc : UpdateAddHtlc} {key : HtlcKey} {scid : UInt64}
    {secret : Option (ByteVec 32)} {expiry : Option UInt32} (hd : w.channel peer = some d) (hi : K.Comes scid)
    (hkey : key.1 = scid) (hto : K.op.peer ≠ some peer)
    (hb : ∀ h, h.amountMsat = htlc.amountMsat → B (.wrote peer (.added h))) (he : ∀ e, B (.wrote peer (.errored e)))
    (hs : deriveStatus d = .active) :
    K.Does B (checkAndOffer K.host peer d htlc key scid id secret expiry) w fun _ _ => True := by
  unfold checkAndOffer
  refine Does.bind (Reading.routingPolicyForData K.host d).does ?_
  intro r _ hpost
  subst hpost
  refine Does.bind (Reading.peerForHostedScid K.host scid).does ?_
  intro source _ hpost
  subst hpost
  refine Does.bind (Reading.cltvTooClose _ _ _ _).does ?_
  intro close _ hpost
  subst hpost
  split
  · exact (does_resolveUpstream (Answers.direct (hkey ▸ hi))).post fun _ _ _ => trivial
  split
  · exact (does_resolveUpstream (Answers.direct (hkey ▸ hi))).post fun _ _ _ => trivial
  split
  · exact (does_resolveUpstream (Answers.direct (hkey ▸ hi))).post fun _ _ _ => trivial
  refine Does.bind does_liftState ?_
  intro next _ hpost
  obtain ⟨rfl, hn⟩ := hpost
  split
  · exact (does_resolveUpstream (Answers.direct (hkey ▸ hi))).post fun _ _ _ => trivial
  · rename_i hroom
    exact does_offerHtlc hd hi hto hb he hs hn (le_of_hasNoRoom hroom)

theorem does_channelHandleHtlcAdd {htlc : UpdateAddHtlc} {key : HtlcKey} {scid : UInt64} {secret : Option (ByteVec 32)}
    {expiry : Option UInt32} (hi : K.Comes scid) (hkey : key.1 = scid) (hto : K.op.peer ≠ some peer)
    (hb : ∀ h, h.amountMsat = htlc.amountMsat → B (.wrote peer (.added h)))
    (he : ∀ e, B (.wrote peer (.errored e))) :
    K.Does B (channelHandleHtlcAddWithUpstreamExpiry K.host peer htlc key scid id secret expiry) w fun _ _ => True := by
  unfold channelHandleHtlcAddWithUpstreamExpiry
  refine Does.bind does_loadExisting ?_
  intro d _ hpost
  obtain ⟨rfl, hd⟩ := hpost
  split
  · exact Does.throw
  rename_i hs
  refine Does.bind (reading_ask rfl).does ?_
  intro connected _ hpost
  subst hpost
  split
  · exact (does_resolveUpstream (Answers.direct (hkey ▸ hi))).post fun _ _ _ => trivial
  refine Does.bind (reading_ask rfl).does ?_
  intro r _ hpost
  subst hpost
  split
  · exact (does_resolveUpstream (Answers.direct (hkey ▸ hi))).post fun _ _ _ => trivial
  · exact does_checkAndOffer hd hi hkey hto hb he (by simpa using hs)

theorem Reading.liftSphinx {α : Type} (r : Except String α) : Reading (liftSphinx r) := by
  cases r
  · exact Stays.throw _
  · exact Stays.pure _

theorem does_sendDirectPayment {amount : UInt64} {hash : Hash} {cltv : UInt32} {secret : Option (ByteVec 32)}
    (hop : ∃ r, K.op = .pay r) (hb : ∀ h, B (.wrote peer (.added h))) :
    K.Does B (sendDirectPayment K.host peer amount hash cltv secret) w fun _ _ => True := by
  unfold sendDirectPayment
  refine Does.bind does_loadExisting ?_
  intro d _ hpost
  obtain ⟨rfl, hd⟩ := hpost
  split
  · exact Does.throw
  rename_i hs
  have hs : deriveStatus d = .active := by simpa using hs
  refine Does.bind does_liftState ?_
  intro next _ hpost
  obtain ⟨rfl, hn⟩ := hpost
  split
  · exact Does.throw
  rename_i ha
  refine Does.bind (reading_ask rfl).does ?_
  intro sessionKey _ hpost
  subst hpost
  refine Does.bind (Reading.liftSphinx _).does ?_
  intro onion _ hpost
  subst hpost
  dsimp only
  refine Does.bind (does_stateUpdateForUncommitted [.ofLocal (.add _)] hd rfl rfl (Or.inr (Or.inl hs))
    (by simp [UncommittedUpdate.isLocal])) ?_
  intro su _ hpost
  obtain ⟨⟨t, rfl⟩, -⟩ := hpost
  have hto : K.op.peer ≠ some peer := by
    obtain ⟨r, hop⟩ := hop
    rw [hop]
    exact fun h => by cases h
  refine Does.bind (does_change (c := .added _) (hb _) hd (Changes.added hs hn (UInt64.not_lt.mp ha) rfl) hto
    (Or.inl hop)) ?_
  intro _ _ hpost
  subst hpost
  refine Does.bind (does_sendUpdate (Tells.pushed World.channel_put ?_)) fun _ w₁ _ => ?_
  · rfl
  refine Does.bind (Silent.sendMessage peer _ rfl).does fun _ w₂ _ => ?_
  exact Does.pure trivial

end Offering

/-! ### Dispatching -/

section Dispatching
variable [Steady B]

theorem Reading.heightOrZero : Reading heightOrZero := by
  refine (reading_ask rfl).bind fun r => ?_
  cases r
  · exact Stays.pure _
  · exact Stays.pure _

theorem does_failDispatched {htlc : UpdateAddHtlc} :
    K.Does B (failDispatched K.host peer htlc) w fun _ w' => Settled w' peer htlc.id ∧ ∀ k, w'.link k = w.link k :=
  does_sendLocalFailForHtlc

theorem does_undoHostedForward {htlc : UpdateAddHtlc} :
    K.Does B (undoHostedForward K.host peer htlc) w fun _ _ => True := by
  refine Does.bind does_failDispatched ?_
  intro _ w₁ hpost
  obtain ⟨hs, -⟩ := hpost
  refine Does.bind does_forwardLinkForIncoming ?_
  intro found _ hpost
  obtain ⟨rfl, hf⟩ := hpost
  rcases found with - | l
  · exact Does.pure trivial
  · obtain ⟨⟨k, hk⟩, hscid, hid⟩ := hf l rfl
    refine Does.bind (does_deleteLink (Drops.undone hk rfl hscid.symm (hid ▸ hs))) fun _ _ _ => ?_
    exact (Reading.liftStore _).does.post fun _ _ _ => trivial

theorem does_forwardToHosted {target : PublicKey} {htlc : UpdateAddHtlc} {peeled : PeeledOnion}
    (hp : K.Comes (K.host.scid peer)) (hof : ∀ q, K.op.peer = some q → q = peer)
    (hb : ∀ q ≠ peer, ∀ h, h.amountMsat = peeled.amtToForward → B (.wrote q (.added h)))
    (he : ∀ q ≠ peer, ∀ e, B (.wrote q (.errored e))) :
    K.Does B (forwardToHosted K.host peer target htlc peeled) w fun _ _ => True := by
  unfold forwardToHosted
  split
  · exact Does.throw
  rename_i hne
  refine Does.bind (Reading.loadExisting target).does ?_
  intro d _ hpost
  subst hpost
  refine Does.bind (Reading.routingPolicyForData K.host d).does ?_
  intro r _ hpost
  subst hpost
  refine Does.bind Reading.heightOrZero.does ?_
  intro height _ hpost
  subst hpost
  split
  · exact does_failDispatched.post fun _ _ _ => trivial
  dsimp only
  refine Does.bind (Does.attempt (does_channelHandleHtlcAdd hp rfl (fun h => hne (hof target h)) (hb target hne) (he target hne))) ?_
  rintro r w₁ -
  rcases r with e | u
  · exact does_undoHostedForward
  · exact Does.pure trivial

theorem does_forwardToNode {htlc : UpdateAddHtlc} {peeled : PeeledOnion} (hp : K.Comes (K.host.scid peer)) (ha : peeled.amtToForward ≤ htlc.amountMsat)
    (hq : ∀ q, (w.channel q).isSome → K.host.scid q ≠ peeled.shortChannelId) :
    K.Does B (forwardToNode K.host peer htlc peeled) w fun _ _ => True := by
  unfold forwardToNode
  dsimp only
  refine Does.bind (does_createForwardLink rfl hp (Or.inl hq)) ?_
  intro _ w₁ hpost
  obtain ⟨hl, hc⟩ := hpost
  refine Does.bind Reading.heightOrZero.does ?_
  intro height _ hpost
  subst hpost
  refine Does.bind (R := fun r w₂ => ∀ e, r = .error e → w₂ = w₁) ?_ ?_
  · refine Does.ask fun x _ => ?_
    simp only [exec, rpcError]
    split
    · exact ⟨Trace.refl, fun _ _ => rfl⟩
    · refine ⟨Trace.single Steady.forwarded (Step.forwarded hl rfl rfl rfl rfl ha ?_ rfl rfl), by simp⟩
      exact fun q h => hq q (hc q ▸ h)
  · rintro r w₂ hr
    rcases r with e | u
    · obtain rfl := hr e rfl
      refine Does.bind does_failDispatched ?_
      intro _ w₃ hpost
      obtain ⟨hs, hk⟩ := hpost
      exact does_dropForwardLink (Drops.refused (hl.of_link (hk _)) rfl rfl hs)
    · exact Does.pure trivial

theorem does_dispatchCommittedIncomingHtlc {d : ChannelData} {htlc : UpdateAddHtlc} (hp : K.Comes (K.host.scid peer))
    (hof : ∀ q, K.op.peer = some q → q = peer)
    (hb : ∀ q ≠ peer, ∀ h, h.amountMsat ≤ htlc.amountMsat → B (.wrote q (.added h)))
    (he : ∀ q ≠ peer, ∀ e, B (.wrote q (.errored e))) :
    K.Does B (dispatchCommittedIncomingHtlc K.host peer d htlc) w fun _ _ => True := by
  unfold dispatchCommittedIncomingHtlc
  split
  · exact does_failDispatched.post fun _ _ _ => trivial
  split
  · exact (does_sendLocalResolution rfl rfl).post fun _ _ _ => trivial
  rename_i peeled hpeel
  split
  · exact does_failDispatched.post fun _ _ _ => trivial
  rename_i hlt
  have ha : peeled.amtToForward ≤ htlc.amountMsat := UInt64.not_lt.mp hlt
  refine Does.bind does_peerForHostedScid ?_
  intro found _ hpost
  obtain ⟨rfl, -, hnone⟩ := hpost
  rcases found with - | target
  · exact does_forwardToNode hp ha (hnone rfl)
  · exact does_forwardToHosted hp hof (fun q hq h hh => hb q hq h (hh ▸ ha)) he

theorem does_dispatchCommittedEffects {old new : ChannelData} {us : List UncommittedUpdate}
    (hp : K.Comes (K.host.scid peer)) (hof : ∀ q, K.op.peer = some q → q = peer)
    (hb : ∀ q ≠ peer, ∀ h, B (.wrote q (.added h))) (he : ∀ q ≠ peer, ∀ e, B (.wrote q (.errored e))) :
    K.Does B (dispatchCommittedEffects K.host peer old new us) w fun _ _ => True := by
  refine Does.bind (Does.forEach (J := fun _ => True) (fun htlc _ w _ => ?_) trivial) fun _ w₁ _ => ?_
  · split
    · exact Does.pure trivial
    · exact does_dispatchCommittedIncomingHtlc hp hof (fun q hq h _ => hb q hq h) he
  · refine Does.forEach (J := fun _ => True) (fun u _ w _ => ?_) trivial
    unfold dispatchRemoteFail
    split
    · exact does_resolveForwardFail
    · exact does_resolveForwardFail
    · exact Does.pure trivial

end Dispatching

/-! ### Recovery -/

section Recovery
variable [Steady B]

theorem Reading.hostedSettlementIsSafe (H : Host) (peer : PublicKey) (htlc : UpdateAddHtlc) :
    Reading (hostedSettlementIsSafe H peer htlc) := by
  refine reading_getJson.bind fun r => ?_
  rcases r with e | ⟨l, g⟩
  · cases e with
    | notFound => exact Stays.pure _
    | _ => exact Stays.throw _
  · refine (Reading.peerForHostedScid H _).bind fun source => ?_
    split
    · exact Stays.pure _
    split
    · exact Stays.pure _
    refine (Reading.loadExisting peer).bind fun d => (Reading.routingPolicyForData H d).bind fun _ => ?_
    exact (Reading.okOr _ _).bind fun _ => Reading.getBlockHeight.bind fun _ => Stays.pure _

theorem does_getBlockHeight : Does exec A step S getBlockHeight w fun height w' => w' = w ∧
    ∃ x, A x w .getBlockHeight ∧ x.fails = false ∧ x.height = height := by
  refine Does.bind (R := fun r w' => w' = w ∧ ∀ height, r = .ok height →
    ∃ x, A x w .getBlockHeight ∧ x.fails = false ∧ x.height = height) (Does.ask fun x hx => ?_) ?_
  · by_cases hf : x.fails = true
    · simp only [exec, hf, if_true, rpcError]
      exact ⟨Trace.refl, trivial, fun _ h => by cases h⟩
    · simp only [exec, hf, if_false, Bool.false_eq_true]
      exact ⟨Trace.refl, trivial, fun _ h => ⟨x, hx, by simpa using hf, Except.ok.inj h⟩⟩
  · rintro r _ ⟨rfl, hr⟩
    cases r with
    | error e => exact Does.throw
    | ok height => exact Does.pure ⟨rfl, hr height rfl⟩

theorem does_routingPolicyForData {d : ChannelData} :
    Does exec A step S (routingPolicyForData H d) w fun r w' => w' = w ∧ r = w.routing H d := by
  unfold routingPolicyForData World.routing
  cases d.routingPolicy with
  | some r => exact Does.pure ⟨rfl, rfl⟩
  | none =>
    refine Does.bind does_effectivePolicy ?_
    intro policy _ hpost
    obtain ⟨rfl, rfl⟩ := hpost
    exact Does.pure ⟨rfl, rfl⟩

theorem does_lookupPreimage {hash : Hash} : Does exec A step S (ask (.lookupPreimage hash)) w fun r w' => w' = w ∧
    ∀ preimage, r = .ok (some preimage) → w.preimages.lookup hash = some preimage := by
  refine (does_read rfl).post ?_
  intro r w' hpost
  obtain ⟨rfl, x, rfl⟩ := hpost
  refine ⟨rfl, fun preimage h => ?_⟩
  simp only [exec, rpcError] at h
  split at h
  · cases h
  · exact Except.ok.inj h

theorem checkedAdd32_eq_some {a b c : UInt32} (h : checkedAdd32 a b = some c) : c.toNat = a.toNat + b.toNat := by
  unfold checkedAdd32 at h
  split at h
  · rename_i hlt
    obtain rfl := Option.some.inj h
    rw [UInt32.toNat_add, Nat.mod_eq_of_lt hlt]
  · cases h

omit [Steady B] in
/-- What the safety check has found out about an HTLC that comes from a normal channel. -/
theorem does_hostedSettlementIsSafe {htlc : UpdateAddHtlc} :
    K.Does B (hostedSettlementIsSafe K.host peer htlc) w fun safe w' => w' = w ∧ (safe = true →
      ∀ l, w.link (K.host.scid peer, htlc.id) = some l → (∀ q, (w.channel q).isSome → K.host.scid q ≠ l.incomingScid) →
        Timely K w peer htlc l) ∧ (safe = false → Overdue K w peer htlc) := by
  refine Does.bind does_getJson ?_
  intro r _ hpost
  obtain ⟨rfl, hok, hnone⟩ := hpost
  rcases r with e | ⟨l, g⟩
  · cases e with
    | notFound =>
      refine Does.pure ⟨rfl, ?_, fun h => by cases h⟩
      intro _ l hl
      cases (Table.value?_eq_none_of_entry (hnone rfl)).symm.trans hl
    | _ => exact Does.throw
  have hl := Table.value?_of_entry (hok l g rfl)
  refine Does.bind does_peerForHostedScid ?_
  intro found _ hpost
  obtain ⟨rfl, hsome, hnone'⟩ := hpost
  split
  · rename_i hfound
    -- The HTLC comes from a hosted channel.
    obtain ⟨q, rfl⟩ := Option.isSome_iff_exists.mp hfound
    refine Does.pure ⟨rfl, ?_, fun h => by cases h⟩
    intro _ l' hl' hnormal
    obtain rfl := Option.some.inj (hl.symm.trans hl')
    exact absurd (hsome q rfl).2 (hnormal q (hsome q rfl).1)
  rename_i hfound
  have hnormal := hnone' (by simpa using hfound)
  cases he : l.upstreamCltvExpiry with
  | none =>
    refine Does.pure ⟨rfl, ?_, ?_⟩
    · intro h
      cases h
    · intro _
      refine ⟨l, hl, hnormal, ?_⟩
      intro e he'
      cases he.symm.trans he'
  | some expiry =>
    refine Does.bind does_loadExisting ?_
    intro d _ hpost
    obtain ⟨rfl, hd⟩ := hpost
    refine Does.bind does_routingPolicyForData ?_
    intro routing _ hpost
    obtain ⟨rfl, rfl⟩ := hpost
    refine Does.bind does_okOr ?_
    intro required _ hpost
    obtain ⟨rfl, hreq⟩ := hpost
    refine Does.bind does_getBlockHeight ?_
    intro height v hpost
    obtain ⟨rfl, x, ⟨-, hx⟩, hf, rfl⟩ := hpost
    have hsum := checkedAdd32_eq_some hreq
    have hrequired : required ≤ expiry ↔
        htlc.cltvExpiry.toNat + (v.routing K.host d).cltvExpiryDelta.toNat ≤ expiry.toNat := by
      rw [UInt32.le_iff_toNat_le, hsum]
      simp
    refine Does.pure ⟨rfl, ?_, ?_⟩
    · intro hsafe l' hl' _
      obtain rfl := Option.some.inj (hl.symm.trans hl')
      obtain ⟨hlt, hle⟩ := Bool.and_eq_true_iff.mp hsafe
      exact ⟨⟨d, expiry, hd, he, hrequired.mp (of_decide_eq_true hle)⟩, x, v, hx, hf, of_decide_eq_true hlt⟩
    · intro hlate
      refine ⟨l, hl, hnormal, ?_⟩
      intro e he'
      obtain rfl := Option.some.inj (he.symm.trans he')
      refine ⟨d, x, v, hd, hx, ?_⟩
      rintro ⟨hlt, hle⟩
      rw [decide_eq_true hlt, decide_eq_true (hrequired.mpr hle)] at hlate
      cases hlate

/-- The record of `peer` is `d` with resolutions of the host added. -/
def Extended (w : World) (peer : PublicKey) (d : ChannelData) : Prop :=
  ∃ extra, (∀ u ∈ extra, u.IsLocalResolution) ∧
    w.channel peer = some { d with uncommitted := d.uncommitted ++ extra }

theorem hasUncommittedRemoteResolution_append {d : ChannelData} {extra : List UncommittedUpdate}
    (hx : ∀ u ∈ extra, u.IsLocalResolution) (hr : hasUncommittedRemoteResolution d id = false) :
    hasUncommittedRemoteResolution { d with uncommitted := d.uncommitted ++ extra } id = false := by
  unfold hasUncommittedRemoteResolution at hr ⊢
  rw [List.any_append, hr, Bool.false_or, List.any_eq_false]
  intro u hu
  obtain ⟨id', hk⟩ := hx u hu
  cases u with
  | ofLocal u => exact Bool.false_ne_true
  | ofRemote u => cases u <;> cases hk

theorem Extended.of_channel {d : ChannelData} (h : Extended w peer d) (hw : w'.channel peer = w.channel peer) :
    Extended w' peer d := by
  obtain ⟨extra, hx, he⟩ := h
  exact ⟨extra, hx, hw.trans he⟩

/-- Steps that spare a peer only add resolutions to its record. -/
theorem Extended.trace {d : ChannelData} (h : Extended w peer d) (ht : K.Trace (Act.spares peer) w w') : Extended w' peer d := by
  refine Trace.keeps (P := fun w => Extended w peer d) ht (fun act w w' hact hs hw => ?_) h
  cases hs with
  | created hn hp hg => exact hw.of_channel (World.channel_put_ne fun e => hact (e ▸ rfl))
  | @wrote _ q c d₀ d' hd hc ho hg =>
    by_cases hq : peer = q
    · subst hq
      obtain ⟨extra, hx, he⟩ := hw
      obtain rfl : d₀ = _ := Option.some.inj (hd.symm.trans he)
      cases hc with
      | @resolved _ u id next hi hk hn =>
        refine ⟨extra ++ [.ofLocal u], fun v hv => ?_, ?_⟩
        · rcases List.mem_append.mp hv with hv | hv
          · exact hx v hv
          · rw [List.mem_singleton.mp hv]
            exact ⟨id, hk⟩
        · rw [World.channel_put]
          simp [ChannelData.push]
      | _ => exact absurd rfl hact
    · exact hw.of_channel (World.channel_put_ne hq)
  | @offered _ q =>
    have hq : peer ≠ q := fun e => hact (e ▸ rfl)
    exact hw.of_channel ((World.channel_put_ne hq).trans World.channel_put_link)
  | removed ho => exact hw.of_channel (World.channel_erase_ne fun e => hact (e ▸ rfl))
  | linked => exact hw.of_channel World.channel_put_link
  | unlinked hk => exact hw.of_channel World.channel_erase_link
  | forwarded | signed | answered | sent | stored => exact hw.of_channel rfl
  | secretAdded ho => exact hw.of_channel (by simp [World.channel, World.put_store_ne])
  | secretConsumed hs => exact hw.of_channel (by simp [World.channel, World.put_store_ne])
  | secretRemoved => exact hw.of_channel (by simp [World.channel, World.erase_store_ne])
  | policyChanged hp => exact hw.of_channel (by simp [World.channel, World.put_store_ne])
  | quiet h => exact hw.of_channel (h.channel peer)

omit [Steady B] in
/-- The error written by recovery may go back before the resolutions that recovery has added. -/
theorem does_markErrored_outlived {d : ChannelData} {htlc : UpdateAddHtlc} (hp : B (.wrote peer (.errored .outlivedDeadline)))
    (hd : Extended w peer d) (hop : K.op.recovers peer) (hs : deriveStatus d = .active) (hh : htlc ∈ d.lcss.outgoingHtlcs)
    (hr : hasUncommittedRemoteResolution d htlc.id = false) (hover : Overdue K w peer htlc) :
    K.Does B (markErrored peer d .outlivedDeadline) w fun _ _ => True := by
  obtain ⟨extra, hx, hc⟩ := hd
  refine (does_change (c := .errored .outlivedDeadline) hp hc (Changes.errored _ rfl hx (Or.inr rfl)) ?_ trivial).post
    fun _ _ _ => trivial
  exact ⟨hop, hs, htlc, hh, hasUncommittedRemoteResolution_append hx hr, hover⟩

omit [Steady B] in
/-- A program that spares a peer keeps its record, apart from resolutions. -/
theorem does_extended {α : Type} {x : Ctl α} {d : ChannelData}
    (h : K.Does (fun act => Act.spares peer act ∧ B act) x w fun _ _ => True) (hd : Extended w peer d) :
    K.Does B x w fun _ w' => Extended w' peer d :=
  (h.traced.mono fun _ hact => hact.2).post fun _ _ ht => hd.trace (ht.2.mono fun _ hact => hact.1)

omit [Steady B] in
theorem does_recoverOutgoingFrom [Serves peer B] {d : ChannelData} (htlcs : List UpdateAddHtlc) (hashes : List Hash)
    (hop : K.op.recovers peer) (hs : deriveStatus d = .active) (hsub : ∀ h ∈ htlcs, h ∈ d.lcss.outgoingHtlcs)
    (hd : Extended w peer d) :
    K.Does B (recoverOutgoingFrom K.host peer d htlcs hashes) w fun _ _ => True := by
  induction htlcs generalizing w hashes with
  | nil =>
    unfold recoverOutgoingFrom
    split
    · exact Does.pure trivial
    · exact (Silent.sendMessage peer _ rfl).does.post fun _ _ _ => trivial
  | cons htlc htlcs ih =>
    have hsub' : ∀ h ∈ htlcs, h ∈ d.lcss.outgoingHtlcs := fun h hh => hsub h (List.mem_cons_of_mem _ hh)
    unfold recoverOutgoingFrom
    split
    · exact ih hashes hsub' hd
    rename_i hres
    refine Does.bind does_hostedSettlementIsSafe ?_
    intro safe _ hpost
    obtain ⟨rfl, hsafe, hlate⟩ := hpost
    split
    · rename_i hsafe'
      refine Does.bind does_lookupPreimage ?_
      intro r _ hpost
      obtain ⟨rfl, hknown⟩ := hpost
      refine Does.bind does_liftNode ?_
      intro found _ hpost
      obtain ⟨rfl, rfl⟩ := hpost
      rcases found with - | preimage
      · exact ih _ hsub' hd
      · refine Does.bind (does_extended (does_resolveForwardFulfill ?_) hd) fun _ _ hd => ih hashes hsub' hd
        intro l hl hnormal
        obtain ⟨extra, -, hrec⟩ := hd
        exact Answers.settled hop.settles hrec (hsub htlc (by simp)) hl rfl (hsafe hsafe' l hl hnormal)
          (Or.inr (hknown preimage rfl))
    · rename_i hsafe'
      exact does_markErrored_outlived (Serves.wrote _) hd hop hs (hsub htlc (by simp)) (by simpa using hres)
        (hlate (by simpa using hsafe'))

omit [Steady B] in
theorem does_inspectOutgoingPayment {hash : Hash} :
    K.Does B (ask (.inspectOutgoingPayment hash k)) w fun r w' => w' = w ∧
      ∀ preimage, r = .ok (.succeeded preimage) → Reported K w k preimage := by
  refine Does.ask fun x hx => ?_
  by_cases hf : x.fails = true
  · simp only [exec, hf, if_true, rpcError]
    exact ⟨Trace.refl, trivial, fun _ h => by cases h⟩
  · simp only [exec, hf, if_false, Bool.false_eq_true]
    exact ⟨Trace.refl, trivial, fun _ h => Or.inr ⟨x, hash, hx.2, by simpa using hf, Except.ok.inj h⟩⟩

omit [Steady B] in
theorem does_recoverIncomingHtlc [Serves peer B] {d : ChannelData} {htlc : UpdateAddHtlc}
    (hp : K.Comes (K.host.scid peer)) (hof : ∀ q, K.op.peer = some q → q = peer) :
    K.Does (fun act => Act.spares peer act ∧ B act) (recoverIncomingHtlc K.host peer d htlc) w fun _ _ => True := by
  unfold recoverIncomingHtlc
  split
  · exact Does.pure trivial
  refine Does.bind does_forwardLinkForIncoming ?_
  intro found _ hpost
  obtain ⟨rfl, -⟩ := hpost
  rcases found with - | l
  · exact does_dispatchCommittedIncomingHtlc hp hof (fun q hq h _ => ⟨hq, Serves.added peer q h⟩) fun q hq e =>
      ⟨hq, Serves.errored peer q e⟩
  refine Does.bind (Reading.peerForHostedScid K.host _).does ?_
  intro target _ hpost
  subst hpost
  split
  · exact Does.pure trivial
  refine Does.bind does_inspectOutgoingPayment ?_
  intro r w hpost
  obtain ⟨rfl, hreport⟩ := hpost
  refine Does.bind does_liftNode ?_
  intro status _ hpost
  obtain ⟨rfl, rfl⟩ := hpost
  cases status with
  | succeeded preimage =>
    refine does_handleOutgoingPaymentResult ?_
    rintro _ ⟨⟩
    exact hreport preimage rfl
  | failed onion => exact does_handleOutgoingPaymentResult fun _ h => by cases h
  | pending => exact Does.pure trivial
  | unknown => exact does_dispatchCommittedIncomingHtlc hp hof (fun q hq h _ => ⟨hq, Serves.added peer q h⟩) fun q hq e =>
      ⟨hq, Serves.errored peer q e⟩

omit [Steady B] in
theorem does_recoverChannelHtlcs [Serves peer B] {queryOutgoing : Bool} (hp : K.Comes (K.host.scid peer))
    (hof : ∀ q, K.op.peer = some q → q = peer) (hop : queryOutgoing = true → K.op.recovers peer) :
    K.Does B (recoverChannelHtlcs K.host peer queryOutgoing) w fun _ _ => True := by
  refine Does.bind does_loadChannel ?_
  intro found w₀ hpost
  obtain ⟨rfl, hd⟩ := hpost
  rcases found with - | d
  · exact Does.pure trivial
  dsimp only
  split
  · exact Does.pure trivial
  rename_i hs
  have h₀ : Extended w₀ peer d := ⟨[], by simp, by simpa using hd.symm⟩
  refine Does.bind (Does.forEach (fun htlc _ w hw => does_extended (does_recoverIncomingHtlc hp hof) hw) h₀) ?_
  intro _ w₁ h₁
  split
  · rename_i hq
    exact does_recoverOutgoingFrom _ _ (hop hq) (by simpa using hs) (fun _ hh => hh) h₁
  · exact Does.pure trivial

omit [Steady B] in
theorem does_logged {α : Type} {x : Ctl α} {P : α → World → Prop} (h : K.Does B x w P) :
    K.Does B (logged x) w fun _ _ => True :=
  Does.bind (Does.attempt h) fun _ _ _ => Does.pure trivial

theorem does_recoverCommittedHtlcs (hop : K.op = .recoverCommittedHtlcs) :
    K.Does Act.all (recoverCommittedHtlcs K.host) K.start fun _ _ => True := by
  refine Does.bind does_listChannels ?_
  intro peers _ hpost
  obtain ⟨rfl, rfl⟩ := hpost
  refine Does.forEach (J := fun _ => True) (fun peer hp _ _ => ?_) trivial
  refine does_logged (does_recoverChannelHtlcs (Or.inr ⟨peer, World.mem_peers.mp hp, rfl⟩) ?_ fun h => by cases h)
  rw [hop]
  exact fun _ h => by cases h

end Recovery

end Canopus
