import Canopus.Lib.Rely
import Canopus.Theorems.Records

/-! What the programs of the controller rely on and guarantee, one call at a time. A program computes each record that
    it writes, and each state that it signs, from a record that it has read. So a condition on records that every
    change keeps is guaranteed by every program that may rely on it when it reads, however old what it has read is
    when it writes. -/

namespace Canopus
open Effect Fallible

/-- The preimages that a message gives away. -/
def HostedMessage.preimages : HostedMessage → List (ByteVec 32)
  | .updateFulfillHtlc m => [m.paymentPreimage]
  | .replyPreimages preimages => preimages
  | _ => []

def HtlcResolution.preimages : HtlcResolution → List (ByteVec 32)
  | .resolve preimage => [preimage]
  | _ => []

/-- What is to hold of every record, of every state that the host signs, of the initial balance and the capacity that
    the terms for a new channel grant, and of every preimage that the host gives away. -/
structure Pledge where
  record : PublicKey → ChannelData → Prop
  state : PublicKey → LastCrossSignedState → Prop
  terms : UInt64 → UInt64 → Prop
  preimage : ByteVec 32 → Prop

variable {H : Host} {B : Pledge} {α β : Type} {p q : PublicKey} {d d' : ChannelData}

/-- What is read, what is written and what is given away is as pledged, and so is a preimage that the node has
    stored. -/
def bookkeeping (B : Pledge) : Contract iface where
  rely
    | .get .channels p, r => ∀ d g, r = .ok (d, g) → B.record p d
    | .get .secrets _, r => ∀ s g, r = .ok (s, g) → B.terms s.initialBalanceMsat s.capacityMsat
    | .get .policy _, r => ∀ policy g, r = .ok (policy, g) →
      B.terms policy.initialClientBalanceMsat policy.channelCapacityMsat
    | .storePreimage _ preimage, r => r = .ok () → B.preimage preimage
    | .lookupPreimage _, r => ∀ preimage, r = .ok (some preimage) → B.preimage preimage
    | _, _ => True
  guar
    | .create .channels p d | .update .channels p d _ => B.record p d
    | .create .secrets _ s | .update .secrets _ s _ => B.terms s.initialBalanceMsat s.capacityMsat
    | .create .policy _ policy | .update .policy _ policy _ =>
      B.terms policy.initialClientBalanceMsat policy.channelCapacityMsat
    | .noteSigned p s => B.state p s
    | .sendCustomMsg _ _ msg => ∀ preimage ∈ msg.preimages, B.preimage preimage
    | .resolveHtlc _ resolution => ∀ preimage ∈ resolution.preimages, B.preimage preimage
    | _ => True

/-- What a change brings into a record: a state that looks like one the host has signed, or a preimage. -/
def Change.brings (B : Pledge) : Change → Prop
  | .adopted m => ∃ q s, B.state q s ∧ SignedAlike m.reverse s
  | .resolved (.fulfill _ _ preimage) => B.preimage preimage
  | _ => True

/-- A pledge that a new channel meets, that every change of a record keeps, and that carries over from the record to
    what is signed and to what is told again. -/
structure Lasting (H : Host) (B : Pledge) : Prop where
  config : B.terms H.config.policy.initialClientBalanceMsat H.config.policy.channelCapacityMsat
  /-- The operator's policy is checked for this. -/
  fair : ∀ initial capacity, initial ≤ capacity → B.terms initial capacity
  created : ∀ p policy refund, B.terms policy.initialClientBalanceMsat policy.channelCapacityMsat →
    B.record p (initialData policy refund)
  changes : ∀ p c d d', B.record p d → Changes H p c d d' → c.brings B → B.record p d'
  signs : ∀ w p d s, B.record p d → w.channel p = some d → Signs H w p s → B.state p s
  replays : ∀ p d u, B.record p d → .ofLocal u ∈ d.uncommitted →
    ∀ preimage ∈ (replayMessage H p u).preimages, B.preimage preimage

abbrev Abides (B : Pledge) (x : Ctl α) (Q : α → Prop) : Prop := Heeds (bookkeeping B) x Q

abbrev Orderly (B : Pledge) (x : Ctl α) : Prop := Abides B x fun _ => True

/-- The calls that the contract asks nothing of. -/
def Call.minor : Call → Bool
  | .create .channels _ _ | .update .channels _ _ _ | .create .secrets _ _ | .update .secrets _ _ _
  | .create .policy _ _ | .update .policy _ _ _ | .noteSigned _ _ | .sendCustomMsg _ _ _ | .resolveHtlc _ _ => false
  | _ => true

theorem orderly_ask {c : Call} (h : c.minor = true) : Orderly B (ask c) := by
  refine (Heeds.ask ?_).post fun _ _ => trivial
  cases c with
  | create n => cases n <;> trivial
  | update n => cases n <;> trivial
  | noteSigned | sendCustomMsg | resolveHtlc => cases h
  | _ => trivial

theorem orderly_pure (a : α) : Orderly B (pure a) := Heeds.pure trivial

theorem orderly_throw (e : ChannelError) : Orderly B (throw e : Ctl α) := Heeds.throw

theorem orderly_bind {x : Ctl β} {f : β → Ctl α} (hx : Orderly B x) (hf : ∀ b, Orderly B (f b)) :
    Orderly B (x >>= f) :=
  hx.bind fun b _ => hf b

theorem orderly_logged {x : Ctl α} (hx : Orderly B x) : Orderly B (logged x) :=
  orderly_bind hx.attempt.plain fun _ => orderly_pure _

/-! ### Reading and writing -/

theorem abides_liftState (r : Except StateError α) : Abides B (liftState r) fun a => r = .ok a := by
  cases r
  · exact Heeds.throw
  · exact Heeds.pure rfl

theorem abides_liftStore (r : Except StoreError α) : Abides B (liftStore r) fun a => r = .ok a := by
  cases r
  · exact Heeds.throw
  · exact Heeds.pure rfl

theorem abides_liftEncode (r : EncodeResult α) : Abides B (liftEncode r) fun a => r = .ok a := by
  cases r
  · exact Heeds.throw
  · exact Heeds.pure rfl

theorem abides_okOr (e : ChannelError) (r : Option α) : Abides B (okOr e r) fun a => r = some a := by
  cases r
  · exact Heeds.throw
  · exact Heeds.pure rfl

theorem abides_liftNode (r : Except NodeError α) : Abides B (liftNode r) fun a => r = .ok a := by
  cases r
  · exact Heeds.throw
  · exact Heeds.pure rfl

theorem orderly_liftNode (r : Except NodeError α) : Orderly B (liftNode r) := (abides_liftNode r).plain

theorem abides_loadChannel : Abides B (loadChannel p) fun r => ∀ d, r = some d → B.record p d := by
  refine Heeds.bind (Heeds.ask trivial) fun r hr => ?_
  rcases r with e | ⟨d, g⟩
  · cases e with
    | notFound => exact Heeds.pure fun d h => by cases h
    | _ => exact Heeds.throw
  · refine Heeds.pure fun d' h => ?_
    obtain rfl := Option.some.inj h
    exact hr d g rfl

theorem abides_loadExisting : Abides B (loadExisting p) fun d => B.record p d :=
  abides_loadChannel.bind fun _ hr => (abides_okOr _ _).post fun d h => hr d h

theorem orderly_saveChannel (h : B.record p d) : Orderly B (saveChannel p d none) := by
  unfold saveChannel
  refine Heeds.bind (Heeds.ask h) fun r _ => ?_
  split
  · exact orderly_pure _
  · refine orderly_bind (orderly_ask rfl) fun _ => orderly_bind (abides_liftStore _).plain fun _ => ?_
    exact Heeds.bind (Heeds.ask h) fun _ _ => (abides_liftStore _).plain
  · exact Heeds.throw

theorem orderly_listChannels : Orderly B listChannels :=
  orderly_bind (orderly_ask rfl) fun _ => (abides_liftStore _).plain

theorem orderly_getBlockHeight : Orderly B getBlockHeight :=
  orderly_bind (orderly_ask rfl) fun _ => orderly_liftNode _

theorem orderly_currentBlockDay : Orderly B currentBlockDay :=
  orderly_bind orderly_getBlockHeight fun _ => orderly_pure _

theorem abides_effectivePolicy (hL : Lasting H B) : Abides B (effectivePolicy H) fun policy =>
    B.terms policy.initialClientBalanceMsat policy.channelCapacityMsat := by
  refine Heeds.bind (Heeds.ask trivial) fun r hr => ?_
  rcases r with e | ⟨policy, g⟩
  · cases e with
    | notFound => exact Heeds.pure hL.config
    | _ => exact Heeds.throw
  · exact Heeds.pure (hr policy g rfl)

theorem orderly_routingPolicyForData (hL : Lasting H B) : Orderly B (routingPolicyForData H d) := by
  unfold routingPolicyForData
  split
  · exact orderly_pure _
  · exact orderly_bind (abides_effectivePolicy hL).plain fun _ => orderly_pure _

theorem orderly_recordInner (t : LedgerEventType) (amount fee : UInt64) (h : Option Hash) (id : Option EventId) :
    Orderly B (recordInner p t amount fee h id) := by
  have hmeta : Orderly B loadMeta := by
    refine orderly_bind (orderly_ask rfl) fun r => ?_
    rcases r with e | r
    · cases e with
      | notFound =>
        exact orderly_bind (orderly_ask rfl) fun _ => orderly_bind (abides_liftStore _).plain fun _ => orderly_pure _
      | _ => exact Heeds.throw
    · exact orderly_pure _
  refine orderly_bind hmeta fun ⟨_, g⟩ => orderly_bind (orderly_ask rfl) fun _ => ?_
  refine orderly_bind (abides_liftStore _).plain fun _ => orderly_bind (orderly_ask rfl) fun _ => ?_
  exact orderly_bind (orderly_ask rfl) fun _ => (abides_liftStore _).plain

theorem orderly_recordLedgerOnce (lcss : LastCrossSignedState) (tag : EventTag) (t : LedgerEventType) (amount : UInt64)
    (h : Option Hash) : Orderly B (recordLedgerOnce p lcss tag t amount h) := by
  unfold recordLedgerOnce recordOnce
  refine orderly_bind (orderly_ask rfl) fun _ => orderly_bind (abides_liftStore _).plain fun known => ?_
  split
  · exact orderly_pure _
  · refine orderly_bind (orderly_recordInner _ _ _ _ _) fun _ => orderly_bind (orderly_ask rfl) fun r => ?_
    rcases r with e | u
    · cases e with
      | alreadyExists => exact orderly_pure _
      | _ => exact Heeds.throw
    · exact orderly_pure _

theorem orderly_recordResolution (new : LastCrossSignedState) (htlcs : List UpdateAddHtlc) (id : UInt64) (tag : EventTag)
    (t : LedgerEventType) : Orderly B (recordResolution p new htlcs id tag t) := by
  unfold recordResolution
  split
  · exact orderly_recordLedgerOnce _ _ _ _ _
  · exact orderly_pure _

theorem orderly_recordCommittedUpdateEvents (us : List UncommittedUpdate) (old new : LastCrossSignedState) :
    Orderly B (recordCommittedUpdateEvents p us old new) := by
  refine Heeds.forEach fun u _ => ?_
  split
  · exact orderly_recordLedgerOnce _ _ _ _ _
  · exact orderly_recordLedgerOnce _ _ _ _ _
  · exact orderly_recordResolution _ _ _ _ _
  · exact orderly_recordResolution _ _ _ _ _
  · exact orderly_recordResolution _ _ _ _ _
  · exact orderly_recordResolution _ _ _ _ _
  · exact orderly_recordResolution _ _ _ _ _
  · exact orderly_recordResolution _ _ _ _ _

theorem orderly_sendMessage {msg : HostedMessage} (h : ∀ preimage ∈ msg.preimages, B.preimage preimage) :
    Orderly B (sendMessage p msg) := by
  refine orderly_bind (orderly_ask rfl) fun _ => orderly_bind (abides_liftEncode _).plain fun _ => ?_
  exact Heeds.bind (Heeds.ask h) fun _ _ => orderly_liftNode _

/-- A message that gives no preimage away. -/
theorem orderly_tell {msg : HostedMessage} (h : msg.preimages = []) : Orderly B (sendMessage p msg) := by
  refine orderly_sendMessage fun preimage hmem => ?_
  rw [h] at hmem
  cases hmem

/-! ### Changing a record -/

section Changing
variable (hL : Lasting H B)
include hL

/-- A record with a change may be saved. -/
theorem Lasting.keeps (hd : B.record p d) {c : Change} (hc : Changes H p c d d') (hb : c.brings B) : B.record p d' :=
  hL.changes p c d d' hd hc hb

theorem Lasting.errored (hd : B.record p d) (e : LocalError) : B.record p { d with localErrors := d.localErrors ++ [e] } :=
  hL.keeps hd (Changes.errored [] (by simp) (by simp) (Or.inl rfl)) trivial

theorem orderly_markErrored (hd : B.record p d) (e : LocalError) : Orderly B (markErrored p d e) :=
  orderly_saveChannel (hL.errored hd e)

theorem abides_repair (hd : B.record p d) : Abides B (repairDuplicateUncommittedResolutions p d) fun d' =>
    B.record p d' ∧ deriveStatus d' = deriveStatus d := by
  unfold repairDuplicateUncommittedResolutions
  have hd' := hL.keeps hd Changes.deduplicated trivial
  dsimp only
  split
  · exact (orderly_saveChannel hd').bind fun _ _ => Heeds.pure ⟨hd', rfl⟩
  · exact Heeds.pure ⟨hd, rfl⟩

omit hL in
/-- A world in which the channel of `p` is as `d` says. -/
theorem channel_holding : (World.empty.put .channels p d).channel p = some d := World.channel_put

theorem abides_signFor {s : LastCrossSignedState} (hd : B.record p d)
    (hs : ∀ t, s.sign H.crypto H.nodeSecret = .ok t → Signs H (World.empty.put .channels p d) p t) :
    Abides B (signFor H p s) fun t => s.sign H.crypto H.nodeSecret = .ok t := by
  unfold signFor
  refine (abides_liftEncode _).bind fun t ht => ?_
  exact Heeds.bind (Heeds.ask (hL.signs _ p d t hd channel_holding (hs t ht))) fun _ _ => Heeds.pure ht

/-- The host signs the state that the updates of the record lead to, and updates of its own. -/
theorem abides_signNext (us : List UncommittedUpdate) (hd : B.record p d)
    (hu : us = [] ∨ deriveStatus d = .active ∨ d.lcss.incomingHtlcs ≠ []) (ho : ∀ u ∈ us, u.isLocal = true) :
    Abides B (signNext H p ⟨d.lcss, d.uncommitted ++ us⟩) fun _ =>
      ∃ next, StateManager.lcssNext H.crypto ⟨d.lcss, d.uncommitted ++ us⟩ = .ok next := by
  unfold signNext
  refine (abides_liftState _).bind fun next hn => orderly_currentBlockDay.bind fun day _ => ?_
  refine (abides_signFor hL hd fun t ht => ?_).post fun _ _ => ⟨next, hn⟩
  exact Signs.next us channel_holding hu hn ht ho

theorem orderly_signNext (hd : B.record p d) : Orderly B (signNext H p ⟨d.lcss, d.uncommitted⟩) := by
  have h := abides_signNext hL [] hd (Or.inl rfl) (by simp)
  rw [List.append_nil] at h
  exact h.plain

theorem orderly_sendChannelUpdate : Orderly B (sendChannelUpdate H p) := by
  refine abides_loadExisting.bind fun d _ => orderly_bind (orderly_ask rfl) fun _ => ?_
  exact orderly_bind (orderly_routingPolicyForData hL) fun _ => orderly_tell rfl

theorem orderly_sendPendingChannelUpdate : Orderly B (sendPendingChannelUpdate H p) := by
  unfold sendPendingChannelUpdate
  refine abides_loadExisting.bind fun d _ => ?_
  split
  · exact orderly_pure _
  · refine orderly_bind (orderly_sendChannelUpdate hL) fun _ => abides_loadExisting.bind fun d' hd' => ?_
    exact orderly_saveChannel (hL.keeps hd' Changes.updateSent trivial)

end Changing

/-! ### Resolving -/

theorem orderly_peerForHostedScid (scid : UInt64) : Orderly B (peerForHostedScid H scid) :=
  orderly_bind orderly_listChannels fun _ => orderly_pure _

theorem orderly_firstLinkAmong (scid id : UInt64) (keys : List HtlcKey) : Orderly B (firstLinkAmong scid id keys) := by
  induction keys with
  | nil => exact orderly_pure _
  | cons key keys ih =>
    refine orderly_bind (orderly_ask rfl) fun r => ?_
    rcases r with e | ⟨l, g⟩
    · cases e with
      | notFound => exact ih
      | _ => exact Heeds.throw
    · dsimp only
      split
      · exact orderly_pure _
      · exact ih

theorem orderly_forwardLinkForIncoming (scid id : UInt64) : Orderly B (forwardLinkForIncoming scid id) := by
  have hunder : ∀ scids, Orderly B (firstLinkUnder scid id scids) := by
    intro scids
    induction scids with
    | nil => exact orderly_pure _
    | cons s scids ih =>
      refine orderly_bind (orderly_ask rfl) fun _ => orderly_bind (abides_liftStore _).plain fun keys => ?_
      refine orderly_bind (orderly_firstLinkAmong _ _ keys) fun r => ?_
      rcases r with - | l
      · exact ih
      · exact orderly_pure _
  exact orderly_bind (orderly_ask rfl) fun _ => orderly_bind (abides_liftStore _).plain fun _ => hunder _

theorem orderly_resolveUpstream {key : HtlcKey} {r : HtlcResolution} (h : ∀ preimage ∈ r.preimages, B.preimage preimage) :
    Orderly B (resolveUpstream key r) :=
  Heeds.bind (Heeds.ask h) fun _ _ => orderly_liftNode _

/-- An answer that gives no preimage away. -/
theorem orderly_refuseUpstream {key : HtlcKey} {r : HtlcResolution} (h : r.preimages = []) :
    Orderly B (resolveUpstream key r) := by
  refine orderly_resolveUpstream fun preimage hmem => ?_
  rw [h] at hmem
  cases hmem

theorem orderly_dropForwardLink (key : HtlcKey) : Orderly B (dropForwardLink key) :=
  orderly_bind (orderly_ask rfl) fun _ => orderly_pure _

theorem orderly_withForwardLink (key : HtlcKey) {f : ForwardLink → Ctl Unit} (hf : ∀ l, Orderly B (f l)) :
    Orderly B (withForwardLink key f) := by
  refine orderly_bind (orderly_ask rfl) fun r => ?_
  rcases r with e | ⟨l, g⟩
  · cases e with
    | notFound => exact orderly_pure _
    | _ => exact Heeds.throw
  · exact hf l

theorem orderly_answerIncoming (l : ForwardLink) {toPeer : PublicKey → Ctl Unit} {r : HtlcResolution}
    (hr : ∀ preimage ∈ r.preimages, B.preimage preimage) (hp : ∀ q, Orderly B (toPeer q)) :
    Orderly B (answerIncoming H l toPeer r) := by
  refine orderly_bind (orderly_peerForHostedScid _) fun found => ?_
  rcases found with - | q
  · exact orderly_resolveUpstream hr
  · exact hp q

theorem orderly_createForwardLink (key : HtlcKey) (l : ForwardLink) : Orderly B (createForwardLink key l) := by
  refine orderly_bind (orderly_ask rfl) fun r => ?_
  split
  · exact orderly_pure _
  · exact orderly_pure _
  · exact Heeds.throw

theorem orderly_heightOrZero : Orderly B heightOrZero := by
  refine orderly_bind (orderly_ask rfl) fun r => ?_
  split
  · exact orderly_pure _
  · exact orderly_pure _

section Forward
variable (hL : Lasting H B)
include hL

theorem orderly_sendLocalResolution {id : UInt64} {u : PendingUpdate} {msg : HostedMessage}
    (hk : resolutionKey (.ofLocal u) = some (true, id)) (hb : (Change.resolved u).brings B)
    (hm : ∀ preimage ∈ msg.preimages, B.preimage preimage) : Orderly B (sendLocalResolution H p id u msg) := by
  unfold sendLocalResolution
  refine abides_loadExisting.bind fun d hd => ?_
  split
  · exact orderly_pure _
  · rename_i hi
    have hi : d.lcss.incomingHtlcs.any (·.id == id) = true := by simpa using hi
    have hsign := abides_signNext hL [.ofLocal u] hd (Or.inr (Or.inr (ne_nil_of_any hi)))
      (by simp [UncommittedUpdate.isLocal])
    unfold stateUpdateForUncommitted
    refine Heeds.bind (P := fun _ => ∃ next, (d.push (.ofLocal u)).next H = .ok next)
      (hsign.bind fun _ hn => Heeds.pure hn) fun _ hn => ?_
    obtain ⟨next, hn⟩ := hn
    have hd' := hL.keeps hd (Changes.resolved hi hk hn) hb
    refine orderly_bind (orderly_saveChannel hd') fun _ => ?_
    exact orderly_bind (orderly_sendMessage hm) fun _ => orderly_tell rfl

theorem orderly_sendLocalFulfill (l : ForwardLink) {preimage : ByteVec 32} (h : B.preimage preimage) :
    Orderly B (sendLocalFulfill H p l preimage) :=
  orderly_sendLocalResolution hL rfl h (List.forall_mem_singleton.mpr h)

theorem orderly_sendLocalFailForHtlc (id : UInt64) (reason : Bytes) : Orderly B (sendLocalFailForHtlc H p id reason) :=
  orderly_sendLocalResolution hL rfl trivial (fun _ h => by cases h)

theorem orderly_resolveForwardFulfill (scid id : UInt64) {preimage : ByteVec 32} (h : B.preimage preimage) :
    Orderly B (resolveForwardFulfill H scid id preimage) := by
  refine orderly_withForwardLink _ fun l => orderly_bind ?_ fun _ => orderly_dropForwardLink _
  exact orderly_answerIncoming l (List.forall_mem_singleton.mpr h) fun _ => orderly_sendLocalFulfill hL l h

theorem orderly_resolveForwardFail (scid id : UInt64) (failure : Bytes) :
    Orderly B (resolveForwardFail H scid id failure) := by
  refine orderly_withForwardLink _ fun l => orderly_bind ?_ fun _ => orderly_dropForwardLink _
  exact orderly_answerIncoming l (fun _ h => by cases h) fun _ => orderly_sendLocalFailForHtlc hL _ _

theorem orderly_handleOutgoingPaymentResult (scid id : UInt64) (status : PaymentStatus) :
    Orderly B (handleOutgoingPaymentResult H scid id status) := by
  refine orderly_withForwardLink _ fun l => orderly_bind (orderly_peerForHostedScid _) fun found => ?_
  rcases found with - | q
  · exact orderly_pure _
  · cases status with
    | succeeded preimage =>
      refine Heeds.bind (Heeds.ask trivial) fun r hr => (abides_liftNode r).bind fun _ hok => ?_
      exact orderly_bind (orderly_sendLocalFulfill hL l (hr hok)) fun _ => orderly_dropForwardLink _
    | failed onion => exact orderly_bind (orderly_sendLocalFailForHtlc hL _ _) fun _ => orderly_dropForwardLink _
    | pending => exact orderly_pure _
    | unknown => exact orderly_pure _

/-! ### Offering and dispatching -/

theorem orderly_deliver (hd : B.record p d) {msg : HostedMessage} (hm : msg.preimages = []) :
    Orderly B (deliver p d msg) := by
  refine orderly_bind (orderly_tell hm).attempt.plain fun r => ?_
  rcases r with e | u
  · exact orderly_bind (orderly_markErrored hL hd _) fun _ => Heeds.throw
  · exact orderly_pure _

theorem orderly_offerHtlc {htlc : UpdateAddHtlc} {next : LastCrossSignedState} {scid id : UInt64}
    {secret : Option (ByteVec 32)} {expiry : Option UInt32} (hd : B.record p d) (hs : deriveStatus d = .active)
    (hn : d.next H = .ok next) (ha : htlc.amountMsat ≤ next.localBalanceMsat) :
    Orderly B (offerHtlc H p d htlc scid id secret expiry) := by
  have hd' : B.record p (d.push (.ofLocal (.add { htlc with channelId := H.channelId p, id := nextHtlcId d }))) :=
    hL.keeps hd (Changes.added hs hn ha rfl) trivial
  unfold offerHtlc hostedCommitDeadline
  dsimp only
  refine orderly_bind (orderly_bind (orderly_ask rfl) fun _ => orderly_bind (abides_okOr _ _).plain fun _ =>
    (abides_okOr _ _).plain) fun deadline => ?_
  refine orderly_bind (orderly_createForwardLink _ _) fun _ => orderly_bind (orderly_saveChannel hd') fun _ => ?_
  refine orderly_bind (orderly_deliver hL hd' rfl) fun _ => orderly_bind (orderly_signNext hL hd') fun _ => ?_
  exact orderly_deliver hL hd' rfl

theorem orderly_checkAndOffer {htlc : UpdateAddHtlc} {key : HtlcKey} {scid id : UInt64} {secret : Option (ByteVec 32)}
    {expiry : Option UInt32} (hd : B.record p d) (hs : deriveStatus d = .active) :
    Orderly B (checkAndOffer H p d htlc key scid id secret expiry) := by
  have hclose : ∀ normal upstream cltv delta, Orderly B (cltvTooClose normal upstream cltv delta) := by
    intro normal upstream cltv delta
    unfold cltvTooClose
    split
    · split
      · exact orderly_bind (abides_okOr _ _).plain fun _ => orderly_pure _
      · exact orderly_pure _
    · exact orderly_pure _
  unfold checkAndOffer
  refine orderly_bind (orderly_routingPolicyForData hL) fun r => orderly_bind (orderly_peerForHostedScid _) fun source => ?_
  refine orderly_bind (hclose _ _ _ _) fun close => ?_
  split
  · exact orderly_refuseUpstream rfl
  split
  · exact orderly_refuseUpstream rfl
  split
  · exact orderly_refuseUpstream rfl
  refine (abides_liftState _).bind fun next hn => ?_
  split
  · exact orderly_refuseUpstream rfl
  · rename_i hroom
    exact orderly_offerHtlc hL hd hs hn (le_of_hasNoRoom hroom)

theorem orderly_channelHandleHtlcAdd (htlc : UpdateAddHtlc) (key : HtlcKey) (scid id : UInt64)
    (secret : Option (ByteVec 32)) (expiry : Option UInt32) :
    Orderly B (channelHandleHtlcAddWithUpstreamExpiry H p htlc key scid id secret expiry) := by
  unfold channelHandleHtlcAddWithUpstreamExpiry
  refine abides_loadExisting.bind fun d hd => ?_
  split
  · exact Heeds.throw
  rename_i hs
  refine orderly_bind (orderly_ask rfl) fun connected => ?_
  split
  · exact orderly_refuseUpstream rfl
  refine Heeds.bind (Heeds.ask trivial) fun known hknown => ?_
  split
  · exact orderly_resolveUpstream (List.forall_mem_singleton.mpr (hknown _ rfl))
  · exact orderly_checkAndOffer hL hd (by simpa using hs)

theorem orderly_sendDirectPayment (amount : UInt64) (hash : Hash) (cltv : UInt32) (secret : Option (ByteVec 32)) :
    Orderly B (sendDirectPayment H p amount hash cltv secret) := by
  unfold sendDirectPayment
  refine abides_loadExisting.bind fun d hd => ?_
  split
  · exact Heeds.throw
  rename_i hs
  have hs : deriveStatus d = .active := by simpa using hs
  refine (abides_liftState _).bind fun next hn => ?_
  split
  · exact Heeds.throw
  rename_i ha
  refine orderly_bind (orderly_ask rfl) fun sessionKey => ?_
  refine orderly_bind (x := liftSphinx _) ?_ fun onion => ?_
  · unfold liftSphinx
    split
    · exact orderly_pure _
    · exact Heeds.throw
  have hadded := @Changes.added H p d ⟨H.channelId p, nextHtlcId d, amount, hash, cltv, onion, []⟩ _ hs hn
    (UInt64.not_lt.mp ha) rfl
  have hd' := hL.keeps hd hadded trivial
  have hsign := abides_signNext hL [.ofLocal (.add ⟨H.channelId p, nextHtlcId d, amount, hash, cltv, onion, []⟩)] hd
    (Or.inr (Or.inl hs)) (by simp [UncommittedUpdate.isLocal])
  dsimp only
  unfold stateUpdateForUncommitted
  refine orderly_bind (hsign.bind fun _ _ => orderly_pure _) fun _ => orderly_bind (orderly_saveChannel hd') fun _ => ?_
  exact orderly_bind (orderly_tell rfl) fun _ => orderly_bind (orderly_tell rfl) fun _ => orderly_pure _

theorem orderly_undoHostedForward (htlc : UpdateAddHtlc) : Orderly B (undoHostedForward H p htlc) := by
  refine orderly_bind (orderly_sendLocalFailForHtlc hL _ _) fun _ => ?_
  refine orderly_bind (orderly_forwardLinkForIncoming _ _) fun r => ?_
  rcases r with - | l
  · exact orderly_pure _
  · exact orderly_bind (orderly_ask rfl) fun _ => (abides_liftStore _).plain

theorem orderly_forwardToHosted (htlc : UpdateAddHtlc) (peeled : PeeledOnion) :
    Orderly B (forwardToHosted H p q htlc peeled) := by
  unfold forwardToHosted
  split
  · exact Heeds.throw
  refine abides_loadExisting.bind fun d _ => orderly_bind (orderly_routingPolicyForData hL) fun _ => ?_
  refine orderly_bind orderly_heightOrZero fun height => ?_
  split
  · exact orderly_sendLocalFailForHtlc hL _ _
  refine orderly_bind (orderly_channelHandleHtlcAdd hL _ _ _ _ _ _).attempt.plain fun r => ?_
  rcases r with e | u
  · exact orderly_undoHostedForward hL htlc
  · exact orderly_pure _

theorem orderly_forwardToNode (htlc : UpdateAddHtlc) (peeled : PeeledOnion) :
    Orderly B (forwardToNode H p htlc peeled) := by
  refine orderly_bind (orderly_createForwardLink _ _) fun _ => orderly_bind orderly_heightOrZero fun height => ?_
  refine orderly_bind (orderly_ask rfl) fun r => ?_
  rcases r with e | u
  · exact orderly_bind (orderly_sendLocalFailForHtlc hL _ _) fun _ => orderly_dropForwardLink _
  · exact orderly_pure _

theorem orderly_dispatchCommittedIncomingHtlc (committed : ChannelData) (htlc : UpdateAddHtlc) :
    Orderly B (dispatchCommittedIncomingHtlc H p committed htlc) := by
  unfold dispatchCommittedIncomingHtlc
  split
  · exact orderly_sendLocalFailForHtlc hL _ _
  split
  · exact orderly_sendLocalResolution hL rfl trivial fun _ h => by cases h
  split
  · exact orderly_sendLocalFailForHtlc hL _ _
  refine orderly_bind (orderly_peerForHostedScid _) fun target => ?_
  rcases target with - | q
  · exact orderly_forwardToNode hL _ _
  · exact orderly_forwardToHosted hL _ _

theorem orderly_dispatchCommittedEffects (old committed : ChannelData) (us : List UncommittedUpdate) :
    Orderly B (dispatchCommittedEffects H p old committed us) := by
  refine orderly_bind (Heeds.forEach fun htlc _ => ?_) fun _ => Heeds.forEach fun u _ => ?_
  · split
    · exact orderly_pure _
    · exact orderly_dispatchCommittedIncomingHtlc hL _ _
  · unfold dispatchRemoteFail
    split
    · exact orderly_resolveForwardFail hL _ _ _
    · exact orderly_resolveForwardFail hL _ _ _
    · exact orderly_pure _

/-! ### Recovering -/

theorem orderly_hostedSettlementIsSafe (htlc : UpdateAddHtlc) : Orderly B (hostedSettlementIsSafe H p htlc) := by
  refine orderly_bind (orderly_ask rfl) fun r => ?_
  rcases r with e | ⟨l, g⟩
  · cases e with
    | notFound => exact orderly_pure _
    | _ => exact Heeds.throw
  dsimp only
  refine orderly_bind (orderly_peerForHostedScid _) fun source => ?_
  split
  · exact orderly_pure _
  split
  · exact orderly_pure _
  refine abides_loadExisting.bind fun d _ => orderly_bind (orderly_routingPolicyForData hL) fun _ => ?_
  exact orderly_bind (abides_okOr _ _).plain fun _ => orderly_bind orderly_getBlockHeight fun _ => orderly_pure _

theorem orderly_recoverOutgoingFrom (hd : B.record p d) (htlcs : List UpdateAddHtlc) (hashes : List Hash) :
    Orderly B (recoverOutgoingFrom H p d htlcs hashes) := by
  induction htlcs generalizing hashes with
  | nil =>
    unfold recoverOutgoingFrom
    split
    · exact orderly_pure _
    · exact orderly_tell rfl
  | cons htlc htlcs ih =>
    unfold recoverOutgoingFrom
    split
    · exact ih hashes
    refine orderly_bind (orderly_hostedSettlementIsSafe hL htlc) fun safe => ?_
    split
    · refine Heeds.bind (Heeds.ask trivial) fun r hr => (abides_liftNode r).bind fun known hok => ?_
      split
      · exact orderly_bind (orderly_resolveForwardFulfill hL _ _ (hr _ hok)) fun _ => ih hashes
      · exact ih _
    · exact orderly_markErrored hL hd _

theorem orderly_recoverIncomingHtlc (htlc : UpdateAddHtlc) : Orderly B (recoverIncomingHtlc H p d htlc) := by
  unfold recoverIncomingHtlc
  split
  · exact orderly_pure _
  refine orderly_bind (orderly_forwardLinkForIncoming _ _) fun r => ?_
  rcases r with - | l
  · exact orderly_dispatchCommittedIncomingHtlc hL _ _
  refine orderly_bind (orderly_peerForHostedScid _) fun target => ?_
  split
  · exact orderly_pure _
  refine orderly_bind (orderly_ask rfl) fun _ => orderly_bind (orderly_liftNode _) fun status => ?_
  split
  · exact orderly_handleOutgoingPaymentResult hL _ _ _
  · exact orderly_handleOutgoingPaymentResult hL _ _ _
  · exact orderly_pure _
  · exact orderly_dispatchCommittedIncomingHtlc hL _ _

theorem orderly_recoverChannelHtlcs (queryOutgoing : Bool) : Orderly B (recoverChannelHtlcs H p queryOutgoing) := by
  refine abides_loadChannel.bind fun found hfound => ?_
  rcases found with - | d
  · exact orderly_pure _
  dsimp only
  split
  · exact orderly_pure _
  refine orderly_bind (Heeds.forEach fun htlc _ => orderly_recoverIncomingHtlc hL htlc) fun _ => ?_
  split
  · exact orderly_recoverOutgoingFrom hL (hfound d rfl) _ _
  · exact orderly_pure _

end Forward

end Canopus
