import Canopus.Lib.Calls
import Canopus.Theorems.HandlerSteps
import Canopus.Theorems.Restoration

/-! Persisting before acknowledging. Whatever binds the host, a signature over a state, a proposal, an HTLC
    or a preimage, is handed to the node only when the stored record explains it. Every message is built
    from a copy of the record that the program holds; what has to be shown at each place is that the copy
    is what the store holds at that moment. -/

namespace Canopus
open Effect Fallible

variable {H : Host} {w : World} {peer : PublicKey} {d : ChannelData} {α β : Type}

/-- The states agree, apart from the block day and the signatures. -/
def SameState (s t : LastCrossSignedState) : Prop :=
  t = { s with
    blockDay := t.blockDay, remoteSigOfLocal := t.remoteSigOfLocal, localSigOfRemote := t.localSigOfRemote }

/-- The stored record of `p` explains the message: a `state_update` is that of a state that the host has signed, and
    this is the stored state or the next one; an override is the stored proposal; and an HTLC or a preimage is
    that of a pending update of the host. -/
def ExplainedBy (H : Host) (p : PublicKey) (d : ChannelData) : HostedMessage → Prop
  | .stateUpdate m => ∃ t, m = t.stateUpdate ∧ SignedByHost H t ∧
    (SameState d.lcss t ∨ ∃ next, d.next H = .ok next ∧ SameState next t)
  | .stateOverride m => ∃ s, d.proposedOverride = some s ∧ m = stateOverrideOf s
  | .updateAddHtlc m => ∃ u, .ofLocal u ∈ d.uncommitted ∧ .updateAddHtlc m = replayMessage H p u
  | .updateFulfillHtlc m => ∃ u, .ofLocal u ∈ d.uncommitted ∧ .updateFulfillHtlc m = replayMessage H p u
  | _ => True

/-- The messages that bind the host. -/
def HostedMessage.binds : HostedMessage → Bool
  | .stateUpdate _ | .stateOverride _ | .updateAddHtlc _ | .updateFulfillHtlc _ => true
  | _ => false

/-- A message that binds the host is sent only if the stored record explains it. -/
def Explained (H : Host) (w : World) : Call → Prop
  | .sendCustomMsg p _ msg => msg.binds = true → ∃ d, w.channel p = some d ∧ ExplainedBy H p d msg
  | _ => True

/-- In whatever world it starts, the program sends only what is explained. -/
abbrev Backed (H : Host) (x : Ctl α) : Prop := Always exec (Explained H) x

/-! ### Reading and writing -/

/-- A call sends one message and changes nothing else, or it sends nothing. -/
theorem exec_sends (x : Choice) (c : Call) (w : World) : (exec x c w).2.sent = w.sent ∨
    ∃ p e msg, c = .sendCustomMsg p e msg ∧ (exec x c w).2 = { w with sent := w.sent ++ [(p, msg)] } := by
  by_cases hr : c.reads = true
  · rw [exec_reads x w hr]
    exact Or.inl rfl
  cases c with
  | create n k v =>
    simp only [exec]
    split
    · exact Or.inl rfl
    · split
      · exact Or.inl rfl
      · exact Or.inl rfl
  | update n k v g =>
    simp only [exec]
    split
    · exact Or.inl rfl
    · split
      · split
        · exact Or.inl rfl
        · exact Or.inl rfl
      · exact Or.inl rfl
  | sendCustomMsg p e msg =>
    simp only [exec]
    split
    · exact Or.inl rfl
    · exact Or.inr ⟨p, e, msg, rfl, rfl⟩
  | delete | sendOnion | resolveHtlc | storePreimage =>
    simp only [exec]
    split
    · exact Or.inl rfl
    · exact Or.inl rfl
  | notePeerConnection | noteWireEncoding | forgetWireEncoding | noteSigned => exact Or.inl rfl
  | _ => exact absurd rfl hr

/-- Nothing that was sent is forgotten. -/
theorem exec_sent (x : Choice) (c : Call) (w : World) : w.sent.length ≤ (exec x c w).2.sent.length := by
  rcases exec_sends x c w with h | ⟨p, e, msg, -, h⟩
  · rw [h]
  · rw [h]
    simp

/-- A program that is never seen to send has not started with more messages than it ends with. -/
theorem sent_of_wp {y : Prog iface β} {n : Nat} : ∀ {w : World},
    Prog.wp exec (fun _ _ _ => True) y (fun _ w' => w'.sent.length ≤ n) w → w.sent.length ≤ n := by
  induction y with
  | pure a => exact fun h => h
  | call c k ih => exact fun {w} h => Nat.le_trans (exec_sent .calm c w) (ih _ (h .calm trivial))

theorem makes_of_unsent {y : Prog iface β} {n : Nat} : ∀ {w : World},
    Prog.wp exec (fun _ _ _ => True) y (fun _ w' => w'.sent.length ≤ n) w → n ≤ w.sent.length →
      Prog.makes exec (Explained H) y w := by
  induction y with
  | pure a => exact fun _ _ => trivial
  | call c k ih =>
    intro w h hn
    refine ⟨?_, fun x => ih _ (h x trivial) (Nat.le_trans hn (exec_sent x c w))⟩
    cases c with
    | sendCustomMsg p e msg =>
      -- The message would be seen at the end of a calm run.
      have hlen := sent_of_wp (h .calm trivial)
      simp only [exec, Choice.calm, Bool.false_eq_true, if_false, List.length_append, List.length_singleton] at hlen
      omega
    | _ => trivial

/-- A program that changes nothing sends nothing. -/
theorem Reading.backed {x : Ctl α} (h : Reading x) : Backed H x := by
  intro w
  unfold Reading Stays Wp at h
  unfold Makes
  refine makes_of_unsent (n := w.sent.length) (Prog.wp_mono ?_ (h (fun _ _ _ => True) w)) (Nat.le_refl _)
  intro _ w' hw
  rw [← hw]

/-- The calls that hand a message to the node. -/
def Call.sends : Call → Bool
  | .sendCustomMsg _ _ _ => true
  | _ => false

theorem backed_ask {c : Call} (h : c.sends = false) : Backed H (ask c) := by
  refine Always.ask fun w => ?_
  cases c with
  | sendCustomMsg p e msg => cases h
  | _ => trivial

theorem Backed.logged {x : Ctl α} (h : Backed H x) : Backed H (logged x) := h.attempt.bind fun _ => Always.pure _

theorem Stays.leads {R : World → World → Prop} {x : Ctl α} (h : Stays exec R x) :
    Leads exec (fun _ _ _ => True) x w fun _ w' => R w w' :=
  h.does fun _ _ => trace_any

theorem leads_saveChannel : Leads exec (fun _ _ _ => True) (saveChannel peer d none) w fun _ w' =>
    w' = w.put .channels peer d :=
  does_saveChannel (fun _ _ _ => trace_any) fun _ _ _ _ => trace_any

section Base
variable (H)

theorem Backed.saveChannel (peer : PublicKey) (d : ChannelData) : Backed H (saveChannel peer d none) := by
  unfold Canopus.saveChannel
  refine (backed_ask rfl).bind fun r => ?_
  split
  · exact Always.pure _
  · refine (backed_ask rfl).bind fun _ => (Reading.liftStore _).backed.bind fun _ => ?_
    exact (backed_ask rfl).bind fun _ => (Reading.liftStore _).backed
  · exact Always.throw _

theorem Backed.markErrored (peer : PublicKey) (d : ChannelData) (e : LocalError) : Backed H (markErrored peer d e) :=
  Backed.saveChannel H _ _

theorem Backed.repair (peer : PublicKey) (d : ChannelData) : Backed H (repairDuplicateUncommittedResolutions peer d) := by
  unfold repairDuplicateUncommittedResolutions
  dsimp only
  split
  · exact (Backed.saveChannel H _ _).bind fun _ => Always.pure _
  · exact Always.pure _

theorem Backed.recordInner (peer : PublicKey) (t : LedgerEventType) (amount fee : UInt64) (h : Option Hash)
    (id : Option EventId) : Backed H (recordInner peer t amount fee h id) := by
  have hmeta : Backed H loadMeta := by
    refine reading_getJson.backed.bind fun r => ?_
    rcases r with e | r
    · cases e with
      | notFound =>
        refine (backed_ask rfl).bind fun _ => ?_
        exact (Reading.liftStore _).backed.bind fun _ => Always.pure _
      | _ => exact Always.throw _
    · exact Always.pure _
  refine hmeta.bind fun ⟨_, g⟩ => (backed_ask rfl).bind fun _ => ?_
  refine (Reading.liftStore _).backed.bind fun _ => (backed_ask rfl).bind fun _ => ?_
  exact (backed_ask rfl).bind fun _ => (Reading.liftStore _).backed

theorem Backed.recordLedgerOnce (peer : PublicKey) (lcss : LastCrossSignedState) (tag : EventTag) (t : LedgerEventType)
    (amount : UInt64) (h : Option Hash) : Backed H (recordLedgerOnce peer lcss tag t amount h) := by
  unfold Canopus.recordLedgerOnce Canopus.recordOnce
  refine (backed_ask rfl).bind fun _ => (Reading.liftStore _).backed.bind fun known => ?_
  split
  · exact Always.pure _
  · refine (Backed.recordInner H _ _ _ _ _ _).bind fun _ => (backed_ask rfl).bind fun r => ?_
    rcases r with e | u
    · cases e with
      | alreadyExists => exact Always.pure _
      | _ => exact Always.throw _
    · exact Always.pure _

theorem Backed.recordResolution (peer : PublicKey) (new : LastCrossSignedState) (htlcs : List UpdateAddHtlc)
    (id : UInt64) (tag : EventTag) (t : LedgerEventType) : Backed H (recordResolution peer new htlcs id tag t) := by
  unfold Canopus.recordResolution
  split
  · exact Backed.recordLedgerOnce H _ _ _ _ _ _
  · exact Always.pure _

theorem Backed.recordCommittedUpdateEvents (peer : PublicKey) (us : List UncommittedUpdate)
    (old new : LastCrossSignedState) : Backed H (recordCommittedUpdateEvents peer us old new) := by
  refine Always.forEach fun u _ => ?_
  split
  · exact Backed.recordLedgerOnce H _ _ _ _ _ _
  · exact Backed.recordLedgerOnce H _ _ _ _ _ _
  · exact Backed.recordResolution H _ _ _ _ _ _
  · exact Backed.recordResolution H _ _ _ _ _ _
  · exact Backed.recordResolution H _ _ _ _ _ _
  · exact Backed.recordResolution H _ _ _ _ _ _
  · exact Backed.recordResolution H _ _ _ _ _ _
  · exact Backed.recordResolution H _ _ _ _ _ _

end Base

/-! ### Signing and sending -/

theorem makes_sendMessage {msg : HostedMessage}
    (h : msg.binds = true → ∃ d, w.channel peer = some d ∧ ExplainedBy H peer d msg) :
    Makes exec (Explained H) (sendMessage peer msg) w := by
  unfold sendMessage
  refine Makes.bind (Makes.ask trivial) (reading_ask rfl).does ?_
  intro encoding _ hpost
  subst hpost
  refine Makes.bind ((Reading.liftEncode _).backed _) (Reading.liftEncode _).does ?_
  intro _ _ hpost
  subst hpost
  exact Makes.bind (Makes.ask h) leads_true fun _ w' _ => (Reading.liftNode _).backed w'

theorem Backed.sendMessage (H : Host) (peer : PublicKey) (msg : HostedMessage) (hm : msg.binds = false) :
    Backed H (sendMessage peer msg) :=
  fun _ => makes_sendMessage fun hb => absurd hb (by rw [hm]; exact Bool.false_ne_true)

theorem Backed.sendError (H : Host) (peer : PublicKey) (text : String) : Backed H (sendError H peer text) :=
  Backed.sendMessage H peer _ rfl

theorem Backed.signFor (H : Host) (peer : PublicKey) (s : LastCrossSignedState) : Backed H (signFor H peer s) :=
  (Reading.liftEncode _).backed.bind fun _ => (backed_ask rfl).bind fun _ => Always.pure _

theorem leads_signFor {s : LastCrossSignedState} : Leads exec (fun _ _ _ => True) (signFor H peer s) w fun t w' =>
    s.sign H.crypto H.nodeSecret = .ok t ∧ w' = w.noteSigned peer t := by
  unfold signFor
  refine Does.bind does_liftEncode ?_
  intro t w' hpost
  obtain ⟨rfl, ht⟩ := hpost
  refine Does.bind (Does.ask (R := fun _ w'' => w'' = w'.noteSigned peer t) fun x _ => ⟨trace_any, rfl⟩) ?_
  intro _ _ hpost
  exact Does.pure ⟨ht, hpost⟩

theorem Backed.signNext (H : Host) (peer : PublicKey) (sm : StateManager) : Backed H (signNext H peer sm) :=
  (Reading.liftState _).backed.bind fun _ => Reading.currentBlockDay.backed.bind fun _ => Backed.signFor H peer _

/-- The host signs the next state, dated with the current day. -/
theorem leads_signNext {sm : StateManager} : Leads exec (fun _ _ _ => True) (signNext H peer sm) w fun t w' =>
    w' = w.noteSigned peer t ∧ SignedByHost H t ∧ ∃ next, sm.lcssNext H.crypto = .ok next ∧ SameState next t := by
  unfold signNext
  refine Does.bind does_liftState ?_
  intro next _ hpost
  obtain ⟨rfl, hn⟩ := hpost
  refine Does.bind Reading.currentBlockDay.does ?_
  intro day _ hpost
  subst hpost
  refine leads_signFor.post ?_
  intro t w' hpost
  obtain ⟨ht, rfl⟩ := hpost
  refine ⟨rfl, .sign ht, next, hn, ?_⟩
  obtain ⟨_, -, rfl⟩ := sign_eq_ok ht
  rfl

/-- A `state_update` for the next state of the stored record. -/
theorem makes_sendNext {t : LastCrossSignedState} (hd : w.channel peer = some d) (ht : SignedByHost H t)
    (hn : ∃ next, d.next H = .ok next ∧ SameState next t) :
    Makes exec (Explained H) (sendMessage peer (.stateUpdate t.stateUpdate)) w :=
  makes_sendMessage fun _ => ⟨d, hd, t, rfl, ht, Or.inr hn⟩

theorem Backed.sendChannelUpdate (H : Host) (peer : PublicKey) : Backed H (sendChannelUpdate H peer) :=
  (Reading.loadExisting peer).backed.bind fun d => (backed_ask rfl).bind fun _ =>
    (Reading.routingPolicyForData H d).backed.bind fun _ => Backed.sendMessage H peer _ rfl

theorem Backed.sendPendingChannelUpdate (H : Host) (peer : PublicKey) : Backed H (sendPendingChannelUpdate H peer) := by
  refine (Reading.loadExisting peer).backed.bind fun d => ?_
  split
  · exact Always.pure _
  · refine (Backed.sendChannelUpdate H peer).bind fun _ => (Reading.loadExisting peer).backed.bind fun _ => ?_
    exact Backed.saveChannel H peer _

/-- The stored state is acknowledged after the record was saved and the ledger written. -/
theorem makes_acknowledge {x : Ctl Unit} {rest : Ctl α} (hs : SignedByHost H d.lcss) (hx : Backed H x) (hq : Recording x)
    (hrest : Backed H rest) : Makes exec (Explained H) (do
      saveChannel peer d none
      x
      sendMessage peer (.stateUpdate d.lcss.stateUpdate)
      rest) w := by
  refine Makes.bind (Backed.saveChannel H peer d w) leads_saveChannel ?_
  intro _ _ hpost
  subst hpost
  refine Makes.bind (hx _) (Stays.leads hq) ?_
  intro _ w₁ h₁
  refine Makes.bind (makes_sendMessage fun _ => ⟨d, ?_, d.lcss, rfl, hs, Or.inl rfl⟩) leads_true fun _ w₂ _ => hrest w₂
  exact (h₁.channel peer).trans World.channel_put

/-! ### Forwarding -/

/-- An update that has just been pushed explains the message that tells of it. -/
theorem ExplainedBy.pushed (d : ChannelData) (u : PendingUpdate) :
    ExplainedBy H peer (d.push (.ofLocal u)) (replayMessage H peer u) := by
  have hu : .ofLocal u ∈ (d.push (.ofLocal u)).uncommitted := List.mem_append_right _ (List.mem_singleton.mpr rfl)
  cases u with
  | add htlc => exact ⟨_, hu, rfl⟩
  | fulfill c id preimage => exact ⟨_, hu, rfl⟩
  | fail c id reason => trivial
  | failMalformed c id h code => trivial

/-- The stored record explains an update that it lists. -/
theorem makes_tell {u : PendingUpdate} {msg : HostedMessage} (hd : w.channel peer = some (d.push (.ofLocal u)))
    (hm : msg = replayMessage H peer u) : Makes exec (Explained H) (sendMessage peer msg) w :=
  makes_sendMessage fun _ => ⟨_, hd, hm ▸ ExplainedBy.pushed d u⟩

theorem leads_stateUpdateForUncommitted : Leads exec (fun _ _ _ => True) (stateUpdateForUncommitted H peer d) w
    fun m w' => ∃ t, m = t.stateUpdate ∧ w' = w.noteSigned peer t ∧ SignedByHost H t ∧
      ∃ next, d.next H = .ok next ∧ SameState next t :=
  Does.bind leads_signNext fun t _ h => Does.pure ⟨t, rfl, h⟩

/-- The record is signed, saved with the new update, and told to the peer: the update, and then `f` sends the signature. -/
theorem makes_tellSigned {u : PendingUpdate} {msg : HostedMessage} {f : StateUpdate → Ctl α}
    (hm : msg = replayMessage H peer u)
    (hf : ∀ m w', Makes exec (Explained H) (sendMessage peer (.stateUpdate m)) w' → Makes exec (Explained H) (f m) w') :
    Makes exec (Explained H) (do
      let stateUpdate ← stateUpdateForUncommitted H peer (d.push (.ofLocal u))
      saveChannel peer (d.push (.ofLocal u)) none
      sendMessage peer msg
      f stateUpdate) w := by
  refine Makes.bind (((Backed.signNext H peer _).bind fun _ => Always.pure _) w) leads_stateUpdateForUncommitted ?_
  intro _ _ hpost
  obtain ⟨t, rfl, rfl, hs, hn⟩ := hpost
  refine Makes.bind (Backed.saveChannel H peer _ _) leads_saveChannel ?_
  intro _ _ hpost
  subst hpost
  refine Makes.bind (makes_tell World.channel_put hm) (Stays.leads (Bookless.sendMessage peer _)) fun _ w₂ h₂ => ?_
  exact hf _ _ (makes_sendNext ((h₂.channel peer).trans World.channel_put) hs hn)

section Forward
variable (H)

theorem Backed.resolveUpstream (key : HtlcKey) (r : HtlcResolution) : Backed H (resolveUpstream key r) :=
  (backed_ask rfl).bind fun _ => (Reading.liftNode _).backed

theorem Backed.dropForwardLink (key : HtlcKey) : Backed H (dropForwardLink key) :=
  (backed_ask rfl).bind fun _ => Always.pure _

theorem Backed.sendLocalResolution {peer : PublicKey} {id : UInt64} {u : PendingUpdate} {msg : HostedMessage}
    (hm : msg = replayMessage H peer u) : Backed H (sendLocalResolution H peer id u msg) := by
  refine (Reading.loadExisting peer).backed.bind fun d => ?_
  split
  · exact Always.pure _
  · exact fun _ => makes_tellSigned hm fun _ _ h => h

theorem Backed.sendLocalFulfill (peer : PublicKey) (l : ForwardLink) (preimage : ByteVec 32) :
    Backed H (sendLocalFulfill H peer l preimage) :=
  Backed.sendLocalResolution H rfl

theorem Backed.sendLocalFailForHtlc (peer : PublicKey) (id : UInt64) (reason : Bytes) :
    Backed H (sendLocalFailForHtlc H peer id reason) :=
  Backed.sendLocalResolution H rfl

theorem Backed.withForwardLink (key : HtlcKey) {f : ForwardLink → Ctl Unit} (hf : ∀ l, Backed H (f l)) :
    Backed H (withForwardLink key f) := by
  refine reading_getJson.backed.bind fun r => ?_
  rcases r with e | ⟨l, g⟩
  · cases e with
    | notFound => exact Always.pure _
    | _ => exact Always.throw _
  · exact hf l

theorem Backed.answerIncoming (l : ForwardLink) {toPeer : PublicKey → Ctl Unit} (r : HtlcResolution)
    (hp : ∀ q, Backed H (toPeer q)) : Backed H (answerIncoming H l toPeer r) := by
  refine (Reading.peerForHostedScid H _).backed.bind fun found => ?_
  rcases found with - | q
  · exact Backed.resolveUpstream H _ _
  · exact hp q

theorem Backed.resolveForwardFulfill (scid id : UInt64) (preimage : ByteVec 32) :
    Backed H (resolveForwardFulfill H scid id preimage) :=
  Backed.withForwardLink H _ fun l =>
    (Backed.answerIncoming H l _ fun q => Backed.sendLocalFulfill H q l preimage).bind fun _ => Backed.dropForwardLink H _

theorem Backed.resolveForwardFail (scid id : UInt64) (failure : Bytes) :
    Backed H (resolveForwardFail H scid id failure) :=
  Backed.withForwardLink H _ fun l =>
    (Backed.answerIncoming H l _ fun q => Backed.sendLocalFailForHtlc H q _ _).bind fun _ => Backed.dropForwardLink H _

theorem Backed.handleOutgoingPaymentResult (scid id : UInt64) (status : PaymentStatus) :
    Backed H (handleOutgoingPaymentResult H scid id status) := by
  refine Backed.withForwardLink H _ fun l => (Reading.peerForHostedScid H _).backed.bind fun found => ?_
  rcases found with - | q
  · exact Always.pure _
  · cases status with
    | succeeded preimage =>
      refine (backed_ask rfl).bind fun _ => (Reading.liftNode _).backed.bind fun _ => ?_
      exact (Backed.sendLocalFulfill H q l preimage).bind fun _ => Backed.dropForwardLink H _
    | failed onion => exact (Backed.sendLocalFailForHtlc H q _ _).bind fun _ => Backed.dropForwardLink H _
    | pending => exact Always.pure _
    | unknown => exact Always.pure _

theorem Backed.createForwardLink (key : HtlcKey) (l : ForwardLink) : Backed H (createForwardLink key l) := by
  refine (backed_ask rfl).bind fun r => ?_
  split
  · exact Always.pure _
  · exact Always.pure _
  · exact Always.throw _

end Forward

/-- A message that is delivered is sent once; if that fails, the channel is errored and nothing follows. -/
theorem makes_deliver {msg : HostedMessage} (h : Makes exec (Explained H) (sendMessage peer msg) w) :
    Makes exec (Explained H) (deliver peer d msg) w := by
  refine Makes.bind h.attempt leads_true fun r w' _ => ?_
  rcases r with e | u
  · exact ((Backed.markErrored H peer d _).bind fun _ => Always.throw _) w'
  · exact Makes.pure

/-- After a delivery the record is the one before. -/
theorem leads_deliver {msg : HostedMessage} : Leads exec (fun _ _ _ => True) (deliver peer d msg) w fun _ w' =>
    SameBooks w w' := by
  refine Does.bind (Stays.leads (Stays.attempt (Bookless.sendMessage peer msg))) fun r w' h => ?_
  rcases r with e | u
  · exact Does.bind leads_true fun _ _ _ => Does.throw
  · exact Does.pure h

section Offering
variable (H)

theorem Backed.offerHtlc (peer : PublicKey) (d : ChannelData) (htlc : UpdateAddHtlc) (scid id : UInt64)
    (secret : Option (ByteVec 32)) (expiry : Option UInt32) : Backed H (offerHtlc H peer d htlc scid id secret expiry) := by
  refine Reading.hostedCommitDeadline.backed.bind fun deadline => ?_
  refine (Backed.createForwardLink H _ _).bind fun _ w => ?_
  refine Makes.bind (Backed.saveChannel H peer _ w) leads_saveChannel ?_
  intro _ _ hpost
  subst hpost
  refine Makes.bind (makes_deliver (makes_tell World.channel_put rfl)) leads_deliver fun _ w₁ h₁ => ?_
  refine Makes.bind (Backed.signNext H peer _ w₁) leads_signNext ?_
  intro t _ hpost
  obtain ⟨rfl, hs, hn⟩ := hpost
  exact makes_deliver (makes_sendNext ((h₁.channel peer).trans World.channel_put) hs hn)

theorem Backed.checkAndOffer (peer : PublicKey) (d : ChannelData) (htlc : UpdateAddHtlc) (key : HtlcKey) (scid id : UInt64)
    (secret : Option (ByteVec 32)) (expiry : Option UInt32) :
    Backed H (checkAndOffer H peer d htlc key scid id secret expiry) := by
  refine (Reading.routingPolicyForData H d).backed.bind fun routing => ?_
  refine (Reading.peerForHostedScid H scid).backed.bind fun source => ?_
  refine (Reading.cltvTooClose _ _ _ _).backed.bind fun close => ?_
  split
  · exact Backed.resolveUpstream H _ _
  split
  · exact Backed.resolveUpstream H _ _
  split
  · exact Backed.resolveUpstream H _ _
  refine (Reading.liftState _).backed.bind fun next => ?_
  split
  · exact Backed.resolveUpstream H _ _
  · exact Backed.offerHtlc H _ _ _ _ _ _ _

theorem Backed.channelHandleHtlcAdd (peer : PublicKey) (htlc : UpdateAddHtlc) (key : HtlcKey) (scid id : UInt64)
    (secret : Option (ByteVec 32)) (expiry : Option UInt32) :
    Backed H (channelHandleHtlcAddWithUpstreamExpiry H peer htlc key scid id secret expiry) := by
  refine (Reading.loadExisting peer).backed.bind fun d => ?_
  split
  · exact Always.throw _
  refine (backed_ask rfl).bind fun connected => ?_
  split
  · exact Backed.resolveUpstream H _ _
  refine (backed_ask rfl).bind fun preimage => ?_
  split
  · exact Backed.resolveUpstream H _ _
  · exact Backed.checkAndOffer H _ _ _ _ _ _ _ _

theorem Backed.sendDirectPayment (peer : PublicKey) (amount : UInt64) (h : Hash) (expiry : UInt32)
    (secret : Option (ByteVec 32)) : Backed H (sendDirectPayment H peer amount h expiry secret) := by
  refine (Reading.loadExisting peer).backed.bind fun d => ?_
  split
  · exact Always.throw _
  refine (Reading.liftState _).backed.bind fun next => ?_
  split
  · exact Always.throw _
  refine (backed_ask rfl).bind fun key => (Reading.liftSphinx _).backed.bind fun onion => ?_
  exact fun w => makes_tellSigned rfl fun _ _ h => h.bind leads_true fun _ _ _ => Makes.pure

end Offering

/-! ### Dispatching and recovery -/

section Dispatching
variable (H)

theorem Backed.undoHostedForward (peer : PublicKey) (htlc : UpdateAddHtlc) : Backed H (undoHostedForward H peer htlc) := by
  refine (Backed.sendLocalFailForHtlc H _ _ _).bind fun _ => ?_
  refine (Reading.forwardLinkForIncoming _ _).backed.bind fun found => ?_
  rcases found with - | l
  · exact Always.pure _
  · exact (backed_ask rfl).bind fun _ => (Reading.liftStore _).backed

theorem Backed.forwardToHosted (peer target : PublicKey) (htlc : UpdateAddHtlc) (peeled : PeeledOnion) :
    Backed H (forwardToHosted H peer target htlc peeled) := by
  unfold Canopus.forwardToHosted
  split
  · exact Always.throw _
  refine (Reading.loadExisting target).backed.bind fun d => (Reading.routingPolicyForData H d).backed.bind fun routing => ?_
  refine Reading.heightOrZero.backed.bind fun height => ?_
  split
  · exact Backed.sendLocalFailForHtlc H _ _ _
  refine (Backed.channelHandleHtlcAdd H _ _ _ _ _ _ _).attempt.bind fun r => ?_
  rcases r with e | u
  · exact Backed.undoHostedForward H peer htlc
  · exact Always.pure _

theorem Backed.forwardToNode (peer : PublicKey) (htlc : UpdateAddHtlc) (peeled : PeeledOnion) :
    Backed H (forwardToNode H peer htlc peeled) := by
  refine (Backed.createForwardLink H _ _).bind fun _ => Reading.heightOrZero.backed.bind fun height => ?_
  refine (backed_ask rfl).bind fun r => ?_
  rcases r with e | u
  · exact (Backed.sendLocalFailForHtlc H _ _ _).bind fun _ => Backed.dropForwardLink H _
  · exact Always.pure _

theorem Backed.dispatchCommittedIncomingHtlc (peer : PublicKey) (d : ChannelData) (htlc : UpdateAddHtlc) :
    Backed H (dispatchCommittedIncomingHtlc H peer d htlc) := by
  unfold Canopus.dispatchCommittedIncomingHtlc
  split
  · exact Backed.sendLocalFailForHtlc H _ _ _
  split
  · exact Backed.sendLocalResolution H rfl
  split
  · exact Backed.sendLocalFailForHtlc H _ _ _
  refine (Reading.peerForHostedScid H _).backed.bind fun found => ?_
  rcases found with - | q
  · exact Backed.forwardToNode H _ _ _
  · exact Backed.forwardToHosted H _ _ _ _

theorem Backed.dispatchCommittedEffects (peer : PublicKey) (old committed : ChannelData) (us : List UncommittedUpdate) :
    Backed H (dispatchCommittedEffects H peer old committed us) := by
  refine (Always.forEach fun htlc _ => ?_).bind fun _ => Always.forEach fun u _ => ?_
  · split
    · exact Always.pure _
    · exact Backed.dispatchCommittedIncomingHtlc H _ _ _
  · unfold Canopus.dispatchRemoteFail
    split
    · exact Backed.resolveForwardFail H _ _ _
    · exact Backed.resolveForwardFail H _ _ _
    · exact Always.pure _

theorem Backed.recoverOutgoingFrom (peer : PublicKey) (d : ChannelData) (htlcs : List UpdateAddHtlc) (hashes : List Hash) :
    Backed H (recoverOutgoingFrom H peer d htlcs hashes) := by
  induction htlcs generalizing hashes with
  | nil =>
    unfold Canopus.recoverOutgoingFrom
    split
    · exact Always.pure _
    · exact Backed.sendMessage H peer _ rfl
  | cons htlc htlcs ih =>
    unfold Canopus.recoverOutgoingFrom
    split
    · exact ih hashes
    refine (Reading.hostedSettlementIsSafe H peer htlc).backed.bind fun safe => ?_
    split
    · refine (backed_ask rfl).bind fun r => (Reading.liftNode _).backed.bind fun found => ?_
      rcases found with - | preimage
      · exact ih _
      · exact (Backed.resolveForwardFulfill H _ _ _).bind fun _ => ih hashes
    · exact Backed.markErrored H _ _ _

theorem Backed.recoverIncomingHtlc (peer : PublicKey) (d : ChannelData) (htlc : UpdateAddHtlc) :
    Backed H (recoverIncomingHtlc H peer d htlc) := by
  unfold Canopus.recoverIncomingHtlc
  split
  · exact Always.pure _
  refine (Reading.forwardLinkForIncoming _ _).backed.bind fun found => ?_
  rcases found with - | l
  · exact Backed.dispatchCommittedIncomingHtlc H _ _ _
  refine (Reading.peerForHostedScid H _).backed.bind fun target => ?_
  split
  · exact Always.pure _
  refine (backed_ask rfl).bind fun r => (Reading.liftNode _).backed.bind fun status => ?_
  cases status with
  | succeeded preimage => exact Backed.handleOutgoingPaymentResult H _ _ _
  | failed onion => exact Backed.handleOutgoingPaymentResult H _ _ _
  | pending => exact Always.pure _
  | unknown => exact Backed.dispatchCommittedIncomingHtlc H _ _ _

theorem Backed.recoverChannelHtlcs (peer : PublicKey) (queryOutgoing : Bool) :
    Backed H (recoverChannelHtlcs H peer queryOutgoing) := by
  refine (Reading.loadChannel peer).backed.bind fun found => ?_
  rcases found with - | d
  · exact Always.pure _
  dsimp only
  split
  · exact Always.pure _
  refine (Always.forEach fun htlc _ => Backed.recoverIncomingHtlc H peer d htlc).bind fun _ => ?_
  split
  · exact Backed.recoverOutgoingFrom H _ _ _ _
  · exact Always.pure _

end Dispatching

/-! ### The handlers -/

/-- Each update of the host is told again from the record that is stored. -/
theorem makes_replayLocals (us : List UncommittedUpdate) : ∀ {w : World}, w.channel peer = some d →
    (∀ u ∈ us, u ∈ d.uncommitted) → Makes exec (Explained H) (forEach (replayLocal H peer) us) w := by
  induction us with
  | nil => exact fun _ _ => Makes.pure
  | cons u us ih =>
    intro w hd hu
    have hbooks : Bookless (replayLocal H peer u) := by
      cases u with
      | ofLocal u => exact Bookless.sendMessage peer _
      | ofRemote u => exact Stays.pure ()
    refine Makes.bind ?_ (Stays.leads hbooks) fun _ w₁ h₁ => ih ((h₁.channel peer).trans hd) fun v hv => hu v (by simp [hv])
    cases u with
    | ofRemote u => exact Makes.pure
    | ofLocal u =>
      refine makes_sendMessage fun _ => ⟨d, hd, ?_⟩
      have hm := hu (.ofLocal u) (by simp)
      cases u with
      | add htlc => exact ⟨_, hm, rfl⟩
      | fulfill c id preimage => exact ⟨_, hm, rfl⟩
      | fail c id reason => trivial
      | failMalformed c id h code => trivial

theorem makes_sendStateUpdateIfPending (hd : w.channel peer = some d) :
    Makes exec (Explained H) (sendStateUpdateIfPending H peer d) w := by
  unfold sendStateUpdateIfPending
  split
  · exact Makes.pure
  · refine Makes.bind (Backed.signNext H peer _ w) leads_signNext ?_
    intro t _ hpost
    obtain ⟨rfl, hs, hn⟩ := hpost
    exact makes_sendNext hd hs hn

theorem makes_sendProposal {proposal : LastCrossSignedState} (hd : w.channel peer = some d)
    (hp : d.proposedOverride = some proposal) :
    Makes exec (Explained H) (sendMessage peer (.stateOverride (stateOverrideOf proposal))) w :=
  makes_sendMessage fun _ => ⟨d, hd, proposal, hp, rfl⟩

theorem leads_repair (hd : w.channel peer = some d) :
    Leads exec (fun _ _ _ => True) (repairDuplicateUncommittedResolutions peer d) w fun d' w' =>
      w'.channel peer = some d' := by
  unfold repairDuplicateUncommittedResolutions
  dsimp only
  split
  · refine Does.bind leads_saveChannel ?_
    intro _ _ hpost
    subst hpost
    exact Does.pure World.channel_put
  · exact Does.pure hd

theorem makes_handleReconnectActive (hd : w.channel peer = some d) :
    Makes exec (Explained H) (handleReconnectActive H peer d) w := by
  refine Makes.bind (Backed.repair H peer d w) (leads_repair hd) fun d' w₁ hd₁ => ?_
  refine Makes.bind (Backed.sendMessage H peer _ rfl w₁) (Stays.leads (Bookless.sendMessage peer _)) fun _ w₂ h₂ => ?_
  have hd₂ := (h₂.channel peer).trans hd₁
  have hbooks : ∀ u, Bookless (replayLocal H peer u) := by
    intro u
    cases u with
    | ofLocal u => exact Bookless.sendMessage peer _
    | ofRemote u => exact Stays.pure ()
  refine Makes.bind (makes_replayLocals _ hd₂ fun _ hu => hu) (Stays.leads (Stays.forEach hbooks _)) fun _ w₃ h₃ => ?_
  refine Makes.bind (makes_sendStateUpdateIfPending ((h₃.channel peer).trans hd₂)) leads_true fun _ w₄ _ => ?_
  exact ((Backed.sendPendingChannelUpdate H peer).bind fun _ => (Backed.recoverChannelHtlcs H peer true).logged) w₄

theorem Backed.sendFirstError (H : Host) (peer : PublicKey) (d : ChannelData) : Backed H (sendFirstError H peer d) := by
  unfold Canopus.sendFirstError
  split
  · exact Backed.sendError H peer _
  · exact Always.pure _

/-- The proposal of the stored record is announced. -/
theorem makes_announceOverride (hd : w.channel peer = some d) :
    Makes exec (Explained H) (announceOverride H peer d) w := by
  refine Makes.bind (Backed.sendFirstError H peer d w) (Stays.leads (Silent.sendFirstError H peer d)) fun _ w₁ h₁ => ?_
  split
  · rename_i proposal hp
    exact makes_sendProposal ((h₁.channel peer).trans hd) hp
  · exact Makes.pure

section Messages
variable (H)

theorem Backed.grantedPolicy (secret : Bytes) : Backed H (grantedPolicy H secret) := by
  have consumes : Backed H (consumeSecret H secret) := by
    unfold Canopus.consumeSecret
    split
    · exact Always.pure _
    refine reading_getJson.backed.bind fun r => ?_
    rcases r with e | ⟨s, g⟩
    · cases e with
      | notFound => exact Always.pure _
      | _ => exact Always.throw _
    dsimp only
    split
    · exact Always.pure _
    refine (Reading.effectivePolicy H).backed.bind fun base => (backed_ask rfl).bind fun _ => ?_
    refine (Reading.liftStore _).backed.bind fun _ => (backed_ask rfl).bind fun _ => ?_
    exact (Reading.liftStore _).backed.bind fun _ => Always.pure _
  unfold Canopus.grantedPolicy
  split
  · split
    · exact Always.pure _
    · exact consumes
  split
  · refine consumes.bind fun r => ?_
    rcases r with - | policy
    · exact (Reading.effectivePolicy H).backed.bind fun _ => Always.pure _
    · exact Always.pure _
  · exact (Reading.effectivePolicy H).backed.bind fun _ => Always.pure _

theorem Backed.handleNewChannelInvoke (peer : PublicKey) (m : InvokeHostedChannel) :
    Backed H (handleNewChannelInvoke H peer m) := by
  refine (Backed.grantedPolicy H _).bind fun r => ?_
  rcases r with - | policy
  · exact Always.pure _
  · exact (Backed.saveChannel H _ _).bind fun _ => Backed.sendMessage H _ _ rfl

theorem Backed.handleInvoke (peer : PublicKey) (m : InvokeHostedChannel) : Backed H (handleInvoke H peer m) := by
  unfold Canopus.handleInvoke
  split
  · exact (Backed.sendError H _ _).bind fun _ => Always.throw _
  intro w
  refine Makes.bind ((Reading.loadChannel peer).backed w) does_loadChannel ?_
  intro found _ hpost
  obtain ⟨rfl, hfound⟩ := hpost
  rcases found with - | d
  · exact Backed.handleNewChannelInvoke H peer m _
  have hd := hfound.symm
  dsimp only
  cases deriveStatus d with
  | notOpened => exact Backed.handleNewChannelInvoke H peer m _
  | suspended => exact Backed.handleNewChannelInvoke H peer m _
  | errored | overriding =>
    refine Makes.bind (Backed.sendMessage H peer _ rfl _) (Stays.leads (Bookless.sendMessage peer _)) fun _ w₁ h₁ => ?_
    exact makes_announceOverride ((h₁.channel peer).trans hd)
  | active | opening => exact makes_handleReconnectActive hd

theorem Backed.handleOpeningStateUpdate (peer : PublicKey) (d : ChannelData) (m : StateUpdate) :
    Backed H (handleOpeningStateUpdate H peer d m) := by
  refine Reading.currentBlockDay.backed.bind fun day => ?_
  split
  · exact Always.pure _
  split
  · exact Always.pure _
  intro w
  refine Makes.bind (Backed.signFor H peer _ w) leads_signFor fun t w₁ h₁ => ?_
  exact makes_acknowledge (d := { d with lcss := t, established := true }) (.sign h₁.1)
    (Backed.recordLedgerOnce H _ _ _ _ _ _) (Recording.recordLedgerOnce _ _ _ _ _ _) (Backed.sendChannelUpdate H peer)

theorem Backed.commitUpdates (peer : PublicKey) (d : ChannelData) (m : StateUpdate) : Backed H (commitUpdates H peer d m) := by
  refine (Reading.liftState _).backed.bind fun next => ?_
  split
  · exact Always.pure _
  intro w
  refine Makes.bind (Backed.signFor H peer _ w) leads_signFor fun t w₁ h₁ => ?_
  exact makes_acknowledge (d := { d with lcss := t, uncommitted := [] }) (.sign h₁.1)
    (Backed.recordCommittedUpdateEvents H _ _ _ _) (Recording.recordCommittedUpdateEvents _ _ _ _)
    (Backed.dispatchCommittedEffects H _ _ _ _)

theorem Backed.handleOverrideAcceptance (peer : PublicKey) (d : ChannelData) (m : StateUpdate) :
    Backed H (handleOverrideAcceptance H peer d m) := by
  refine (Reading.okOr _ _).backed.bind fun proposed => ?_
  split
  · exact Always.pure _
  refine Reading.currentBlockDay.backed.bind fun day => ?_
  split
  · exact Always.pure _
  split
  · exact Always.pure _
  intro w
  refine Makes.bind (Backed.signFor H peer _ w) leads_signFor fun t w₁ h₁ => ?_
  refine makes_acknowledge (d := overriddenData d t) (.sign h₁.1)
    (Backed.recordLedgerOnce H _ _ _ _ _ _) (Recording.recordLedgerOnce _ _ _ _ _ _) ?_
  split
  · exact Backed.sendPendingChannelUpdate H peer
  · exact Backed.sendChannelUpdate H peer

theorem Backed.handleStateUpdate (peer : PublicKey) (m : StateUpdate) : Backed H (handleStateUpdate H peer m) := by
  refine (Reading.loadExisting peer).backed.bind fun d => ?_
  cases deriveStatus d with
  | opening => exact Backed.handleOpeningStateUpdate H peer d m
  | overriding => exact Backed.handleOverrideAcceptance H peer d m
  | active =>
    refine (Backed.repair H peer d).bind fun d' => ?_
    split
    · exact Always.pure _
    split
    · exact Always.pure _
    refine Reading.currentBlockDay.backed.bind fun day => ?_
    split
    · exact Always.pure _
    · exact Backed.commitUpdates H peer d' m
  | errored | notOpened | suspended => exact Always.pure _

theorem Backed.handleUpdateAdd (peer : PublicKey) (m : UpdateAddHtlc) : Backed H (handleUpdateAdd H peer m) := by
  refine (Reading.loadExisting peer).backed.bind fun d => ?_
  split
  · exact Backed.sendMessage H peer _ rfl
  refine (Reading.liftState _).backed.bind fun next => ?_
  split
  · exact (Backed.markErrored H _ _ _).bind fun _ => Backed.sendError H _ _
  · exact Backed.saveChannel H _ _

theorem Backed.handleUpdateFailMalformed (peer : PublicKey) (m : UpdateFailMalformedHtlc) :
    Backed H (handleUpdateFailMalformed peer m) := by
  refine (Reading.loadExisting peer).backed.bind fun d => ?_
  split
  · exact Always.pure _
  split
  · exact Always.pure _
  split
  · exact Always.pure _
  split
  · exact Always.pure _
  · exact Backed.saveChannel H _ _

theorem Backed.handleUpdateFulfill (peer : PublicKey) (m : UpdateFulfillHtlc) :
    Backed H (handleUpdateFulfill H peer m) := by
  refine (Reading.loadExisting peer).backed.bind fun d => ?_
  split
  · exact Always.pure _
  split
  · exact Always.pure _
  split
  · exact Always.pure _
  split
  · exact Always.pure _
  split
  · exact Always.pure _
  refine (Reading.hostedSettlementIsSafe H peer _).backed.bind fun safe => ?_
  split
  · refine (backed_ask rfl).bind fun _ => (Reading.liftNode _).backed.bind fun _ => ?_
    exact (Backed.saveChannel H _ _).bind fun _ => Backed.resolveForwardFulfill H _ _ _
  · exact (Backed.markErrored H _ _ _).bind fun _ => Backed.sendError H _ _

theorem Backed.handleUpdateFail (peer : PublicKey) (m : UpdateFailHtlc) : Backed H (handleUpdateFail peer m) := by
  refine (Reading.loadExisting peer).backed.bind fun d => ?_
  split
  · exact Always.pure _
  split
  · exact Always.pure _
  split
  · exact Always.pure _
  split
  · exact Backed.markErrored H _ _ _
  · exact Backed.saveChannel H _ _

theorem Backed.handleResizeChannel (peer : PublicKey) (m : ResizeChannel) : Backed H (handleResizeChannel H peer m) := by
  refine (Reading.loadExisting peer).backed.bind fun d => ?_
  split
  · exact Always.pure _
  split
  · exact Always.pure _
  split
  · exact Always.pure _
  refine (Reading.okOr _ _).backed.bind fun capacity => ?_
  split
  · exact Always.pure _
  refine (Reading.okOr _ _).backed.bind fun balance => (Reading.routingPolicyForData H d).backed.bind fun routing w => ?_
  refine Makes.bind (Backed.signFor H peer _ w) leads_signFor fun t w₁ h₁ => ?_
  exact makes_acknowledge (d := { d with
      lcss := t
      acceptingResizeSat := none
      routingPolicy := some { routing with htlcMaximumMsat := capacity }
      channelUpdatePending := true }) (.sign h₁.1)
    (Backed.recordLedgerOnce H _ _ _ _ _ _) (Recording.recordLedgerOnce _ _ _ _ _ _)
    (Backed.sendPendingChannelUpdate H peer).logged

theorem Backed.handleLcss (peer : PublicKey) (m : LastCrossSignedState) : Backed H (handleLcss H peer m) := by
  refine (Reading.loadExisting peer).backed.bind fun d => ?_
  split
  · exact (Backed.markErrored H _ _ _).bind fun _ => (Backed.sendError H _ _).bind fun _ => Always.throw _
  split
  · exact (Backed.markErrored H _ _ _).bind fun _ => Always.throw _
  split
  · exact Backed.sendMessage H peer _ rfl
  split
  · exact Backed.sendMessage H peer _ rfl
  · exact (Backed.saveChannel H _ _).bind fun _ => Backed.sendMessage H peer _ rfl

theorem Backed.handleMessage (peer : PublicKey) (msg : HostedMessage) : Backed H (handleMessage H peer msg) := by
  cases msg with
  | invokeHostedChannel m => exact Backed.handleInvoke H peer m
  | lastCrossSignedState m => exact Backed.handleLcss H peer m
  | stateUpdate m => exact Backed.handleStateUpdate H peer m
  | updateAddHtlc m => exact Backed.handleUpdateAdd H peer m
  | updateFulfillHtlc m => exact Backed.handleUpdateFulfill H peer m
  | updateFailHtlc m => exact Backed.handleUpdateFail H peer m
  | updateFailMalformedHtlc m => exact Backed.handleUpdateFailMalformed H peer m
  | resizeChannel m => exact Backed.handleResizeChannel H peer m
  | queryPreimages hashes =>
    refine (Reading.knownPreimages hashes).backed.bind fun preimages => ?_
    split
    · exact Always.pure _
    · exact Backed.sendMessage H peer _ rfl
  | replyPreimages preimages =>
    exact Always.forEach fun preimage _ => (backed_ask rfl).bind fun _ => (Reading.liftNode _).backed
  | error m => exact (Reading.loadExisting peer).backed.bind fun d => Backed.saveChannel H _ _
  | askBrandingInfo hash =>
    show Backed H (handleAskBranding H peer)
    unfold handleAskBranding
    split
    · exact Always.pure _
    · exact Backed.sendMessage H peer _ rfl
  | _ => exact Always.pure _

end Messages

/-! ### The operator and the node -/

section Operator
variable (H)

theorem Backed.casJson (n : Ns) (k : n.Key) (f : n.Val → n.Val) (attempts : Nat) : Backed H (casJson n k f attempts) := by
  induction attempts with
  | zero => exact Always.throw _
  | succ attempts ih =>
    refine reading_getJson.backed.bind fun r => (Reading.liftStore _).backed.bind fun e => (backed_ask rfl).bind fun r => ?_
    rcases r with e | u
    · cases e with
      | generationMismatch expected actual =>
        dsimp only
        split
        · exact Always.throw _
        · exact ih
      | _ => exact Always.throw _
    · exact Always.pure _

theorem leads_proposeState {peer : PublicKey} {d : ChannelData} {reason : LocalError} {proposal : LastCrossSignedState}
    {w : World} : Leads exec (fun _ _ _ => True) (proposeState H peer d reason proposal) w fun d' w' =>
      w'.channel peer = some d' := by
  refine Does.bind leads_signFor fun t w₁ _ => Does.bind leads_saveChannel ?_
  intro _ _ hpost
  subst hpost
  exact Does.pure World.channel_put

theorem Backed.proposeState (peer : PublicKey) (d : ChannelData) (reason : LocalError) (proposal : LastCrossSignedState) :
    Backed H (proposeState H peer d reason proposal) :=
  (Backed.signFor H peer _).bind fun _ => (Backed.saveChannel H peer _).bind fun _ => Always.pure _

theorem Backed.setChannelOverride (peer : PublicKey) (d : ChannelData) (base : LastCrossSignedState)
    (params : SetChannelParams) (routing : ChannelRoutingPolicy) :
    Backed H (setChannelOverride H peer d base params routing) := by
  unfold Canopus.setChannelOverride
  dsimp only
  split
  · exact Always.throw _
  refine (Reading.okOr _ _).backed.bind fun balance => (Reading.checkRouting _ _).backed.bind fun _ => ?_
  refine Reading.currentBlockDay.backed.bind fun day w => ?_
  refine Makes.bind (Backed.proposeState H _ _ _ _ w) (leads_proposeState H) fun d' w₁ hd₁ => ?_
  refine Makes.bind ((Backed.sendFirstError H peer d').logged w₁) (Stays.leads (Silent.sendFirstError H peer d').logged) ?_
  intro _ w₂ h₂
  split
  · rename_i proposal hp
    exact (makes_sendProposal ((h₂.channel peer).trans hd₁) hp).attempt.bind leads_true fun _ _ _ => Makes.pure
  · exact Makes.pure

theorem Backed.updateChannel (peer : PublicKey) (d : ChannelData) (params : SetChannelParams) :
    Backed H (updateChannel H peer d params) := by
  refine (Reading.routingPolicyForData H d).backed.bind fun routing => ?_
  dsimp only
  split
  · exact (Reading.okOr _ _).backed.bind fun base => Backed.setChannelOverride H _ _ _ _ _
  split
  · exact Backed.setChannelOverride H _ _ _ _ _
  · refine (Reading.checkRouting _ _).backed.bind fun _ => (Backed.saveChannel H _ _).bind fun _ => ?_
    exact (Backed.sendPendingChannelUpdate H peer).logged

theorem Backed.setChannel (peer : PublicKey) (params : SetChannelParams) (force : Bool) :
    Backed H (setChannel H peer params force) := by
  refine (Reading.loadExisting peer).backed.bind fun d => ?_
  split
  · exact (Reading.channelParametersForData H d).backed.bind fun _ => Always.pure _
  split
  · exact Always.throw _
  split
  · exact Always.throw _
  split
  · exact Always.throw _
  refine (Backed.updateChannel H _ _ _).bind fun _ => (Reading.loadExisting peer).backed.bind fun d' => ?_
  exact (Reading.channelParametersForData H d').backed.bind fun _ => Always.pure _

theorem Backed.proposeOverride (peer : PublicKey) (balance : Option UInt64) : Backed H (proposeOverride H peer balance) := by
  refine (Reading.loadExisting peer).backed.bind fun d => ?_
  split
  · exact Always.throw _
  refine (Reading.okOr _ _).backed.bind fun remote => Reading.currentBlockDay.backed.bind fun day w => ?_
  exact Makes.bind (Backed.proposeState H _ _ _ _ w) (leads_proposeState H) fun d' w₁ hd₁ => makes_announceOverride hd₁

theorem Backed.handlePolicy (params : PolicyParams) : Backed H (handlePolicy H params) := by
  refine (Reading.effectivePolicy H).backed.bind fun base => ?_
  dsimp only
  split
  · exact Always.throw _
  split
  · unfold setPolicy
    refine ((backed_ask rfl).bind fun r => ?_).bind fun _ => Always.pure _
    split
    · exact Always.pure _
    · refine reading_getJson.backed.bind fun _ => (Reading.liftStore _).backed.bind fun _ => ?_
      exact (backed_ask rfl).bind fun _ => (Reading.liftStore _).backed
    · exact Always.throw _
  · exact Always.pure _

theorem Backed.addSecret (secret : String) (capacity initial : UInt64) : Backed H (addSecret secret capacity initial) := by
  refine (Reading.parseSecretHex _).backed.bind fun bytes => (backed_ask rfl).bind fun r => ?_
  split
  · exact Always.pure _
  · exact Always.throw _
  · exact Always.throw _

theorem Backed.removeChannel (peer : PublicKey) (force : Bool) : Backed H (removeChannel H peer force) := by
  refine (Reading.loadExisting peer).backed.bind fun d => (Reading.liftState _).backed.bind fun next => ?_
  split
  · exact Always.throw _
  refine (backed_ask rfl).bind fun _ => (Reading.liftStore _).backed.bind fun keys => ?_
  refine (Always.forEach fun key _ => (backed_ask rfl).bind fun _ => (Reading.liftStore _).backed).bind fun _ => ?_
  exact (backed_ask rfl).bind fun _ => (Reading.liftStore _).backed.bind fun _ => backed_ask rfl

theorem Backed.enforceDeadlinesOf (peer : PublicKey) (now : UInt64) (height : Option UInt32) :
    Backed H (enforceDeadlinesOf H peer now height) := by
  refine (Reading.loadChannel peer).backed.bind fun found => ?_
  rcases found with - | d
  · exact Always.pure _
  dsimp only
  split
  · exact Always.pure _
  refine (Reading.firstUncommittedLate _ _ _).backed.bind fun late => ?_
  rcases late with - | htlc
  · refine (Reading.firstExpired _ _ _).backed.bind fun expired => ?_
    split
    · refine ((Backed.markErrored H _ _ _).bind fun _ => ?_).bind fun _ => Always.pure _
      exact Backed.resolveForwardFail H _ _ _
    · exact Always.pure _
  · refine ((Backed.markErrored H _ _ _).bind fun _ => ?_).bind fun _ => Always.pure _
    exact Backed.resolveForwardFail H _ _ _

theorem Backed.enforceDeadlinesFrom (now : UInt64) (peers : List PublicKey) (height : Option UInt32) :
    Backed H (enforceDeadlinesFrom H now peers height) := by
  induction peers generalizing height with
  | nil => exact Always.pure _
  | cons peer peers ih => exact (Backed.enforceDeadlinesOf H peer now height).bind fun _ => ih _

theorem Backed.handleConnect (peer : PublicKey) : Backed H (handleConnect H peer) := by
  refine (backed_ask rfl).bind fun _ => (Reading.loadChannel peer).backed.bind fun found => ?_
  rcases found with - | d
  · exact Always.pure _
  refine Always.bind ?_ fun _ => Backed.recoverChannelHtlcs H peer true
  unfold sendUpdateIfPending
  split
  · exact Backed.sendPendingChannelUpdate H peer
  · exact Always.pure _

theorem Backed.handleHtlcAccepted (r : HtlcAcceptedRequest) : Backed H (handleHtlcAccepted H r) := by
  unfold Canopus.handleHtlcAccepted
  split
  · exact Always.pure _
  refine (Reading.peerForHostedScid H _).backed.attempt.bind fun found => ?_
  split
  · exact Always.pure _
  · exact Always.pure _
  split
  · exact Always.pure _
  refine (Backed.channelHandleHtlcAdd H _ _ _ _ _ _ _).attempt.bind fun reply => ?_
  rcases reply with e | u
  · exact Always.pure _
  · exact Always.pure _

theorem Backed.handlePay (r : PayRequest) : Backed H (handlePay H r) := by
  have pays : ∀ peer, Backed H (payHosted H peer r) := by
    intro peer
    refine (backed_ask rfl).bind fun preimage => ?_
    split
    · exact Always.pure _
    refine Reading.heightOrZero.backed.bind fun height => (Reading.effectivePolicy H).backed.bind fun policy => ?_
    exact (Backed.sendDirectPayment H _ _ _ _ _).bind fun _ => Always.pure _
  refine (Reading.hostedInvoiceTarget H _).backed.attempt.bind fun found => ?_
  split
  · exact Always.pure _
  · exact Always.pure _
  refine (pays _).attempt.bind fun reply => ?_
  rcases reply with e | u
  · exact Always.pure _
  · exact Always.pure _

theorem Backed.program (op : Op) : Backed H (op.program H) := by
  cases op with
  | message peer e msg => exact (backed_ask rfl).bind fun _ => (Backed.handleMessage H peer msg).logged
  | htlcAccepted r => exact (Backed.handleHtlcAccepted H r).bind fun _ => Always.pure _
  | pay r => exact (Backed.handlePay H r).bind fun _ => Always.pure _
  | paymentResult scid id status => exact Backed.handleOutgoingPaymentResult H scid id status
  | recoverCommittedHtlcs =>
    refine Reading.listChannels.backed.bind fun peers => ?_
    exact Always.forEach fun peer _ => (Backed.recoverChannelHtlcs H peer false).logged
  | enforceForwardDeadlines =>
    refine (backed_ask rfl).bind fun _ => (Reading.okOr _ _).backed.bind fun now => ?_
    exact Reading.listChannels.backed.bind fun peers => Backed.enforceDeadlinesFrom H now peers none
  | connect peer => exact Backed.handleConnect H peer
  | disconnect peer => exact (backed_ask rfl).bind fun _ => backed_ask rfl
  | initialPeerConnections connections =>
    refine Always.forEach fun c _ => (backed_ask rfl).bind fun known => ?_
    rcases known with - | b
    · exact backed_ask rfl
    · exact Always.pure _
  | acceptResize peer m => exact Backed.casJson H _ _ _ _
  | setChannel peer params force => exact (Backed.setChannel H peer params force).bind fun _ => Always.pure _
  | proposeOverride peer balance => exact Backed.proposeOverride H peer balance
  | addSecret secret capacity initial => exact Backed.addSecret H secret capacity initial
  | removeSecret secret =>
    refine (Reading.parseSecretHex _).backed.bind fun bytes => (backed_ask rfl).bind fun _ => (Reading.liftStore _).backed
  | policy params => exact (Backed.handlePolicy H params).bind fun _ => Always.pure _
  | removeChannel peer force => exact Backed.removeChannel H peer force
  | restart => exact Always.pure _

end Operator

/-- Persist before acknowledging: in every run, from whatever world it starts and whichever calls fail, each
    `state_update` is that of a state signed by the host that is, apart from its day and its signatures, the stored one
    or the one that the stored updates lead to, at the moment when it is handed to the node; each `state_override` is
    the stored proposal; and each `update_add_htlc` and `update_fulfill_htlc` tells of a stored update of the host.
    So when the run is cut short after any of its calls, the store explains what the call has sent. -/
theorem sent_explained (H : Host) (w : World) (op : Op) (o : Nat → Choice) :
    Prog.Allowed exec (Explained H) o (op.program H).run w ∧
    ∀ n p msg, (Prog.after exec o (n + 1) (op.program H).run w).sent =
        (Prog.after exec o n (op.program H).run w).sent ++ [(p, msg)] → msg.binds = true →
      ∃ d, (Prog.after exec o (n + 1) (op.program H).run w).channel p = some d ∧ ExplainedBy H p d msg := by
  have hall : Prog.Allowed exec (Explained H) o (op.program H).run w := (Backed.program H op w).allowed
  refine ⟨hall, fun n p msg hs hb => ?_⟩
  rcases Prog.after_succ n hall with h | ⟨x, c, hc, h⟩
  · rw [h] at hs
    simp at hs
  rw [h] at hs ⊢
  rcases exec_sends x c (Prog.after exec o n (op.program H).run w) with hn | ⟨q, e, m, rfl, hw⟩
  · rw [hn] at hs
    simp at hs
  · rw [hw] at hs ⊢
    simp only [List.append_cancel_left_eq, List.cons.injEq, Prod.mk.injEq, and_true] at hs
    obtain ⟨rfl, rfl⟩ := hs
    exact hc hb

end Canopus
