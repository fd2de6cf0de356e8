import Canopus.Theorems.Outcomes
import Canopus.Transparent

/-! Dispatching. A committed incoming HTLC is to be forwarded, or failed on the channel that it came from.
    The routine that offers an HTLC on a hosted channel also serves the hook of the node, and answers most
    refusals there; a hosted source is not told of these, so its HTLC is stranded. This module says where each
    exit leaves the HTLC. -/

namespace Canopus
open Effect Fallible

variable {H : Host} {E : Choice → Prop} {w v v' : World} {p target : PublicKey} {d td : ChannelData} {h : UpdateAddHtlc}
  {peeled : PeeledOnion} {height : UInt32} {time : UInt64} {key : HtlcKey} {u : PendingUpdate}

/-! ### The exits -/

/-- The state with one more update of the host can be signed. -/
def ChannelData.signsWith (d : ChannelData) (H : Host) (height : UInt32) (u : PendingUpdate) : Bool :=
  (signedNext H height d.lcss (d.uncommitted ++ [.ofLocal u])).isSome

/-- Where the code leaves a dispatched HTLC. -/
inductive Exit where
  -- It is failed on its source channel, with this update.
  | refused (u : PendingUpdate)
  -- Nobody whom the source channel listens to is told.
  | stranded
  -- It goes on, under this link.
  | offered (key : HtlcKey)
  -- It goes on under this link, and is then failed on its source channel all the same.
  | halted (key : HtlcKey) (u : PendingUpdate)

/-- The failure that the source channel is told of. -/
def refusal (H : Host) (p : PublicKey) (h : UpdateAddHtlc) : PendingUpdate :=
  .fail (H.channelId p) h.id (failureOnionForPeerHtlc H h 0x1007)

/-- The HTLC that goes on to another hosted channel. -/
def onwardHtlc (H : Host) (target : PublicKey) (id : UInt64) (h : UpdateAddHtlc) (peeled : PeeledOnion) : UpdateAddHtlc where
  channelId := H.channelId target
  id := id
  amountMsat := peeled.amtToForward
  paymentHash := h.paymentHash
  cltvExpiry := peeled.outgoingCltvValue
  onionRoutingPacket := peeled.nextOnion
  tlvStream := []

theorem onwardHtlc_amountMsat {id : UInt64} : (onwardHtlc H target id h peeled).amountMsat = peeled.amtToForward := rfl

/-- The exit after the checks of the target channel: the deadline has to fit, the message has to be encoded, and
    the state with the HTLC has to be signed. -/
def offerExit (H : Host) (w : World) (height : UInt32) (time : UInt64) (p target : PublicKey) (td : ChannelData)
    (h : UpdateAddHtlc) (peeled : PeeledOnion) : Exit :=
  if (checkedAdd time hostedCommitTimeoutSecs).isNone then .refused (refusal H p h)
  else if !w.sendable target (.updateAddHtlc (onwardHtlc H target (nextHtlcId td) h peeled)) then .refused (refusal H p h)
  else if (signedNext H height td.lcss (td.uncommitted ++ [.ofLocal (.add (onwardHtlc H target (nextHtlcId td) h peeled))])).isNone then
    .halted (H.scid target, nextHtlcId td) (refusal H p h)
  else .offered (H.scid target, nextHtlcId td)

/-- The exit of an HTLC that goes to another hosted channel, after its terms were accepted. -/
def addExit (H : Host) (w : World) (height : UInt32) (time : UInt64) (p target : PublicKey) (td : ChannelData)
    (h : UpdateAddHtlc) (peeled : PeeledOnion) : Exit :=
  if deriveStatus td ≠ .active then .refused (refusal H p h)
  else if w.peerConnections.lookup target = some false then .stranded
  else if (w.preimages.lookup h.paymentHash).isSome then .stranded
  else if peeled.amtToForward < td.lcss.initHostedChannel.htlcMinimumMsat then .stranded
  else if peeled.amtToForward > (w.routing H td).htlcMaximumMsat then .stranded
  else match StateManager.lcssNext H.crypto ⟨td.lcss, td.uncommitted⟩ with
    | .error _ => .refused (refusal H p h)
    | .ok next =>
      if hasNoRoom td.lcss.initHostedChannel next peeled.amtToForward then .stranded
      else offerExit H w height time p target td h peeled

/-- The exit of an HTLC whose onion names a hosted channel. -/
def hostedExit (H : Host) (w : World) (height : UInt32) (time : UInt64) (p target : PublicKey) (h : UpdateAddHtlc)
    (peeled : PeeledOnion) : Exit :=
  if target = p then .stranded
  else match w.channel target with
    | none => .stranded
    | some td =>
      if refusesTerms h peeled (w.routing H td) height then .refused (refusal H p h)
      else addExit H w height time p target td h peeled

/-- The exit of a dispatched HTLC of the channel of `p`, whose record is `d`. -/
def exitOf (H : Host) (w : World) (height : UInt32) (time : UInt64) (p : PublicKey) (d : ChannelData) (h : UpdateAddHtlc) :
    Exit :=
  if exceedsLimits d.lcss h then .refused (refusal H p h)
  else match H.crypto.peelOnion H.nodeSecret h.onionRoutingPacket h.paymentHash.toList with
    | none => .refused (.failMalformed (H.channelId p) h.id (H.crypto.sha256 h.onionRoutingPacket) 0xc005)
    | some peeled =>
      if h.amountMsat < peeled.amtToForward then .refused (refusal H p h)
      else match w.peers.find? (H.scid · == peeled.shortChannelId) with
        | some target => hostedExit H w height time p target h peeled
        | none => .offered (peeled.shortChannelId, h.id)

/-- The exit does not leave the HTLC of the channel with the record `d` behind: a failure can be signed, and
    the key of the link is free. -/
def Exit.Settles (H : Host) (w : World) (height : UInt32) (d : ChannelData) : Exit → Prop
  | .refused u => d.signsWith H height u = true
  | .stranded => False
  | .offered key => w.link key = none
  | .halted key u => w.link key = none ∨ d.signsWith H height u = true

/-! ### What is to be -/

/-- The HTLC has gone on under the link: it was offered to the client of a hosted channel, or handed to the node. -/
def GoneOn (H : Host) (w w' : World) (p : PublicKey) (h : UpdateAddHtlc) (key : HtlcKey) : Prop :=
  (∃ target a, H.scid target = key.1 ∧ a.id = key.2 ∧ a.paymentHash = h.paymentHash ∧
    (target, .updateAddHtlc a) ∈ w'.sent.drop w.sent.length) ∨
  ∃ s ∈ w'.onions.drop w.onions.length, s.source = p ∧ s.htlc = h ∧ s.params.label = key

/-- A resolution of the HTLC by the host is pending. -/
def Resolved (w : World) (p : PublicKey) (id : UInt64) : Prop :=
  ∃ d, w.channel p = some d ∧ hasUncommittedLocalResolution d id = true

/-- Between the worlds `w` and `w'` the HTLC of `p` has been forwarded or handed back. -/
def Handled (H : Host) (w w' : World) (p : PublicKey) (h : UpdateAddHtlc) : Prop :=
  (∃ key l, w'.link key = some l ∧ l.comesFrom (H.scid p) h.id = true ∧ GoneOn H w w' p h key) ∨ Resolved w' p h.id

/-- The HTLC of `p` has neither been forwarded nor resolved. -/
structure Waiting (H : Host) (w : World) (p : PublicKey) (d : ChannelData) (h : UpdateAddHtlc) : Prop where
  record : w.channel p = some d
  listed : h ∈ d.lcss.incomingHtlcs
  unresolved : hasUncommittedLocalResolution d h.id = false
  unlinked : ∀ k l, w.link k = some l → l.comesFrom (H.scid p) h.id = false

theorem Waiting.not_resolved (hw : Waiting H w p d h) (hp : v.channel p = w.channel p) : ¬ Resolved v p h.id := by
  rintro ⟨d', hd', hres⟩
  obtain rfl := Option.some.inj (hw.record.symm.trans (hp.symm.trans hd'))
  cases hw.unresolved.symm.trans hres

/-- Where the record and the links are the old ones, nothing has been done about the HTLC. -/
theorem Waiting.not_handled (hw : Waiting H w p d h) (hp : v.channel p = w.channel p) (hl : ∀ k, v.link k = w.link k) :
    ¬ Handled H w v p h := by
  rintro (⟨k, l, hk, hfrom, -⟩ | hres)
  · cases (hw.unlinked k l (hl k ▸ hk)).symm.trans hfrom
  · exact hw.not_resolved hp hres

/-- Where nothing was sent, the HTLC has not gone on. -/
theorem Waiting.not_handled_unsent (hw : Waiting H w p d h) (hp : v.channel p = w.channel p) (hs : v.sent = w.sent)
    (ho : v.onions = w.onions) : ¬ Handled H w v p h := by
  rintro (⟨k, l, -, -, ⟨target, a, -, -, -, hmem⟩ | ⟨s, hmem, -⟩⟩ | hres)
  · rw [hs, List.drop_length] at hmem
    cases hmem
  · rw [ho, List.drop_length] at hmem
    cases hmem
  · exact hw.not_resolved hp hres

/-! ### Failing on the source channel -/

theorem any_id_of_mem {htlcs : List UpdateAddHtlc} (hmem : h ∈ htlcs) : htlcs.any (·.id == h.id) = true :=
  List.any_eq_true.mpr ⟨h, hmem, beq_self_eq_true _⟩

section Failing
variable (hE : Unfailing E) (hh : ∀ x, E x → x.height = height)
include hE hh

/-- A resolution of a listed HTLC is pending afterwards, unless the state with it cannot be signed. -/
theorem surely_sendLocalResolution {id : UInt64} {msg : HostedMessage} (hd : v.channel p = some d)
    (hlist : d.lcss.incomingHtlcs.any (·.id == id) = true) :
    Surely exec E (sendLocalResolution H p id u msg) (fun r v' =>
      (d.signsWith H height u = true → v'.channel p = some (d.push (.ofLocal u))) ∧
      (d.signsWith H height u = false → v' = v ∧ ∃ e, r = .error e)) v := by
  unfold sendLocalResolution stateUpdateForUncommitted ChannelData.signsWith
  refine (yields_loadExisting hE hd).bind ?_
  rw [if_neg (by simp [hlist])]
  dsimp only
  cases hs : signedNext H height d.lcss (d.uncommitted ++ [.ofLocal u]) with
  | none =>
    obtain ⟨e, he⟩ := yields_unsigned hE v p hh hs
    refine Yields.fail (Yields.fail he ⟨rfl, rfl⟩) ?_
    exact ⟨fun h => (by cases h), fun _ => ⟨rfl, e, rfl⟩⟩
  | some t =>
    refine Yields.bind ((yields_signNext hE hh hs).bind Yields.pure) ?_
    refine (yields_saveChannel hE).bind ?_
    refine (Stays.surely ((Bookless.sendMessage p msg).bind fun _ => Bookless.sendMessage p _)).mono ?_
    intro r v' hb
    exact ⟨fun _ => (hb.channel p).trans World.channel_put, fun h => by cases h⟩

/-- A dispatched HTLC is failed, unless the state with the failure cannot be signed. -/
theorem surely_failDispatched (hd : v.channel p = some d) (hmem : h ∈ d.lcss.incomingHtlcs) :
    Surely exec E (failDispatched H p h) (fun r v' =>
      (d.signsWith H height (refusal H p h) = true → Resolved v' p h.id) ∧
      (d.signsWith H height (refusal H p h) = false →
        v' = v ∧ ∃ e, r = .error e)) v := by
  refine (surely_sendLocalResolution hE hh hd (any_id_of_mem hmem)).mono ?_
  intro r v' hpost
  refine ⟨fun hs => ⟨_, hpost.1 hs, ?_⟩, hpost.2⟩
  simp [hasUncommittedLocalResolution, ChannelData.push]

theorem surely_undoHostedForward (hd : v.channel p = some d) (hmem : h ∈ d.lcss.incomingHtlcs) :
    Surely exec E (undoHostedForward H p h) (fun _ v' =>
      (d.signsWith H height (refusal H p h) = true → Resolved v' p h.id) ∧
      (d.signsWith H height (refusal H p h) = false → v' = v)) v := by
  refine Surely.andThen (surely_failDispatched hE hh hd hmem) ?_ ?_
  · intro _ v₁ hpost
    cases hs : d.signsWith H height (refusal H p h) with
    | false =>
      obtain ⟨-, e, he⟩ := hpost.2 hs
      cases he
    | true =>
      refine Surely.mono (Surely.andThen (S := fun _ v₂ => v₂ = v₁) ?_ (Q := fun _ v' => Resolved v' p h.id) ?_ ?_) ?_
      · exact (Stays.surely (Reading.forwardLinkForIncoming _ _)).mono fun _ _ he => he.symm
      · intro r v₂ he
        subst he
        cases r with
        | none => exact Surely.pure (hpost.1 hs)
        | some l =>
          refine Yields.bind (b := .ok ()) (v := v₂.erase .htlcForwards (l.outgoingScid, l.outgoingHtlcId)) (Yields.ask ?_)
            (Surely.pure ?_)
          · intro x hx
            simp [exec, hE x hx]
          · obtain ⟨d', hd', hres⟩ := hpost.1 hs
            exact ⟨d', World.channel_erase_link.trans hd', hres⟩
      · rintro e _ rfl
        exact hpost.1 hs
      · exact fun _ _ hres => ⟨fun _ => hres, fun hf => by cases hf⟩
  · intro e v₁ hpost
    exact ⟨hpost.1, fun hs => (hpost.2 hs).1⟩

end Failing

/-! ### Offering -/

/-- The link of the HTLC was stored if its key was free, and the HTLC has gone on. -/
structure LinkedOn (H : Host) (w v : World) (p : PublicKey) (h : UpdateAddHtlc) (key : HtlcKey) : Prop where
  free : w.link key = none → ∃ l, v.link key = some l ∧ l.comesFrom (H.scid p) h.id = true
  taken : w.link key ≠ none → ∀ k, v.link k = w.link k
  gone : GoneOn H w v p h key

/-- What offering an HTLC to another hosted channel comes to. -/
def Exit.Leaves (H : Host) (w : World) (p : PublicKey) (h : UpdateAddHtlc) (r : Except ChannelError Unit) (v : World) :
    Exit → Prop
  | .refused u => (∃ e, r = .error e) ∧ u = refusal H p h ∧ v.channel p = w.channel p ∧ v.sent = w.sent ∧
      v.onions = w.onions
  | .stranded => r = .ok () ∧ v.channel p = w.channel p ∧ ∀ k, v.link k = w.link k
  | .offered key => r = .ok () ∧ v.channel p = w.channel p ∧ LinkedOn H w v p h key
  | .halted key u => (∃ e, r = .error e) ∧ u = refusal H p h ∧ v.channel p = w.channel p ∧ LinkedOn H w v p h key

theorem World.put_sent {n : Ns} {k : n.Key} {x : n.Val} : (w.put n k x).sent = w.sent := rfl

theorem World.put_onions {n : Ns} {k : n.Key} {x : n.Val} : (w.put n k x).onions = w.onions := rfl

theorem stateUpdate_sendable {m : StateUpdate} : w.sendable p (.stateUpdate m) = true := by
  unfold World.sendable HostedMessage.encodeWithEncoding
  cases (w.peerWireEncodings.lookup p).getD .strict with
  | strict => rfl
  | legacy =>
    have hbody : HostedMessage.encodeBody (.stateUpdate m) = .ok (writeU32 m.blockDay ++ writeU32 m.localUpdates ++
      writeU32 m.remoteUpdates ++ m.localSigOfRemote.toList) := rfl
    have hshort : ¬ (writeU32 m.blockDay ++ writeU32 m.localUpdates ++ writeU32 m.remoteUpdates ++
        m.localSigOfRemote.toList).length > 65535 := by
      simp [writeU32, beBytes]
    simp only [hbody, writeVarsize, bind, Except.bind, if_neg hshort]
    rfl

/-- The link under which an HTLC goes on to another hosted channel. -/
def onwardLink (H : Host) (p target : PublicKey) (td : ChannelData) (h : UpdateAddHtlc) (peeled : PeeledOnion)
    (deadline : UInt64) : ForwardLink where
  incomingScid := H.scid p
  incomingHtlcId := h.id
  outgoingScid := H.scid target
  outgoingHtlcId := nextHtlcId td
  upstreamCltvExpiry := some peeled.outgoingCltvValue
  hostedCommitDeadlineUnix := some deadline
  paymentHash := h.paymentHash
  sharedSecret := some peeled.sharedSecret

/-- The world in which the HTLC is linked and stored with the target channel. -/
def stored (H : Host) (w : World) (p target : PublicKey) (td : ChannelData) (h : UpdateAddHtlc) (peeled : PeeledOnion)
    (deadline : UInt64) : World :=
  World.put (if (w.link (H.scid target, nextHtlcId td)).isNone then
      w.put .htlcForwards (H.scid target, nextHtlcId td) (onwardLink H p target td h peeled deadline) else w)
    .channels target (td.push (.ofLocal (.add (onwardHtlc H target (nextHtlcId td) h peeled))))

section Stored
variable {deadline : UInt64}

theorem stored_channel (hne : target ≠ p) : (stored H w p target td h peeled deadline).channel p = w.channel p := by
  unfold stored
  rw [World.channel_put_ne hne.symm]
  split
  · exact World.channel_put_link
  · rfl

theorem stored_sent : (stored H w p target td h peeled deadline).sent = w.sent := by
  unfold stored
  split <;> rfl

theorem stored_onions : (stored H w p target td h peeled deadline).onions = w.onions := by
  unfold stored
  split <;> rfl

theorem stored_sendable {q : PublicKey} {msg : HostedMessage} :
    (stored H w p target td h peeled deadline).sendable q msg = w.sendable q msg := by
  unfold stored
  split <;> rfl

/-- From there the HTLC is linked if it can be, and goes on once the client is told of it. -/
theorem linkedOn_stored (hl : ∀ k, v.link k = (stored H w p target td h peeled deadline).link k)
    (hs : ∃ more, v.sent = w.sent ++ (target, .updateAddHtlc (onwardHtlc H target (nextHtlcId td) h peeled)) :: more) :
    LinkedOn H w v p h (H.scid target, nextHtlcId td) where
  free hfree := by
    refine ⟨onwardLink H p target td h peeled deadline, ?_, ?_⟩
    · rw [hl, stored, World.link_put_channel, if_pos (by rw [hfree]; rfl), World.link_put]
    · simp [ForwardLink.comesFrom, onwardLink]
  taken htaken k := by
    rw [hl, stored, World.link_put_channel, if_neg (by simpa using htaken)]
  gone := by
    obtain ⟨more, hs⟩ := hs
    refine Or.inl ⟨target, onwardHtlc H target (nextHtlcId td) h peeled, rfl, rfl, rfl, ?_⟩
    rw [hs, List.drop_left]
    exact List.mem_cons_self

end Stored

theorem surely_offerHtlc (hsteady : ∀ x, E x → SteadyAt height time x) (hne : target ≠ p) :
    Surely exec E (offerHtlc H target td (onwardHtlc H target 0 h peeled) (H.scid p) h.id
      (some peeled.sharedSecret) (some peeled.outgoingCltvValue))
      (fun r v => (offerExit H w height time p target td h peeled).Leaves H w p h r v) w := by
  have hE : Unfailing E := fun x hx => (hsteady x hx).fails
  have hh : ∀ x, E x → x.height = height := fun x hx => (hsteady x hx).height
  have htime : Yields exec E (ask .systemTime) w (.ok (some time)) w := by
    refine Yields.ask ?_
    intro x hx
    simp [exec, hE x hx, (hsteady x hx).time]
  unfold offerHtlc offerExit
  dsimp only
  cases hdl : checkedAdd time hostedCommitTimeoutSecs with
  | none =>
    have hlate : Yields exec E hostedCommitDeadline w (.error (.invalidMessage "hosted commit deadline overflow")) w := by
      refine htime.bind (Yields.pure.bind ?_)
      rw [hdl]
      exact Yields.throw
    exact hlate.fail ⟨⟨_, rfl⟩, rfl, rfl, rfl, rfl⟩
  | some deadline =>
    have hdeadline : Yields exec E hostedCommitDeadline w (.ok deadline) w := by
      refine htime.bind (Yields.pure.bind ?_)
      rw [hdl]
      exact Yields.pure
    refine hdeadline.bind ?_
    refine (yields_createForwardLink hE).bind ((yields_saveChannel hE).bind ?_)
    show Surely (I := iface) exec E _ _ (stored H w p target td h peeled deadline)
    rw [if_neg (by simp)]
    cases hsend : w.sendable target (.updateAddHtlc (onwardHtlc H target (nextHtlcId td) h peeled)) with
    | false =>
      obtain ⟨e, he⟩ := yields_undeliverable (w := stored H w p target td h peeled deadline)
        (d := td.push (.ofLocal (.add (onwardHtlc H target (nextHtlcId td) h peeled)))) hE (stored_sendable.trans hsend)
      refine Yields.fail he ⟨⟨e, rfl⟩, rfl, ?_, ?_, ?_⟩
      · rw [World.channel_put_ne hne.symm]
        exact stored_channel hne
      · rw [World.put_sent]
        exact stored_sent
      · rw [World.put_onions]
        exact stored_onions
    | true =>
      refine (yields_deliver hE (stored_sendable.trans hsend)).bind ?_
      rw [if_neg (by simp)]
      let v₁ := (stored H w p target td h peeled deadline).send target (.updateAddHtlc (onwardHtlc H target (nextHtlcId td) h peeled))
      have hsent : v₁.sent = w.sent ++ [(target, .updateAddHtlc (onwardHtlc H target (nextHtlcId td) h peeled))] :=
        congrArg (· ++ [_]) stored_sent
      cases hnext : signedNext H height td.lcss (td.uncommitted ++ [.ofLocal (.add (onwardHtlc H target (nextHtlcId td) h peeled))]) with
      | none =>
        obtain ⟨e, he⟩ := yields_unsigned hE v₁ target hh hnext
        refine Yields.fail he ⟨⟨e, rfl⟩, rfl, stored_channel hne, ?_⟩
        exact linkedOn_stored (fun _ => rfl) ⟨[], hsent⟩
      | some t =>
        refine (yields_signNext hE hh hnext).bind ?_
        refine (yields_deliver hE stateUpdate_sendable).mono ?_
        rintro r v ⟨rfl, rfl⟩
        refine ⟨rfl, stored_channel hne, linkedOn_stored (fun _ => rfl) ⟨[(target, .stateUpdate t.stateUpdate)], ?_⟩⟩
        show v₁.sent ++ [(target, .stateUpdate t.stateUpdate)] = _
        rw [hsent, List.append_assoc]
        rfl

section Adding
variable (hsteady : ∀ x, E x → SteadyAt height time x)
include hsteady

/-- An HTLC that the node is told about is stranded. -/
theorem surely_stranded {r : HtlcResolution} :
    Surely exec E (resolveUpstream key r) (fun r' v => Exit.stranded.Leaves H w p h r' v) w := by
  refine Surely.mono (yields_resolveUpstream fun x hx => (hsteady x hx).fails) ?_
  rintro r' v ⟨rfl, rfl⟩
  exact ⟨rfl, rfl, fun _ => rfl⟩

theorem surely_channelHandleHtlcAdd (hne : target ≠ p) (hp : (w.channel p).isSome) (hd : w.channel target = some td) :
    Surely exec E (channelHandleHtlcAdd H target (onwardHtlc H target 0 h peeled) (H.scid p, h.id)
      (H.scid p) h.id (some peeled.sharedSecret))
      (fun r v => (addExit H w height time p target td h peeled).Leaves H w p h r v) w := by
  have hE : Unfailing E := fun x hx => (hsteady x hx).fails
  unfold channelHandleHtlcAdd channelHandleHtlcAddWithUpstreamExpiry addExit
  refine (yields_loadExisting hE hd).bind ?_
  by_cases hactive : deriveStatus td = .active
  swap
  · rw [if_pos hactive, if_pos hactive]
    exact Surely.throw ⟨⟨_, rfl⟩, rfl, rfl, rfl, rfl⟩
  rw [if_neg (not_not_intro hactive), if_neg (not_not_intro hactive)]
  refine Yields.bind (Yields.ask fun x _ => rfl) ?_
  by_cases haway : w.peerConnections.lookup target = some false
  · rw [if_pos haway, if_pos haway]
    exact surely_stranded hsteady
  rw [if_neg haway, if_neg haway]
  have hlookup : Yields exec E (ask (.lookupPreimage h.paymentHash)) w (.ok (.ok (w.preimages.lookup h.paymentHash))) w := by
    refine Yields.ask ?_
    intro x hx
    simp [exec, hE x hx]
  refine hlookup.bind ?_
  cases w.preimages.lookup h.paymentHash with
  | some preimage => exact surely_stranded hsteady
  | none =>
    rw [if_neg (by simp)]
    unfold checkAndOffer
    refine (yields_routingPolicyForData hE).bind ((yields_peerForHostedScid hE).bind ?_)
    obtain ⟨q, hq⟩ : ∃ q, w.peers.find? (H.scid · == H.scid p) = some q := by
      rw [← Option.isSome_iff_exists, List.find?_isSome]
      exact ⟨p, World.mem_peers.mpr hp, beq_self_eq_true _⟩
    -- The source is hosted, so the expiry of the HTLC is not checked against it.
    rw [hq]
    refine Yields.bind (b := false) (v := w) Yields.pure ?_
    rw [if_neg (by simp), onwardHtlc_amountMsat]
    by_cases hmin : peeled.amtToForward < td.lcss.initHostedChannel.htlcMinimumMsat
    · rw [if_pos hmin, if_pos hmin]
      exact surely_stranded hsteady
    rw [if_neg hmin, if_neg hmin]
    by_cases hmax : peeled.amtToForward > (w.routing H td).htlcMaximumMsat
    · rw [if_pos hmax, if_pos hmax]
      exact surely_stranded hsteady
    rw [if_neg hmax, if_neg hmax]
    cases StateManager.lcssNext H.crypto ⟨td.lcss, td.uncommitted⟩ with
    | error e => exact Yields.fail Yields.throw ⟨⟨_, rfl⟩, rfl, rfl, rfl, rfl⟩
    | ok next =>
      refine Yields.bind Yields.pure ?_
      dsimp only
      split
      · exact surely_stranded hsteady
      · exact surely_offerHtlc hsteady hne

end Adding

/-! ### Where a dispatched HTLC is left -/

/-- A link for the HTLC is stored and the HTLC has gone on exactly if the key was free. -/
theorem Waiting.handled_linked (hw : Waiting H w p d h) (hp : v.channel p = w.channel p) (hl : LinkedOn H w v p h key) :
    Handled H w v p h ↔ w.link key = none := by
  constructor
  · intro hhandled
    by_contra htaken
    exact hw.not_handled hp (hl.taken htaken) hhandled
  · intro hfree
    obtain ⟨l, hlink, hfrom⟩ := hl.free hfree
    exact Or.inl ⟨key, l, hlink, hfrom, hl.gone⟩

/-- An HTLC that is failed on its source channel is handled exactly if that can be signed, or was before. -/
theorem handled_failed {signable : Bool} (hres : signable = true → Resolved v' p h.id) (hsame : signable = false → v' = v) :
    Handled H w v' p h ↔ signable = true ∨ Handled H w v p h ∧ signable = false := by
  cases signable with
  | true => exact ⟨fun _ => Or.inl rfl, fun _ => Or.inr (hres rfl)⟩
  | false =>
    rw [hsame rfl]
    simp

section HandedOver
variable {l : ForwardLink} {params : SendOnionParams}

theorem channel_handedOver : (World.handOver (if (w.link key).isNone then w.put .htlcForwards key l else w) p h
    params).channel p = w.channel p := by
  show (if (w.link key).isNone then w.put .htlcForwards key l else w).channel p = w.channel p
  split
  · exact World.channel_put_link
  · rfl

/-- An HTLC that the node took is linked if it can be, and goes on. -/
theorem linkedOn_handedOver (hfrom : l.comesFrom (H.scid p) h.id = true) (hkey : params.label = key) :
    LinkedOn H w (World.handOver (if (w.link key).isNone then w.put .htlcForwards key l else w) p h params) p h key where
  free hfree := by
    rw [if_pos (by rw [hfree]; rfl)]
    exact ⟨l, World.link_put, hfrom⟩
  taken htaken k := by
    rw [if_neg (by simpa using htaken)]
    rfl
  gone := by
    refine Or.inr ⟨⟨p, h, params⟩, ?_, rfl, rfl, hkey⟩
    have honions : (if (w.link key).isNone then w.put .htlcForwards key l else w).onions = w.onions := by
      split <;> rfl
    show _ ∈ ((if (w.link key).isNone then w.put .htlcForwards key l else w).onions ++ [_]).drop w.onions.length
    rw [honions, List.drop_left]
    exact List.mem_singleton_self _

end HandedOver

section Dispatching
variable (hsteady : ∀ x, E x → SteadyAt height time x) (hw : Waiting H w p d h)
include hsteady hw

omit hw in
theorem yields_heightOrZero : Yields exec E heightOrZero w (.ok height) w := by
  refine Yields.bind (b := .ok height) (v := w) (Yields.ask ?_) Yields.pure
  intro x hx
  simp [exec, (hsteady x hx).fails, (hsteady x hx).height]

theorem surely_refused :
    Surely exec E (failDispatched H p h)
      (fun _ v => Handled H w v p h ↔ (Exit.refused (refusal H p h)).Settles H w height d) w := by
  refine (surely_failDispatched (fun x hx => (hsteady x hx).fails) (fun x hx => (hsteady x hx).height) hw.record
    hw.listed).mono ?_
  intro r v hpost
  rw [handled_failed hpost.1 fun hs => (hpost.2 hs).1]
  exact or_iff_left fun hno => hw.not_handled rfl (fun _ => rfl) hno.1

/-- An offer that failed is undone on the source channel. -/
theorem surely_afterOffer {e : Exit} {r : Except ChannelError Unit} (hleaves : e.Leaves H w p h r v) :
    Surely exec E (match r with
      | .ok () => pure ()
      | .error _ => undoHostedForward H p h)
      (fun _ v' => Handled H w v' p h ↔ e.Settles H w height d) v := by
  have hundo (hp : v.channel p = w.channel p) : Surely exec E (undoHostedForward H p h) (fun _ v' =>
      (d.signsWith H height (refusal H p h) = true → Resolved v' p h.id) ∧
      (d.signsWith H height (refusal H p h) = false → v' = v)) v :=
    surely_undoHostedForward (fun x hx => (hsteady x hx).fails) (fun x hx => (hsteady x hx).height)
      (hp.trans hw.record) hw.listed
  cases e with
  | stranded =>
    obtain ⟨rfl, hp, hl⟩ := hleaves
    exact Surely.pure ⟨fun hno => hw.not_handled hp hl hno, fun hf => hf.elim⟩
  | offered key =>
    obtain ⟨rfl, hp, hl⟩ := hleaves
    exact Surely.pure (hw.handled_linked hp hl)
  | refused u =>
    obtain ⟨⟨_, rfl⟩, rfl, hp, hsent, honions⟩ := hleaves
    refine (hundo hp).mono ?_
    intro _ v' hpost
    rw [handled_failed hpost.1 hpost.2]
    exact or_iff_left fun hno => hw.not_handled_unsent hp hsent honions hno.1
  | halted key u =>
    obtain ⟨⟨_, rfl⟩, rfl, hp, hl⟩ := hleaves
    refine (hundo hp).mono ?_
    intro _ v' hpost
    rw [handled_failed hpost.1 hpost.2, hw.handled_linked hp hl]
    unfold Exit.Settles
    cases hs : d.signsWith H height (refusal H p h) with
    | true => simp [hs]
    | false => simp [hs]

theorem surely_forwardToHosted (hfound : (w.channel target).isSome) :
    Surely exec E (forwardToHosted H p target h peeled)
      (fun _ v => Handled H w v p h ↔ (hostedExit H w height time p target h peeled).Settles H w height d) w := by
  have hE : Unfailing E := fun x hx => (hsteady x hx).fails
  obtain ⟨td, hd⟩ := Option.isSome_iff_exists.mp hfound
  unfold forwardToHosted hostedExit
  by_cases hne : target = p
  · rw [if_pos hne, if_pos hne]
    refine Surely.throw ?_
    exact ⟨fun hno => hw.not_handled rfl (fun _ => rfl) hno, fun hf => hf.elim⟩
  rw [if_neg hne, if_neg hne, hd]
  refine (yields_loadExisting hE hd).bind ((yields_routingPolicyForData hE).bind ?_)
  refine (yields_heightOrZero hsteady).bind ?_
  dsimp only
  split
  · exact surely_refused hsteady hw
  refine Surely.andThen (Surely.attempt (Q := fun r v => ∃ r', r = .ok r' ∧
      (addExit H w height time p target td h peeled).Leaves H w p h r' v) ?_) ?_ ?_
  · refine (surely_channelHandleHtlcAdd hsteady hne (by rw [hw.record]; rfl) hd).mono ?_
    exact fun r v hleaves => ⟨r, rfl, hleaves⟩
  · rintro r v ⟨r', hr, hleaves⟩
    cases hr
    exact surely_afterOffer hsteady hw hleaves
  · rintro e v ⟨r', hr, -⟩
    cases hr

theorem surely_forwardToNode :
    Surely exec E (forwardToNode H p h peeled)
      (fun _ v => Handled H w v p h ↔ w.link (peeled.shortChannelId, h.id) = none) w := by
  have hE : Unfailing E := fun x hx => (hsteady x hx).fails
  unfold forwardToNode
  dsimp only
  refine (yields_createForwardLink hE).bind ((yields_heightOrZero hsteady).bind ?_)
  refine (yields_sendOnion hE).bind (Surely.pure ?_)
  exact hw.handled_linked channel_handedOver (linkedOn_handedOver (by simp [ForwardLink.comesFrom]) rfl)

theorem surely_dispatch :
    Surely exec E (dispatchCommittedIncomingHtlc H p d h)
      (fun _ v => Handled H w v p h ↔ (exitOf H w height time p d h).Settles H w height d) w := by
  have hE : Unfailing E := fun x hx => (hsteady x hx).fails
  unfold dispatchCommittedIncomingHtlc exitOf
  split
  · exact surely_refused hsteady hw
  cases H.crypto.peelOnion H.nodeSecret h.onionRoutingPacket h.paymentHash.toList with
  | none =>
    refine (surely_sendLocalResolution hE (fun x hx => (hsteady x hx).height) hw.record (any_id_of_mem hw.listed)).mono ?_
    intro r v hpost
    refine (handled_failed (fun hs => ⟨_, hpost.1 hs, ?_⟩) fun hs => (hpost.2 hs).1).trans ?_
    · simp [hasUncommittedLocalResolution, ChannelData.push]
    · exact or_iff_left fun hno => hw.not_handled rfl (fun _ => rfl) hno.1
  | some peeled =>
    dsimp only
    split
    · exact surely_refused hsteady hw
    refine (yields_peerForHostedScid hE).bind ?_
    cases hfind : w.peers.find? (H.scid · == peeled.shortChannelId) with
    | none => exact surely_forwardToNode hsteady hw
    | some target => exact surely_forwardToHosted hsteady hw (World.mem_peers.mp (List.mem_of_find?_eq_some hfind))

end Dispatching

/-- A second client has a channel and is away. The first one has an HTLC forwarded by `scid`: the state that
    lists it is presented, so nothing has been done about it yet. -/
def undispatchedScript (scid : UInt64) : List (World → Op) :=
  [clientInvokes .transparent otherKey, clientCommits .transparent otherKey, fun _ => .disconnect otherPeer] ++
  openScript ++ [clientAdds openKey 1 500 (ByteVec.fill 32 7) scid, hostPays 3,
    clientShows .transparent openKey openPeer 0]

/-- The channel of the first client lists an HTLC about which nothing has been done. -/
def waits (w : World) (d : ChannelData) (h : UpdateAddHtlc) : Bool :=
  d.lcss.incomingHtlcs.contains h && !hasUncommittedLocalResolution d h.id &&
    w.linkKeys.all fun k => (w.link k).all fun l => !l.comesFrom (Host.transparent.scid openPeer) h.id

theorem waiting_of_waits (hd : w.channel openPeer = some d) (hs : waits w d h = true) :
    Waiting .transparent w openPeer d h := by
  simp only [waits, Bool.and_eq_true, List.contains_iff_mem, Bool.not_eq_true', List.all_eq_true] at hs
  obtain ⟨⟨hlist, hres⟩, hlinks⟩ := hs
  refine ⟨hd, hlist, hres, ?_⟩
  intro k l hl
  have hk := hlinks k (World.mem_linkKeys.mpr (by rw [hl]; rfl))
  rw [hl, Option.all_some] at hk
  simpa using hk

end Canopus
