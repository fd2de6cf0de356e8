import Canopus.Lib.Restrict
import Canopus.Theorems.ForwardSteps
import Canopus.Transparent

/-! What the functions of the controller do where no call fails: a read returns what is stored, a write
    is made, a message goes out if it can be encoded. Each lemma evaluates one function, so that an
    outcome of a longer one is found by a chain of them. -/

namespace Canopus
open Effect Fallible

variable {E : Choice → Prop} {H : Host} {w : World} {peer : PublicKey} {d : ChannelData} {n : Ns} {k : n.Key}

/-- None of the environment's choices is a failure. -/
def Unfailing (E : Choice → Prop) : Prop := ∀ x, E x → x.fails = false

theorem unfailing_calm : Unfailing (· = .calm) := by
  rintro _ rfl
  rfl

/-! ### Reading -/

section Reading
variable (hE : Unfailing E)
include hE

theorem yields_getJson {v : n.Val} {g : Nat} (h : (w.store n).lookup k = some (g, v)) :
    Yields exec E (getJson n k) w (.ok (.ok (v, g))) w := by
  refine Yields.ask ?_
  intro x hx
  simp [exec, hE x hx, h]

theorem yields_notFound (h : (w.store n).lookup k = none) : Yields exec E (getJson n k) w (.ok (.error .notFound)) w := by
  refine Yields.ask ?_
  intro x hx
  simp [exec, hE x hx, h]

theorem yields_loadChannel : Yields exec E (loadChannel peer) w (.ok (w.channel peer)) w := by
  unfold loadChannel
  cases hd : w.channel peer with
  | none => exact (yields_notFound hE (Table.lookup_of_value?_none hd)).bind Yields.pure
  | some d =>
    obtain ⟨g, hl⟩ := Table.exists_entry hd
    exact (yields_getJson hE hl).bind Yields.pure

theorem yields_loadExisting (hd : w.channel peer = some d) : Yields exec E (loadExisting peer) w (.ok d) w := by
  refine (yields_loadChannel hE).bind ?_
  rw [hd]
  exact Yields.pure

theorem yields_effectivePolicy : Yields exec E (effectivePolicy H) w (.ok (w.effectivePolicy H)) w := by
  unfold effectivePolicy World.effectivePolicy
  cases h : (w.store .policy).value? () with
  | none => exact (yields_notFound hE (Table.lookup_of_value?_none h)).bind Yields.pure
  | some policy =>
    obtain ⟨g, hl⟩ := Table.exists_entry h
    exact (yields_getJson hE hl).bind Yields.pure

theorem yields_routingPolicyForData : Yields exec E (routingPolicyForData H d) w (.ok (w.routing H d)) w := by
  unfold routingPolicyForData World.routing
  cases d.routingPolicy with
  | some r => exact Yields.pure
  | none => exact (yields_effectivePolicy hE).bind Yields.pure

theorem yields_listChannels : Yields exec E listChannels w (.ok w.peers) w := by
  refine Yields.bind (b := .ok w.peers) (v := w) (Yields.ask ?_) Yields.pure
  intro x hx
  simp [exec, hE x hx]

theorem yields_peerForHostedScid {scid : UInt64} :
    Yields exec E (peerForHostedScid H scid) w (.ok (w.peers.find? (H.scid · == scid))) w :=
  (yields_listChannels hE).bind Yields.pure

end Reading

/-- Reading a record changes nothing, whether or not it succeeds. -/
theorem surely_loadExisting :
    Surely exec E (loadExisting peer) (fun r w' => w = w' ∧ ∀ d, r = .ok d → w.channel peer = some d) w := by
  have hdoes : Does exec (fun y _ _ => E y) (fun (_ : Unit) (a b : World) => a = b) (fun _ => True) (loadExisting peer) w
      (fun d w' => w' = w ∧ w.channel peer = some d) := does_loadExisting
  unfold Does at hdoes
  unfold Surely
  refine Wp.mono hdoes fun r w' h => ⟨?_, fun d hr => (h.2 d hr).2⟩
  exact Trace.keeps (P := fun v => w = v) h.1 (fun _ _ _ _ hs hv => hv.trans hs) rfl

/-! ### Writing -/

section Writing
variable (hE : Unfailing E)
include hE

theorem yields_saveChannel {d' : ChannelData} :
    Yields exec E (saveChannel peer d' none) w (.ok ()) (w.put .channels peer d') := by
  unfold saveChannel createJson updateJson
  dsimp only
  cases hl : (w.store .channels).lookup peer with
  | none =>
    refine Yields.bind (b := .ok ()) (v := w.put .channels peer d') (Yields.ask ?_) Yields.pure
    intro x hx
    simp [exec, hE x hx, hl]
  | some e =>
    refine Yields.bind (b := .error .alreadyExists) (v := w) (Yields.ask ?_) ?_
    · intro x hx
      simp [exec, hE x hx, hl]
    · refine (yields_getJson hE hl).bind (Yields.pure.bind ?_)
      refine Yields.bind (b := .ok ()) (v := w.put .channels peer d') (Yields.ask ?_) Yields.pure
      intro x hx
      simp [exec, hE x hx, hl]

/-- A link is created where there is none yet. -/
theorem yields_createForwardLink {key : HtlcKey} {l : ForwardLink} :
    Yields exec E (createForwardLink key l) w (.ok ())
      (if (w.link key).isNone then w.put .htlcForwards key l else w) := by
  unfold createForwardLink createJson
  cases hl : (w.store .htlcForwards).lookup key with
  | none =>
    rw [if_pos (by rw [World.link, Table.value?_eq_none_of_entry hl]; rfl)]
    refine Yields.bind (b := .ok ()) (v := w.put .htlcForwards key l) (Yields.ask ?_) Yields.pure
    intro x hx
    simp [exec, hE x hx, hl]
  | some e =>
    rw [if_neg (by rw [World.link, Table.value?_of_entry hl]; simp)]
    refine Yields.bind (b := .error .alreadyExists) (v := w) (Yields.ask ?_) Yields.pure
    intro x hx
    simp [exec, hE x hx, hl]

theorem yields_storePreimage {hash : Hash} {preimage : ByteVec 32} :
    Yields exec E (ask (.storePreimage hash preimage)) w (.ok (.ok ()))
      { w with preimages := w.preimages.insert hash preimage } := by
  refine Yields.ask ?_
  intro x hx
  simp [exec, hE x hx]

end Writing

/-! ### Answering -/

/-- The world after the node was given an answer. -/
def World.answer (w : World) (key : HtlcKey) (r : HtlcResolution) : World :=
  { w with resolutions := w.resolutions ++ [(key, r)] }

@[simp] theorem World.channel_answer {key : HtlcKey} {r : HtlcResolution} {q : PublicKey} :
    (w.answer key r).channel q = w.channel q := rfl

@[simp] theorem World.link_answer {key k : HtlcKey} {r : HtlcResolution} : (w.answer key r).link k = w.link k := rfl

/-- The id is that of a normal channel: no hosted channel has it. -/
def World.Normal (H : Host) (w : World) (scid : UInt64) : Prop := ∀ q, (w.channel q).isSome → H.scid q ≠ scid

theorem World.Normal.find_peer {scid : UInt64} (h : w.Normal H scid) : w.peers.find? (H.scid · == scid) = none := by
  rw [List.find?_eq_none]
  intro q hq
  simpa using h q (World.mem_peers.mp hq)

/-- Rewriting a record changes no channel's id. -/
theorem World.Normal.put {scid : UInt64} {d' : ChannelData} (h : w.Normal H scid) (hd : w.channel peer = some d) :
    (w.put .channels peer d').Normal H scid := by
  intro q hq
  by_cases heq : q = peer
  · subst heq
    exact h q (by rw [hd]; rfl)
  · rw [World.channel_put_ne heq] at hq
    exact h q hq

section Answering
variable (hE : Unfailing E) {key : HtlcKey} {l : ForwardLink}
include hE

theorem yields_resolveUpstream {r : HtlcResolution} :
    Yields exec E (resolveUpstream key r) w (.ok ()) (w.answer key r) := by
  refine Yields.bind (b := .ok ()) (v := w.answer key r) (Yields.ask ?_) Yields.pure
  intro x hx
  simp [exec, hE x hx, World.answer]

theorem yields_dropForwardLink : Yields exec E (dropForwardLink key) w (.ok ()) (w.erase .htlcForwards key) := by
  refine Yields.bind (b := .ok ()) (v := w.erase .htlcForwards key) (Yields.ask ?_) Yields.pure
  intro x hx
  simp [exec, hE x hx]

/-- An HTLC of a normal channel is answered by the node. -/
theorem yields_answerIncoming {toPeer : PublicKey → Ctl Unit} {r : HtlcResolution}
    (hnormal : w.Normal H l.incomingScid) :
    Yields exec E (answerIncoming H l toPeer r) w (.ok ()) (w.answer (l.incomingScid, l.incomingHtlcId) r) := by
  refine (yields_peerForHostedScid hE).bind ?_
  rw [hnormal.find_peer]
  exact yields_resolveUpstream hE

theorem yields_withForwardLink {f : ForwardLink → Ctl Unit} {r : Except ChannelError Unit} {v : World}
    (hl : w.link key = some l) (hf : Yields exec E (f l) w r v) : Yields exec E (withForwardLink key f) w r v := by
  obtain ⟨g, hg⟩ := Table.exists_entry hl
  exact (yields_getJson hE hg).bind hf

end Answering

/-! ### Signing and sending -/

/-- No call fails, the block height stays what it is, and so does the time. -/
structure SteadyAt (height : UInt32) (time : UInt64) (x : Choice) : Prop where
  fails : x.fails = false
  height : x.height = height
  time : x.time = time

/-- A message can be encoded for the peer. -/
def World.sendable (w : World) (peer : PublicKey) (msg : HostedMessage) : Bool :=
  (msg.encodeWithEncoding ((w.peerWireEncodings.lookup peer).getD .strict)).isOk

/-- The world after a message went out. -/
def World.send (w : World) (peer : PublicKey) (msg : HostedMessage) : World := { w with sent := w.sent ++ [(peer, msg)] }

/-- The state that is signed at a block height, if its updates fold and it can be encoded. -/
def signedNext (H : Host) (height : UInt32) (lcss : LastCrossSignedState) (us : List UncommittedUpdate) :
    Option LastCrossSignedState :=
  match StateManager.lcssNext H.crypto ⟨lcss, us⟩ with
  | .ok next => (LastCrossSignedState.sign H.crypto H.nodeSecret { next with blockDay := height / 144 }).toOption
  | .error _ => none

section Signing
variable (hE : Unfailing E)
include hE

theorem yields_getBlockHeight {height : UInt32} (hh : ∀ x, E x → x.height = height) :
    Yields exec E getBlockHeight w (.ok height) w := by
  refine Yields.bind (b := .ok height) (v := w) (Yields.ask ?_) Yields.pure
  intro x hx
  simp [exec, hE x hx, hh x hx]

theorem yields_currentBlockDay {height : UInt32} (hh : ∀ x, E x → x.height = height) :
    Yields exec E currentBlockDay w (.ok (height / 144)) w :=
  (yields_getBlockHeight hE hh).bind Yields.pure

omit hE in
theorem yields_signFor {s t : LastCrossSignedState} (hs : s.sign H.crypto H.nodeSecret = .ok t) :
    Yields exec E (signFor H peer s) w (.ok t) (w.noteSigned peer t) := by
  unfold signFor
  rw [hs]
  exact Yields.bind Yields.pure (Yields.bind (Yields.ask fun x _ => rfl) Yields.pure)

/-- A state is signed and saved, unless it cannot be signed; then nothing happens. -/
theorem surely_signs {Q : World → Prop} {s : LastCrossSignedState} {saved : LastCrossSignedState → ChannelData}
    {rest : LastCrossSignedState → Ctl Unit} (hw : Q w)
    (h : ∀ lcss, s.sign H.crypto H.nodeSecret = .ok lcss → Surely exec E (rest lcss) (fun _ v => Q v)
      ((w.noteSigned peer lcss).put .channels peer (saved lcss))) :
    Surely exec E (do
      let lcss ← signFor H peer s
      saveChannel peer (saved lcss) none
      rest lcss) (fun _ v => Q v) w := by
  cases hsign : s.sign H.crypto H.nodeSecret with
  | error e =>
    have hfails : Yields exec E (signFor H peer s) w (.error (.encode e)) w := by
      unfold signFor
      rw [hsign]
      exact Yields.fail Yields.throw ⟨rfl, rfl⟩
    exact hfails.fail hw
  | ok lcss => exact (yields_signFor hsign).bind ((yields_saveChannel hE).bind (h lcss hsign))

theorem yields_sendMessage {msg : HostedMessage} (hs : w.sendable peer msg = true) :
    Yields exec E (sendMessage peer msg) w (.ok ()) (w.send peer msg) := by
  refine Yields.bind (Yields.ask fun x _ => rfl) ?_
  unfold World.sendable at hs
  cases he : msg.encodeWithEncoding ((w.peerWireEncodings.lookup peer).getD .strict) with
  | error e =>
    rw [he] at hs
    cases hs
  | ok bytes =>
    dsimp only
    rw [he]
    refine Yields.bind Yields.pure (Yields.bind (b := .ok ()) (v := w.send peer msg) (Yields.ask ?_) Yields.pure)
    intro x hx
    simp [exec, hE x hx, World.send]

omit hE in
theorem yields_unsendable {msg : HostedMessage} (hs : w.sendable peer msg = false) :
    ∃ e, Yields exec E (sendMessage peer msg) w (.error e) w := by
  unfold World.sendable at hs
  cases he : msg.encodeWithEncoding ((w.peerWireEncodings.lookup peer).getD .strict) with
  | error e =>
    refine ⟨.encode e, Yields.bind (Yields.ask fun x _ => rfl) ?_⟩
    dsimp only
    rw [he]
    exact Yields.fail Yields.throw ⟨rfl, rfl⟩
  | ok bytes =>
    rw [he] at hs
    cases hs

theorem yields_deliver {msg : HostedMessage} (hs : w.sendable peer msg = true) :
    Yields exec E (deliver peer d msg) w (.ok ()) (w.send peer msg) :=
  (yields_sendMessage hE hs).attempt.bind Yields.pure

/-- A message that cannot be encoded errors the channel. -/
theorem yields_undeliverable {msg : HostedMessage} (hs : w.sendable peer msg = false) :
    ∃ e, Yields exec E (deliver peer d msg) w (.error e)
      (w.put .channels peer { d with localErrors := d.localErrors ++ [.hostedDeliveryFailed] }) := by
  obtain ⟨e, he⟩ : ∃ e, Yields exec E (sendMessage peer msg) w (.error e) w := yields_unsendable hs
  exact ⟨e, he.attempt.bind ((yields_saveChannel hE).bind Yields.throw)⟩

theorem yields_signNext {height : UInt32} {lcss t : LastCrossSignedState} {us : List UncommittedUpdate}
    (hh : ∀ x, E x → x.height = height) (hs : signedNext H height lcss us = some t) :
    Yields exec E (signNext H peer ⟨lcss, us⟩) w (.ok t) (w.noteSigned peer t) := by
  unfold signedNext at hs
  cases hn : StateManager.lcssNext H.crypto ⟨lcss, us⟩ with
  | error e =>
    rw [hn] at hs
    cases hs
  | ok next =>
    rw [hn] at hs
    dsimp only at hs
    unfold signNext
    rw [hn]
    refine Yields.bind Yields.pure (Yields.bind (yields_currentBlockDay hE hh) ?_)
    cases ht : LastCrossSignedState.sign H.crypto H.nodeSecret { next with blockDay := height / 144 } with
    | error e =>
      rw [ht] at hs
      cases hs
    | ok t' =>
      rw [ht] at hs
      obtain rfl := Option.some.inj hs
      exact yields_signFor ht

theorem yields_unsigned (w : World) (peer : PublicKey) {height : UInt32} {lcss : LastCrossSignedState} {us : List UncommittedUpdate}
    (hh : ∀ x, E x → x.height = height) (hs : signedNext H height lcss us = none) :
    ∃ e, Yields exec E (signNext H peer ⟨lcss, us⟩) w (.error e) w := by
  unfold signedNext at hs
  unfold signNext
  cases hn : StateManager.lcssNext H.crypto ⟨lcss, us⟩ with
  | error e => exact ⟨.state e, Yields.fail Yields.throw ⟨rfl, rfl⟩⟩
  | ok next =>
    rw [hn] at hs
    dsimp only at hs
    unfold signFor
    cases ht : LastCrossSignedState.sign H.crypto H.nodeSecret { next with blockDay := height / 144 } with
    | error e =>
      refine ⟨.encode e, Yields.bind Yields.pure (Yields.bind (yields_currentBlockDay hE hh) ?_)⟩
      rw [ht]
      exact Yields.fail Yields.throw ⟨rfl, rfl⟩
    | ok t =>
      rw [ht] at hs
      cases hs

end Signing

/-- The world after the node took an onion. -/
def World.handOver (w : World) (source : PublicKey) (htlc : UpdateAddHtlc) (params : SendOnionParams) : World :=
  World.settle { w with
    onions := w.onions ++ [⟨source, htlc, params⟩]
    outstanding := w.outstanding ++ [⟨source, htlc, params.firstScid⟩] }

theorem yields_sendOnion (hE : Unfailing E) {htlc : UpdateAddHtlc} {params : SendOnionParams} :
    Yields exec E (ask (.sendOnion peer htlc params)) w (.ok (.ok ())) (w.handOver peer htlc params) := by
  refine Yields.ask ?_
  intro x hx
  simp [exec, hE x hx, World.handOver]

/-! ### Messages -/

/-- A message is handled in the world that has its framing noted, and an error of the handler is dropped. -/
theorem surely_message {e : WireEncoding} {msg : HostedMessage} {Q : World → Prop}
    (h : Surely exec E (handleMessage H peer msg) (fun _ w' => Q w')
      { w with peerWireEncodings := w.peerWireEncodings.insert peer e }) :
    Surely exec E ((Op.message peer e msg).program H) (fun _ w' => Q w') w := by
  show Surely exec E (handleCustommsg H peer e msg) (fun _ w' => Q w') w
  unfold handleCustommsg
  refine Yields.bind (Yields.ask fun x hx => rfl) ?_
  refine Surely.andThen (S := fun _ w' => Q w') (Surely.attempt h) ?_ ?_
  · intro r w' hQ
    exact Surely.pure hQ
  · intro e w' hQ
    exact hQ

end Canopus
