import Canopus.Theorems.Steps

/-! The steps of the functions that everything else is made of: reading, writing, signing, sending and
    the ledger. A program is `Reading` if it changes nothing and `Silent` if it takes quiet steps only. -/

namespace Canopus
open Effect Fallible

variable {K : Ctx} {B : Act → Prop} [Mild B] {w w' : World} {peer : PublicKey} {α β : Type}
  {A : Choice → World → Call → Prop} {L : Type} {step : L → World → World → Prop} {S : L → Prop}

/-! ### Quiet worlds -/

namespace SameBooks

theorem refl (w : World) : SameBooks w w := ⟨rfl, rfl, rfl, rfl⟩

theorem trans {w₁ w₂ w₃ : World} (h : SameBooks w₁ w₂) (h' : SameBooks w₂ w₃) : SameBooks w₁ w₃ where
  channels := h'.channels.trans h.channels
  links := h'.links.trans h.links
  secrets := h'.secrets.trans h.secrets
  policy := h'.policy.trans h.policy

theorem channel (h : SameBooks w w') (q : PublicKey) : w'.channel q = w.channel q := by
  simp only [World.channel, h.channels]

theorem link (h : SameBooks w w') (k : HtlcKey) : w'.link k = w.link k := by
  simp only [World.link, h.links]

theorem effectivePolicy (h : SameBooks w w') (H : Host) : w'.effectivePolicy H = w.effectivePolicy H := by
  simp only [World.effectivePolicy, h.policy]

theorem routing (h : SameBooks w w') (H : Host) (d : ChannelData) : w'.routing H d = w.routing H d := by
  simp only [World.routing, h.effectivePolicy H]

end SameBooks

namespace SameLedger

theorem refl (w : World) : SameLedger w w := ⟨rfl, rfl, rfl⟩

theorem trans {w₁ w₂ w₃ : World} (h : SameLedger w₁ w₂) (h' : SameLedger w₂ w₃) : SameLedger w₁ w₃ where
  metadata := h'.metadata.trans h.metadata
  entries := h'.entries.trans h.entries
  ids := h'.ids.trans h.ids

theorem put {n : Ns} {k : n.Key} {v : n.Val} (h₁ : Ns.metadata ≠ n) (h₂ : Ns.ledger ≠ n) (h₃ : Ns.ledgerEventIds ≠ n) :
    SameLedger w (w.put n k v) :=
  ⟨World.put_store_ne h₁, World.put_store_ne h₂, World.put_store_ne h₃⟩

theorem erase {n : Ns} {k : n.Key} (h₁ : Ns.metadata ≠ n) (h₂ : Ns.ledger ≠ n) (h₃ : Ns.ledgerEventIds ≠ n) :
    SameLedger w (w.erase n k) :=
  ⟨World.erase_store_ne h₁, World.erase_store_ne h₂, World.erase_store_ne h₃⟩

end SameLedger

namespace Recorded

theorem refl (w : World) : Recorded w w where
  toSameBooks := SameBooks.refl w
  signed := rfl
  onions := rfl
  resolutions := rfl
  preimages := rfl
  sent := ⟨[], (List.append_nil _).symm, by simp⟩
  outstanding _ he := he

theorem trans {w₁ w₂ w₃ : World} (h : Recorded w₁ w₂) (h' : Recorded w₂ w₃) : Recorded w₁ w₃ where
  toSameBooks := h.toSameBooks.trans h'.toSameBooks
  signed := h'.signed.trans h.signed
  onions := h'.onions.trans h.onions
  resolutions := h'.resolutions.trans h.resolutions
  preimages := h'.preimages.trans h.preimages
  sent := by
    obtain ⟨new, hnew, hno⟩ := h.sent
    obtain ⟨new', hnew', hno'⟩ := h'.sent
    refine ⟨new ++ new', by rw [hnew', hnew, List.append_assoc], ?_⟩
    intro x hx
    rcases List.mem_append.mp hx with hx | hx
    · exact hno x hx
    · exact hno' x hx
  outstanding e he := h.outstanding e (h'.outstanding e he)

/-- Writes to the ledger and the metadata leave the rest as it is. -/
theorem put {n : Ns} {k : n.Key} {v : n.Val} (h₁ : Ns.channels ≠ n) (h₂ : Ns.htlcForwards ≠ n) (h₃ : Ns.secrets ≠ n)
    (h₄ : Ns.policy ≠ n) : Recorded w (w.put n k v) where
  channels := World.put_store_ne h₁
  links := World.put_store_ne h₂
  secrets := World.put_store_ne h₃
  policy := World.put_store_ne h₄
  signed := rfl
  onions := rfl
  resolutions := rfl
  preimages := rfl
  sent := ⟨[], (List.append_nil _).symm, by simp⟩
  outstanding _ he := (List.mem_filter.mp he).1

end Recorded

namespace Quiet

theorem refl (w : World) : Quiet w w := ⟨Recorded.refl w, SameLedger.refl w⟩

theorem trans {w₁ w₂ w₃ : World} (h : Quiet w₁ w₂) (h' : Quiet w₂ w₃) : Quiet w₁ w₃ :=
  ⟨h.toRecorded.trans h'.toRecorded, h.toSameLedger.trans h'.toSameLedger⟩

/-- What the controller keeps in memory is not spoken about. -/
theorem memory {connections : AList fun _ : PublicKey => Bool} {encodings : AList fun _ : PublicKey => WireEncoding} :
    Quiet w { w with peerConnections := connections, peerWireEncodings := encodings } :=
  ⟨⟨⟨rfl, rfl, rfl, rfl⟩, rfl, rfl, rfl, rfl, ⟨[], (List.append_nil _).symm, by simp⟩, fun _ he => he⟩,
    ⟨rfl, rfl, rfl⟩⟩

end Quiet

instance : IsPreorder World SameBooks where
  refl := SameBooks.refl
  trans _ _ _ := SameBooks.trans

instance : IsPreorder World SameLedger where
  refl := SameLedger.refl
  trans _ _ _ := SameLedger.trans

instance : IsPreorder World Recorded where
  refl := Recorded.refl
  trans _ _ _ := Recorded.trans

instance : IsPreorder World Quiet where
  refl := Quiet.refl
  trans _ _ _ := Quiet.trans

/-! ### Reading and silent programs -/

abbrev Reading (x : Ctl α) : Prop := Fallible.Stays exec Eq x

abbrev Silent (x : Ctl α) : Prop := Fallible.Stays exec Quiet x

/-- The program writes to the ledger only. -/
abbrev Recording (x : Ctl α) : Prop := Fallible.Stays exec Recorded x

/-- The program leaves the store alone, apart from the ledger. -/
abbrev Bookless (x : Ctl α) : Prop := Fallible.Stays exec SameBooks x

theorem trace_quiet (h : Quiet w w') : K.Trace B w w' :=
  Trace.single Mild.quiet (Step.quiet h.toRecorded (Or.inl h.toSameLedger))

theorem Reading.silent {x : Ctl α} (h : Reading x) : Silent x := Stays.weaken h fun w _ e => e ▸ Quiet.refl w

theorem Silent.bookless {x : Ctl α} (h : Silent x) : Bookless x := Stays.weaken h fun _ _ hq => hq.toSameBooks

theorem Silent.recording {x : Ctl α} (h : Silent x) : Recording x := Stays.weaken h fun _ _ hq => hq.toRecorded

theorem Reading.does {x : Ctl α} (h : Reading x) : Does exec A step S x w fun _ w' => w = w' :=
  Stays.does h fun _ e => e ▸ Trace.refl

theorem Silent.does {x : Ctl α} (h : Silent x) : K.Does B x w fun _ w' => Quiet w w' :=
  Stays.does h fun _ => trace_quiet

theorem Recording.does {x : Ctl α} (h : Recording x) (hb : K.op.books = true) :
    K.Does B x w fun _ w' => Recorded w w' :=
  Stays.does h fun _ hr => Trace.single Mild.quiet (Step.quiet hr (Or.inr hb))

theorem Silent.logged {x : Ctl α} (h : Silent x) : Silent (logged x) := (Stays.attempt h).bind fun _ => Stays.pure _

/-- A call that leaves the world as it is. -/
theorem reading_ask {c : Call} (h : c.reads = true) : Reading (ask c) := Stays.ask fun x w => (exec_reads x w h).symm

/-- Reading calls, with their answer. -/
theorem does_read {c : Call} (h : c.reads = true) :
    Does exec A step S (ask c) w fun r w' => w' = w ∧ ∃ x, r = (exec x c w).1 := by
  refine Does.ask fun x _ => ?_
  simp only [exec_reads x w h]
  exact ⟨Trace.refl, trivial, x, rfl⟩

variable {n : Ns} {k : n.Key}

/-! ### Lifting -/

theorem Reading.liftState (r : Except StateError α) : Reading (liftState r) := by
  cases r
  · exact Stays.throw _
  · exact Stays.pure _

theorem Reading.liftStore (r : Except StoreError α) : Reading (liftStore r) := by
  cases r
  · exact Stays.throw _
  · exact Stays.pure _

theorem Reading.liftNode (r : Except NodeError α) : Reading (liftNode r) := by
  cases r
  · exact Stays.throw _
  · exact Stays.pure _

theorem Reading.liftEncode (r : EncodeResult α) : Reading (liftEncode r) := by
  cases r
  · exact Stays.throw _
  · exact Stays.pure _

theorem Reading.okOr (e : ChannelError) (r : Option α) : Reading (okOr e r) := by
  cases r
  · exact Stays.throw _
  · exact Stays.pure _

theorem does_liftState {r : Except StateError α} : Does exec A step S (liftState r) w fun a w' => w' = w ∧ r = .ok a := by
  cases r
  · exact Does.throw
  · exact Does.pure ⟨rfl, rfl⟩

theorem does_liftStore {r : Except StoreError α} : Does exec A step S (liftStore r) w fun a w' => w' = w ∧ r = .ok a := by
  cases r
  · exact Does.throw
  · exact Does.pure ⟨rfl, rfl⟩

theorem does_liftNode {r : Except NodeError α} : Does exec A step S (liftNode r) w fun a w' => w' = w ∧ r = .ok a := by
  cases r
  · exact Does.throw
  · exact Does.pure ⟨rfl, rfl⟩

theorem does_liftEncode {r : EncodeResult α} : Does exec A step S (liftEncode r) w fun a w' => w' = w ∧ r = .ok a := by
  cases r
  · exact Does.throw
  · exact Does.pure ⟨rfl, rfl⟩

theorem does_okOr {e : ChannelError} {r : Option α} : Does exec A step S (okOr e r) w fun a w' => w' = w ∧ r = some a := by
  cases r
  · exact Does.throw
  · exact Does.pure ⟨rfl, rfl⟩

/-! ### The store -/

theorem does_getJson : Does exec A step S (getJson n k) w fun r w' => w' = w ∧
    (∀ v g, r = .ok (v, g) → (w.store n).lookup k = some (g, v)) ∧
    (r = .error .notFound → (w.store n).lookup k = none) := by
  refine (does_read rfl).post ?_
  intro r w' hpost
  obtain ⟨rfl, x, rfl⟩ := hpost
  refine ⟨rfl, ?_⟩
  simp only [exec, backendError]
  split
  · simp
  · split
    · rename_i g v h
      simp_all
    · simp_all

theorem reading_getJson : Reading (getJson n k) := reading_ask rfl

/-- A write is a step, or changes nothing. -/
theorem does_createJson {v : n.Val} {P : World → Prop} (hw : P w)
    (h : ∀ x, A x w (.create n k v) → x.fails = false → Trace step S w (w.put n k v) ∧ P (w.put n k v)) :
    Does exec A step S (createJson n k v) w fun _ w' => P w' := by
  refine Does.ask fun x hx => ?_
  rcases exec_create_world with heq | ⟨hfails, heq⟩
  · rw [heq]
    exact ⟨Trace.refl, hw⟩
  · rw [heq]
    exact h x hx hfails

theorem does_updateJson {v : n.Val} {g : Nat} {P : World → Prop} (hw : P w)
    (h : ∀ x, A x w (.update n k v g) → x.fails = false → Trace step S w (w.put n k v) ∧ P (w.put n k v)) :
    Does exec A step S (updateJson n k v g) w fun _ w' => P w' := by
  refine Does.ask fun x hx => ?_
  rcases exec_update_world with heq | ⟨hfails, heq⟩
  · rw [heq]
    exact ⟨Trace.refl, hw⟩
  · rw [heq]
    exact h x hx hfails

theorem does_deleteKey {P : World → Prop} (hw : P w) (h : Trace step S w (w.erase n k) ∧ P (w.erase n k)) :
    Does exec A step S (deleteKey n k) w fun _ w' => P w' := by
  refine Does.ask fun x hx => ?_
  rcases exec_delete_world with heq | heq
  · rw [heq]
    exact ⟨Trace.refl, hw⟩
  · rw [heq]
    exact h

/-- What every write keeps. -/
theorem stays_createJson {R : World → World → Prop} [IsPreorder World R] {v : n.Val} (h : ∀ w, R w (w.put n k v)) :
    Stays exec R (createJson n k v) := by
  refine Stays.ask fun x w => ?_
  rcases exec_create_world with heq | ⟨-, heq⟩
  · rw [heq]
    exact refl_of R w
  · rw [heq]
    exact h w

theorem stays_updateJson {R : World → World → Prop} [IsPreorder World R] {v : n.Val} {g : Nat}
    (h : ∀ w, R w (w.put n k v)) : Stays exec R (updateJson n k v g) := by
  refine Stays.ask fun x w => ?_
  rcases exec_update_world with heq | ⟨-, heq⟩
  · rw [heq]
    exact refl_of R w
  · rw [heq]
    exact h w

theorem does_loadChannel : Does exec A step S (loadChannel peer) w fun r w' => w' = w ∧ r = w.channel peer := by
  refine Does.bind does_getJson ?_
  intro r w' hpost
  obtain ⟨rfl, hok, hnone⟩ := hpost
  rcases r with e | ⟨d, g⟩
  · cases e with
    | notFound => exact Does.pure ⟨rfl, (Table.value?_eq_none_of_entry (hnone rfl)).symm⟩
    | _ => exact Does.throw
  · exact Does.pure ⟨rfl, (Table.value?_of_entry (hok d g rfl)).symm⟩

theorem does_loadExisting : Does exec A step S (loadExisting peer) w fun d w' => w' = w ∧ w.channel peer = some d := by
  refine Does.bind does_loadChannel ?_
  intro r w' hpost
  obtain ⟨rfl, rfl⟩ := hpost
  exact does_okOr

/-- A write of a record succeeds, or it changes nothing and the store has failed. -/
inductive Saved (A : Choice → World → Call → Prop) (w : World) (peer : PublicKey) (d : ChannelData) :
    Except ChannelError Unit → World → Prop
  | created {x : Choice} (hs : x.fails = false) (hx : A x w (.create .channels peer d)) :
    Saved A w peer d (.ok ()) (w.put .channels peer d)
  | updated {x : Choice} {g : Nat} (hs : x.fails = false) (hx : A x w (.update .channels peer d g)) :
    Saved A w peer d (.ok ()) (w.put .channels peer d)
  | failed {e : ChannelError} {x : Choice} {c : Call} (hx : A x w c) (hc : c.isStore = true) (hf : x.fails = true) :
    Saved A w peer d (.error e) w

theorem wp_saveChannel {d : ChannelData} : Wp exec A (saveChannel peer d none) (Saved A w peer d) w := by
  unfold saveChannel
  refine Wp.bind (Wp.ask ?_)
  intro x hx
  by_cases hf : x.fails = true
  · simp only [exec, hf, if_true]
    exact Wp.throw (.failed hx rfl hf)
  cases he : (w.store .channels).lookup peer with
  | none =>
    simp only [exec, hf, if_false, he, Bool.false_eq_true]
    exact Wp.pure (.created (Bool.eq_false_iff.mpr hf) hx)
  | some e =>
    obtain ⟨g, v⟩ := e
    simp only [exec, hf, if_false, he, Bool.false_eq_true]
    -- The record is there already: its generation is read, and it is updated.
    refine Wp.bind (Wp.ask ?_)
    intro y hy
    by_cases hf : y.fails = true
    · simp only [exec, hf, if_true]
      exact Wp.bind (Wp.throw (.failed hy rfl hf))
    simp only [exec, hf, if_false, he, Bool.false_eq_true]
    refine Wp.bind (Wp.pure ?_)
    refine Wp.bind (Wp.ask ?_)
    intro z hz
    by_cases hf : z.fails = true
    · simp only [exec, hf, if_true]
      exact Wp.throw (.failed hz rfl hf)
    simp only [exec, hf, if_false, he, Bool.false_eq_true, ne_eq, not_true_eq_false]
    exact Wp.pure (.updated (Bool.eq_false_iff.mpr hf) hz)

/-- A write of a record that is a step succeeds as one or changes nothing. -/
theorem does_saveChannel {d : ChannelData}
    (hc : ∀ x, x.fails = false → A x w (.create .channels peer d) → Trace step S w (w.put .channels peer d))
    (hu : ∀ x g, x.fails = false → A x w (.update .channels peer d g) → Trace step S w (w.put .channels peer d)) :
    Does exec A step S (saveChannel peer d none) w fun _ w' => w' = w.put .channels peer d := by
  refine Does.of_wp (wp_saveChannel.mono ?_)
  intro r w' h
  cases h with
  | created hs hx => exact ⟨hc _ hs hx, fun _ _ => rfl⟩
  | updated hs hx => exact ⟨hu _ _ hs hx, fun _ _ => rfl⟩
  | failed => exact ⟨Trace.refl, fun _ he => by cases he⟩

omit [Mild B] in
/-- A change of the record that is there. -/
theorem does_change {d d' : ChannelData} {c : Change} (ha : B (.wrote peer c))
    (hd : w.channel peer = some d) (hc : Changes K.host peer c d d') (ho : c.Cause K w peer d) (hb : c.Bare K w peer) :
    K.Does B (saveChannel peer d' none) w fun _ w' => w' = w.put .channels peer d' :=
  does_saveChannel (fun _ hs hg => Trace.single ha (Step.wrote hd hc ho (hg.1 hs) hb)) fun _ _ hs hg =>
    Trace.single ha (Step.wrote hd hc ho (hg.1 hs) hb)

theorem Reading.listChannels : Reading listChannels :=
  (reading_ask rfl).bind fun _ => Reading.liftStore _

theorem does_listChannels : Does exec A step S listChannels w fun r w' => w' = w ∧ r = w.peers := by
  refine Does.bind (does_read rfl) ?_
  intro r w' hpost
  obtain ⟨rfl, x, rfl⟩ := hpost
  refine Does.post does_liftStore ?_
  intro a w' hpost
  obtain ⟨rfl, h⟩ := hpost
  refine ⟨rfl, ?_⟩
  simp only [exec, backendError] at h
  split at h
  · cases h
  · exact (Except.ok.inj h).symm

theorem Reading.getBlockHeight : Reading getBlockHeight :=
  (reading_ask rfl).bind fun _ => Reading.liftNode _

theorem Reading.currentBlockDay : Reading currentBlockDay :=
  Reading.getBlockHeight.bind fun _ => Stays.pure _

theorem does_effectivePolicy {H : Host} : Does exec A step S (effectivePolicy H) w fun r w' => w' = w ∧ r = w.effectivePolicy H := by
  refine Does.bind does_getJson ?_
  intro r w' hpost
  obtain ⟨rfl, hok, hnone⟩ := hpost
  rcases r with e | ⟨d, g⟩
  · cases e with
    | notFound =>
      refine Does.pure ⟨rfl, ?_⟩
      simp [World.effectivePolicy, Table.value?_eq_none_of_entry (hnone rfl)]
    | _ => exact Does.throw
  · refine Does.pure ⟨rfl, ?_⟩
    simp [World.effectivePolicy, Table.value?_of_entry (hok d g rfl)]

theorem Reading.effectivePolicy (H : Host) : Reading (effectivePolicy H) := by
  refine reading_getJson.bind fun r => ?_
  rcases r with e | ⟨d, g⟩
  · cases e with
    | notFound => exact Stays.pure _
    | _ => exact Stays.throw _
  · exact Stays.pure _

theorem Reading.routingPolicyForData (H : Host) (d : ChannelData) : Reading (routingPolicyForData H d) := by
  unfold Canopus.routingPolicyForData
  cases d.routingPolicy with
  | some r => exact Stays.pure r
  | none => exact (Reading.effectivePolicy H).bind fun _ => Stays.pure _

/-! ### The ledger -/

section Ledger

theorem recording_create (h₁ : Ns.channels ≠ n) (h₂ : Ns.htlcForwards ≠ n) (h₃ : Ns.secrets ≠ n) (h₄ : Ns.policy ≠ n)
    (v : n.Val) : Recording (createJson n k v) :=
  stays_createJson fun _ => Recorded.put h₁ h₂ h₃ h₄

theorem recording_update (h₁ : Ns.channels ≠ n) (h₂ : Ns.htlcForwards ≠ n) (h₃ : Ns.secrets ≠ n) (h₄ : Ns.policy ≠ n)
    (v : n.Val) (g : Nat) : Recording (updateJson n k v g) :=
  stays_updateJson fun _ => Recorded.put h₁ h₂ h₃ h₄

theorem Recording.loadMeta : Recording loadMeta := by
  refine reading_getJson.silent.recording.bind fun r => ?_
  rcases r with e | r
  · cases e with
    | notFound =>
      refine (recording_create (by decide) (by decide) (by decide) (by decide) _).bind fun _ => ?_
      exact (Reading.liftStore _).silent.recording.bind fun _ => Stays.pure _
    | _ => exact Stays.throw _
  · exact Stays.pure _

theorem Recording.recordInner (peer : PublicKey) (t : LedgerEventType) (amount fee : UInt64) (h : Option Hash)
    (id : Option EventId) : Recording (recordInner peer t amount fee h id) := by
  refine Recording.loadMeta.bind fun ⟨_, g⟩ => ?_
  refine (recording_update (by decide) (by decide) (by decide) (by decide) _ g).bind fun _ => ?_
  refine (Reading.liftStore _).silent.recording.bind fun _ => ?_
  refine (reading_ask rfl).silent.recording.bind fun _ => ?_
  refine (recording_create (by decide) (by decide) (by decide) (by decide) _).bind fun _ => ?_
  exact (Reading.liftStore _).silent.recording

theorem Recording.recordOnce (id : EventId) (peer : PublicKey) (t : LedgerEventType) (amount fee : UInt64)
    (h : Option Hash) : Recording (recordOnce id peer t amount fee h) := by
  refine (reading_ask rfl).silent.recording.bind fun _ => (Reading.liftStore _).silent.recording.bind fun known => ?_
  split
  · exact Stays.pure _
  · refine (Recording.recordInner _ _ _ _ _ _).bind fun _ => ?_
    refine (recording_create (by decide) (by decide) (by decide) (by decide) _).bind fun r => ?_
    rcases r with e | u
    · cases e with
      | alreadyExists => exact Stays.pure _
      | _ => exact Stays.throw _
    · exact Stays.pure _

theorem Recording.recordLedgerOnce (peer : PublicKey) (lcss : LastCrossSignedState) (tag : EventTag) (t : LedgerEventType)
    (amount : UInt64) (h : Option Hash) : Recording (recordLedgerOnce peer lcss tag t amount h) :=
  Recording.recordOnce _ _ _ _ _ _

theorem Recording.recordResolution (peer : PublicKey) (new : LastCrossSignedState) (htlcs : List UpdateAddHtlc)
    (id : UInt64) (tag : EventTag) (t : LedgerEventType) : Recording (recordResolution peer new htlcs id tag t) := by
  unfold Canopus.recordResolution
  split
  · exact Recording.recordLedgerOnce _ _ _ _ _ _
  · exact Stays.pure _

theorem Recording.recordCommittedUpdateEvents (peer : PublicKey) (us : List UncommittedUpdate)
    (old new : LastCrossSignedState) : Recording (recordCommittedUpdateEvents peer us old new) := by
  refine Stays.forEach (fun u => ?_) us
  split
  · exact Recording.recordLedgerOnce _ _ _ _ _ _
  · exact Recording.recordLedgerOnce _ _ _ _ _ _
  · exact Recording.recordResolution _ _ _ _ _ _
  · exact Recording.recordResolution _ _ _ _ _ _
  · exact Recording.recordResolution _ _ _ _ _ _
  · exact Recording.recordResolution _ _ _ _ _ _
  · exact Recording.recordResolution _ _ _ _ _ _
  · exact Recording.recordResolution _ _ _ _ _ _

end Ledger

/-! ### Sending and signing -/

theorem Silent.sendMessage (peer : PublicKey) (msg : HostedMessage) (hm : msg.isUpdate = false) :
    Silent (sendMessage peer msg) := by
  refine (reading_ask rfl).silent.bind fun _ => ?_
  refine (Reading.liftEncode _).silent.bind fun _ => ?_
  refine (Stays.ask fun x w => ?_).bind fun _ => (Reading.liftNode _).silent
  simp only [exec, rpcError]
  split
  · exact Quiet.refl w
  · refine ⟨⟨⟨rfl, rfl, rfl, rfl⟩, rfl, rfl, rfl, rfl, ⟨_, rfl, ?_⟩, fun _ h => h⟩, ⟨rfl, rfl, rfl⟩⟩
    intro x hx
    rw [List.mem_singleton.mp hx]
    exact hm

theorem Silent.sendError (H : Host) (peer : PublicKey) (text : String) : Silent (sendError H peer text) :=
  Silent.sendMessage _ _ rfl

theorem Bookless.sendMessage (peer : PublicKey) (msg : HostedMessage) : Bookless (sendMessage peer msg) := by
  refine (reading_ask rfl).silent.bookless.bind fun _ => ?_
  refine (Reading.liftEncode _).silent.bookless.bind fun _ => ?_
  refine (Stays.ask fun x w => ?_).bind fun _ => (Reading.liftNode _).silent.bookless
  simp only [exec, rpcError]
  split
  · exact SameBooks.refl w
  · exact ⟨rfl, rfl, rfl, rfl⟩

/-- An update that there is a reason to tell the peer of. -/
theorem does_sendUpdate {msg : HostedMessage} (ht : Tells K w peer msg) :
    K.Does B (sendMessage peer msg) w fun _ w' => SameBooks w w' := by
  refine Does.bind (reading_ask rfl).does ?_
  intro encoding _ hpost
  subst hpost
  refine Does.bind (Reading.liftEncode _).does ?_
  intro _ _ hpost
  subst hpost
  refine Does.bind (Does.ask (R := fun _ w' => SameBooks w w') fun x _ => ?_) ?_
  · simp only [exec, rpcError]
    split
    · exact ⟨Trace.refl, SameBooks.refl w⟩
    · exact ⟨Trace.single Mild.sent (Step.sent ht), ⟨rfl, rfl, rfl, rfl⟩⟩
  · intro r w' hbooks
    refine (Reading.liftNode _).does.post ?_
    intro _ _ hpost
    subst hpost
    exact hbooks

theorem does_signFor {s : LastCrossSignedState}
    (hs : ∀ t, s.sign K.host.crypto K.host.nodeSecret = .ok t → Signs K.host w peer t) :
    K.Does B (signFor K.host peer s) w fun t w' =>
      s.sign K.host.crypto K.host.nodeSecret = .ok t ∧ w' = w.noteSigned peer t := by
  unfold signFor
  refine Does.bind does_liftEncode ?_
  intro t w' hpost
  obtain ⟨rfl, ht⟩ := hpost
  refine Does.bind (Does.ask (R := fun _ w'' => w'' = w'.noteSigned peer t) fun x _ => ?_) ?_
  · exact ⟨Trace.single Mild.signed (Step.signed (hs t ht)), rfl⟩
  · intro _ _ hpost
    subst hpost
    exact Does.pure ⟨ht, rfl⟩

/-- The next state is signed for the record that is there, with the updates `us` on top of it. -/
theorem does_signNext (us : List UncommittedUpdate) {d : ChannelData} (hd : w.channel peer = some d)
    (hu : us = [] ∨ deriveStatus d = .active ∨ d.lcss.incomingHtlcs ≠ []) (ho : ∀ u ∈ us, u.isLocal = true) :
    K.Does B (signNext K.host peer ⟨d.lcss, d.uncommitted ++ us⟩) w fun t w' =>
      w' = w.noteSigned peer t ∧
      ∃ next, StateManager.lcssNext K.host.crypto ⟨d.lcss, d.uncommitted ++ us⟩ = .ok next := by
  unfold signNext
  refine Does.bind does_liftState ?_
  intro next w' hpost
  obtain ⟨rfl, hn⟩ := hpost
  refine Does.bind Reading.currentBlockDay.does ?_
  intro day _ hpost
  subst hpost
  refine Does.post (does_signFor fun t ht => Signs.next us hd hu hn ht ho) ?_
  intro t w'' hpost
  obtain ⟨-, rfl⟩ := hpost
  exact ⟨rfl, next, hn⟩

theorem does_stateUpdateForUncommitted (us : List UncommittedUpdate) {d d' : ChannelData} (hd : w.channel peer = some d)
    (hl : d'.lcss = d.lcss) (hus : d'.uncommitted = d.uncommitted ++ us)
    (hu : us = [] ∨ deriveStatus d = .active ∨ d.lcss.incomingHtlcs ≠ []) (ho : ∀ u ∈ us, u.isLocal = true) :
    K.Does B (stateUpdateForUncommitted K.host peer d') w fun _ w' =>
      (∃ t, w' = w.noteSigned peer t) ∧ ∃ next, d'.next K.host = .ok next := by
  unfold stateUpdateForUncommitted
  rw [hl, hus]
  refine Does.bind (does_signNext us hd hu ho) ?_
  intro t w' hpost
  obtain ⟨rfl, next, hn⟩ := hpost
  refine Does.pure ⟨⟨t, rfl⟩, next, ?_⟩
  simpa only [ChannelData.next, hl, hus] using hn

/-! ### Errors and repair -/

omit [Mild B] in
theorem does_markErrored {d : ChannelData} {e : LocalError} (hp : B (.wrote peer (.errored e))) (hd : w.channel peer = some d)
    (he : e ≠ .outlivedDeadline) :
    K.Does B (markErrored peer d e) w fun _ w' =>
      w' = w.put .channels peer { d with localErrors := d.localErrors ++ [e] } := by
  refine does_change (c := .errored e) hp hd (Changes.errored [] (by simp) (by simp) (Or.inl rfl)) ?_ trivial
  cases e with
  | outlivedDeadline => exact absurd rfl he
  | _ => exact trivial

omit [Mild B] in
theorem does_markRemoteErrored {d : ChannelData} {e : Bytes} (hp : B (.wrote peer .remoteErrored)) (hd : w.channel peer = some d) :
    K.Does B (markRemoteErrored peer d e) w fun _ w' =>
      w' = w.put .channels peer { d with remoteErrors := d.remoteErrors ++ [e] } :=
  does_change (c := .remoteErrored) hp hd Changes.remoteErrored trivial trivial

omit [Mild B] in
theorem does_repair {d : ChannelData} (hp : B (.wrote peer .deduplicated)) (hd : w.channel peer = some d)
    (hop : K.op.repairs peer) (hd₀ : K.start.channel peer = some d) (hu : K.Untold w) :
    K.Does B (repairDuplicateUncommittedResolutions peer d) w fun d' w' => w'.channel peer = some d' ∧
      (d' = d ∨ d' = { d with uncommitted := deduplicateUncommittedResolutions d.uncommitted }) := by
  unfold repairDuplicateUncommittedResolutions
  dsimp only
  split
  · refine Does.bind (does_change (c := .deduplicated) hp hd Changes.deduplicated ⟨hop, hd₀, hu⟩ trivial) ?_
    intro _ _ hpost
    subst hpost
    exact Does.pure ⟨World.channel_put, Or.inr rfl⟩
  · exact Does.pure ⟨hd, Or.inl rfl⟩

/-! ### The record of one peer -/

section Record
variable {q : PublicKey} {P : ChannelData → Prop}

/-- The record of `q` stays as it is or becomes one with `P`. -/
def RecordStep (q : PublicKey) (P : ChannelData → Prop) (_ : Unit) (w w' : World) : Prop :=
  w'.channel q = w.channel q ∨ ∃ d, w'.channel q = some d ∧ P d

theorem RecordStep.same (h : w'.channel q = w.channel q) : Trace (RecordStep q P) (fun _ => True) w w' :=
  Trace.single (l := ()) trivial (Or.inl h)

theorem RecordStep.trace (ht : Trace (RecordStep q P) (fun _ => True) w w') :
    w'.channel q = w.channel q ∨ ∃ d, w'.channel q = some d ∧ P d := by
  refine ht.keeps (P := fun v => v.channel q = w.channel q ∨ ∃ d, v.channel q = some d ∧ P d) ?_ (Or.inl rfl)
  intro _ u v _ hs hu
  rcases hs with hs | hs
  · rw [hs]
    exact hu
  · exact Or.inr hs

theorem Bookless.does_record {x : Ctl α} (h : Bookless x) :
    Does exec A (RecordStep q P) (fun _ => True) x w fun _ w' => w'.channel q = w.channel q :=
  (Stays.does h fun _ hq => RecordStep.same (hq.channel q)).post fun _ _ hq => hq.channel q

theorem does_saveChannel_record {d : ChannelData} (hP : peer = q → P d) :
    Does exec A (RecordStep q P) (fun _ => True) (saveChannel peer d none) w fun _ w' => w' = w.put .channels peer d := by
  have hsave : Trace (RecordStep q P) (fun _ => True) w (w.put .channels peer d) := by
    by_cases hq : peer = q
    · subst hq
      exact Trace.single (l := ()) trivial (Or.inr ⟨d, World.channel_put, hP rfl⟩)
    · exact RecordStep.same (World.channel_put_ne fun heq => hq heq.symm)
  exact does_saveChannel (fun _ _ _ => hsave) fun _ _ _ _ => hsave

end Record

/-! ### Channel updates -/

theorem Reading.loadChannel (peer : PublicKey) : Reading (loadChannel peer) := by
  refine reading_getJson.bind fun r => ?_
  rcases r with e | ⟨d, g⟩
  · cases e with
    | notFound => exact Stays.pure _
    | _ => exact Stays.throw _
  · exact Stays.pure _

theorem Reading.loadExisting (peer : PublicKey) : Reading (loadExisting peer) :=
  (Reading.loadChannel peer).bind fun _ => Reading.okOr _ _

theorem Silent.sendChannelUpdate (H : Host) (peer : PublicKey) : Silent (sendChannelUpdate H peer) := by
  refine (Reading.loadExisting peer).silent.bind fun d => ?_
  refine (reading_ask rfl).silent.bind fun _ => ?_
  exact (Reading.routingPolicyForData H d).silent.bind fun _ => Silent.sendMessage _ _ rfl

theorem does_sendPendingChannelUpdate (hp : B (.wrote peer .updateSent)) :
    K.Does B (sendPendingChannelUpdate K.host peer) w fun _ _ => True := by
  refine Does.bind does_loadExisting ?_
  intro d _ hpost
  obtain ⟨rfl, -⟩ := hpost
  split
  · exact Does.pure trivial
  · refine Does.bind (Silent.sendChannelUpdate K.host peer).does fun _ w' _ => ?_
    refine Does.bind does_loadExisting ?_
    intro d' _ hpost
    obtain ⟨rfl, hd⟩ := hpost
    exact (does_change (c := .updateSent) hp hd Changes.updateSent trivial trivial).post fun _ _ _ => trivial

end Canopus
