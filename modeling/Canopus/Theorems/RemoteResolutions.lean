import Canopus.Theorems.Fold
import Canopus.Theorems.Redemption

/-! Resolutions that the peer sends. Three handlers add them to the record, each behind its own guard; the
    guards look at the committed state and at the pending list, while the fold looks for the HTLC in the state
    that the other pending updates lead to. What is added is found there, and it is added once. -/

namespace Canopus
open Effect Fallible

variable {E : Choice → Prop} {H : Host} {w w' : World} {p q : PublicKey} {d d' : ChannelData} {id : UInt64}
  {l : ForwardLink}

/-! ### The pending list -/

/-- The id of the HTLC that an update of the peer resolves. -/
def UncommittedUpdate.remotelyResolves (u : UncommittedUpdate) : Option UInt64 :=
  match resolutionKey u with
  | some (false, id) => some id
  | _ => none

/-- The ids of the HTLCs with a pending resolution of the peer. -/
def ChannelData.remotelyResolved (d : ChannelData) : List UInt64 :=
  d.uncommitted.filterMap UncommittedUpdate.remotelyResolves

/-- The peer has resolved each HTLC at most once, and only HTLCs that are committed. -/
structure ResolvedOnce (d : ChannelData) : Prop where
  once : d.remotelyResolved.Nodup
  listed : ∀ id ∈ d.remotelyResolved, d.lcss.outgoingHtlcs.any (·.id == id) = true

theorem hasUncommittedRemoteResolution_iff : hasUncommittedRemoteResolution d id = true ↔ id ∈ d.remotelyResolved := by
  unfold hasUncommittedRemoteResolution ChannelData.remotelyResolved
  rw [List.any_eq_true, List.mem_filterMap]
  constructor
  · rintro ⟨u, hu, hid⟩
    refine ⟨u, hu, ?_⟩
    rcases u with (u | u) <;> cases u <;> simp_all [UncommittedUpdate.remotelyResolves, resolutionKey]
  · rintro ⟨u, hu, hid⟩
    refine ⟨u, hu, ?_⟩
    rcases u with (u | u) <;> cases u <;> simp_all [UncommittedUpdate.remotelyResolves, resolutionKey]

theorem remotelyResolves_of_key {u : PendingUpdate} (hk : resolutionKey (.ofRemote u) = some (false, id)) :
    (UncommittedUpdate.ofRemote u).remotelyResolves = some id := by
  simp only [UncommittedUpdate.remotelyResolves, hk]

theorem remotelyResolves_local (u : PendingUpdate) : (UncommittedUpdate.ofLocal u).remotelyResolves = none := by
  cases u <;> rfl

/-- A resolution that finds its HTLC in the committed state folds after all the pending updates, if none of them
    resolves it. -/
theorem next_push_resolution {u : PendingUpdate} {h : UpdateAddHtlc} {next : LastCrossSignedState}
    (hn : d.next H = .ok next) (hk : resolutionKey (.ofRemote u) = some (false, id)) (hr : id ∉ d.remotelyResolved)
    (hf : d.lcss.outgoingHtlcs.find? (·.id == id) = some h)
    (hp : ∀ c preimage, u = .fulfill c id preimage → H.crypto.sha256 preimage.toList = h.paymentHash)
    (hfunds : d.lcss.funds < 2 ^ 64) : ∃ next', (d.push (.ofRemote u)).next H = .ok next' := by
  refine lcssNext_push hn fun r hfold => ?_
  have hsame : r.funds = d.lcss.funds := (applyUpdates_keeps hfold).1
  refine applyUpdate_remoteResolution hk (applyUpdates_find_outgoing hfold ?_ hf) hp (hsame ▸ hfunds)
  intro v hv hvk
  refine hr (List.mem_filterMap.mpr ⟨v, hv, ?_⟩)
  simp only [UncommittedUpdate.remotelyResolves, hvk]

/-! ### Carrying a preimage back -/

/-- Links are only deleted, no channel comes or goes, and the default policy stays. -/
structure Kept (w w' : World) : Prop where
  links : ∀ k, w'.link k = w.link k ∨ w'.link k = none
  channels : ∀ q, (w'.channel q).isSome = (w.channel q).isSome
  policy : w'.store .policy = w.store .policy

theorem Kept.refl (w : World) : Kept w w := ⟨fun _ => Or.inl rfl, fun _ => rfl, rfl⟩

theorem Kept.trans {w'' : World} (h : Kept w w') (h' : Kept w' w'') : Kept w w'' where
  links k := by
    rcases h'.links k with hk | hk
    · rw [hk]
      exact h.links k
    · exact Or.inr hk
  channels q := (h'.channels q).trans (h.channels q)
  policy := h'.policy.trans h.policy

theorem Kept.of_books (h : SameBooks w w') : Kept w w' :=
  ⟨fun k => Or.inl (h.link k), fun q => by rw [h.channel q], h.policy⟩

theorem Kept.put (hd : w.channel q = some d) : Kept w (w.put .channels q d') where
  links _ := Or.inl World.link_put_channel
  channels q' := by
    by_cases hq : q' = q
    · subst hq
      rw [World.channel_put, hd]
      rfl
    · rw [World.channel_put_ne hq]
  policy := World.put_store_ne (by decide)

theorem Kept.erase {k : HtlcKey} : Kept w (w.erase .htlcForwards k) where
  links k' := by
    by_cases hk : k' = k
    · exact Or.inr (by simp [World.link, World.erase, World.settle, hk])
    · exact Or.inl (by simp [World.link, World.erase, World.settle, Table.value?_erase_ne hk])
  channels q := by rw [World.channel_erase_link]
  policy := World.erase_store_ne (by decide)

/-- The host has fulfilled an HTLC of `q`, or has not touched the record of `q`; the other records are the same. -/
structure Fulfilled (H : Host) (q : PublicKey) (l : ForwardLink) (preimage : ByteVec 32) (w w' : World) : Prop where
  kept : Kept w w'
  others : ∀ q' ≠ q, w'.channel q' = w.channel q'
  record : w'.channel q = w.channel q ∨ ∃ d next, w.channel q = some d ∧
    w'.channel q = some (d.push (.ofLocal (.fulfill (H.channelId q) l.incomingHtlcId preimage))) ∧
    (d.push (.ofLocal (.fulfill (H.channelId q) l.incomingHtlcId preimage))).next H = .ok next

theorem Fulfilled.of_books {preimage : ByteVec 32} (h : SameBooks w w') : Fulfilled H q l preimage w w' :=
  ⟨.of_books h, fun q' _ => h.channel q', Or.inl (h.channel q)⟩

theorem Fulfilled.then {preimage : ByteVec 32} {w'' : World} (h : Fulfilled H q l preimage w w') (hk : Kept w' w'')
    (hc : ∀ q', w''.channel q' = w'.channel q') : Fulfilled H q l preimage w w'' :=
  ⟨h.kept.trans hk, fun q' hq => (hc q').trans (h.others q' hq), by rw [hc q]; exact h.record⟩

theorem Bookless.signFor (H : Host) (q : PublicKey) (s : LastCrossSignedState) : Bookless (signFor H q s) := by
  refine (Reading.liftEncode _).silent.bookless.bind fun t => ?_
  exact (Stays.ask fun x w => ⟨rfl, rfl, rfl, rfl⟩).bind fun _ => Stays.pure _

theorem surely_sendLocalFulfill {preimage : ByteVec 32} :
    Surely exec E (sendLocalFulfill H q l preimage) (fun _ w' => Fulfilled H q l preimage w w') w := by
  have hsame : Fulfilled H q l preimage w w := .of_books (SameBooks.refl w)
  unfold sendLocalFulfill sendLocalResolution
  refine Surely.andThen surely_loadExisting ?_ ?_
  · rintro d _ ⟨rfl, hd⟩
    have hd := hd d rfl
    split
    · exact Surely.pure hsame
    dsimp only
    refine Surely.andThen (S := fun r v => SameBooks w v ∧ ∀ su, r = .ok su → ∃ next,
      (d.push (.ofLocal (.fulfill (H.channelId q) l.incomingHtlcId preimage))).next H = .ok next) ?_ ?_ ?_
    · unfold stateUpdateForUncommitted signNext
      cases hn : (d.push (.ofLocal (.fulfill (H.channelId q) l.incomingHtlcId preimage))).next H with
      | error e =>
        rw [show StateManager.lcssNext H.crypto ⟨_, _⟩ = .error e from hn]
        exact Yields.fail (Yields.fail Yields.throw ⟨rfl, rfl⟩) ⟨SameBooks.refl w, fun _ h => by cases h⟩
      | ok next =>
        refine Surely.mono (Stays.surely (P := SameBooks) ?_) fun r v hv => ⟨hv, fun _ _ => ⟨next, rfl⟩⟩
        refine Stays.bind ?_ fun _ => Stays.pure _
        refine (Reading.liftState _).silent.bookless.bind fun _ => ?_
        exact Reading.currentBlockDay.silent.bookless.bind fun _ => Bookless.signFor H q _
    · rintro su v ⟨hv, hn⟩
      obtain ⟨next, hn⟩ := hn su rfl
      have hdv := (hv.channel q).trans hd
      refine Surely.andThen (S := fun _ v' => Fulfilled H q l preimage w v') ?_ ?_ fun _ _ h => h
      · unfold Surely
        refine Wp.mono wp_saveChannel fun r v' hsaved => ?_
        have hput : Fulfilled H q l preimage w
            (v.put .channels q (d.push (.ofLocal (.fulfill (H.channelId q) l.incomingHtlcId preimage)))) := by
          refine ⟨(Kept.of_books hv).trans (.put hdv), fun q' hq => ?_, Or.inr ⟨d, next, hd, World.channel_put, hn⟩⟩
          rw [World.channel_put_ne hq, hv.channel]
        cases hsaved with
        | created hx => exact hput
        | updated hx => exact hput
        | failed hx hc hf => exact .of_books hv
      · intro _ v₁ h₁
        refine Surely.andThen (Stays.surely (Bookless.sendMessage q _)) ?_ ?_
        · intro _ v₂ h₂
          refine Surely.mono (Stays.surely (Bookless.sendMessage q _)) fun _ v₃ h₃ => ?_
          exact h₁.then (.of_books (h₂.trans h₃)) (h₂.trans h₃).channel
        · exact fun _ v₂ h₂ => h₁.then (.of_books h₂) h₂.channel
    · exact fun e v hv => .of_books hv.1
  · rintro e _ ⟨rfl, -⟩
    exact hsame

/-- The update of the host that fulfils an HTLC of `p` when an HTLC of `p` has been fulfilled: the link of the one leads
    back to the other. -/
def LeadsBack (H : Host) (w : World) (p : PublicKey) (u : UncommittedUpdate) : Prop :=
  ∃ id l preimage, w.link (H.scid p, id) = some l ∧ l.incomingScid = H.scid p ∧
    u = .ofLocal (.fulfill (H.channelId p) l.incomingHtlcId preimage)

theorem LeadsBack.kept {u : UncommittedUpdate} (h : LeadsBack H w' p u) (hk : Kept w w') : LeadsBack H w p u := by
  obtain ⟨id, l, preimage, hl, hscid, rfl⟩ := h
  rcases hk.links (H.scid p, id) with heq | hnone
  · exact ⟨id, l, preimage, heq ▸ hl, hscid, rfl⟩
  · cases hnone.symm.trans hl

/-- What carrying the preimage back has done to the record `d` of `p`. -/
def Carried (H : Host) (w : World) (p : PublicKey) (d d' : ChannelData) : Prop :=
  d' = d ∨ ∃ u next, LeadsBack H w p u ∧ d' = d.push u ∧ d'.next H = .ok next

/-- Carrying a preimage back fulfils an HTLC of another channel, or of the same one if the link leads back to it. -/
theorem surely_resolveForwardFulfill {preimage : ByteVec 32} (hd : w.channel p = some d) :
    Surely exec E (resolveForwardFulfill H (H.scid p) id preimage)
      (fun _ w' => Kept w w' ∧ ∃ d', w'.channel p = some d' ∧ Carried H w p d d') w := by
  have hsame : Kept w w ∧ ∃ d', w.channel p = some d' ∧ Carried H w p d d' := ⟨.refl w, d, hd, Or.inl rfl⟩
  unfold resolveForwardFulfill withForwardLink
  refine Surely.andThen (S := fun r v => w = v ∧ ∀ l g, r = .ok (.ok (l, g)) → w.link (H.scid p, id) = some l)
    (Surely.ask fun x hx => ?_) ?_ ?_
  · simp only [exec, backendError]
    split
    · exact ⟨rfl, fun _ _ h => by cases h⟩
    · split
      · rename_i hl
        refine ⟨rfl, fun l' g' h => ?_⟩
        cases h
        exact Table.value?_of_entry hl
      · exact ⟨rfl, fun _ _ h => by cases h⟩
  · rintro r _ ⟨rfl, hl⟩
    rcases r with e | ⟨l, g⟩
    · cases e with
      | notFound => exact Surely.pure hsame
      | _ => exact Surely.throw hsame
    have hl := hl l g rfl
    dsimp only
    refine Surely.andThen (S := fun _ v => Kept w v ∧ ∃ d', v.channel p = some d' ∧ Carried H w p d d') ?_ ?_
      fun _ _ h => h
    · refine Surely.andThen (S := fun r v => w = v ∧ ∀ q, r = .ok (some q) → H.scid q = l.incomingScid) ?_ ?_ ?_
      · have hdoes : Does exec (fun y _ _ => E y) (fun (_ : Unit) (a b : World) => a = b) (fun _ => True)
            (peerForHostedScid H l.incomingScid) w _ := does_peerForHostedScid
        unfold Does at hdoes
        unfold Surely
        refine Wp.mono hdoes fun r v h => ⟨?_, fun q hr => ((h.2 _ hr).2.1 q rfl).2⟩
        exact Trace.keeps (P := fun v => w = v) h.1 (fun _ _ _ _ hs hv => hv.trans hs) rfl
      · rintro found _ ⟨rfl, hfound⟩
        rcases found with - | q
        · refine Surely.mono (Stays.surely (Bookless.resolveUpstream _ _)) fun _ v hv => ?_
          exact ⟨.of_books hv, d, (hv.channel p).trans hd, Or.inl rfl⟩
        · refine Surely.mono surely_sendLocalFulfill fun _ v hv => ⟨hv.kept, ?_⟩
          by_cases hq : p = q
          · subst hq
            rcases hv.record with hrec | ⟨d₁, next, hd₁, hrec, hn⟩
            · exact ⟨d, hrec.trans hd, Or.inl rfl⟩
            · obtain rfl := Option.some.inj (hd₁.symm.trans hd)
              exact ⟨_, hrec, Or.inr ⟨_, next, ⟨id, l, preimage, hl, (hfound p rfl).symm, rfl⟩, rfl, hn⟩⟩
          · exact ⟨d, (hv.others p hq).trans hd, Or.inl rfl⟩
      · rintro e _ ⟨rfl, -⟩
        exact hsame
    · rintro _ v ⟨hk, d', hd', hc⟩
      refine Surely.andThen (S := fun _ v' => v' = v ∨ v' = v.erase .htlcForwards (H.scid p, id)) ?_ ?_ ?_
      · exact Surely.ask fun _ _ => exec_delete_world
      · rintro _ v' (rfl | rfl)
        · exact Surely.pure ⟨hk, d', hd', hc⟩
        · exact Surely.pure ⟨hk.trans .erase, d', World.channel_erase_link.trans hd', hc⟩
      · rintro e v' (rfl | rfl)
        · exact ⟨hk, d', hd', hc⟩
        · exact ⟨hk.trans .erase, d', World.channel_erase_link.trans hd', hc⟩
  · rintro e _ ⟨rfl, -⟩
    exact hsame

/-! ### One message -/

/-- The id of the HTLC that a message resolves. A fail without a reason is not a resolution. -/
def HostedMessage.resolves : HostedMessage → Option UInt64
  | .updateFulfillHtlc m => some m.id
  | .updateFailHtlc m => if m.reason.isEmpty then none else some m.id
  | .updateFailMalformedHtlc m => some m.id
  | _ => none

/-- A fulfil with the right preimage for the HTLC that the record lists under its id. -/
def Fulfils (H : Host) (d : ChannelData) (m : UpdateFulfillHtlc) (h : UpdateAddHtlc) : Prop :=
  d.lcss.outgoingHtlcs.find? (·.id == m.id) = some h ∧ h.paymentHash = H.crypto.sha256 m.paymentPreimage.toList

/-- There is nothing left to do for a message: its HTLC is resolved or is not committed, or its preimage is wrong. -/
def Done (H : Host) (d : ChannelData) (msg : HostedMessage) : Prop :=
  ∀ id, msg.resolves = some id → id ∈ d.remotelyResolved ∨ d.lcss.outgoingHtlcs.find? (·.id == id) = none ∨
    ∃ m, msg = .updateFulfillHtlc m ∧ ∀ h, ¬ Fulfils H d m h

/-- What a message has made of the record: nothing, or it has added the resolution of an HTLC that had none, and what
    follows from it in the same channel. -/
def ResolvedTo (H : Host) (w : World) (p : PublicKey) (d d' : ChannelData) : Prop :=
  d' = d ∨ ∃ u id h, resolutionKey (.ofRemote u) = some (false, id) ∧ id ∉ d.remotelyResolved ∧
    d.lcss.outgoingHtlcs.find? (·.id == id) = some h ∧
    (∀ c preimage, u = .fulfill c id preimage → H.crypto.sha256 preimage.toList = h.paymentHash) ∧
    Carried H w p (d.push (.ofRemote u)) d'

/-- For an HTLC from a normal channel there is still time to claim it upstream. -/
def InTime (H : Host) (w : World) (p : PublicKey) (d : ChannelData) (h : UpdateAddHtlc) (height : UInt32) : Prop :=
  ∀ l, w.link (H.scid p, h.id) = some l → w.Normal H l.incomingScid → ∃ e, l.upstreamCltvExpiry = some e ∧
    height < h.cltvExpiry ∧ h.cltvExpiry.toNat + (w.routing H d).cltvExpiryDelta.toNat ≤ e.toNat

theorem active_fields (h : deriveStatus d = .active) : takesResolutions d = true ∧ d.localErrors = [] := by
  refine ⟨by simp [takesResolutions, h], ?_⟩
  unfold deriveStatus at h
  split at h
  · cases h
  split at h
  · cases h
  split at h
  · cases h
  · rename_i herr
    simp only [Bool.or_eq_true, Bool.not_eq_true', not_or, Bool.not_eq_false, List.isEmpty_iff] at herr
    exact herr.1

/-- A message for which there is nothing left to do changes nothing, whatever the environment does. -/
theorem surely_done {msg : HostedMessage} (hd : w.channel p = some d) (hid : msg.resolves = some id) (hdone : Done H d msg) :
    Surely exec E (handleMessage H p msg) (fun _ w' => w = w') w := by
  have hload : ∀ {f : ChannelData → Ctl Unit}, Surely exec E (f d) (fun _ w' => w = w') w →
      Surely exec E (loadExisting p >>= f) (fun _ w' => w = w') w := by
    intro f hf
    refine Surely.andThen surely_loadExisting ?_ ?_
    · rintro d' _ ⟨rfl, hd'⟩
      obtain rfl := Option.some.inj ((hd' d' rfl).symm.trans hd)
      exact hf
    · rintro e _ ⟨rfl, -⟩
      rfl
  have hdone := hdone id hid
  cases msg with
  | updateFulfillHtlc m =>
    obtain rfl := Option.some.inj hid
    refine hload ?_
    split
    · exact Surely.pure rfl
    split
    · exact Surely.pure rfl
    split
    · exact Surely.pure rfl
    rename_i hhas
    split
    · exact Surely.pure rfl
    rename_i h hf
    split
    · exact Surely.pure rfl
    rename_i hsha
    rcases hdone with hin | hnone | ⟨m', hm, hno⟩
    · exact absurd (hasUncommittedRemoteResolution_iff.mpr hin) hhas
    · cases hnone.symm.trans hf
    · cases hm
      exact absurd ⟨hf, not_not.mp hsha⟩ (hno h)
  | updateFailHtlc m =>
    have hid : m.id = id := by
      simp only [HostedMessage.resolves] at hid
      split at hid
      · cases hid
      · exact Option.some.inj hid
    subst hid
    refine hload ?_
    split
    · exact Surely.pure rfl
    split
    · exact Surely.pure rfl
    rename_i hhas
    split
    · exact Surely.pure rfl
    rename_i hany
    rcases hdone with hin | hnone | ⟨m', hm, -⟩
    · exact absurd (hasUncommittedRemoteResolution_iff.mpr hin) hhas
    · rw [List.find?_eq_none] at hnone
      simp only [Bool.not_eq_true', Bool.not_eq_false, List.any_eq_true] at hany
      obtain ⟨h, hh, hid⟩ := hany
      exact absurd hid (hnone h hh)
    · cases hm
  | updateFailMalformedHtlc m =>
    obtain rfl := Option.some.inj hid
    refine hload ?_
    split
    · exact Surely.pure rfl
    split
    · exact Surely.pure rfl
    split
    · exact Surely.pure rfl
    rename_i hhas
    split
    · exact Surely.pure rfl
    rename_i hany
    rcases hdone with hin | hnone | ⟨m', hm, -⟩
    · exact absurd (hasUncommittedRemoteResolution_iff.mpr hin) hhas
    · rw [List.find?_eq_none] at hnone
      simp only [Bool.not_eq_true', Bool.not_eq_false, List.any_eq_true] at hany
      obtain ⟨h, hh, hid⟩ := hany
      exact absurd hid (hnone h hh)
    · cases hm
  | _ => cases hid

section Step
variable (hE : Unfailing E)
include hE

theorem surely_height : Surely exec E getBlockHeight (fun r v => w = v ∧ ∃ x, E x ∧ r = .ok x.height) w := by
  refine Surely.andThen (S := fun r v => w = v ∧ ∃ x, E x ∧ r = .ok (.ok x.height)) (Surely.ask fun x hx => ?_) ?_ ?_
  · have hexec : exec x .getBlockHeight w = (.ok x.height, w) := by simp [exec, hE x hx]
    rw [hexec]
    exact ⟨rfl, x, hx, rfl⟩
  · rintro r v ⟨hv, x, hx, hr⟩
    obtain rfl := Except.ok.inj hr
    exact Surely.pure ⟨hv, x, hx, rfl⟩
  · rintro e v ⟨-, x, -, hr⟩
    cases hr

/-- In time the check succeeds. -/
theorem surely_inTime {h : UpdateAddHtlc} (hd : w.channel p = some d) (hsome : ∃ x, E x)
    (ht : ∀ x, E x → InTime H w p d h x.height) :
    Surely exec E (hostedSettlementIsSafe H p h) (fun r v => r = .ok true ∧ w = v) w := by
  unfold hostedSettlementIsSafe
  cases hl : w.link (H.scid p, h.id) with
  | none => exact (yields_notFound hE (Table.lookup_of_value?_none hl)).bind (Surely.pure ⟨rfl, rfl⟩)
  | some l =>
    obtain ⟨g, hg⟩ := Table.exists_entry hl
    refine (yields_getJson hE hg).bind ((yields_peerForHostedScid hE).bind ?_)
    cases hq : w.peers.find? (H.scid · == l.incomingScid) with
    | some q => exact Surely.pure ⟨rfl, rfl⟩
    | none =>
      have hnormal : w.Normal H l.incomingScid := by
        intro q hq'
        simpa using List.find?_eq_none.mp hq q (World.mem_peers.mpr hq')
      obtain ⟨x₀, hx₀⟩ := hsome
      obtain ⟨e, he, -, hmargin⟩ := ht x₀ hx₀ l hl hnormal
      rw [if_neg (by simp), he]
      refine (yields_loadExisting hE hd).bind ((yields_routingPolicyForData hE).bind ?_)
      have hlt := e.toNat_lt
      have hadd : checkedAdd32 h.cltvExpiry (w.routing H d).cltvExpiryDelta.toUInt32 =
          some (h.cltvExpiry + (w.routing H d).cltvExpiryDelta.toUInt32) := by
        unfold checkedAdd32
        rw [if_pos (by rw [UInt16.toNat_toUInt32]; omega)]
      rw [hadd]
      refine Yields.pure.bind (Surely.andThen (surely_height hE) ?_ ?_)
      · rintro height _ ⟨rfl, x, hx, hr⟩
        obtain rfl := Except.ok.inj hr
        obtain ⟨e', he', htime, -⟩ := ht x hx l hl hnormal
        have hsum := checkedAdd32_eq_some hadd
        rw [UInt16.toNat_toUInt32] at hsum
        refine Surely.pure ⟨?_, rfl⟩
        rw [Except.ok.injEq, Bool.and_eq_true, decide_eq_true_eq, decide_eq_true_eq, UInt32.le_iff_toNat_le, hsum]
        exact ⟨htime, hmargin⟩
      · rintro e _ ⟨-, x, -, hr⟩
        cases hr

omit hE in
/-- A resolution that has been added is there. -/
theorem Carried.resolved {u : PendingUpdate} (hk : resolutionKey (.ofRemote u) = some (false, id))
    (hc : Carried H w p (d.push (.ofRemote u)) d') : id ∈ d'.remotelyResolved := by
  have hmem : .ofRemote u ∈ d'.uncommitted := by
    rcases hc with rfl | ⟨v, next, -, rfl, -⟩
    · exact List.mem_append_right _ (List.mem_singleton_self _)
    · exact List.mem_append_left _ (List.mem_append_right _ (List.mem_singleton_self _))
  exact List.mem_filterMap.mpr ⟨_, hmem, remotelyResolves_of_key hk⟩

omit hE in
theorem Carried.kept {d₁ : ChannelData} (hc : Carried H w' p d₁ d') (hk : Kept w w') : Carried H w p d₁ d' := by
  rcases hc with rfl | ⟨u, next, hu, rfl, hn⟩
  · exact Or.inl rfl
  · exact Or.inr ⟨u, next, hu.kept hk, rfl, hn⟩

/-- A failure of an HTLC that has no resolution yet is added. -/
theorem surely_failed {u : PendingUpdate} {h : UpdateAddHtlc} {msg : HostedMessage} (hd : w.channel p = some d)
    (hk : resolutionKey (.ofRemote u) = some (false, id)) (hr : id ∉ d.remotelyResolved)
    (hf : d.lcss.outgoingHtlcs.find? (·.id == id) = some h) (hu : ∀ c preimage, u ≠ .fulfill c id preimage)
    (hid : msg.resolves = some id) : Surely exec E (saveChannel p (d.push (.ofRemote u)) none)
      (fun _ w' => Kept w w' ∧ ∃ d', w'.channel p = some d' ∧ ResolvedTo H w p d d' ∧ Done H d' msg) w := by
  refine Surely.mono (yields_saveChannel hE) ?_
  rintro _ _ ⟨-, rfl⟩
  have hc : Carried H w p (d.push (.ofRemote u)) (d.push (.ofRemote u)) := Or.inl rfl
  refine ⟨.put hd, _, World.channel_put, Or.inr ⟨u, id, h, hk, hr, hf, ?_, hc⟩, ?_⟩
  · exact fun c preimage he => absurd he (hu c preimage)
  · intro id' hid'
    obtain rfl := Option.some.inj (hid.symm.trans hid')
    exact Or.inl (hc.resolved hk)

/-- A fulfil is added, and its preimage is carried back. -/
theorem surely_fulfilled {h : UpdateAddHtlc} {m : UpdateFulfillHtlc} (hd : w.channel p = some d)
    (hr : m.id ∉ d.remotelyResolved) (hf : Fulfils H d m h) : Surely exec E (acceptFulfill H p d h m)
      (fun _ w' => Kept w w' ∧ ∃ d', w'.channel p = some d' ∧ ResolvedTo H w p d d' ∧
        Done H d' (.updateFulfillHtlc m)) w := by
  let u : PendingUpdate := .fulfill m.channelId m.id m.paymentPreimage
  let v : World := { w with preimages := w.preimages.insert h.paymentHash m.paymentPreimage }
  unfold acceptFulfill
  refine (yields_storePreimage hE).bind (Yields.pure.bind ((yields_saveChannel hE).bind ?_))
  have hbooks : SameBooks w v := ⟨rfl, rfl, rfl, rfl⟩
  have hkept : Kept w (v.put .channels p (d.push (.ofRemote u))) := (Kept.of_books hbooks).trans (Kept.put (w := v) hd)
  refine Surely.mono (surely_resolveForwardFulfill (w := v.put .channels p (d.push (.ofRemote u))) World.channel_put) ?_
  rintro _ w' ⟨hk, d', hd', hc⟩
  have hc : Carried H w p (d.push (.ofRemote u)) d' := hc.kept hkept
  refine ⟨hkept.trans hk, d', hd', Or.inr ⟨u, m.id, h, rfl, hr, hf.1, ?_, hc⟩, ?_⟩
  · intro c preimage he
    obtain ⟨-, -, rfl⟩ := PendingUpdate.fulfill.inj he
    exact hf.2.symm
  · intro id' hid'
    obtain rfl := Option.some.inj hid'
    exact Or.inl (hc.resolved rfl)

omit hE in
theorem exists_find_of_any {htlcs : List UpdateAddHtlc} (h : htlcs.any (·.id == id) = true) :
    ∃ g, htlcs.find? (·.id == id) = some g := by
  obtain ⟨g, hg, hid⟩ := List.any_eq_true.mp h
  exact Option.isSome_iff_exists.mp (List.find?_isSome.mpr ⟨g, hg, hid⟩)

omit hE in
theorem find_none_of_not_any {htlcs : List UpdateAddHtlc} (h : ¬ htlcs.any (·.id == id) = true) :
    htlcs.find? (·.id == id) = none := by
  rw [List.find?_eq_none]
  exact fun g hg hid => h (List.any_eq_true.mpr ⟨g, hg, hid⟩)

/-- What the three handlers do with a message, where no call fails and there is time. -/
theorem surely_resolution {msg : HostedMessage} (hd : w.channel p = some d) (hs : deriveStatus d = .active)
    (hid : msg.resolves = some id) (hsome : ∃ x, E x)
    (ht : ∀ m h, msg = .updateFulfillHtlc m → Fulfils H d m h → ∀ x, E x → InTime H w p d h x.height) :
    Surely exec E (handleMessage H p msg)
      (fun _ w' => Kept w w' ∧ ∃ d', w'.channel p = some d' ∧ ResolvedTo H w p d d' ∧ Done H d' msg) w := by
  obtain ⟨htakes, herrors⟩ := active_fields hs
  have hpure : Done H d msg → Surely exec E (pure () : Ctl Unit)
      (fun _ w' => Kept w w' ∧ ∃ d', w'.channel p = some d' ∧ ResolvedTo H w p d d' ∧ Done H d' msg) w :=
    fun hdone => Surely.pure ⟨.refl w, d, hd, Or.inl rfl, hdone⟩
  have hresolved : id ∈ d.remotelyResolved → Done H d msg := by
    intro hin id' hid'
    obtain rfl := Option.some.inj (hid.symm.trans hid')
    exact Or.inl hin
  have hunlisted : d.lcss.outgoingHtlcs.find? (·.id == id) = none → Done H d msg := by
    intro hnone id' hid'
    obtain rfl := Option.some.inj (hid.symm.trans hid')
    exact Or.inr (Or.inl hnone)
  cases msg with
  | updateFulfillHtlc m =>
    obtain rfl := Option.some.inj hid
    refine (yields_loadExisting hE hd).bind ?_
    rw [if_neg (by simp [htakes]), if_neg (by simp [herrors])]
    split
    · rename_i hhas
      exact hpure (hresolved (hasUncommittedRemoteResolution_iff.mp hhas))
    rename_i hhas
    split
    · rename_i hnone
      exact hpure (hunlisted hnone)
    rename_i h hf
    split
    · rename_i hsha
      refine hpure fun id' _ => Or.inr (Or.inr ⟨m, rfl, fun g hg => hsha ?_⟩)
      obtain rfl := Option.some.inj (hf.symm.trans hg.1)
      exact hg.2
    rename_i hsha
    have hful : Fulfils H d m h := ⟨hf, not_not.mp hsha⟩
    refine Surely.andThen (surely_inTime hE hd hsome (ht m h rfl hful)) ?_ ?_
    · rintro safe _ ⟨hsafe, rfl⟩
      obtain rfl := Except.ok.inj hsafe
      rw [if_pos rfl]
      exact surely_fulfilled hE hd (fun hin => hhas (hasUncommittedRemoteResolution_iff.mpr hin)) hful
    · rintro e _ ⟨he, -⟩
      cases he
  | updateFailHtlc m =>
    simp only [HostedMessage.resolves] at hid
    split at hid
    · cases hid
    rename_i hreason
    obtain rfl := Option.some.inj hid
    refine (yields_loadExisting hE hd).bind ?_
    rw [if_neg (by simp [htakes])]
    split
    · rename_i hhas
      exact hpure (hresolved (hasUncommittedRemoteResolution_iff.mp hhas))
    rename_i hhas
    split
    · rename_i hany
      exact hpure (hunlisted (find_none_of_not_any (by simpa using hany)))
    rename_i hany
    have hany : d.lcss.outgoingHtlcs.any (·.id == m.id) = true := by simpa using hany
    obtain ⟨g, hg⟩ := exists_find_of_any hany
    refine surely_failed hE hd rfl (fun hin => hhas (hasUncommittedRemoteResolution_iff.mpr hin)) hg ?_ ?_
    · exact fun c preimage he => by cases he
    · simp only [HostedMessage.resolves, hreason]
      rfl
  | updateFailMalformedHtlc m =>
    obtain rfl := Option.some.inj hid
    refine (yields_loadExisting hE hd).bind ?_
    rw [if_neg (by simp [htakes]), if_neg (by simp [herrors])]
    split
    · rename_i hhas
      exact hpure (hresolved (hasUncommittedRemoteResolution_iff.mp hhas))
    rename_i hhas
    split
    · rename_i hany
      exact hpure (hunlisted (find_none_of_not_any (by simpa using hany)))
    rename_i hany
    have hany : d.lcss.outgoingHtlcs.any (·.id == m.id) = true := by simpa using hany
    obtain ⟨g, hg⟩ := exists_find_of_any hany
    exact surely_failed hE hd rfl (fun hin => hhas (hasUncommittedRemoteResolution_iff.mpr hin)) hg
      (fun c preimage he => by cases he) rfl
  | _ => cases hid

end Step

/-! ### Sequences of messages -/

/-- The world after messages of `p`, each with what the environment does while it is handled. -/
def World.resolve (H : Host) (p : PublicKey) (w : World) (msgs : List (HostedMessage × (Nat → Choice))) : World :=
  msgs.foldl (fun w m => (Prog.run exec m.2 (handleMessage H p m.1).run w).2) w

/-- No call fails while the message is handled; it is a resolution, and not one after its deadline. -/
structure Resolving (H : Host) (w : World) (p : PublicKey) (d : ChannelData) (m : HostedMessage × (Nat → Choice)) : Prop where
  resolves : m.1.resolves.isSome
  unfailing : ∀ n, (m.2 n).fails = false
  inTime : ∀ f h, m.1 = .updateFulfillHtlc f → Fulfils H d f h → ∀ n, InTime H w p d h (m.2 n).height

/-- What messages have made of the record `d₀` of `p`: resolutions of `p` were added, each HTLC has at most one, and
    the list still folds; what the host has added to it are fulfils of HTLCs that a link leads back to. -/
structure Extends (H : Host) (w₀ : World) (p : PublicKey) (d₀ d : ChannelData) : Prop where
  record : d = { d₀ with uncommitted := d.uncommitted }
  resolved : ResolvedOnce d
  folds : ∃ next, d.next H = .ok next
  grows : ∀ id ∈ d₀.remotelyResolved, id ∈ d.remotelyResolved
  locals : ∃ extra, d.uncommitted.filter (·.isLocal) = d₀.uncommitted.filter (·.isLocal) ++ extra ∧
    ∀ u ∈ extra, LeadsBack H w₀ p u

theorem Extends.refl (hr : ResolvedOnce d) (hn : ∃ next, d.next H = .ok next) : Extends H w p d d :=
  ⟨rfl, hr, hn, fun _ h => h, [], by simp, by simp⟩

theorem Extends.status {w₀ : World} {d₀ : ChannelData} (h : Extends H w₀ p d₀ d) : deriveStatus d = deriveStatus d₀ := by
  rw [h.record]
  rfl

theorem Extends.lcss {w₀ : World} {d₀ : ChannelData} (h : Extends H w₀ p d₀ d) : d.lcss = d₀.lcss := by
  rw [h.record]

theorem ResolvedOnce.push {u : PendingUpdate} (h : ResolvedOnce d) (hk : resolutionKey (.ofRemote u) = some (false, id))
    (hr : id ∉ d.remotelyResolved) (hl : d.lcss.outgoingHtlcs.any (·.id == id) = true) :
    ResolvedOnce (d.push (.ofRemote u)) := by
  have heq : (d.push (.ofRemote u)).remotelyResolved = d.remotelyResolved ++ [id] := by
    unfold ChannelData.remotelyResolved ChannelData.push
    rw [List.filterMap_append, List.filterMap_cons_some (remotelyResolves_of_key hk)]
    rfl
  constructor
  · rw [heq]
    exact List.nodup_append.mpr ⟨h.once, List.nodup_singleton _, fun a ha b hb => by
      rintro rfl
      exact hr (List.mem_singleton.mp hb ▸ ha)⟩
  · intro id' hid'
    rw [heq] at hid'
    rcases List.mem_append.mp hid' with hid' | hid'
    · exact h.listed id' hid'
    · rw [List.mem_singleton.mp hid']
      exact hl

/-- One more message. -/
theorem Extends.step {w₀ : World} {d₀ : ChannelData} (h : Extends H w₀ p d₀ d) (hk : Kept w₀ w)
    (hfunds : d₀.lcss.funds < 2 ^ 64) (hr : ResolvedTo H w p d d') : Extends H w₀ p d₀ d' := by
  rcases hr with rfl | ⟨u, id, g, hkey, hfresh, hf, hp, hc⟩
  · exact h
  obtain ⟨next, hn⟩ := h.folds
  have hany : d.lcss.outgoingHtlcs.any (·.id == id) = true :=
    List.any_eq_true.mpr ⟨g, List.mem_of_find?_eq_some hf, by simpa using List.find?_some hf⟩
  have hfolds := next_push_resolution hn hkey hfresh hf hp (h.lcss ▸ hfunds)
  have hpush : Extends H w₀ p d₀ (d.push (.ofRemote u)) := by
    obtain ⟨extra, hlocals, hback⟩ := h.locals
    refine ⟨?_, h.resolved.push hkey hfresh hany, hfolds, fun i hi => ?_, extra, ?_, hback⟩
    · rw [h.record]
      rfl
    · unfold ChannelData.remotelyResolved ChannelData.push
      rw [List.filterMap_append]
      exact List.mem_append_left _ (h.grows i hi)
    · rw [← hlocals]
      simp [ChannelData.push, UncommittedUpdate.isLocal]
  rcases hc with rfl | ⟨v, next', hback', rfl, hn'⟩
  · exact hpush
  have hback₀ : LeadsBack H w₀ p v := hback'.kept hk
  obtain ⟨i, l, preimage, -, -, hv⟩ := hback'
  have hsame : ((d.push (.ofRemote u)).push v).remotelyResolved = (d.push (.ofRemote u)).remotelyResolved := by
    unfold ChannelData.remotelyResolved
    rw [ChannelData.push, hv]
    simp [List.filterMap_append, remotelyResolves_local]
  obtain ⟨extra, hlocals, hback⟩ := hpush.locals
  refine ⟨?_, ⟨?_, ?_⟩, ⟨next', hn'⟩, fun i hi => ?_, extra ++ [v], ?_, fun x hx => ?_⟩
  · rw [hpush.record]
    rfl
  · rw [hsame]
    exact hpush.resolved.once
  · rw [hsame]
    exact hpush.resolved.listed
  · rw [hsame]
    exact hpush.grows i hi
  · rw [← List.append_assoc, ← hlocals, hv]
    simp [ChannelData.push, UncommittedUpdate.isLocal]
  · rcases List.mem_append.mp hx with hx | hx
    · exact hback x hx
    · rw [List.mem_singleton.mp hx]
      exact hback₀

theorem InTime.kept {h : UpdateAddHtlc} {height : UInt32} (ht : InTime H w p d h height) (hk : Kept w w')
    (hr : d'.routingPolicy = d.routingPolicy) : InTime H w' p d' h height := by
  intro l hl hnormal
  have hlink : w.link (H.scid p, h.id) = some l := by
    rcases hk.links (H.scid p, h.id) with heq | hnone
    · exact heq ▸ hl
    · cases hnone.symm.trans hl
  have hrouting : w'.routing H d' = w.routing H d := by
    unfold World.routing World.effectivePolicy
    rw [hr, hk.policy]
  rw [hrouting]
  exact ht l hlink fun q hq => hnormal q ((hk.channels q).trans hq)

theorem Done.mono {msg : HostedMessage} (h : Done H d msg) (hl : d'.lcss = d.lcss)
    (hg : ∀ id ∈ d.remotelyResolved, id ∈ d'.remotelyResolved) : Done H d' msg := by
  intro id hid
  unfold Fulfils
  rw [hl]
  rcases h id hid with hin | hrest
  · exact Or.inl (hg id hin)
  · exact Or.inr hrest

/-- A run of messages keeps what one message keeps, and there is nothing left to do for any of them. -/
theorem resolve_extends {w₀ : World} {d₀ : ChannelData} {msgs : List (HostedMessage × (Nat → Choice))}
    (hs : deriveStatus d₀ = .active) (hfunds : d₀.lcss.funds < 2 ^ 64) :
    ∀ {w : World} {d : ChannelData}, (∀ m ∈ msgs, Resolving H w₀ p d₀ m) → Kept w₀ w → w.channel p = some d →
      Extends H w₀ p d₀ d → ∃ d', (w.resolve H p msgs).channel p = some d' ∧ Extends H w₀ p d₀ d' ∧
        (∀ id ∈ d.remotelyResolved, id ∈ d'.remotelyResolved) ∧ ∀ m ∈ msgs, Done H d' m.1 := by
  induction msgs with
  | nil => exact fun {w d} _ _ hd he => ⟨d, hd, he, fun _ h => h, by simp⟩
  | cons m msgs ih =>
    intro w d hm hk hd he
    have hfirst := hm m (List.mem_cons_self ..)
    obtain ⟨id, hid⟩ := Option.isSome_iff_exists.mp hfirst.resolves
    have hsurely := surely_resolution (E := fun x => ∃ n, x = m.2 n) (w := w) (d := d) (H := H) (p := p)
      (fun x ⟨n, hx⟩ => hx ▸ hfirst.unfailing n) hd (he.status.trans hs) hid ⟨_, 0, rfl⟩ (by
        rintro f h hf hful x ⟨n, rfl⟩
        have hful₀ : Fulfils H d₀ f h := by
          unfold Fulfils at hful ⊢
          rwa [he.lcss] at hful
        refine (hfirst.inTime f h hf hful₀ n).kept hk ?_
        rw [he.record])
    obtain ⟨hk', d₁, hd₁, hr, hdone⟩ := hsurely.run fun n => ⟨n, rfl⟩
    have hgrows := (Extends.refl (w := w) (p := p) he.resolved he.folds).step (.refl w) (he.lcss ▸ hfunds) hr
    obtain ⟨d', hd', he', hg', hdone'⟩ := ih (fun m' hm' => hm m' (List.mem_cons_of_mem _ hm')) (hk.trans hk') hd₁
      (he.step hk hfunds hr)
    refine ⟨d', hd', he', fun i hi => hg' i (hgrows.grows i hi), fun m' hm' => ?_⟩
    rcases List.mem_cons.mp hm' with rfl | hm'
    · exact hdone.mono (he'.lcss.trans (he.step hk hfunds hr).lcss.symm) hg'
    · exact hdone' m' hm'

/-- Messages for which there is nothing left to do change nothing. -/
theorem resolve_done {msgs : List (HostedMessage × (Nat → Choice))} (hd : w.channel p = some d)
    (hm : ∀ m ∈ msgs, m.1.resolves.isSome ∧ Done H d m.1) : w.resolve H p msgs = w := by
  induction msgs with
  | nil => rfl
  | cons m msgs ih =>
    obtain ⟨hid, hdone⟩ := hm m (List.mem_cons_self ..)
    obtain ⟨id, hid⟩ := Option.isSome_iff_exists.mp hid
    have hsame := (surely_done (E := fun _ => True) hd hid hdone).run (o := m.2) fun _ => trivial
    show World.resolve H p (Prog.run exec m.2 (handleMessage H p m.1).run w).2 msgs = w
    rw [← hsame]
    exact ih fun m' hm' => hm m' (List.mem_cons_of_mem _ hm')

/-- Resolutions of the peer are idempotent and fold. Let an active channel have at most one pending resolution of the
    peer for each id, each of a committed HTLC, funds that fit, and a list that folds. After any sequence of resolutions
    that are not late all this is so again, and the committed state is the same. The updates of the host are the same
    too, apart from fulfils: where the link of an HTLC that the peer has fulfilled leads back to the same channel, the
    HTLC that it leads to is fulfilled there. Handling the sequence again changes nothing at all. -/
theorem resolutions_idempotent (H : Host) (w : World) (p : PublicKey) (d : ChannelData)
    (msgs : List (HostedMessage × (Nat → Choice))) (hd : w.channel p = some d) (hs : deriveStatus d = .active)
    (hr : ResolvedOnce d) (hfunds : d.lcss.funds ≤ 2 ^ 64 - 1) (hn : ∃ next, d.next H = .ok next)
    (hm : ∀ m ∈ msgs, Resolving H w p d m) :
    ∃ d', (w.resolve H p msgs).channel p = some d' ∧ ResolvedOnce d' ∧ (∃ next, d'.next H = .ok next) ∧
      d'.lcss = d.lcss ∧
      (∃ extra, d'.uncommitted.filter (·.isLocal) = d.uncommitted.filter (·.isLocal) ++ extra ∧
        ∀ u ∈ extra, LeadsBack H w p u) ∧
      ∀ again : List (HostedMessage × (Nat → Choice)), again.map (·.1) = msgs.map (·.1) →
        (w.resolve H p msgs).resolve H p again = w.resolve H p msgs := by
  obtain ⟨d', hd', he, -, hdone⟩ := resolve_extends hs (by omega) hm (.refl w) hd (.refl hr hn)
  refine ⟨d', hd', he.resolved, he.folds, he.lcss, he.locals, fun again hagain => ?_⟩
  refine resolve_done hd' fun m hmem => ?_
  have hmem : m.1 ∈ msgs.map (·.1) := hagain ▸ List.mem_map_of_mem hmem
  obtain ⟨m', hm', heq⟩ := List.mem_map.mp hmem
  rw [← heq]
  exact ⟨(hm m' hm').resolves, hdone m' hm'⟩

/-- The client fulfils the second of two HTLCs, fails it after that, and fails one that does not exist. -/
def resentResolutions : List (HostedMessage × (Nat → Choice)) :=
  [(.updateFulfillHtlc secondFulfill, fun _ => .calm), (.updateFailHtlc ⟨ByteVec.fill 32 0, 2, [1], []⟩, fun _ => .calm),
    (.updateFailHtlc ⟨ByteVec.fill 32 0, 9, [1], []⟩, fun _ => .calm)]

theorem inTime_of_settles {key : HtlcKey} {h : UpdateAddHtlc} {height : UInt32} (hd : w.channel p = some d)
    (hin : SettlesInTime H w height key p h) : InTime H w p d h height := by
  obtain ⟨d₁, l, expiry, hd₁, -, hl, -, he, htime, hmargin⟩ := hin
  obtain rfl := Option.some.inj (hd₁.symm.trans hd)
  intro l' hl' _
  obtain rfl := Option.some.inj (hl'.symm.trans hl)
  exact ⟨expiry, he, htime, hmargin⟩

theorem resolutions_idempotent_resent : ∃ d d', (calmRun .transparent (twoHtlcsScript 1050)).channel openPeer = some d ∧
    ((calmRun .transparent (twoHtlcsScript 1050)).resolve .transparent openPeer resentResolutions).channel openPeer = some d' ∧
    ResolvedOnce d' ∧ d'.lcss = d.lcss ∧
    ((calmRun .transparent (twoHtlcsScript 1050)).resolve .transparent openPeer resentResolutions).resolve .transparent openPeer
      resentResolutions =
      (calmRun .transparent (twoHtlcsScript 1050)).resolve .transparent openPeer resentResolutions := by
  have hrun : ((calmRun .transparent (twoHtlcsScript 1050)).channel openPeer).any (fun d =>
      secondWaits (calmRun .transparent (twoHtlcsScript 1050)) d && (d.next .transparent).toBool &&
        decide (deriveStatus d = .active ∧ d.uncommitted = [] ∧ d.lcss.funds ≤ 2 ^ 64 - 1)) = true := by
    decide +kernel
  obtain ⟨d, hd, hrun⟩ := exists_of_any hrun
  simp only [Bool.and_eq_true, decide_eq_true_eq] at hrun
  obtain ⟨⟨hwaits, hnext⟩, hs, hnone, hfunds⟩ := hrun
  obtain ⟨-, -, -, -, h, hh, -, -, hin⟩ := settles_of_waits hd hwaits
  generalize calmRun .transparent (twoHtlcsScript 1050) = w at hd hin ⊢
  have hresolving : ∀ m ∈ resentResolutions, Resolving .transparent w openPeer d m := by
    intro m hm
    simp only [resentResolutions, List.mem_cons, List.not_mem_nil, or_false] at hm
    rcases hm with rfl | rfl | rfl
    · refine ⟨rfl, fun _ => rfl, fun f g hf hful n => ?_⟩
      obtain rfl := HostedMessage.updateFulfillHtlc.inj hf
      obtain rfl := Option.some.inj (hful.1.symm.trans hh)
      exact inTime_of_settles hd hin
    · exact ⟨rfl, fun _ => rfl, fun f g hf => by cases hf⟩
    · exact ⟨rfl, fun _ => rfl, fun f g hf => by cases hf⟩
  have honce : ResolvedOnce d := by
    have hempty : d.remotelyResolved = [] := by rw [ChannelData.remotelyResolved, hnone]; rfl
    exact ⟨by rw [hempty]; exact List.nodup_nil, by rw [hempty]; simp⟩
  obtain ⟨d', hd', hr', -, hl', -, hagain⟩ := resolutions_idempotent .transparent w openPeer d resentResolutions hd hs honce
    hfunds (exists_eq_ok hnext) hresolving
  exact ⟨d, d', hd, hd', hr', hl', hagain resentResolutions rfl⟩

/-- The client of the open channel has committed to an HTLC of its own and to one that a hook has handed to it. The
    hook names no channel that its HTLC came from, so that the HTLC counts as one of the client's channel: its link leads
    back to the client's own HTLC. -/
def loopScript : List (World → Op) := openScript ++ [
  clientAdds openKey 1 1000 (digest (List.replicate 32 5)) 77, clientCommits .transparent openKey,
  fun _ => .htlcAccepted
    { targetScid := some (Host.transparent.scid openPeer)
      amountMsat := some 1000
      forwardAmount := some 1000
      paymentHash := some (digest (List.replicate 32 5))
      cltvExpiry := some 1200
      outgoingCltvValue := some 1100
      nextOnion := some (List.replicate 1366 0)
      htlcId := some 1
      shortChannelId := none
      sharedSecret := some none },
  clientCommits .transparent openKey]

def loopFulfill : UpdateFulfillHtlc := ⟨ByteVec.fill 32 0, 1, ByteVec.fill 32 5, []⟩

/-- The fulfil of the one makes the host fulfil the other. -/
theorem resolution_adds_local : ¬ ∀ (H : Host) (w : World) (p : PublicKey) (d d' : ChannelData)
    (msgs : List (HostedMessage × (Nat → Choice))), Reachable H Guard.free w → w.channel p = some d →
    deriveStatus d = .active → DistinctIds d.lcss.outgoingHtlcs → ResolvedOnce d → d.lcss.funds ≤ 2 ^ 64 - 1 →
    (∃ next, d.next H = .ok next) → (∀ m ∈ msgs, Resolving H w p d m) → (w.resolve H p msgs).channel p = some d' →
    d'.uncommitted.filter (·.isLocal) = d.uncommitted.filter (·.isLocal) := by
  intro hall
  have hrun : ((calmRun .transparent loopScript).channel openPeer).any (fun d =>
      (((calmRun .transparent loopScript).resolve .transparent openPeer
        [(.updateFulfillHtlc loopFulfill, fun _ => .calm)]).channel openPeer).any fun d' =>
      (d.next .transparent).toBool && ((calmRun .transparent loopScript).link (Host.transparent.scid openPeer, 1)).any
        (fun l => l.incomingScid == Host.transparent.scid openPeer) &&
        decide (deriveStatus d = .active ∧ d.uncommitted = [] ∧ d.lcss.funds ≤ 2 ^ 64 - 1 ∧
          (d.lcss.outgoingHtlcs.map (·.id)).Nodup ∧ d'.uncommitted.filter (·.isLocal) ≠ [])) = true := by
    decide +kernel
  obtain ⟨d, hd, hrun⟩ := exists_of_any hrun
  obtain ⟨d', hd', hrun⟩ := exists_of_any hrun
  simp only [Bool.and_eq_true, decide_eq_true_eq] at hrun
  obtain ⟨⟨hnext, hlink⟩, hs, hnone, hfunds, hdistinct, hlocal⟩ := hrun
  obtain ⟨l, hl, hscid⟩ := exists_of_any hlink
  have hempty : d.remotelyResolved = [] := by rw [ChannelData.remotelyResolved, hnone]; rfl
  refine hlocal ((hall .transparent _ openPeer d d' [(.updateFulfillHtlc loopFulfill, fun _ => .calm)]
    (calmRun_reachable _ loopScript) hd hs hdistinct ⟨by rw [hempty]; exact List.nodup_nil, by rw [hempty]; simp⟩ hfunds
    (exists_eq_ok hnext) ?_ hd').trans (by rw [hnone]; rfl))
  intro m hm
  obtain rfl := List.mem_singleton.mp hm
  refine ⟨rfl, fun _ => rfl, fun f h hf hful n l' hl' hnormal => ?_⟩
  obtain rfl := HostedMessage.updateFulfillHtlc.inj hf
  -- The link leads to a hosted channel, so that there is no deadline.
  have hid : h.id = 1 := by simpa [loopFulfill] using List.find?_some hful.1
  rw [hid] at hl'
  obtain rfl := Option.some.inj (hl'.symm.trans hl)
  exact absurd (beq_iff_eq.mp hscid).symm (hnormal openPeer (by rw [hd]; rfl))

end Canopus
