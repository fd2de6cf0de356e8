import Canopus.Theorems.HandlerSteps

/-! What a step does to the record of one peer and to the list of signed states, and the rule for
    invariants of single records that follows. Then the first of these: no channel is ever suspended,
    so that a record is only ever created anew for a channel that was not established. -/

namespace Canopus
open Effect

variable {H : Host} {G : Guard} {K : Ctx} {B : Act → Prop} {w w' : World} {p : PublicKey} {d d' : ChannelData}
  {c : Change} {act : Act}

/-! ### Status -/

theorem established_of_active (h : deriveStatus d = .active) : d.established = true := by
  unfold deriveStatus at h
  split_ifs at h with _ _ _ he
  simpa using he

theorem not_established_of_opening (h : deriveStatus d = .opening) : d.established = false := by
  unfold deriveStatus at h
  split_ifs at h with _ _ _ he
  · simpa using he
  · simpa using he

theorem not_established_of_notOpened (h : deriveStatus d = .notOpened) : d.established = false := by
  unfold deriveStatus at h
  split_ifs at h with _ _ _ he
  simpa using he

theorem suspended_of_status (h : deriveStatus d = .suspended) : d.suspended = true := by
  unfold deriveStatus at h
  split_ifs at h with hs
  exact hs

/-! ### Signing -/

/-- Signing a state changes nothing but the host's signature. -/
theorem sign_eq_ok {C : Crypto} {key : SecretKey} {s t : LastCrossSignedState} (h : s.sign C key = .ok t) :
    ∃ hash, s.reverse.hostedSigHash C = .ok hash ∧ t = { s with localSigOfRemote := C.signEcdsa hash key } := by
  unfold LastCrossSignedState.sign at h
  cases hr : s.reverse.hostedSigHash C with
  | error e =>
    rw [hr] at h
    cases h
  | ok hash =>
    rw [hr] at h
    cases h
    exact ⟨hash, rfl, rfl⟩

/-- The two states agree on all that a signature covers. -/
structure SignedAlike (s t : LastCrossSignedState) : Prop where
  isHost : s.isHost = t.isHost
  refund : s.lastRefundScriptpubkey = t.lastRefundScriptpubkey
  capacity : s.initHostedChannel.channelCapacityMsat = t.initHostedChannel.channelCapacityMsat
  initial : s.initHostedChannel.initialClientBalanceMsat = t.initHostedChannel.initialClientBalanceMsat
  blockDay : s.blockDay = t.blockDay
  localBalance : s.localBalanceMsat = t.localBalanceMsat
  remoteBalance : s.remoteBalanceMsat = t.remoteBalanceMsat
  localUpdates : s.localUpdates = t.localUpdates
  remoteUpdates : s.remoteUpdates = t.remoteUpdates
  incoming : s.incomingHtlcs = t.incomingHtlcs
  outgoing : s.outgoingHtlcs = t.outgoingHtlcs

theorem SignedAlike.hash {C : Crypto} {s t : LastCrossSignedState} (h : SignedAlike s t) :
    s.hostedSigHash C = t.hostedSigHash C := by
  unfold LastCrossSignedState.hostedSigHash LastCrossSignedState.sigMaterial
  rw [h.isHost, h.refund, h.capacity, h.initial, h.blockDay, h.localBalance, h.remoteBalance, h.localUpdates,
    h.remoteUpdates, h.incoming, h.outgoing]

theorem SignedAlike.verify {C : Crypto} {s t : LastCrossSignedState} (h : SignedAlike s t)
    (hr : s.remoteSigOfLocal = t.remoteSigOfLocal) (p : PublicKey) : s.verifyRemoteSig C p = t.verifyRemoteSig C p := by
  unfold LastCrossSignedState.verifyRemoteSig
  rw [h.hash, hr]

theorem SignedAlike.sign {C : Crypto} {key : SecretKey} {s t : LastCrossSignedState} (h : s.sign C key = .ok t) :
    SignedAlike t s := by
  obtain ⟨hash, -, rfl⟩ := sign_eq_ok h
  constructor <;> rfl

theorem SignedAlike.resigned (s : LastCrossSignedState) (sig : Signature) :
    SignedAlike { s with remoteSigOfLocal := sig }.reverse.reverse s := by
  rw [LastCrossSignedState.reverse_reverse]
  constructor <;> rfl

/-! ### One record -/

/-- What a step may do to the record of `p`. -/
inductive RecordEvent (K : Ctx) (w w' : World) (p : PublicKey) : Prop
  | same (h : w'.channel p = w.channel p)
  | created {policy : ChannelPolicy} {refund : Bytes}
    (hn : ∀ d, w.channel p = some d → deriveStatus d = .notOpened ∨ deriveStatus d = .suspended)
    (ho : ∃ e m, K.op = .message p e (.invokeHostedChannel m)) (hp : Granted K.host K.start policy)
    (hg : K.guard.record w p (initialData policy refund)) (h : w'.channel p = some (initialData policy refund))
  | wrote {c : Change} {d d' : ChannelData} (hd : w.channel p = some d) (hc : Changes K.host p c d d')
    (ho : c.Cause K w p d) {v : World} (hv : v.store .channels = w.store .channels) (hg : K.guard.record v p d')
    (h : w'.channel p = some d')
  | removed (ho : ∃ force, K.op = .removeChannel p force) (h : w'.channel p = none)

theorem Step.record (hs : Step K act w w') (p : PublicKey) : RecordEvent K w w' p := by
  cases hs with
  | @created _ q policy refund hn ho hp hg =>
    by_cases hq : p = q
    · subst hq
      exact .created hn ho hp hg World.channel_put
    · exact .same (World.channel_put_ne hq)
  | @wrote _ q c d d' hd hc ho hg =>
    by_cases hq : p = q
    · subst hq
      exact .wrote hd hc ho rfl hg World.channel_put
    · exact .same (World.channel_put_ne hq)
  | @offered _ q htlc d d' l hd hc hb hi ho hn hl hg =>
    by_cases hq : p = q
    · subst hq
      exact .wrote hd hc ho (World.put_store_ne (by decide)) hg World.channel_put
    · exact .same ((World.channel_put_ne hq).trans World.channel_put_link)
  | @removed _ q ho =>
    by_cases hq : p = q
    · subst hq
      exact .removed ho World.channel_erase
    · exact .same (World.channel_erase_ne hq)
  | linked => exact .same World.channel_put_link
  | unlinked => exact .same World.channel_erase_link
  | forwarded | signed | answered | sent | stored => exact .same rfl
  | secretAdded => exact .same (by simp [World.channel, World.put_store_ne])
  | secretConsumed => exact .same (by simp [World.channel, World.put_store_ne])
  | secretRemoved => exact .same (by simp [World.channel, World.erase_store_ne])
  | policyChanged => exact .same (by simp [World.channel, World.put_store_ne])
  | quiet h => exact .same (h.channel p)

/-- A step brings at most one channel into being, by a write that the guard permits. -/
theorem Step.newcomer (hs : Step K act w w') : (∀ q, (w'.channel q).isSome → (w.channel q).isSome) ∨
    ∃ p d, K.guard.record w p d ∧ ∀ q, (w'.channel q).isSome → q = p ∨ (w.channel q).isSome := by
  cases hs with
  | @created _ p policy refund _ _ _ hg =>
    refine Or.inr ⟨p, _, hg, ?_⟩
    intro q hq
    by_cases he : q = p
    · exact Or.inl he
    · rw [World.channel_put_ne he] at hq
      exact Or.inr hq
  | @wrote _ p _ d d' hd =>
    refine Or.inl fun q hq => ?_
    by_cases he : q = p
    · rw [he, hd]
      rfl
    · rw [World.channel_put_ne he] at hq
      exact hq
  | @offered _ p _ d d' _ hd =>
    refine Or.inl fun q hq => ?_
    by_cases he : q = p
    · rw [he, hd]
      rfl
    · rw [World.channel_put_ne he, World.channel_put_link] at hq
      exact hq
  | @removed _ p =>
    refine Or.inl fun q hq => ?_
    by_cases he : q = p
    · rw [he, World.channel_erase] at hq
      cases hq
    · rw [World.channel_erase_ne he] at hq
      exact hq
  | linked => exact Or.inl fun q hq => by simpa using hq
  | unlinked => exact Or.inl fun q hq => by simpa using hq
  | forwarded | signed | answered | sent | stored => exact Or.inl fun q hq => hq
  | secretAdded => exact Or.inl fun q hq => by simpa [World.channel, World.put_store_ne] using hq
  | secretConsumed => exact Or.inl fun q hq => by simpa [World.channel, World.put_store_ne] using hq
  | secretRemoved => exact Or.inl fun q hq => by simpa [World.channel, World.erase_store_ne] using hq
  | policyChanged => exact Or.inl fun q hq => by simpa [World.channel, World.put_store_ne] using hq
  | quiet h => exact Or.inl fun q hq => h.channel q ▸ hq

/-! ### Links and signatures -/

/-- Where the HTLC of a new link goes: over the node, or to a hosted channel other than the one whose peer the
    operation is about. -/
def Ctx.Leaves (K : Ctx) (w : World) (l : ForwardLink) : Prop :=
  (∀ q, (w.channel q).isSome → K.host.scid q ≠ l.outgoingScid) ∨
    ∃ q, K.op.peer ≠ some q ∧ (w.channel q).isSome ∧ K.host.scid q = l.outgoingScid

/-- What a step may do to the forward links. -/
inductive LinkEvent (K : Ctx) (w w' : World) : Prop
  | same (h : ∀ k, w'.link k = w.link k)
  | linked {l : ForwardLink} (hi : K.Comes l.incomingScid) (hout : K.Leaves w l) (hn : w.link (l.outgoingScid, l.outgoingHtlcId) = none)
    (hg : K.guard.link w (l.outgoingScid, l.outgoingHtlcId) l)
    (h : ∀ k, w'.link k = if k = (l.outgoingScid, l.outgoingHtlcId) then some l else w.link k)
  | unlinked {k₀ : HtlcKey} (hk : Drops K.host K.guard w k₀) (h : ∀ k, w'.link k = if k = k₀ then none else w.link k)

theorem Step.link (hs : Step K act w w') : LinkEvent K w w' := by
  cases hs with
  | created => exact .same fun _ => World.link_put_channel
  | wrote => exact .same fun _ => World.link_put_channel
  | removed => exact .same fun _ => World.link_erase_channel
  | @offered _ p _ d _ _ hd _ hb hi ho hn hg =>
    refine .linked hi (Or.inr ⟨p, ho, by rw [hd]; rfl, hb.scid.symm⟩) hn hg ?_
    intro k
    rw [World.link_put_channel]
    split
    · rename_i hk
      subst hk
      exact World.link_put
    · rename_i hk
      exact World.link_put_ne hk
  | linked hi ha hn hg =>
    refine .linked hi (ha.imp id And.right) hn hg ?_
    intro k
    split
    · rename_i hk
      subst hk
      exact World.link_put
    · rename_i hk
      exact World.link_put_ne hk
  | unlinked hk =>
    refine .unlinked hk ?_
    intro k
    split
    · rename_i he
      subst he
      exact World.link_erase
    · rename_i he
      exact World.link_erase_ne he
  | forwarded | signed | answered | sent | stored => exact .same fun _ => rfl
  | secretAdded => exact .same fun _ => by simp [World.link, World.put_store_ne]
  | secretConsumed => exact .same fun _ => by simp [World.link, World.put_store_ne]
  | secretRemoved => exact .same fun _ => by simp [World.link, World.erase_store_ne]
  | policyChanged => exact .same fun _ => by simp [World.link, World.put_store_ne]
  | quiet h => exact .same fun k => by rw [World.link, World.link, h.links]

/-- The states that the host has signed, after a step. -/
theorem Step.signed_eq (hs : Step K act w w') :
    w'.signed = w.signed ∨ ∃ p s, Signs K.host w p s ∧ w'.signed = w.signed ++ [(p, s)] := by
  cases hs with
  | signed hs => exact Or.inr ⟨_, _, hs, rfl⟩
  | quiet h => exact Or.inl h.signed
  | _ => exact Or.inl rfl

theorem signed_of_trace {x : PublicKey × LastCrossSignedState} (ht : K.Trace B w w') (hx : x ∈ w.signed) : x ∈ w'.signed := by
  refine ht.keeps (P := fun v => x ∈ v.signed) ?_ hx
  intro _ u v _ hs hu
  rcases hs.signed_eq with h | ⟨p, s, -, h⟩
  · rw [h]
    exact hu
  · rw [h]
    exact List.mem_append_left _ hu

/-- A property of single records that new records have and every change keeps. -/
theorem Reachable.each_record {Q : PublicKey → ChannelData → Prop} (hw : Reachable H G w)
    (created : ∀ p policy refund, Q p (initialData policy refund))
    (wrote : ∀ (K : Ctx) w p c d d', K.host = H → G.op K.start K.op → Changes H p c d d' → c.Cause K w p d →
      Q p d → Q p d') : ∀ p d, w.channel p = some d → Q p d := by
  refine hw.keeps (P := fun w => ∀ p d, w.channel p = some d → Q p d) ?_ ?_
  · intro p d hd
    cases hd
  · intro K act w w' hK hG hop hstart _ hs hall p d hd
    subst hK hG
    cases hs.record p with
    | same h => exact hall p d (h ▸ hd)
    | created _ _ _ _ h =>
      obtain rfl := Option.some.inj (h.symm.trans hd)
      exact created p _ _
    | wrote hd₀ hc ho _ _ h =>
      obtain rfl := Option.some.inj (h.symm.trans hd)
      exact wrote K w p _ _ _ rfl hop hc ho (hall p _ hd₀)
    | removed _ h => cases h.symm.trans hd

/-! ### Suspension -/

theorem Changes.suspended (hc : Changes H p c d d') (h : d.suspended = false) : d'.suspended = false := by
  cases hc with
  | overridden => rfl
  | errored _ hd =>
    subst hd
    exact h
  | proposed hd =>
    subst hd
    exact h
  | _ => exact h

theorem Reachable.not_suspended (hw : Reachable H G w) : ∀ p d, w.channel p = some d → d.suspended = false :=
  hw.each_record (fun _ _ _ => rfl) fun _ _ _ _ _ _ _ _ hc _ => hc.suspended

/-! ### Establishment -/

theorem Changes.established_mono (hc : Changes H p c d d') (h : d.established = true) : d'.established = true := by
  cases hc with
  | established => rfl
  | overridden => rfl
  | errored _ hd =>
    subst hd
    exact h
  | proposed hd =>
    subst hd
    exact h
  | _ => exact h

/-- Where no channel is removed, an established channel stays established. -/
theorem Step.established (hs : Step K act w w') (hd : w.channel p = some d) (he : d.established = true)
    (hr : d.suspended = false) (hop : ∀ force, K.op ≠ .removeChannel p force) :
    ∃ d', w'.channel p = some d' ∧ d'.established = true := by
  cases hs.record p with
  | same h => exact ⟨d, h.trans hd, he⟩
  | created hn =>
    rcases hn d hd with hn | hn
    · cases (not_established_of_notOpened hn).symm.trans he
    · cases (suspended_of_status hn).symm.trans hr
  | wrote hd₀ hc _ _ _ h =>
    obtain rfl := Option.some.inj (hd₀.symm.trans hd)
    exact ⟨_, h, hc.established_mono he⟩
  | removed ho =>
    obtain ⟨force, ho⟩ := ho
    exact absurd ho (hop force)

end Canopus
