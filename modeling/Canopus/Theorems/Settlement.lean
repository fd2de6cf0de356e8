import Canopus.Theorems.Records
import Canopus.Transparent

/-! Settlement upstream. An HTLC of a normal channel is answered with a preimage through a stored link
    only by a client's fulfil and by recovery, and both ask first whether the hosted HTLC is still safe to
    settle. The check and the answer look at the link, the record and the policy at different moments of the
    operation; this module shows that nothing that the check depends on changes in between. -/

namespace Canopus
open Effect

variable {H : Host} {K : Ctx} {w w' : World} {p q : PublicKey} {d d' : ChannelData} {c : Change} {act : Act}

/-- Every stored preimage is under its own hash. -/
def PreimagesKeyed (H : Host) (w : World) : Prop :=
  ∀ hash preimage, w.preimages.lookup hash = some preimage → H.crypto.sha256 preimage.toList = hash

/-- A preimage is stored under its own hash only. -/
def Call.Keyed (H : Host) : Call → Prop
  | .storePreimage hash preimage => H.crypto.sha256 preimage.toList = hash
  | _ => True

/-- In the world `w` at the block height `height`, the link under the key of the hosted HTLC `htlc` of `p`
    leads to the upstream HTLC `key`, and there is still time to settle that. -/
def SettlesInTime (H : Host) (w : World) (height : UInt32) (key : HtlcKey) (p : PublicKey) (htlc : UpdateAddHtlc) : Prop :=
  ∃ d l e, w.channel p = some d ∧ htlc ∈ d.lcss.outgoingHtlcs ∧ w.link (H.scid p, htlc.id) = some l ∧
    (l.incomingScid, l.incomingHtlcId) = key ∧ l.upstreamCltvExpiry = some e ∧ height < htlc.cltvExpiry ∧
    htlc.cltvExpiry.toNat + (w.routing H d).cltvExpiryDelta.toNat ≤ e.toNat

/-! ### What one step does -/

/-- The answers that the node has been given, after a step. -/
theorem Step.resolutions_eq (hs : Step K act w w') :
    w'.resolutions = w.resolutions ∨ ∃ key r, Answers K w key r ∧ w'.resolutions = w.resolutions ++ [(key, r)] := by
  cases hs with
  | answered ha => exact Or.inr ⟨_, _, ha, rfl⟩
  | quiet h => exact Or.inl h.resolutions
  | _ => exact Or.inl rfl

/-- The preimages that the node knows, after a step. -/
theorem Step.preimages_eq (hs : Step K act w w') : w'.preimages = w.preimages ∨
    ∃ x hash preimage, K.env x w (.storePreimage hash preimage) ∧ w'.preimages = w.preimages.insert hash preimage := by
  cases hs with
  | stored he _ => exact Or.inr ⟨_, _, _, he, rfl⟩
  | quiet h => exact Or.inl h.preimages
  | _ => exact Or.inl rfl

theorem Step.policy_eq (hs : Step K act w w') :
    w'.store .policy = w.store .policy ∨ ∃ params, K.op = .policy params := by
  cases hs with
  | created => exact Or.inl (World.put_store_ne (by decide))
  | wrote => exact Or.inl (World.put_store_ne (by decide))
  | offered =>
    exact Or.inl ((World.put_store_ne (by decide)).trans (World.put_store_ne (by decide)))
  | removed => exact Or.inl (World.erase_store_ne (by decide))
  | linked => exact Or.inl (World.put_store_ne (by decide))
  | unlinked => exact Or.inl (World.erase_store_ne (by decide))
  | forwarded | signed | answered | sent | stored => exact Or.inl rfl
  | secretAdded => exact Or.inl (World.put_store_ne (by decide))
  | secretConsumed => exact Or.inl (World.put_store_ne (by decide))
  | secretRemoved => exact Or.inl (World.erase_store_ne (by decide))
  | policyChanged ho => exact Or.inr ho
  | quiet h => exact Or.inl h.policy

theorem PreimagesKeyed.insert {hash : Hash} {preimage : ByteVec 32} (h : PreimagesKeyed H w)
    (hp : H.crypto.sha256 preimage.toList = hash) :
    PreimagesKeyed H { w with preimages := w.preimages.insert hash preimage } := by
  intro hash' preimage' hlookup
  by_cases heq : hash' = hash
  · subst heq
    rw [AList.lookup_insert] at hlookup
    obtain rfl := Option.some.inj hlookup
    exact hp
  · rw [AList.lookup_insert_ne heq] at hlookup
    exact h hash' preimage' hlookup

theorem PreimagesKeyed.step (hkeyed : PreimagesKeyed H w) (henv : ∀ x v call, K.env x v call → call.Keyed H)
    (hs : Step K act w w') : PreimagesKeyed H w' := by
  rcases hs.preimages_eq with h | ⟨x, hash, preimage, he, h⟩
  · intro hash preimage hp
    rw [h] at hp
    exact hkeyed hash preimage hp
  · intro hash' preimage' hp
    rw [h] at hp
    exact hkeyed.insert (henv x w _ he) hash' preimage' hp

/-- An operation that settles changes neither the state of a channel nor its routing policy. -/
theorem Changes.terms (hc : Changes H q c d d') (ho : c.Cause K w q d) (hset : K.op.settles p) :
    d'.lcss = d.lcss ∧ d'.routingPolicy = d.routingPolicy := by
  cases hc with
  | established | overridden | adopted | resized =>
    obtain ⟨⟨e, ho⟩, -⟩ := ho
    rw [ho] at hset
    cases hset
  | committed =>
    obtain ⟨⟨e, ho⟩, -⟩ := ho
    rw [ho] at hset
    cases hset
  | retuned =>
    obtain ⟨params, force, ho⟩ := ho
    rw [ho] at hset
    cases hset
  | proposed =>
    obtain ⟨⟨⟨params, force, ho⟩, -⟩ | ⟨⟨balance, ho⟩, -⟩, -⟩ := ho
    · rw [ho] at hset
      cases hset
    · rw [ho] at hset
      cases hset
  | errored _ hd =>
    subst hd
    exact ⟨rfl, rfl⟩
  | _ => exact ⟨rfl, rfl⟩

/-! ### One operation -/

/-- What holds while an operation runs: the links, the policy and the records that settlement depends on
    are those of the start, and each preimage given for an HTLC of a normal channel was given in time. -/
structure Settling (K : Ctx) (height : UInt32) (trusted : Prop) (v : World) : Prop where
  links : ∀ k l, v.link k = some l → K.start.link k = some l ∨ K.Comes l.incomingScid
  policy : v.store .policy = K.start.store .policy ∨ ∃ params, K.op = .policy params
  terms : ∀ p d, K.op.settles p → v.channel p = some d → d.lcss.outgoingHtlcs = [] ∨
    ∃ d₀, K.start.channel p = some d₀ ∧ d.lcss = d₀.lcss ∧ d.routingPolicy = d₀.routingPolicy
  keyed : trusted → PreimagesKeyed K.host v
  answers : ∃ new, v.resolutions = K.start.resolutions ++ new ∧ ∀ key preimage, (key, .resolve preimage) ∈ new →
    K.Comes key.1 ∨ ∃ p htlc, SettlesInTime K.host K.start height key p htlc ∧
      (trusted → K.host.crypto.sha256 preimage.toList = htlc.paymentHash)

theorem Settling.start {height : UInt32} {trusted : Prop} (hkeyed : trusted → PreimagesKeyed K.host K.start) :
    Settling K height trusted K.start where
  links _ _ hl := Or.inl hl
  policy := Or.inl rfl
  terms _ d _ hd := Or.inr ⟨d, hd, rfl, rfl⟩
  keyed := hkeyed
  answers := ⟨[], by simp, fun _ _ h => by cases h⟩

/-- What the check saw holds of the world that the operation started in. -/
theorem Settling.inTime {height : UInt32} {trusted : Prop} {key : HtlcKey} {htlc : UpdateAddHtlc} {l : ForwardLink}
    (h : Settling K height trusted w) (henv : ∀ x v call, K.env x v call → height ≤ x.height) (hset : K.op.settles p)
    (hd : w.channel p = some d) (hh : htlc ∈ d.lcss.outgoingHtlcs) (hl : w.link (K.host.scid p, htlc.id) = some l)
    (hk : key = (l.incomingScid, l.incomingHtlcId)) (ht : Timely K w p htlc l) :
    K.Comes key.1 ∨ SettlesInTime K.host K.start height key p htlc := by
  subst hk
  rcases h.links _ _ hl with hl₀ | hcomes
  · obtain ⟨d₁, e, hd₁, he, hmargin⟩ := ht.margin
    obtain ⟨x, v, hx, -, hheight⟩ := ht.height
    obtain rfl := Option.some.inj (hd₁.symm.trans hd)
    rcases h.terms p d₁ hset hd with hnone | ⟨d₀, hd₀, hlcss, hrouting⟩
    · rw [hnone] at hh
      cases hh
    · have hpolicy : w.store .policy = K.start.store .policy := by
        rcases h.policy with hp | ⟨params, hp⟩
        · exact hp
        · rw [hp] at hset
          cases hset
      have heq : w.routing K.host d₁ = K.start.routing K.host d₀ := by
        unfold World.routing World.effectivePolicy
        rw [hpolicy, hrouting]
      rw [hlcss] at hh
      rw [heq] at hmargin
      have hlt : height < htlc.cltvExpiry := UInt32.lt_of_le_of_lt (henv x v _ hx) hheight
      exact Or.inr ⟨d₀, l, e, hd₀, hh, hl₀, rfl, he, hlt, hmargin⟩
  · exact Or.inl hcomes

theorem Settling.step {height : UInt32} {trusted : Prop} (h : Settling K height trusted w)
    (henv : ∀ x v call, K.env x v call → height ≤ x.height ∧ (trusted → call.Keyed K.host)) (hs : Step K act w w') :
    Settling K height trusted w' where
  links := by
    intro k l hl
    cases hs.link with
    | same he => exact h.links k l (he k ▸ hl)
    | linked hi _ _ _ he =>
      rw [he k] at hl
      split at hl
      · obtain rfl := Option.some.inj hl
        exact Or.inr hi
      · exact h.links k l hl
    | unlinked _ he =>
      rw [he k] at hl
      split at hl
      · cases hl
      · exact h.links k l hl
  policy := by
    rcases hs.policy_eq with he | he
    · rw [he]
      exact h.policy
    · exact Or.inr he
  terms := by
    intro p d hset hd
    cases hs.record p with
    | same he => exact h.terms p d hset (he ▸ hd)
    | created _ _ _ _ he =>
      obtain rfl := Option.some.inj (he.symm.trans hd)
      exact Or.inl rfl
    | wrote hd₁ hc ho _ _ he =>
      obtain rfl := Option.some.inj (he.symm.trans hd)
      obtain ⟨hlcss, hrouting⟩ := hc.terms ho hset
      rw [hlcss, hrouting]
      exact h.terms p _ hset hd₁
    | removed _ he => cases he.symm.trans hd
  keyed hkeyed := (h.keyed hkeyed).step (fun x v call he => (henv x v call he).2 hkeyed) hs
  answers := by
    obtain ⟨new, hnew, hall⟩ := h.answers
    rcases hs.resolutions_eq with he | ⟨key, r, ha, he⟩
    · exact ⟨new, he.trans hnew, hall⟩
    · refine ⟨new ++ [(key, r)], by rw [he, hnew, List.append_assoc], ?_⟩
      intro key' preimage hmem
      rcases List.mem_append.mp hmem with hmem | hmem
      · exact hall key' preimage hmem
      · obtain ⟨rfl, rfl⟩ := Prod.mk.inj (List.mem_singleton.mp hmem)
        cases ha with
        | direct hcomes => exact Or.inl hcomes
        | @settled p d htlc l _ hset hd hh hl hk ht hp =>
          rcases h.inTime (fun x v call hx => (henv x v call hx).1) hset hd hh hl hk ht with hcomes | hin
          · exact Or.inl hcomes
          · refine Or.inr ⟨p, htlc, hin, fun hkeyed => ?_⟩
            rcases hp with hp | hp
            · exact hp
            · exact h.keyed hkeyed htlc.paymentHash preimage hp

/-- Whatever the operation, and whatever the world it starts in: where it answers an HTLC of a normal channel
    with a preimage, other than that of a hook, the answer goes through a stored link whose hosted HTLC has
    not expired and leaves the upstream one the channel's CLTV delta. The preimage is the right one provided
    that preimages are stored under their hashes. -/
theorem settlement_in_time (H : Host) (w : World) (op : Op) (o : Nat → Choice) (height : UInt32) (key : HtlcKey)
    (preimage : ByteVec 32) (hheight : ∀ n, height ≤ (o n).height) (hhook : ∀ r, op ≠ .htlcAccepted r)
    (hnormal : ∀ q, (w.channel q).isSome → H.scid q ≠ key.1)
    (hres : (key, .resolve preimage) ∈ (op.next H o w).resolutions.drop w.resolutions.length) :
    ∃ p htlc, SettlesInTime H w height key p htlc ∧
      (PreimagesKeyed H w → Prog.Allowed exec (fun _ call => Call.Keyed H call) o (op.program H).run w →
        H.crypto.sha256 preimage.toList = htlc.paymentHash) := by
  let trusted : Prop := PreimagesKeyed H w ∧ Prog.Allowed exec (fun _ call => Call.Keyed H call) o (op.program H).run w
  let K : Ctx := ⟨H, .free, w, op, fun x _ call => height ≤ x.height ∧ (trusted → Call.Keyed H call)⟩
  have hkept : Prog.Kept exec K.env o (op.program H).run w := by
    by_cases hk : trusted
    · have hheights : Prog.Kept exec (fun x _ _ => height ≤ x.height) o (op.program H).run w :=
        Prog.kept_of_forall fun n _ _ => hheight n
      refine Prog.kept_mono ?_ (Prog.kept_and hheights (Prog.kept_of_allowed hk.2))
      exact fun x _ call h => ⟨h.1, fun _ => h.2⟩
    · exact Prog.kept_of_forall fun n _ _ => ⟨hheight n, fun h => absurd h hk⟩
  have hend : Settling K height trusted (op.next H o w) := by
    refine (trace_next (K := K) (Guard.ofOp_allows H trivial) hkept).keeps ?_ (Settling.start And.left)
    intro act v v' _ hs hv
    exact hv.step (fun _ _ _ h => h) hs
  obtain ⟨new, hnew, hall⟩ := hend.answers
  have hmem : (key, .resolve preimage) ∈ new := by
    rw [hnew, List.drop_left] at hres
    exact hres
  rcases hall key preimage hmem with (⟨r, hr⟩ | ⟨q, hq, hscid⟩) | ⟨p, htlc, hin, hsha⟩
  · exact absurd hr (hhook r)
  · exact absurd hscid (hnormal q hq)
  · exact ⟨p, htlc, hin, fun hk ha => hsha ⟨hk, ha⟩⟩

instance Call.Keyed.decidable : (call : Call) → Decidable (call.Keyed H)
  | .storePreimage hash preimage => inferInstanceAs (Decidable (H.crypto.sha256 preimage.toList = hash))
  | .get _ _ | .existsKey _ _ | .create _ _ _ | .update _ _ _ _ | .delete _ _ | .listChannels | .listForwardScids
  | .listForwards _ | .sendCustomMsg _ _ _ | .sendOnion _ _ _ | .inspectOutgoingPayment _ _ | .getBlockHeight
  | .resolveHtlc _ _ | .lookupPreimage _ | .systemTime | .sessionKey | .peerConnection _ | .notePeerConnection _ _
  | .peerWireEncoding _ | .noteWireEncoding _ _ | .forgetWireEncoding _ | .noteSigned _ _ => .isTrue trivial

/-- The client has committed to an HTLC that the node handed to it. -/
def settlementScript : List (World → Op) := openScript ++ [
  hookOffers (digest (List.replicate 32 5)) 1 1100, clientCommits .transparent openKey]

theorem settlement_in_time_fulfilled : ∃ p htlc,
    SettlesInTime .transparent (calmRun .transparent settlementScript) 1000 (55, 1) p htlc ∧
      digest (ByteVec.fill 32 5).toList = htlc.paymentHash := by
  have hnormal : ∀ q ∈ (calmRun .transparent settlementScript).peers, Host.transparent.scid q ≠ 55 :=
    @of_decide_eq_true _ (List.decidableBAll _ _) (by decide +kernel)
  have hres : ((55, 1), HtlcResolution.resolve (ByteVec.fill 32 5)) ∈
      ((clientFulfills openKey 1 (ByteVec.fill 32 5) (calmRun .transparent settlementScript)).next .transparent
        (fun _ => .calm) (calmRun .transparent settlementScript)).resolutions.drop
          (calmRun .transparent settlementScript).resolutions.length := by
    decide +kernel
  have hempty : (calmRun .transparent settlementScript).preimages.entries.isEmpty = true := by decide +kernel
  have hcalls : Prog.Allowed.check exec (fun _ call => Call.Keyed .transparent call) (fun _ => .calm)
      ((clientFulfills openKey 1 (ByteVec.fill 32 5) (calmRun .transparent settlementScript)).program .transparent).run
      (calmRun .transparent settlementScript) = true := by
    decide +kernel
  obtain ⟨p, htlc, hin, hsha⟩ := settlement_in_time .transparent (calmRun .transparent settlementScript)
    (clientFulfills openKey 1 (ByteVec.fill 32 5) (calmRun .transparent settlementScript)) (fun _ => .calm) 1000 (55, 1)
    (ByteVec.fill 32 5) (fun _ => by decide) (fun _ => Op.noConfusion) (fun q hq => hnormal q (World.mem_peers.mpr hq)) hres
  refine ⟨p, htlc, hin, hsha ?_ (Prog.allowed_of_check hcalls)⟩
  intro hash preimage hp
  rw [AList.lookup, List.isEmpty_iff.mp hempty] at hp
  cases hp

end Canopus
