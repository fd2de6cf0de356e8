import Canopus.Theorems.Dispatch
import Canopus.Theorems.ForwardAmount
import Canopus.Theorems.Ownership

/-! The fee of a forward between two clients. A channel advertises a base fee and a rate in millionths, and the
    amount that comes in has to exceed the amount that goes out by both. The code divides the amount by a million
    before it applies the rate, so that it takes no share of what is left over. -/

namespace Canopus
open Effect Fallible

variable {H : Host} {w w' : World} {peer target q : PublicKey} {d td : ChannelData} {committed : ChannelData}
  {htlc : UpdateAddHtlc} {peeled : PeeledOnion} {a : HtlcAccepted} {r : ChannelRoutingPolicy} {height : UInt32}
  {α : Type} {A : Choice → World → Call → Prop} {P : ChannelData → Prop}

/-! ### Fees -/

/-- What the channel with this policy asks for an HTLC of `amount`, by its channel update. -/
def ChannelRoutingPolicy.advertisedFee (r : ChannelRoutingPolicy) (amount : UInt64) : Nat :=
  r.feeBaseMsat.toNat + amount.toNat * r.feeProportionalMillionths.toNat / 1000000

/-- The least amount that may come in for an HTLC of `amount`, if the rate applies to whole millions only. -/
def ChannelRoutingPolicy.coarseAmount (r : ChannelRoutingPolicy) (amount : UInt64) : Nat :=
  amount.toNat + r.feeBaseMsat.toNat + amount.toNat / 1000000 * r.feeProportionalMillionths.toNat

theorem saturatingAdd_toNat (a b : UInt64) : (saturatingAdd a b).toNat = min (a.toNat + b.toNat) (2 ^ 64 - 1) := by
  rw [saturatingAdd, UInt64.toNat_ofNat', Nat.mod_eq_of_lt (by omega)]

theorem saturatingMul_toNat (a b : UInt64) : (saturatingMul a b).toNat = min (a.toNat * b.toNat) (2 ^ 64 - 1) := by
  rw [saturatingMul, UInt64.toNat_ofNat', Nat.mod_eq_of_lt (by omega)]

theorem saturatingAdd32_toNat (a b : UInt32) : (saturatingAdd32 a b).toNat = min (a.toNat + b.toNat) (2 ^ 32 - 1) := by
  rw [saturatingAdd32, UInt32.toNat_ofNat', Nat.mod_eq_of_lt (by omega)]

/-- What the code compares the incoming amount with. -/
theorem coarse_toNat (amount : UInt64) :
    (saturatingAdd amount (requiredFee amount r)).toNat = min (r.coarseAmount amount) (2 ^ 64 - 1) := by
  have hmillions : (amount / 1000000).toNat = amount.toNat / 1000000 := UInt64.toNat_div _ _
  rw [saturatingAdd_toNat, requiredFee, saturatingAdd_toNat, saturatingMul_toNat, hmillions, UInt32.toNat_toUInt64,
    UInt32.toNat_toUInt64]
  unfold ChannelRoutingPolicy.coarseAmount
  generalize amount.toNat / 1000000 * r.feeProportionalMillionths.toNat = share
  omega

/-- The two differ by the share of what is left over after the whole millions. -/
theorem advertised_eq_coarse (amount : UInt64) : amount.toNat + r.advertisedFee amount =
    r.coarseAmount amount + amount.toNat % 1000000 * r.feeProportionalMillionths.toNat / 1000000 := by
  have hsplit : amount.toNat * r.feeProportionalMillionths.toNat =
      amount.toNat % 1000000 * r.feeProportionalMillionths.toNat +
        1000000 * (amount.toNat / 1000000 * r.feeProportionalMillionths.toNat) := by
    rw [← Nat.mul_assoc, ← Nat.add_mul, Nat.mod_add_div]
  unfold ChannelRoutingPolicy.coarseAmount ChannelRoutingPolicy.advertisedFee
  rw [hsplit, Nat.add_mul_div_left _ _ (by decide)]
  omega

/-- The code asks for no more than is advertised. -/
theorem coarse_le_advertised (amount : UInt64) : r.coarseAmount amount ≤ amount.toNat + r.advertisedFee amount := by
  rw [advertised_eq_coarse]
  exact Nat.le_add_right _ _

/-- The terms are refused for the expiry that is too near, for the fee, or for the distance of the expiries. -/
theorem refusesTerms_iff : refusesTerms htlc peeled r height = false ↔
    min (height.toNat + 2) (2 ^ 32 - 1) ≤ peeled.outgoingCltvValue.toNat ∧
    min (r.coarseAmount peeled.amtToForward) (2 ^ 64 - 1) ≤ htlc.amountMsat.toNat ∧
    min (peeled.outgoingCltvValue.toNat + r.cltvExpiryDelta.toNat) (2 ^ 32 - 1) ≤ htlc.cltvExpiry.toNat := by
  have htwo : (2 : UInt32).toNat = 2 := rfl
  unfold refusesTerms
  simp only [Bool.or_eq_false_iff, decide_eq_false_iff_not, UInt32.lt_iff_toNat_lt, UInt64.lt_iff_toNat_lt, not_lt,
    saturatingAdd32_toNat, coarse_toNat, UInt16.toNat_toUInt32, htwo, and_assoc]

/-- An HTLC that pays what is advertised, and whose expiries leave room, is not refused for its terms. -/
theorem not_refused_of_paid (hpaid : peeled.amtToForward.toNat + r.advertisedFee peeled.amtToForward ≤ htlc.amountMsat.toNat)
    (hahead : height.toNat + 2 ≤ peeled.outgoingCltvValue.toNat)
    (hdelta : peeled.outgoingCltvValue.toNat + r.cltvExpiryDelta.toNat ≤ htlc.cltvExpiry.toNat) :
    refusesTerms htlc peeled r height = false := by
  have hcoarse := coarse_le_advertised (r := r) peeled.amtToForward
  rw [refusesTerms_iff]
  omega

/-- For these amounts the code asks for what is advertised, whatever comes in. -/
theorem fee_exact_iff (amount : UInt64) :
    (∀ received : UInt64, min (r.coarseAmount amount) (2 ^ 64 - 1) ≤ received.toNat →
      amount.toNat + r.advertisedFee amount ≤ received.toNat) ↔
    amount.toNat % 1000000 * r.feeProportionalMillionths.toNat < 1000000 ∧ r.coarseAmount amount < 2 ^ 64 := by
  rw [advertised_eq_coarse]
  constructor
  · intro h
    have hleast := h (UInt64.ofNat (min (r.coarseAmount amount) (2 ^ 64 - 1)))
    rw [UInt64.toNat_ofNat', Nat.mod_eq_of_lt (by omega)] at hleast
    have hle := hleast (Nat.le_refl _)
    have hzero : amount.toNat % 1000000 * r.feeProportionalMillionths.toNat / 1000000 = 0 := by omega
    rw [Nat.div_eq_zero_iff] at hzero
    omega
  · rintro ⟨hrest, hfits⟩ received hle
    rw [Nat.div_eq_of_lt hrest]
    omega

/-! ### What dispatching does to a record -/

/-- The HTLC that goes on to `target`, as a request to it. -/
def onwardRequest (H : Host) (peer target : PublicKey) (htlc : UpdateAddHtlc) (peeled : PeeledOnion) : HtlcAccepted where
  incomingAmountMsat := htlc.amountMsat
  htlc := onwardHtlc H target 0 htlc peeled
  incomingScid := H.scid peer
  incomingHtlcId := htlc.id
  sharedSecret := some peeled.sharedSecret
  incomingCltvExpiry := peeled.outgoingCltvValue

/-- Nothing but the fee is left to keep the HTLC of `peer` from going on to `target`, whose record is `td`: it is within
    the limits of its own channel, its onion names the other channel, its expiries leave room at a height that the node
    may have, and the other channel takes it. -/
structure MayGoOn (H : Host) (w : World) (peer : PublicKey) (committed : ChannelData) (htlc : UpdateAddHtlc)
    (peeled : PeeledOnion) (target : PublicKey) (td : ChannelData) : Prop where
  limits : exceedsLimits committed.lcss htlc = false
  onion : H.crypto.peelOnion H.nodeSecret htlc.onionRoutingPacket htlc.paymentHash.toList = some peeled
  found : w.peers.find? (H.scid · == peeled.shortChannelId) = some target
  other : target ≠ peer
  ahead : 2 ≤ peeled.outgoingCltvValue.toNat
  delta : min (peeled.outgoingCltvValue.toNat + (w.routing H td).cltvExpiryDelta.toNat) (2 ^ 32 - 1) ≤ htlc.cltvExpiry.toNat
  taken : Acceptable H w target (onwardRequest H peer target htlc peeled) td

/-- The incoming amount passes the check that the code makes of the fee. -/
def PassesFee (H : Host) (w : World) (htlc : UpdateAddHtlc) (peeled : PeeledOnion) (td : ChannelData) : Prop :=
  min ((w.routing H td).coarseAmount peeled.amtToForward) (2 ^ 64 - 1) ≤ htlc.amountMsat.toNat

/-- What dispatching makes of the record `td` of `q`: a failure is added to it, or the HTLC, if it passes. -/
inductive Told (H : Host) (w : World) (peer : PublicKey) (committed : ChannelData) (htlc : UpdateAddHtlc) (q : PublicKey)
    (td : ChannelData) : ChannelData → Prop
  | failed {e : ChannelData} {u : PendingUpdate} (hu : ∀ add, u ≠ .add add)
    (he : e.uncommitted = td.uncommitted ++ [.ofLocal u]) : Told H w peer committed htlc q td e
  | offered {e : ChannelData} {peeled : PeeledOnion} {add : UpdateAddHtlc}
    (h : MayGoOn H w peer committed htlc peeled q td) (hfee : PassesFee H w htlc peeled td)
    (he : e.uncommitted = td.uncommitted ++ [.ofLocal (.add add)]) (hamount : add.amountMsat = peeled.amtToForward) :
    Told H w peer committed htlc q td e

theorem does_failDispatched_record (hd : w.channel q = some d) (hP : peer = q → P (d.push (.ofLocal (refusal H peer htlc)))) :
    Does exec A (RecordStep q P) (fun _ => True) (failDispatched H peer htlc) w fun _ _ => True :=
  does_sendLocalResolution_record hd hP

theorem does_undoHostedForward_record (hd : w.channel q = some d)
    (hP : peer = q → P (d.push (.ofLocal (refusal H peer htlc)))) :
    Does exec A (RecordStep q P) (fun _ => True) (undoHostedForward H peer htlc) w fun _ _ => True := by
  unfold undoHostedForward
  refine Does.bind (does_failDispatched_record hd hP) fun _ _ _ => ?_
  refine Does.bind (Reading.forwardLinkForIncoming _ _).does fun l w₁ _ => ?_
  cases l with
  | none => exact Does.pure trivial
  | some l =>
    refine Does.bind (Does.ask (R := fun _ _ => True) fun x _ => ⟨?_, trivial⟩) fun r _ _ => ?_
    · refine RecordStep.same ?_
      simp only [exec]
      split
      · rfl
      · exact World.channel_erase_link
    · exact does_liftStore.post fun _ _ _ => trivial

theorem does_forwardToNode_record (hd : w.channel q = some d) (hP : peer = q → P (d.push (.ofLocal (refusal H peer htlc)))) :
    Does exec A (RecordStep q P) (fun _ => True) (forwardToNode H peer htlc peeled) w fun _ _ => True := by
  unfold forwardToNode
  dsimp only
  refine Does.bind does_createForwardLink_record fun _ w₁ h₁ => ?_
  refine Does.bind Reading.heightOrZero.does fun height w₂ h₂ => ?_
  subst h₂
  refine Does.bind (Does.ask (R := fun _ v => v.channel q = w₁.channel q) fun x _ => ?_) fun r w₃ h₃ => ?_
  · have hsame : (exec x (.sendOnion peer htlc
        { onion := peeled.nextOnion
          paymentHash := htlc.paymentHash
          firstScid := peeled.shortChannelId
          firstAmountMsat := peeled.amtToForward
          firstDelay := firstDelay peeled.outgoingCltvValue height
          label := (peeled.shortChannelId, htlc.id)
          groupId := peeled.shortChannelId / 100
          partId := htlc.id }) w₁).2.channel q = w₁.channel q := by
      simp only [exec]
      split <;> rfl
    exact ⟨RecordStep.same hsame, hsame⟩
  · cases r with
    | ok => exact Does.pure trivial
    | error e =>
      refine Does.bind (does_failDispatched_record (h₃.trans ((h₁ q).trans hd)) hP) fun _ _ _ => ?_
      exact (SameChannels.does (sameChannels_dropForwardLink _)).post fun _ _ _ => trivial

theorem does_forwardToHosted_record (hd : w.channel q = some td) (hlimits : exceedsLimits committed.lcss htlc = false)
    (honion : H.crypto.peelOnion H.nodeSecret htlc.onionRoutingPacket htlc.paymentHash.toList = some peeled)
    (hfound : w.peers.find? (H.scid · == peeled.shortChannelId) = some target) :
    Does exec A (RecordStep q (Told H w peer committed htlc q td)) (fun _ => True)
      (forwardToHosted H peer target htlc peeled) w fun _ _ => True := by
  have hfailed : peer = q → Told H w peer committed htlc q td (td.push (.ofLocal (refusal H peer htlc))) :=
    fun _ => .failed (by simp [refusal]) rfl
  unfold forwardToHosted
  split
  · exact Does.throw
  rename_i hother
  refine Does.bind does_loadExisting ?_
  intro d w hpost
  obtain ⟨rfl, hdt⟩ := hpost
  refine Does.bind does_routingPolicyForData ?_
  intro routing w hpost
  obtain ⟨rfl, rfl⟩ := hpost
  refine Does.bind Reading.heightOrZero.does ?_
  intro height _ hpost
  subst hpost
  split
  · exact does_failDispatched_record hd hfailed
  rename_i hterms
  obtain ⟨hahead, hfee, hdelta⟩ := refusesTerms_iff.mp (Bool.eq_false_iff.mpr hterms)
  dsimp only
  by_cases hq : target = q
  · subst hq
    obtain rfl := Option.some.inj (hdt.symm.trans hd)
    -- The record of the target: the HTLC is added to it, and undoing that is about the other channel.
    have hadd : Does exec A (RecordStep target (Told H w peer committed htlc target d)) (fun _ => True)
        (channelHandleHtlcAdd H target (onwardHtlc H target 0 htlc peeled) (H.scid peer, htlc.id) (H.scid peer) htlc.id
          (some peeled.sharedSecret)) w fun _ _ => True := by
      refine does_channelHandleHtlcAdd_record (a := onwardRequest H peer target htlc peeled) ?_
      intro _ d' ha e add he hamount
      obtain rfl := Option.some.inj (ha.channel.symm.trans hd)
      exact .offered ⟨hlimits, honion, hfound, hother, by omega, hdelta, ha⟩ hfee he hamount
    refine Does.bind hadd.attempt fun r w₁ h₁ => ?_
    cases r with
    | ok => exact Does.pure trivial
    | error e =>
      obtain ⟨e, he⟩ : ∃ e, w₁.channel target = some e := by
        rcases RecordStep.trace h₁.1 with hsame | ⟨e, he, -⟩
        · exact ⟨d, hsame.trans hd⟩
        · exact ⟨e, he⟩
      exact does_undoHostedForward_record he fun hp => absurd hp.symm hother
  · -- Any other record stays as it is until the failure.
    have hadd : Does exec A (RecordStep q fun _ => False) (fun _ => True)
        (channelHandleHtlcAdd H target (onwardHtlc H target 0 htlc peeled) (H.scid peer, htlc.id) (H.scid peer) htlc.id
          (some peeled.sharedSecret)) w fun _ _ => True :=
      does_channelHandleHtlcAdd_record (a := onwardRequest H peer target htlc peeled) fun h => absurd h hq
    have hsame : ∀ w₁, Trace (RecordStep q fun _ => False) (fun _ => True) w w₁ → w₁.channel q = w.channel q := by
      intro w₁ ht
      rcases RecordStep.trace ht with hsame | ⟨_, _, hno⟩
      · exact hsame
      · exact hno.elim
    refine Does.bind (R := fun _ w₁ => w₁.channel q = w.channel q) ?_ fun r w₁ h₁ => ?_
    · refine (Does.retrace hadd.attempt fun w₁ ht => RecordStep.same (hsame w₁ ht)).post fun _ _ h => ?_
      exact hsame _ h.1
    · cases r with
      | ok => exact Does.pure trivial
      | error e => exact does_undoHostedForward_record (h₁.trans hd) hfailed

theorem does_dispatch_record (hd : w.channel q = some td) :
    Does exec A (RecordStep q (Told H w peer committed htlc q td)) (fun _ => True)
      (dispatchCommittedIncomingHtlc H peer committed htlc) w fun _ _ => True := by
  have hfailed : peer = q → Told H w peer committed htlc q td (td.push (.ofLocal (refusal H peer htlc))) :=
    fun _ => .failed (by simp [refusal]) rfl
  unfold dispatchCommittedIncomingHtlc
  split
  · exact does_failDispatched_record hd hfailed
  rename_i hlimits
  cases honion : H.crypto.peelOnion H.nodeSecret htlc.onionRoutingPacket htlc.paymentHash.toList with
  | none => exact does_sendLocalResolution_record hd fun _ => .failed (by simp) rfl
  | some peeled =>
    dsimp only
    split
    · exact does_failDispatched_record hd hfailed
    refine Does.bind does_findPeer ?_
    intro found w hpost
    obtain ⟨rfl, rfl⟩ := hpost
    cases hfound : w.peers.find? (H.scid · == peeled.shortChannelId) with
    | none => exact does_forwardToNode_record hd hfailed
    | some target => exact does_forwardToHosted_record hd (Bool.eq_false_iff.mpr hlimits) honion hfound

/-- What dispatching offers to a client has passed. -/
theorem passed_of_offers {amount : UInt64} {o : Nat → Choice} (hd : w.channel target = some td)
    (hoffer : Offers w (Prog.run exec o (dispatchCommittedIncomingHtlc H peer committed htlc).run w).2 target amount) :
    ∃ peeled, MayGoOn H w peer committed htlc peeled target td ∧ PassesFee H w htlc peeled td ∧
      amount = peeled.amtToForward := by
  obtain ⟨d, d', add, hd₀, hd', hadd, hamount⟩ := hoffer
  obtain rfl := Option.some.inj (hd₀.symm.trans hd)
  have hdoes : Does exec (fun _ _ _ => True) (RecordStep target (Told H w peer committed htlc target d)) (fun _ => True)
      (dispatchCommittedIncomingHtlc H peer committed htlc) w fun _ _ => True := does_dispatch_record hd
  have htrace := Does.run (o := o) hdoes (Prog.kept_of_forall fun _ _ _ => trivial)
  rcases RecordStep.trace htrace with hsame | ⟨e, he, htold⟩
  · obtain rfl := Option.some.inj (hd'.symm.trans (hsame.trans hd))
    exact absurd hadd (by simp)
  · obtain rfl := Option.some.inj (hd'.symm.trans he)
    cases htold with
    | failed hu he =>
      have hlast := List.append_cancel_left (hadd.symm.trans he)
      simp only [List.cons.injEq, UncommittedUpdate.ofLocal.injEq, and_true] at hlast
      exact absurd hlast.symm (hu _)
    | offered h hfee he hto =>
      have hlast := List.append_cancel_left (hadd.symm.trans he)
      simp only [List.cons.injEq, UncommittedUpdate.ofLocal.injEq, PendingUpdate.add.injEq, and_true] at hlast
      subst hlast
      exact ⟨_, h, hfee, hamount.symm.trans hto⟩

/-! ### What the environment can bring about -/

/-- A height that the node does not tell counts as zero. -/
theorem returns_heightOrZero : Returns heightOrZero 0 w := by
  refine Can.bind (b := rpcError) (v := w) (Can.ask { Choice.calm with fails := true } ⟨rfl, rfl⟩) ?_
  exact returns_pure

/-- What undoing does is about the channel that the HTLC came from. -/
theorem offers_after_undo {amount : UInt64} {v : World} (hother : target ≠ peer) (hoffer : Offers w v target amount) :
    Can exec (undoHostedForward H peer htlc) (fun _ w' => Offers w w' target amount) v := by
  obtain ⟨d, d', add, hd, hd', hadd, hamount⟩ := hoffer
  have hundo : Does exec (fun _ _ _ => True) (RecordStep target fun _ => False) (fun _ => True)
      (undoHostedForward H peer htlc) v fun _ _ => True :=
    does_undoHostedForward_record hd' fun h => absurd h.symm hother
  refine hundo.can.mono ?_
  intro _ w' ht
  rcases RecordStep.trace ht with hsame | ⟨_, _, hno⟩
  · exact ⟨d, d', add, hd, hsame.trans hd', hadd, hamount⟩
  · exact hno.elim

/-- An HTLC that passes can be brought to go on. -/
theorem can_dispatch (h : MayGoOn H w peer committed htlc peeled target td) (hfee : PassesFee H w htlc peeled td) :
    Can exec (dispatchCommittedIncomingHtlc H peer committed htlc)
      (fun _ w' => Offers w w' target peeled.amtToForward) w := by
  have hcovered : ¬ htlc.amountMsat < peeled.amtToForward := by
    have hfits := peeled.amtToForward.toNat_lt
    unfold PassesFee ChannelRoutingPolicy.coarseAmount at hfee
    rw [UInt64.lt_iff_toNat_lt]
    omega
  have hterms : refusesTerms htlc peeled (w.routing H td) 0 = false := by
    refine refusesTerms_iff.mpr ⟨?_, hfee, h.delta⟩
    exact (Nat.min_le_left _ _).trans h.ahead
  unfold dispatchCommittedIncomingHtlc
  rw [if_neg (Bool.eq_false_iff.mp h.limits), h.onion]
  dsimp only
  rw [if_neg hcovered]
  refine returns_peerForHostedScid.bind ?_
  rw [h.found]
  dsimp only
  unfold forwardToHosted
  rw [if_neg h.other]
  refine (returns_loadExisting h.taken.channel).bind (returns_routingPolicyForData.bind (returns_heightOrZero.bind ?_))
  rw [if_neg (Bool.eq_false_iff.mp hterms)]
  refine Can.attempt ((can_offer (acceptable_iff.mp h.taken)).mono ?_)
  intro r v hoffer
  cases r with
  | ok => exact Can.pure hoffer
  | error => exact offers_after_undo h.other hoffer

/-! ### The fee that is charged -/

/-- What dispatching the HTLC offers to another client pays for the fee that the client's channel advertises, whatever
    the environment does. -/
def PaysFee (H : Host) (w : World) (peer : PublicKey) (committed : ChannelData) (htlc : UpdateAddHtlc) : Prop :=
  ∀ (o : Nat → Choice) (target : PublicKey) (td : ChannelData) (amount : UInt64), w.channel target = some td →
    Offers w (Prog.run exec o (dispatchCommittedIncomingHtlc H peer committed htlc).run w).2 target amount →
    amount.toNat + (w.routing H td).advertisedFee amount ≤ htlc.amountMsat.toNat

/-- The HTLC pays for what the onion asks for, or the check of the fee, in whole millions, stops it; an HTLC that pays
    is never refused for its fee. -/
theorem advertised_fee_charged_iff (H : Host) (w : World) (peer : PublicKey) (committed : ChannelData)
    (htlc : UpdateAddHtlc) :
    (PaysFee H w peer committed htlc ↔ ∀ peeled target td, MayGoOn H w peer committed htlc peeled target td →
      peeled.amtToForward.toNat + (w.routing H td).advertisedFee peeled.amtToForward ≤ htlc.amountMsat.toNat ∨
      htlc.amountMsat.toNat < min (peeled.amtToForward.toNat + (w.routing H td).feeBaseMsat.toNat +
        peeled.amtToForward.toNat / 1000000 * (w.routing H td).feeProportionalMillionths.toNat) (2 ^ 64 - 1)) ∧
    ∀ (peeled : PeeledOnion) (r : ChannelRoutingPolicy) (height : UInt32),
      peeled.amtToForward.toNat + r.advertisedFee peeled.amtToForward ≤ htlc.amountMsat.toNat →
      height.toNat + 2 ≤ peeled.outgoingCltvValue.toNat →
      peeled.outgoingCltvValue.toNat + r.cltvExpiryDelta.toNat ≤ htlc.cltvExpiry.toNat →
      refusesTerms htlc peeled r height = false := by
  refine ⟨⟨?_, ?_⟩, fun _ _ _ => not_refused_of_paid⟩
  · intro hpays peeled target td hgo
    by_contra hnot
    obtain ⟨hunpaid, hpassed⟩ := not_or.mp hnot
    obtain ⟨o, hoffer⟩ := (can_dispatch hgo (Nat.not_lt.mp hpassed)).run
    exact hunpaid (hpays o target td _ hgo.taken.channel hoffer)
  · intro hall o target td amount hd hoffer
    obtain ⟨peeled, hgo, hfee, rfl⟩ := passed_of_offers hd hoffer
    exact (hall peeled target td hgo).resolve_right (Nat.not_lt.mpr hfee)

/-! ### A forward for nothing -/

/-- A host that advertises one percent. -/
def Host.charging : Host :=
  { Host.transparent with
    config := { Host.transparent.config with
      policy := { Host.transparent.config.policy with feeProportionalMillionths := 10000 } } }

/-- Both clients have a channel. The channel of the first lists an HTLC of 500 msat about which nothing has been done,
    and whose onion names the second and all of the 500 msat. -/
def unpaidScript : List (World → Op) :=
  [clientInvokes .charging otherKey, clientCommits .charging otherKey, clientInvokes .charging openKey,
    clientCommits .charging openKey, clientAdds openKey 1 500 (ByteVec.fill 32 7) (Host.charging.scid otherPeer),
    hostPays 3, clientShows .charging openKey openPeer 0]

/-- What the onion of that HTLC says. -/
def unpaidOnion : PeeledOnion := plainPeel (plainOnion (Host.charging.scid otherPeer) 500 1100)

/-- One percent of 500 msat is 5 msat, and the HTLC goes on without them. -/
theorem forward_goes_unpaid : ¬ ∀ (H : Host) (w : World) (peer : PublicKey) (committed : ChannelData) (htlc : UpdateAddHtlc),
    Reachable H Guard.free w → w.channel peer = some committed → htlc ∈ committed.lcss.incomingHtlcs →
    PaysFee H w peer committed htlc := by
  intro hall
  have hrun : ((calmRun .charging unpaidScript).channel openPeer).any (fun d =>
      d.lcss.incomingHtlcs.head?.any fun h => ((calmRun .charging unpaidScript).channel otherPeer).any fun td =>
        ((Prog.run exec (fun _ => .calm) (dispatchCommittedIncomingHtlc .charging openPeer d h).run
          (calmRun .charging unpaidScript)).2.channel otherPeer).any fun td' =>
        decide (h.amountMsat = 500 ∧ ((calmRun .charging unpaidScript).routing .charging td).advertisedFee 500 = 5 ∧
          td'.uncommitted = td.uncommitted ++
            [.ofLocal (.add (onwardHtlc .charging otherPeer (nextHtlcId td) h unpaidOnion))])) = true := by
    decide +kernel
  obtain ⟨d, hd, hrun⟩ := exists_of_any hrun
  obtain ⟨h, hhead, hrun⟩ := exists_of_any hrun
  obtain ⟨td, htd, hrun⟩ := exists_of_any hrun
  obtain ⟨td', htd', hrun⟩ := exists_of_any hrun
  obtain ⟨hamount, hfee, hadd⟩ := of_decide_eq_true hrun
  have hforward : unpaidOnion.amtToForward = 500 := by decide +kernel
  have hpays := hall .charging _ openPeer d h (calmRun_reachable _ unpaidScript) hd (List.mem_of_mem_head? hhead)
    (fun _ => .calm) otherPeer td 500 htd ⟨td, td', _, htd, htd', hadd, hforward⟩
  rw [hfee, hamount] at hpays
  exact absurd hpays (by decide)

end Canopus
