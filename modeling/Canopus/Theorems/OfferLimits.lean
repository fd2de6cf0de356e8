import Canopus.Theorems.Batches
import Canopus.Theorems.ForwardAmount
import Canopus.Theorems.Outcomes
import Canopus.Theorems.Overflow

/-! The limits of a channel and the HTLCs that the host offers on it. Both operations that offer one look at the next
    state, with all pending updates. The one that forwards an HTLC checks every limit; the one that pays from the
    host's own balance checks the balance alone. -/

namespace Canopus
open Effect Fallible

variable {H : Host} {w w' : World} {peer q : PublicKey} {d : ChannelData} {htlc add : UpdateAddHtlc}
  {next : LastCrossSignedState} {amount : UInt64} {hash : Hash} {cltv : UInt32} {secret : Option (ByteVec 32)}
  {L : Type} {A : Choice → World → Call → Prop}

/-! ### Limits -/

/-- The record of `peer` has gained the HTLC, which the host offers. -/
def Adds (w w' : World) (peer : PublicKey) (add : UpdateAddHtlc) : Prop :=
  ∃ d d', w.channel peer = some d ∧ w'.channel peer = some d' ∧ d'.uncommitted = d.uncommitted ++ [.ofLocal (.add add)]

/-- The HTLC is within the limits of the channel, and so is the next state with it. -/
structure WithinLimits (H : Host) (w : World) (d : ChannelData) (add : UpdateAddHtlc) : Prop where
  minimum : d.lcss.initHostedChannel.htlcMinimumMsat ≤ add.amountMsat
  maximum : add.amountMsat ≤ (w.routing H d).htlcMaximumMsat
  balance : ∃ next, d.next H = .ok next ∧ add.amountMsat ≤ next.localBalanceMsat
  room : ∃ next, (d.push (.ofLocal (.add add))).next H = .ok next ∧
    next.htlcCount ≤ d.lcss.initHostedChannel.maxAcceptedHtlcs.toNat ∧
    next.inFlight ≤ d.lcss.initHostedChannel.maxHtlcValueInFlightMsat.toNat

/-- The channel, whose next state is `next`, has room for an HTLC of `amount`. -/
structure LeavesRoom (H : Host) (w : World) (d : ChannelData) (next : LastCrossSignedState) (amount : UInt64) : Prop where
  minimum : d.lcss.initHostedChannel.htlcMinimumMsat ≤ amount
  maximum : amount ≤ (w.routing H d).htlcMaximumMsat
  count : next.htlcCount + 1 ≤ d.lcss.initHostedChannel.maxAcceptedHtlcs.toNat
  inFlight : next.inFlight + amount.toNat ≤ d.lcss.initHostedChannel.maxHtlcValueInFlightMsat.toNat

/-- The next state with one more HTLC of the host. -/
theorem next_push_add (hn : d.next H = .ok next) (hle : add.amountMsat ≤ next.localBalanceMsat) :
    ∃ t, (d.push (.ofLocal (.add add))).next H = .ok t ∧ t.htlcCount = next.htlcCount + 1 ∧
      t.inFlight = next.inFlight + add.amountMsat.toNat := by
  have hpush : (d.push (.ofLocal (.add add))).next H = StateManager.lcssNext H.crypto ⟨next, [.ofLocal (.add add)]⟩ :=
    (lcssNext_append hn).symm
  have happly : StateManager.applyUpdates H.crypto next [.ofLocal (.add add)] =
      .ok { next with
        localBalanceMsat := next.localBalanceMsat - add.amountMsat
        outgoingHtlcs := next.outgoingHtlcs ++ [add]
        localUpdates := next.localUpdates + 1 } := by
    simp only [StateManager.applyUpdates, StateManager.applyUpdate, debit_ok hle]
    rfl
  rw [hpush, lcssNext_eq_map, happly]
  refine ⟨_, rfl, ?_, ?_⟩
  · simp only [LastCrossSignedState.htlcCount, LastCrossSignedState.counting, LastCrossSignedState.stamp,
      List.length_append, List.length_singleton]
    omega
  · simp only [LastCrossSignedState.inFlight, LastCrossSignedState.counting, LastCrossSignedState.stamp,
      totalAmount_append]
    rw [Nat.add_assoc]
    rfl

/-- Of an HTLC that the host can pay for, the limits ask that the state before it leaves room. -/
theorem withinLimits_iff (hn : d.next H = .ok next) (hle : add.amountMsat ≤ next.localBalanceMsat) :
    WithinLimits H w d add ↔ LeavesRoom H w d next add.amountMsat := by
  obtain ⟨t, ht, hcount, hsum⟩ := next_push_add hn hle
  constructor
  · rintro ⟨hmin, hmax, -, t', ht', hc, hs⟩
    obtain rfl := Except.ok.inj (ht.symm.trans ht')
    exact ⟨hmin, hmax, hcount ▸ hc, hsum ▸ hs⟩
  · rintro ⟨hmin, hmax, hc, hs⟩
    exact ⟨hmin, hmax, ⟨next, hn, hle⟩, t, ht, hcount ▸ hc, hsum ▸ hs⟩

/-! ### Forwarding -/

/-- A channel that takes the HTLC has room for it, but for a sum that may have wrapped. -/
theorem Admits.leavesRoom {scid : UInt64} {expiry : Option UInt32} (ha : Admits H w peer htlc scid expiry d)
    (hn : d.next H = .ok next) : htlc.amountMsat ≤ next.localBalanceMsat ∧
      (LeavesRoom H w d next htlc.amountMsat ↔
        next.inFlight + htlc.amountMsat.toNat ≤ d.lcss.initHostedChannel.maxHtlcValueInFlightMsat.toNat) := by
  obtain ⟨next', hn', hroom⟩ := ha.room
  obtain rfl := Except.ok.inj (hn.symm.trans hn')
  simp only [hasNoRoom, Bool.or_eq_false_iff, decide_eq_false_iff_not, gt_iff_lt, UInt64.not_lt, Nat.not_lt] at hroom
  obtain ⟨⟨hle, hcount⟩, -⟩ := hroom
  exact ⟨hle, fun h => h.inFlight, fun h => ⟨ha.minimum, ha.maximum, hcount, h⟩⟩

/-- Where the funds of the record fit into 64 bits, the sum has not wrapped. -/
theorem Admits.exact {scid : UInt64} {expiry : Option UInt32} (ha : Admits H w peer htlc scid expiry d)
    (hn : d.next H = .ok next) (hd : d.lcss.funds < 2 ^ 64) :
    next.inFlight + htlc.amountMsat.toNat ≤ d.lcss.initHostedChannel.maxHtlcValueInFlightMsat.toNat := by
  obtain ⟨next', hn', hroom⟩ := ha.room
  obtain rfl := Except.ok.inj (hn.symm.trans hn')
  exact ((hasNoRoom_iff ((lcssNext_keeps hn).1 ▸ hd) _ _).mp hroom).2.2

/-- What the record of `peer` becomes, if anything, is one with the HTLC. -/
theorem adds_handleHtlcAdd {key : HtlcKey} {scid id : UInt64} {expiry : Option UInt32} {o : Nat → Choice}
    (hd : w.channel peer = some d)
    (h : Adds w (Prog.run exec o (channelHandleHtlcAddWithUpstreamExpiry H peer htlc key scid id secret expiry).run w).2
      peer add) : Admits H w peer htlc scid expiry d ∧ add.amountMsat = htlc.amountMsat := by
  have hdoes : Does exec (fun _ _ _ => True) (RecordStep peer fun e => ∃ d add, Admits H w peer htlc scid expiry d ∧
        e.uncommitted = d.uncommitted ++ [.ofLocal (.add add)] ∧ add.amountMsat = htlc.amountMsat) (fun _ => True)
      (channelHandleHtlcAddWithUpstreamExpiry H peer htlc key scid id secret expiry) w fun _ _ => True :=
    does_handleHtlcAdd_record fun _ d ha e add he hamt => ⟨d, add, ha, he, hamt⟩
  obtain ⟨d₀, e, hd₀, he, hus⟩ := h
  obtain rfl := Option.some.inj (hd.symm.trans hd₀)
  rcases RecordStep.trace (Does.run (o := o) hdoes (Prog.kept_of_forall fun _ _ _ => trivial)) with
    hsame | ⟨e', he', d', add', ha, hus', hamt⟩
  · rw [hsame, hd] at he
    obtain rfl := Option.some.inj he
    exact absurd hus (by simp)
  · obtain rfl := Option.some.inj (he.symm.trans he')
    obtain rfl := Option.some.inj (hd.symm.trans ha.channel)
    rw [hus] at hus'
    obtain rfl : add = add' := by simpa using hus'
    exact ⟨ha, hamt⟩

/-! ### Paying -/

/-- What the operation that pays asks for: an active channel with the balance, an onion, and a next state that can be
    signed. -/
structure Payable (H : Host) (w : World) (peer : PublicKey) (amount : UInt64) (hash : Hash) (cltv : UInt32)
    (secret : Option (ByteVec 32)) (d : ChannelData) (add : UpdateAddHtlc) : Prop where
  channel : w.channel peer = some d
  active : deriveStatus d = .active
  balance : ∃ next, d.next H = .ok next ∧ amount ≤ next.localBalanceMsat
  onion : ∃ key onion, H.crypto.createSingleHopOnion key peer amount cltv secret hash = .ok onion ∧
    add = ⟨H.channelId peer, nextHtlcId d, amount, hash, cltv, onion, []⟩
  signed : ∃ height t, signedNext H height d.lcss (d.uncommitted ++ [.ofLocal (.add add)]) = some t

theorem Payable.affordable (hp : Payable H w peer amount hash cltv secret d add) (hn : d.next H = .ok next) :
    add.amountMsat ≤ next.localBalanceMsat ∧ add.amountMsat = amount := by
  obtain ⟨next', hn', hle⟩ := hp.balance
  obtain ⟨_, _, -, rfl⟩ := hp.onion
  obtain rfl := Except.ok.inj (hn.symm.trans hn')
  exact ⟨hle, rfl⟩

theorem does_liftSphinx {α L : Type} {step : L → World → World → Prop} {S : L → Prop} {r : Except String α} :
    Does exec A step S (liftSphinx r) w fun a w' => w' = w ∧ r = .ok a := by
  cases r
  · exact Does.throw
  · exact Does.pure ⟨rfl, rfl⟩

theorem does_currentBlockDay {step : L → World → World → Prop} {S : L → Prop} :
    Does exec A step S currentBlockDay w fun day w' => w' = w ∧ ∃ height : UInt32, day = height / 144 := by
  unfold currentBlockDay
  refine Does.bind Reading.getBlockHeight.does ?_
  intro height _ hpost
  subst hpost
  exact Does.pure ⟨rfl, height, rfl⟩

/-- A state that is signed folds and encodes, at some height. -/
theorem does_signNext_signed {P : ChannelData → Prop} {lcss : LastCrossSignedState} {us : List UncommittedUpdate} :
    Does exec A (RecordStep q P) (fun _ => True) (signNext H peer ⟨lcss, us⟩) w
      fun _ w' => w'.channel q = w.channel q ∧ ∃ height t, signedNext H height lcss us = some t := by
  unfold signNext signFor
  refine Does.bind does_liftState ?_
  intro next _ hpost
  obtain ⟨rfl, hn⟩ := hpost
  refine Does.bind does_currentBlockDay ?_
  intro _ _ hpost
  obtain ⟨rfl, height, rfl⟩ := hpost
  refine Does.bind does_liftEncode ?_
  intro t w hpost
  obtain ⟨rfl, ht⟩ := hpost
  refine Does.bind (Does.ask (R := fun _ w' => w'.channel q = w.channel q) fun _ _ => ⟨RecordStep.same rfl, rfl⟩) ?_
  intro _ w₁ hsame
  refine Does.pure ⟨hsame, height, t, ?_⟩
  simp only [signedNext, hn, ht]
  rfl

theorem does_stateUpdate_signed {P : ChannelData → Prop} {d : ChannelData} :
    Does exec A (RecordStep q P) (fun _ => True) (stateUpdateForUncommitted H peer d) w
      fun _ _ => ∃ height t, signedNext H height d.lcss d.uncommitted = some t := by
  unfold stateUpdateForUncommitted
  exact Does.bind does_signNext_signed fun t w₁ hpost => Does.pure hpost.2

/-- The payment changes the record of a channel that it can be made on, and no other. -/
theorem does_sendDirectPayment_record {P : ChannelData → Prop}
    (hP : peer = q → ∀ d add, Payable H w peer amount hash cltv secret d add → P (d.push (.ofLocal (.add add)))) :
    Does exec A (RecordStep q P) (fun _ => True) (sendDirectPayment H peer amount hash cltv secret) w fun _ _ => True := by
  unfold sendDirectPayment
  refine Does.bind does_loadExisting ?_
  intro d _ hpost
  obtain ⟨rfl, hd⟩ := hpost
  split
  · exact Does.throw
  rename_i hs
  refine Does.bind does_liftState ?_
  intro next _ hpost
  obtain ⟨rfl, hn⟩ := hpost
  split
  · exact Does.throw
  rename_i hle
  refine Does.bind (does_read rfl) ?_
  intro key _ hpost
  obtain ⟨rfl, x, rfl⟩ := hpost
  refine Does.bind does_liftSphinx ?_
  intro onion _ hpost
  obtain ⟨rfl, honion⟩ := hpost
  dsimp only
  refine Does.bind does_stateUpdate_signed ?_
  intro su w₁ hsigned
  refine Does.bind (does_saveChannel_record fun hq => hP hq d _ ⟨hd, not_not.mp hs, ⟨next, hn, UInt64.not_lt.mp hle⟩,
    ⟨_, onion, honion, rfl⟩, hsigned⟩) fun _ w₂ _ => ?_
  refine Does.bind ((Bookless.sendMessage peer _).does_record.post fun _ _ _ => trivial) fun _ _ _ => ?_
  refine Does.bind ((Bookless.sendMessage peer _).does_record.post fun _ _ _ => trivial) fun _ _ _ => ?_
  exact Does.pure trivial

theorem adds_sendDirectPayment {o : Nat → Choice} (hd : w.channel peer = some d)
    (h : Adds w (Prog.run exec o (sendDirectPayment H peer amount hash cltv secret).run w).2 peer add) :
    Payable H w peer amount hash cltv secret d add := by
  have hdoes : Does exec (fun _ _ _ => True) (RecordStep peer fun e => ∃ d add,
        Payable H w peer amount hash cltv secret d add ∧ e = d.push (.ofLocal (.add add))) (fun _ => True)
      (sendDirectPayment H peer amount hash cltv secret) w fun _ _ => True :=
    does_sendDirectPayment_record fun _ d add hp => ⟨d, add, hp, rfl⟩
  obtain ⟨d₀, e, hd₀, he, hus⟩ := h
  obtain rfl := Option.some.inj (hd.symm.trans hd₀)
  rcases RecordStep.trace (Does.run (o := o) hdoes (Prog.kept_of_forall fun _ _ _ => trivial)) with
    hsame | ⟨e', he', d', add', hp, rfl⟩
  · rw [hsame, hd] at he
    obtain rfl := Option.some.inj he
    exact absurd hus (by simp)
  · obtain rfl := Option.some.inj (he.symm.trans he')
    obtain rfl := Option.some.inj (hd.symm.trans hp.channel)
    obtain rfl : add' = add := by simpa [ChannelData.push] using hus
    exact hp

/-- A payment that can be made can be brought to be made. -/
theorem can_pay (hp : Payable H w peer amount hash cltv secret d add) :
    Can exec (sendDirectPayment H peer amount hash cltv secret) (fun _ w' => Adds w w' peer add) w := by
  obtain ⟨next, hn, hle⟩ := hp.balance
  obtain ⟨key, onion, honion, hadd⟩ := hp.onion
  obtain ⟨height, t, ht⟩ := hp.signed
  unfold sendDirectPayment
  refine (returns_loadExisting hp.channel).bind ?_
  rw [if_neg (not_not.mpr hp.active)]
  have hfold : Returns (liftState (StateManager.lcssNext H.crypto ⟨d.lcss, d.uncommitted⟩)) next w := by
    rw [show StateManager.lcssNext H.crypto ⟨d.lcss, d.uncommitted⟩ = .ok next from hn]
    exact returns_pure
  refine hfold.bind ?_
  rw [if_neg (UInt64.not_lt.mpr hle)]
  refine Can.bind (b := key) (v := w) (Can.ask { Choice.calm with key := key } ⟨rfl, rfl⟩) ?_
  refine Can.bind (b := onion) (v := w) ?_ ?_
  · rw [honion]
    exact returns_pure
  dsimp only
  rw [← hadd]
  have hsign : Can exec (signNext H peer ⟨d.lcss, d.uncommitted ++ [.ofLocal (.add add)]⟩)
      (fun r v => r = .ok t ∧ v = w.noteSigned peer t) w := by
    have hyields : Yields exec (· = { Choice.calm with height := height })
        (signNext H peer ⟨d.lcss, d.uncommitted ++ [.ofLocal (.add add)]⟩) w (.ok t) (w.noteSigned peer t) :=
      yields_signNext (by rintro _ rfl; rfl) (by rintro _ rfl; rfl) ht
    exact Surely.can hyields ⟨_, rfl⟩
  unfold stateUpdateForUncommitted
  refine Can.bind (b := t.stateUpdate) (v := w.noteSigned peer t) (hsign.bind (Can.pure ⟨rfl, rfl⟩)) ?_
  refine (can_saveChannel (w := w.noteSigned peer t) hp.channel).bind ?_
  set new := d.push (.ofLocal (.add add)) with hnew
  have htail : Does exec (fun _ _ _ => True) (RecordStep peer fun _ => False) (fun _ => True)
      (do
        sendMessage peer (.updateAddHtlc add)
        sendMessage peer (.stateUpdate t.stateUpdate)
        pure (nextHtlcId d))
      ((w.noteSigned peer t).put .channels peer new) fun _ _ => True := by
    refine Does.bind ((Bookless.sendMessage peer _).does_record.post fun _ _ _ => trivial) fun _ _ _ => ?_
    refine Does.bind ((Bookless.sendMessage peer _).does_record.post fun _ _ _ => trivial) fun _ _ _ => ?_
    exact Does.pure trivial
  refine htail.can.mono ?_
  intro _ w' ht
  rcases RecordStep.trace ht with hsame | ⟨_, _, hno⟩
  · exact ⟨d, new, hp.channel, hsame.trans World.channel_put, rfl⟩
  · exact hno.elim

/-! ### Both operations -/

/-- Forwarding respects the limits exactly if the amounts in flight do not wrap where the channel takes the HTLC, as
    they never do where the funds fit into 64 bits. Paying respects them exactly if the channel has room for the amount,
    or the payment cannot be made. -/
theorem offers_within_limits_iff (H : Host) (w : World) (peer : PublicKey) (d : ChannelData) (next : LastCrossSignedState)
    (hd : w.channel peer = some d) (hn : d.next H = .ok next) :
    (∀ htlc key scid id secret expiry,
      ((∀ o add, Adds w (Prog.run exec o
          (channelHandleHtlcAddWithUpstreamExpiry H peer htlc key scid id secret expiry).run w).2 peer add →
        WithinLimits H w d add) ↔
      (Admits H w peer htlc scid expiry d →
        next.inFlight + htlc.amountMsat.toNat ≤ d.lcss.initHostedChannel.maxHtlcValueInFlightMsat.toNat)) ∧
      (d.lcss.funds < 2 ^ 64 → Admits H w peer htlc scid expiry d →
        next.inFlight + htlc.amountMsat.toNat ≤ d.lcss.initHostedChannel.maxHtlcValueInFlightMsat.toNat)) ∧
    ∀ amount hash cltv secret,
      (∀ o add, Adds w (Prog.run exec o (sendDirectPayment H peer amount hash cltv secret).run w).2 peer add →
        WithinLimits H w d add) ↔
      (LeavesRoom H w d next amount ∨ ¬ ∃ add, Payable H w peer amount hash cltv secret d add) := by
  refine ⟨fun htlc key scid id secret expiry => ⟨⟨?_, ?_⟩, ?_⟩, fun amount hash cltv secret => ⟨?_, ?_⟩⟩
  · intro hall ha
    have hoffer : Can exec (channelHandleHtlcAddWithUpstreamExpiry H peer htlc key scid id secret expiry)
        (fun _ w' => Offers w w' peer htlc.amountMsat) w := can_offer ha
    obtain ⟨o, d₀, d', add, hd₀, hd', hus, hamt⟩ := hoffer.run
    have hwithin := hall o add ⟨d₀, d', hd₀, hd', hus⟩
    have hle := (ha.leavesRoom hn).1
    rw [← hamt] at hle ⊢
    exact ((withinLimits_iff hn hle).mp hwithin).inFlight
  · intro hroom o add hadds
    obtain ⟨ha, hamt⟩ := adds_handleHtlcAdd hd hadds
    obtain ⟨hle, hiff⟩ := ha.leavesRoom hn
    have hleaves := hiff.mpr (hroom ha)
    rw [← hamt] at hle hleaves
    exact (withinLimits_iff hn hle).mpr hleaves
  · exact fun hfunds ha => ha.exact hn hfunds
  · intro hall
    by_contra hnot
    obtain ⟨hroom, hpay⟩ := not_or.mp hnot
    obtain ⟨add, hp⟩ := not_not.mp hpay
    obtain ⟨o, hadds⟩ := (can_pay hp).run
    obtain ⟨hle, hamt⟩ := hp.affordable hn
    have hleaves := (withinLimits_iff hn hle).mp (hall o add hadds)
    rw [hamt] at hleaves
    exact hroom hleaves
  · rintro (hroom | hnone) o add hadds
    · obtain ⟨hle, hamt⟩ := (adds_sendDirectPayment hd hadds).affordable hn
      rw [← hamt] at hroom
      exact (withinLimits_iff hn hle).mpr hroom
    · exact absurd ⟨add, adds_sendDirectPayment hd hadds⟩ hnone

/-- A payment of 500 msat leaves the limits of the open channel far away. -/
theorem offers_within_limits_open : ∃ d, openWorld.channel openPeer = some d ∧
    ∀ o add, Adds openWorld (Prog.run exec o
      (sendDirectPayment .transparent openPeer 500 (ByteVec.fill 32 3) 1020 none).run openWorld).2 openPeer add →
        WithinLimits .transparent openWorld d add := by
  have hopen : (openWorld.channel openPeer).any (fun d => (d.next .transparent).toOption.any fun next => decide (
      d.lcss.initHostedChannel.htlcMinimumMsat ≤ 500 ∧ 500 ≤ (openWorld.routing .transparent d).htlcMaximumMsat ∧
      next.htlcCount + 1 ≤ d.lcss.initHostedChannel.maxAcceptedHtlcs.toNat ∧
      next.inFlight + (500 : UInt64).toNat ≤ d.lcss.initHostedChannel.maxHtlcValueInFlightMsat.toNat)) = true := by
    decide +kernel
  obtain ⟨d, hd, hopen⟩ := exists_of_any hopen
  obtain ⟨next, hnext, hopen⟩ := exists_of_any hopen
  obtain ⟨hmin, hmax, hcount, hsum⟩ := of_decide_eq_true hopen
  refine ⟨d, hd, ?_⟩
  have hiff := (offers_within_limits_iff .transparent openWorld openPeer d next hd (eq_ok_of_toOption hnext)).2
    500 (ByteVec.fill 32 3) 1020 none
  exact hiff.mpr (Or.inl ⟨hmin, hmax, hcount, hsum⟩)

/-- A host whose channels take no HTLC below 1000 msat. -/
def frugalHost : Host :=
  { Host.transparent with
    config := { Host.transparent.config with policy := { Host.transparent.config.policy with htlcMinimumMsat := 1000 } } }

/-- The host pays 500 msat over a channel of this minimum. -/
theorem payment_below_minimum : ¬ ∀ (H : Host) (w : World) (peer : PublicKey) (d : ChannelData) (amount : UInt64)
    (hash : Hash) (cltv : UInt32) (secret : Option (ByteVec 32)) (o : Nat → Choice) (add : UpdateAddHtlc),
    Reachable H Guard.free w → w.channel peer = some d → (∃ next, d.next H = .ok next) →
    Adds w (Prog.run exec o (sendDirectPayment H peer amount hash cltv secret).run w).2 peer add →
      WithinLimits H w d add := by
  intro hall
  have hrun : ((calmRun frugalHost [clientInvokes frugalHost openKey, clientCommits frugalHost openKey]).channel
      openPeer).any (fun d => (d.next frugalHost).toOption.isSome &&
        ((Prog.run exec (fun _ => .calm) (sendDirectPayment frugalHost openPeer 500 (ByteVec.fill 32 3) 1020 none).run
          (calmRun frugalHost [clientInvokes frugalHost openKey, clientCommits frugalHost openKey])).2.channel
          openPeer).any fun d' => (uncommittedLocalAdds d').head?.any fun add => decide (
            d'.uncommitted = d.uncommitted ++ [.ofLocal (.add add)] ∧
              add.amountMsat < d.lcss.initHostedChannel.htlcMinimumMsat)) = true := by
    decide +kernel
  obtain ⟨d, hd, hrun⟩ := exists_of_any hrun
  obtain ⟨hnext, hrun⟩ := Bool.and_eq_true_iff.mp hrun
  obtain ⟨next, hnext⟩ := Option.isSome_iff_exists.mp hnext
  obtain ⟨d', hd', hrun⟩ := exists_of_any hrun
  obtain ⟨add, -, hrun⟩ := exists_of_any hrun
  obtain ⟨hus, hlt⟩ := of_decide_eq_true hrun
  have hwithin := hall frugalHost _ openPeer d 500 _ _ _ (fun _ => .calm) add (calmRun_reachable _ _) hd
    ⟨next, eq_ok_of_toOption hnext⟩ ⟨d, d', hd, hd', hus⟩
  exact UInt64.not_lt.mpr hwithin.minimum hlt

end Canopus
