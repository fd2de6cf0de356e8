import Canopus.Theorems.Conservation
import Canopus.Theorems.OfferLimits

/-! The terms of a new channel. Its first state gives the client the initial balance and the host the rest of the
    capacity, by a subtraction that nothing guards there. The terms come from the policy, which the configuration and
    the policy command check, or from a secret, which nobody checks. -/

namespace Canopus
open Effect Fallible

variable {H : Host} {K : Ctx} {w w' : World} {peer q : PublicKey} {d : ChannelData} {P : ChannelData → Prop} {E : Choice → Prop}
  {A : Choice → World → Call → Prop} {m : InvokeHostedChannel} {policy : ChannelPolicy} {secret : Bytes}

/-! ### Terms -/

/-- The policy that an unused secret grants. -/
def World.secretPolicy (H : Host) (w : World) (secret : Bytes) : Option ChannelPolicy :=
  if secret.length = 32 then
    match (w.store .secrets).value? secret with
    | some s =>
      if s.consumed then none
      else some { w.effectivePolicy H with
        channelCapacityMsat := s.capacityMsat, initialClientBalanceMsat := s.initialBalanceMsat }
    | none => none
  else none

/-- The terms on which a new channel is opened: those of an unused secret, or else, where no secret is required, those of
    the policy. -/
def World.terms (H : Host) (w : World) (secret : Bytes) : Option ChannelPolicy :=
  if H.config.requireSecret then w.secretPolicy H secret
  else some ((w.secretPolicy H secret).getD (w.effectivePolicy H))

/-- Over the naturals, the balances of the record make up its capacity, and the client's is no more than that. -/
def SoundStart (d : ChannelData) : Prop :=
  d.lcss.localBalanceMsat.toNat + d.lcss.remoteBalanceMsat.toNat = d.lcss.initHostedChannel.channelCapacityMsat.toNat ∧
    d.lcss.initHostedChannel.initialClientBalanceMsat ≤ d.lcss.initHostedChannel.channelCapacityMsat

/-- The first state is sound exactly on terms that the subtraction does not wrap on. -/
theorem soundStart_iff (policy : ChannelPolicy) (refund : Bytes) :
    SoundStart (initialData policy refund) ↔ policy.initialClientBalanceMsat ≤ policy.channelCapacityMsat := by
  constructor
  · exact fun h => h.2
  · intro hle
    refine ⟨?_, hle⟩
    have hsub := UInt64.toNat_sub_of_le _ _ hle
    have hnat := UInt64.le_iff_toNat_le.mp hle
    show (policy.channelCapacityMsat - policy.initialClientBalanceMsat).toNat + policy.initialClientBalanceMsat.toNat =
      policy.channelCapacityMsat.toNat
    omega

theorem secretPolicy_of_length (h : secret.length ≠ 32) : w.secretPolicy H secret = none := if_neg h

/-! ### What is stored -/

/-- What is known of the world when a policy has been granted. -/
def SamePolicy (w w' : World) : Prop := (∀ q, w'.channel q = w.channel q) ∧ w'.store .policy = w.store .policy

theorem SamePolicy.refl (w : World) : SamePolicy w w := ⟨fun _ => rfl, rfl⟩

theorem SamePolicy.effectivePolicy (h : SamePolicy w w') : w'.effectivePolicy H = w.effectivePolicy H := by
  rw [World.effectivePolicy, World.effectivePolicy, h.2]

theorem SamePolicy.put_secret {s : ChannelSecret} : SamePolicy w (w.put .secrets secret s) :=
  ⟨fun q => by simp [World.channel, World.put_store_ne], World.put_store_ne (by decide)⟩

theorem SamePolicy.erase_secret : SamePolicy w (w.erase .secrets secret) :=
  ⟨fun q => by simp [World.channel, World.erase_store_ne], World.erase_store_ne (by decide)⟩

theorem does_updateSecret_record {t : ChannelSecret} {g : Nat} :
    Does exec A (RecordStep q P) (fun _ => True) (updateJson .secrets secret t g) w fun _ w' => SamePolicy w w' :=
  does_updateJson (P := SamePolicy w) (SamePolicy.refl w) fun _ _ _ =>
    ⟨RecordStep.same (SamePolicy.put_secret.1 q), SamePolicy.put_secret⟩

theorem does_deleteSecret_record :
    Does exec A (RecordStep q P) (fun _ => True) (deleteKey .secrets secret) w fun _ w' => SamePolicy w w' :=
  does_deleteKey (P := SamePolicy w) (SamePolicy.refl w)
    ⟨RecordStep.same (SamePolicy.erase_secret.1 q), SamePolicy.erase_secret⟩

theorem does_consumeSecret_record :
    Does exec A (RecordStep q P) (fun _ => True) (consumeSecret H secret) w
      fun r w' => r = w.secretPolicy H secret ∧ SamePolicy w w' := by
  unfold consumeSecret
  split
  · rename_i hlen
    exact Does.pure ⟨(secretPolicy_of_length hlen).symm, fun _ => rfl, rfl⟩
  rename_i hlen
  refine Does.bind does_getJson ?_
  intro r _ hpost
  obtain ⟨rfl, hok, hnone⟩ := hpost
  rcases r with e | ⟨s, g⟩
  · cases e with
    | notFound =>
      refine Does.pure ⟨?_, fun _ => rfl, rfl⟩
      rw [World.secretPolicy, Table.value?_eq_none_of_entry (hnone rfl), if_pos (not_not.mp hlen)]
    | _ => exact Does.throw
  · have he := hok s g rfl
    dsimp only
    split
    · rename_i hused
      refine Does.pure ⟨?_, fun _ => rfl, rfl⟩
      rw [World.secretPolicy, Table.value?_of_entry he, if_pos (not_not.mp hlen)]
      exact (if_pos hused).symm
    rename_i hused
    refine Does.bind does_effectivePolicy ?_
    intro base w hpost
    obtain ⟨rfl, rfl⟩ := hpost
    refine Does.bind does_updateSecret_record fun _ w₁ h₁ => ?_
    refine Does.bind (Reading.liftStore _).does ?_
    intro _ _ hpost
    subst hpost
    refine Does.bind does_deleteSecret_record fun _ w₂ h₂ => ?_
    refine Does.bind (Reading.liftStore _).does ?_
    intro _ _ hpost
    subst hpost
    refine Does.pure ⟨?_, fun p => (h₂.1 p).trans (h₁.1 p), h₂.2.trans h₁.2⟩
    rw [World.secretPolicy, Table.value?_of_entry he, if_pos (not_not.mp hlen)]
    exact (if_neg hused).symm

theorem does_effectivePolicy_of (h : SamePolicy w w') {step : Unit → World → World → Prop} :
    Does exec A step (fun _ => True) (do return some (← effectivePolicy H) : Ctl (Option ChannelPolicy)) w'
      fun r w'' => r = some (w.effectivePolicy H) ∧ SamePolicy w w'' := by
  refine Does.bind does_effectivePolicy ?_
  intro policy _ hpost
  obtain ⟨rfl, rfl⟩ := hpost
  exact Does.pure ⟨by rw [h.effectivePolicy], h⟩

theorem does_grantedPolicy_record :
    Does exec A (RecordStep q P) (fun _ => True) (grantedPolicy H secret) w
      fun r w' => r = w.terms H secret ∧ SamePolicy w w' := by
  unfold grantedPolicy World.terms
  split
  · split
    · rename_i hempty
      have hlen : secret.length ≠ 32 := by simp [List.isEmpty_iff.mp hempty]
      exact Does.pure ⟨(secretPolicy_of_length hlen).symm, SamePolicy.refl w⟩
    · exact does_consumeSecret_record
  split
  · refine Does.bind does_consumeSecret_record ?_
    rintro _ w₁ ⟨rfl, h₁⟩
    cases hs : w.secretPolicy H secret with
    | none => exact does_effectivePolicy_of h₁
    | some policy => exact Does.pure ⟨rfl, h₁⟩
  · rename_i hempty
    have hnil : secret = [] := by simpa using hempty
    rw [secretPolicy_of_length (by simp [hnil])]
    exact does_effectivePolicy_of (SamePolicy.refl w)

/-- Whatever the environment does, a record that is stored has the terms that the secret or the policy sets. -/
theorem stored_terms {o : Nat → Choice}
    (hd : (Prog.run exec o (handleNewChannelInvoke H peer m).run w).2.channel peer = some d) :
    w.channel peer = some d ∨ ∃ policy, w.terms H m.secret = some policy ∧ d = initialData policy m.refundScriptpubkey := by
  have hdoes : Does exec (fun _ _ _ => True)
      (RecordStep peer fun d => ∃ policy, w.terms H m.secret = some policy ∧ d = initialData policy m.refundScriptpubkey)
      (fun _ => True) (handleNewChannelInvoke H peer m) w fun _ _ => True := by
    unfold handleNewChannelInvoke
    refine Does.bind does_grantedPolicy_record ?_
    rintro _ w₁ ⟨rfl, -⟩
    cases ht : w.terms H m.secret with
    | none => exact Does.pure trivial
    | some policy =>
      refine Does.bind (does_saveChannel_record fun _ => ⟨policy, rfl, rfl⟩) fun _ _ _ => ?_
      exact (Bookless.sendMessage peer _).does_record.post fun _ _ _ => trivial
  rcases RecordStep.trace (Does.run (o := o) hdoes (Prog.kept_of_forall fun _ _ _ => trivial)) with hsame | ⟨d', hd', hterms⟩
  · exact Or.inl (hsame.symm.trans hd)
  · obtain rfl := Option.some.inj (hd.symm.trans hd')
    exact Or.inr hterms

/-! ### Where no call fails -/

theorem yields_consumeSecret (hE : Unfailing E) :
    ∃ v, Yields exec E (consumeSecret H secret) w (.ok (w.secretPolicy H secret)) v ∧ SamePolicy w v := by
  unfold consumeSecret World.secretPolicy
  rw [← ite_not (secret.length = 32)]
  split
  · exact ⟨w, Yields.pure, SamePolicy.refl w⟩
  cases hl : (w.store .secrets).lookup secret with
  | none =>
    rw [Table.value?_eq_none_of_entry hl]
    exact ⟨w, (yields_notFound hE hl).bind Yields.pure, SamePolicy.refl w⟩
  | some e =>
    obtain ⟨g, s⟩ := e
    rw [Table.value?_of_entry hl]
    dsimp only
    split
    · rename_i hused
      refine ⟨w, (yields_getJson hE hl).bind ?_, SamePolicy.refl w⟩
      dsimp only
      rw [if_pos hused]
      exact Yields.pure
    · rename_i hused
      have hput : SamePolicy w (w.put .secrets secret { s with consumed := true }) := SamePolicy.put_secret
      have hend : SamePolicy w ((w.put .secrets secret { s with consumed := true }).erase .secrets secret) :=
        ⟨fun q => (SamePolicy.erase_secret.1 q).trans (hput.1 q), SamePolicy.erase_secret.2.trans hput.2⟩
      refine ⟨_, (yields_getJson hE hl).bind ?_, hend⟩
      dsimp only
      rw [if_neg hused]
      refine (yields_effectivePolicy hE).bind ?_
      refine Yields.bind (b := .ok ()) (v := w.put .secrets secret { s with consumed := true }) (Yields.ask ?_) ?_
      · intro x hx
        simp [exec, hE x hx, hl]
      refine Yields.bind Yields.pure ?_
      refine Yields.bind (b := .ok ())
        (v := (w.put .secrets secret { s with consumed := true }).erase .secrets secret) (Yields.ask ?_) ?_
      · intro x hx
        simp [exec, hE x hx]
      exact Yields.bind Yields.pure Yields.pure

theorem yields_grantedPolicy (hE : Unfailing E) :
    ∃ v, Yields exec E (grantedPolicy H secret) w (.ok (w.terms H secret)) v ∧ SamePolicy w v := by
  unfold grantedPolicy World.terms
  split
  · split
    · rename_i hempty
      rw [secretPolicy_of_length (by simp [List.isEmpty_iff.mp hempty])]
      exact ⟨w, Yields.pure, SamePolicy.refl w⟩
    · exact yields_consumeSecret hE
  split
  · obtain ⟨v, hconsume, hsame⟩ : ∃ v, Yields exec E (consumeSecret H secret) w (.ok (w.secretPolicy H secret)) v ∧
        SamePolicy w v := yields_consumeSecret hE
    refine ⟨v, hconsume.bind ?_, hsame⟩
    cases w.secretPolicy H secret with
    | none =>
      rw [Option.getD_none, ← hsame.effectivePolicy (H := H)]
      exact (yields_effectivePolicy hE).bind Yields.pure
    | some policy => exact Yields.pure
  · rename_i hempty
    have hnil : secret = [] := by simpa using hempty
    rw [secretPolicy_of_length (by simp [hnil]), Option.getD_none]
    exact ⟨w, (yields_effectivePolicy hE).bind Yields.pure, SamePolicy.refl w⟩

/-- Where no call fails, the record is stored. -/
theorem surely_stored (hE : Unfailing E) (ht : w.terms H m.secret = some policy) :
    Surely exec E (handleNewChannelInvoke H peer m)
      (fun _ w' => w'.channel peer = some (initialData policy m.refundScriptpubkey)) w := by
  obtain ⟨v, hgrant, -⟩ : ∃ v, Yields exec E (grantedPolicy H m.secret) w (.ok (w.terms H m.secret)) v ∧
      SamePolicy w v := yields_grantedPolicy hE
  unfold handleNewChannelInvoke
  refine hgrant.bind ?_
  rw [ht]
  refine (yields_saveChannel hE).bind ?_
  refine (Stays.surely (Bookless.sendMessage peer _)).mono ?_
  intro _ w' hq
  rw [hq.channel]
  exact World.channel_put

/-! ### Sound starts -/

/-- Runs in which no secret is added that grants a balance above its capacity. -/
def Guard.fairSecrets : Guard := .ofOp fun _ op =>
  ∀ text capacity initial, op = .addSecret text capacity initial → initial ≤ capacity

theorem Reachable.fairTerms (hpolicy : H.config.policy.initialClientBalanceMsat ≤ H.config.policy.channelCapacityMsat)
    (hw : Reachable H Guard.fairSecrets w) : FairTerms H w := by
  refine hw.keeps ⟨hpolicy, fun k s hs => by cases hs⟩ ?_
  intro K act w w' _ _ hop _ _ hs h
  exact h.step hs hop

theorem FairTerms.terms (h : FairTerms H w) (ht : w.terms H secret = some policy) :
    policy.initialClientBalanceMsat ≤ policy.channelCapacityMsat := by
  have hsecret : ∀ policy, w.secretPolicy H secret = some policy → Granted H w policy := by
    intro policy hs
    unfold World.secretPolicy at hs
    split at hs
    · split at hs
      · rename_i s hv
        split at hs
        · cases hs
        · exact Or.inr ⟨secret, s, hv, (Option.some.inj hs).symm⟩
      · cases hs
    · cases hs
  refine h.granted ?_
  unfold World.terms at ht
  split at ht
  · exact hsecret policy ht
  · cases hs : w.secretPolicy H secret with
    | none =>
      rw [hs] at ht
      exact Or.inl (Option.some.inj ht).symm
    | some p =>
      rw [hs] at ht
      exact hsecret policy (hs.trans ht)

/-- A new channel starts soundly, whatever the environment does, exactly if the terms that its invocation gets grant no
    balance above the capacity (or the record is there already). In every run in which the configuration and all added
    secrets are fair, each new channel starts soundly. -/
theorem new_channel_sound_iff (H : Host) (w : World) (peer : PublicKey) (m : InvokeHostedChannel) :
    ((∀ o d, (Prog.run exec o (handleNewChannelInvoke H peer m).run w).2.channel peer = some d →
        w.channel peer = some d ∨ SoundStart d) ↔
      ∀ policy, w.terms H m.secret = some policy → w.channel peer = some (initialData policy m.refundScriptpubkey) ∨
        policy.initialClientBalanceMsat ≤ policy.channelCapacityMsat) ∧
    (H.config.policy.initialClientBalanceMsat ≤ H.config.policy.channelCapacityMsat →
      Reachable H Guard.fairSecrets w →
      ∀ o d, (Prog.run exec o (handleNewChannelInvoke H peer m).run w).2.channel peer = some d →
        w.channel peer = some d ∨ SoundStart d) := by
  have hiff : (∀ o d, (Prog.run exec o (handleNewChannelInvoke H peer m).run w).2.channel peer = some d →
        w.channel peer = some d ∨ SoundStart d) ↔
      ∀ policy, w.terms H m.secret = some policy → w.channel peer = some (initialData policy m.refundScriptpubkey) ∨
        policy.initialClientBalanceMsat ≤ policy.channelCapacityMsat := by
    constructor
    · intro hall policy ht
      have hsurely : Surely exec _ (handleNewChannelInvoke H peer m)
          (fun _ w' => w'.channel peer = some (initialData policy m.refundScriptpubkey)) w :=
        surely_stored unfailing_calm ht
      have hstored := hsurely.run (o := fun _ => .calm) fun _ => rfl
      exact (hall _ _ hstored).imp_right (soundStart_iff policy _).mp
    · intro hterms o d hd
      rcases stored_terms hd with hsame | ⟨policy, ht, rfl⟩
      · exact Or.inl hsame
      · exact (hterms policy ht).imp_right (soundStart_iff policy _).mpr
  refine ⟨hiff, fun hpolicy hw => hiff.mpr fun policy ht => Or.inr ?_⟩
  exact (hw.fairTerms hpolicy).terms ht

/-- A secret of 32 zero bytes, and a client that uses it. -/
def zeroSecret (capacity initial : UInt64) : World → Op := fun _ => .addSecret (String.ofList (List.replicate 64 '0')) capacity initial

def zeroInvoke : InvokeHostedChannel := ⟨ByteVec.fill 32 0, [1], List.replicate 32 0⟩

/-- The world in which the operator has added the secret and the client has used it. -/
def secretWorld (capacity initial : UInt64) : World :=
  (Prog.run exec (fun _ => .calm) (handleNewChannelInvoke .transparent openPeer zeroInvoke).run
    (calmRun .transparent [zeroSecret capacity initial])).2

theorem new_channel_sound_secret : ∃ d, (secretWorld 500000 100000).channel openPeer = some d ∧ SoundStart d := by
  have hrun : (((calmRun .transparent [zeroSecret 500000 100000]).channel openPeer).isNone &&
      ((secretWorld 500000 100000).channel openPeer).isSome) = true := by
    decide +kernel
  obtain ⟨hnone, hsome⟩ := Bool.and_eq_true_iff.mp hrun
  obtain ⟨d, hd⟩ := Option.isSome_iff_exists.mp hsome
  have hw : Reachable .transparent Guard.fairSecrets (calmRun .transparent [zeroSecret 500000 100000]) := by
    refine calmRun_follows (Guard.ofOp_follows ?_ _)
    rintro op hop w text capacity initial hadd
    obtain rfl := List.mem_singleton.mp hop
    obtain ⟨-, rfl, rfl⟩ := Op.addSecret.inj hadd
    decide
  refine ⟨d, hd, ?_⟩
  rcases (new_channel_sound_iff .transparent _ openPeer zeroInvoke).2 (by decide) hw _ d hd with hold | hsound
  · rw [Option.isNone_iff_eq_none.mp hnone] at hold
    cases hold
  · exact hsound

/-- A secret of capacity 1 that grants 2 leaves the host with all but one of the 64-bit numbers. -/
theorem new_channel_underflows : ¬ ∀ (H : Host) (w : World) (peer : PublicKey) (m : InvokeHostedChannel)
    (o : Nat → Choice) (d : ChannelData),
    H.config.policy.initialClientBalanceMsat ≤ H.config.policy.channelCapacityMsat → Reachable H Guard.free w →
    (Prog.run exec o (handleNewChannelInvoke H peer m).run w).2.channel peer = some d →
      w.channel peer = some d ∨ SoundStart d := by
  intro hall
  have hrun : (((calmRun .transparent [zeroSecret 1 2]).channel openPeer).isNone &&
      ((secretWorld 1 2).channel openPeer).any fun d => decide (d.lcss.localBalanceMsat = 18446744073709551615 ∧
        d.lcss.initHostedChannel.channelCapacityMsat < d.lcss.initHostedChannel.initialClientBalanceMsat)) = true := by
    decide +kernel
  obtain ⟨hnone, hrun⟩ := Bool.and_eq_true_iff.mp hrun
  obtain ⟨d, hd, hrun⟩ := exists_of_any hrun
  obtain ⟨-, hlt⟩ := of_decide_eq_true hrun
  rcases hall .transparent _ openPeer zeroInvoke _ d (by decide) (calmRun_reachable _ _) hd with hold | hsound
  · rw [Option.isNone_iff_eq_none.mp hnone] at hold
    cases hold
  · exact UInt64.not_lt.mpr hsound.2 hlt

end Canopus
