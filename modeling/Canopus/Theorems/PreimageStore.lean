import Canopus.Lib.Calls
import Canopus.Theorems.Settlement

/-! The store of preimages. A client's fulfil and a `reply_preimages` are checked against the hash; what the node reports
    of a payment is stored under the hash of the link with the label of the payment. This module shows when these are
    the same: as long as no label is used for HTLCs of two hashes. -/

namespace Canopus
open Effect Fallible

variable {H : Host} {K : Ctx} {w w' : World} {p : PublicKey} {k : HtlcKey} {l : ForwardLink} {act : Act}
  {preimage : ByteVec 32}

/-! ### What the node reports -/

/-- The preimage is that of a payment which the host has sent out with the label `k`. -/
def World.Paid (w : World) (H : Host) (k : HtlcKey) (preimage : ByteVec 32) : Prop :=
  ∃ s ∈ w.onions, s.params.label = k ∧ H.crypto.sha256 preimage.toList = s.params.paymentHash

theorem World.Paid.later (h : w.Paid H k preimage) (hsub : w.onions ⊆ w'.onions) : w'.Paid H k preimage := by
  obtain ⟨s, hs, hk⟩ := h
  exact ⟨s, hsub hs, hk⟩

/-- An answer about the payment with a label is about one that the host has sent out. -/
def Truthful (H : Host) (x : Choice) (w : World) : Call → Prop
  | .inspectOutgoingPayment _ k => x.fails = false →
    ∀ preimage, x.status = .succeeded preimage → w.Paid H k preimage
  | _ => True

/-- So is the result of a payment. -/
def ResultPaid (H : Host) (w : World) : Op → Prop
  | .paymentResult scid id (.succeeded preimage) => w.Paid H (scid, id) preimage
  | _ => True

/-- The node reports what it has been asked to pay. -/
def Guard.paid (H : Host) : Guard := .ofOp (ResultPaid H)

/-- A link is stored only where no payment of another hash has gone out with its label, and an HTLC that leaves by the
    node does not find a link of another hash there. -/
structure LabelKeeps (w : World) (k : HtlcKey) (l : ForwardLink) : Prop where
  fresh : w.link k = none → ∀ s ∈ w.onions, s.params.label = k → s.params.paymentHash = l.paymentHash
  shared : l.hostedCommitDeadlineUnix = none → ∀ l' ∈ w.link k, l'.paymentHash = l.paymentHash

/-- Besides, labels stand for one hash each. -/
def Guard.labelled (H : Host) : Guard where
  op := ResultPaid H
  record _ _ _ := True
  link := LabelKeeps

/-- The guard allows the operation, and the node answers truthfully. -/
def Vouched (G : Guard) (H : Host) : List World → Op → (Nat → Choice) → Prop
  | w :: _, op, o => G.Allows H o op w ∧ Prog.Kept exec (Truthful H) o (op.program H).run w
  | [], _, _ => False

/-! ### The invariant -/

/-- Every stored preimage is under its own hash, and what has gone out with a label has the hash of the link there. -/
structure SoundStore (H : Host) (w : World) : Prop where
  preimages : PreimagesKeyed H w
  labels : ∀ k l, w.link k = some l → ∀ s ∈ w.onions, s.params.label = k → s.params.paymentHash = l.paymentHash

/-- What has gone out, after a step. -/
theorem Step.onions_eq (hs : Step K act w w') : w'.onions = w.onions ∨ (∀ k, w'.link k = w.link k) ∧
    ∃ p htlc params l, LinkAt K.guard w params.label l ∧ l.hostedCommitDeadlineUnix = none ∧
      params.paymentHash = l.paymentHash ∧ w'.onions = w.onions ++ [⟨p, htlc, params⟩] := by
  cases hs with
  | @forwarded _ p htlc params l hl hd hsource hid hh ha hq hk hp =>
    exact Or.inr ⟨fun _ => rfl, p, htlc, params, l, hk ▸ hl, hd, hp.trans hh.symm, rfl⟩
  | quiet h => exact Or.inl h.onions
  | _ => exact Or.inl rfl

theorem Step.onions_subset (hs : Step K act w w') : w.onions ⊆ w'.onions := by
  rcases hs.onions_eq with h | ⟨-, p, htlc, params, l, -, -, -, h⟩
  · rw [h]
    exact List.Subset.refl _
  · rw [h]
    exact List.subset_append_left _ _

/-- What is there under a label that an HTLC goes out with has the hash of that HTLC. -/
theorem LinkAt.hash {l' : ForwardLink} (h : LinkAt (Guard.labelled H) w k l) (hd : l.hostedCommitDeadlineUnix = none)
    (hl' : w.link k = some l') : l'.paymentHash = l.paymentHash := by
  rcases h with h | ⟨w₀, hg, heq, -⟩
  · rw [Option.some.inj (hl'.symm.trans h)]
  · exact hg.shared hd l' (heq.trans hl')

/-- What a link stores is the preimage of its hash. -/
theorem SoundStore.stores {hash : Hash} (h : SoundStore K.host w) (hr : Stores K w hash preimage)
    (hpaid : ∀ k preimage, Reported K w k preimage → w.Paid K.host k preimage) :
    K.host.crypto.sha256 preimage.toList = hash := by
  cases hr with
  | checked hp => exact hp
  | @paid k l hl hh hr =>
    obtain ⟨s, hs, hk, hsha⟩ := hpaid k preimage hr
    exact (hsha.trans (h.labels k l hl s hs hk)).trans hh

theorem SoundStore.step (hG : K.guard = Guard.labelled K.host) (henv : K.env = Truthful K.host)
    (hop : ResultPaid K.host w K.op) (h : SoundStore K.host w) (hs : Step K act w w') : SoundStore K.host w' where
  preimages := by
    have hpaid : ∀ k preimage, Reported K w k preimage → w.Paid K.host k preimage := by
      rintro k preimage (hresult | ⟨x, hash, hx, hf, hstatus⟩)
      · rw [hresult] at hop
        exact hop
      · rw [henv] at hx
        exact hx hf preimage hstatus
    cases hs with
    | stored _ hr => exact h.preimages.insert (h.stores hr hpaid)
    | quiet hq =>
      intro hash preimage hp
      exact h.preimages hash preimage (hq.preimages ▸ hp)
    | _ => exact h.preimages
  labels := by
    intro k l hl s hmem hk
    rcases hs.onions_eq with he | ⟨hsame, p, htlc, params, l', hat, hd, hhash, he⟩
    · rw [he] at hmem
      cases hs.link with
      | same heq => exact h.labels k l (heq k ▸ hl) s hmem hk
      | @linked new _ _ hn hg heq =>
        rw [heq k] at hl
        split at hl
        · rename_i hnew
          obtain rfl := Option.some.inj hl
          rw [hG] at hg
          exact hg.fresh hn s hmem (hk.trans hnew)
        · exact h.labels k l hl s hmem hk
      | unlinked _ heq =>
        rw [heq k] at hl
        split at hl
        · cases hl
        · exact h.labels k l hl s hmem hk
    · rw [hsame] at hl
      rw [he, List.mem_append, List.mem_singleton] at hmem
      rcases hmem with hmem | rfl
      · exact h.labels k l hl s hmem hk
      · rw [hG] at hat
        subst hk
        exact hhash.trans (hat.hash hd hl).symm

theorem ResultPaid.later {op : Op} (h : ResultPaid H w op) (hsub : w.onions ⊆ w'.onions) : ResultPaid H w' op := by
  cases op with
  | paymentResult scid id status =>
    cases status with
    | succeeded preimage => exact World.Paid.later h hsub
    | _ => trivial
  | _ => trivial

theorem SoundStore.trace (hG : K.guard = Guard.labelled K.host) (henv : K.env = Truthful K.host)
    (hop : ResultPaid K.host K.start K.op) (h : SoundStore K.host K.start) (ht : K.Trace Act.all K.start w) :
    SoundStore K.host w := by
  have hkeeps : SoundStore K.host w ∧ K.start.onions ⊆ w.onions := by
    refine ht.keeps (P := fun v => SoundStore K.host v ∧ K.start.onions ⊆ v.onions) ?_ ⟨h, List.Subset.refl _⟩
    rintro act v v' - hs ⟨hv, hsub⟩
    exact ⟨hv.step hG henv (hop.later hsub) hs, List.Subset.trans hsub hs.onions_subset⟩
  exact hkeeps.1

/-! ### Runs -/

theorem soundStore_empty (H : Host) : SoundStore H World.empty where
  preimages _ _ h := by cases h
  labels _ _ h := by cases h

theorem Run.soundStore {past : List World} (hrun : Run H (Vouched (Guard.labelled H) H) (w :: past)) : SoundStore H w := by
  generalize hhist : w :: past = hist at hrun
  induction hrun generalizing w past with
  | start =>
    obtain ⟨rfl, rfl⟩ := List.cons.inj hhist
    exact soundStore_empty H
  | @step w₀ past₀ op o hw hop ih =>
    obtain ⟨rfl, rfl⟩ := List.cons.inj hhist
    let K : Ctx := ⟨H, Guard.labelled H, w₀, op, Truthful H⟩
    exact SoundStore.trace (K := K) rfl rfl hop.1.1 (ih rfl) (trace_next hop.1 hop.2)

/-- A call that fails leaves the preimages as they are. -/
theorem preimages_of_failing {x : Choice} (hf : x.fails = true) (c : Call) (w : World) :
    (exec x c w).2.preimages = w.preimages := by
  cases c <;> simp [exec, hf, World.noteSigned]

/-- What is stored is stored under its hash, and what is found is the preimage of the hash that was looked up. -/
def Call.Sound (H : Host) (w : World) : Call → Prop
  | .storePreimage hash preimage => H.crypto.sha256 preimage.toList = hash
  | .lookupPreimage hash => ∀ preimage, w.preimages.lookup hash = some preimage →
    H.crypto.sha256 preimage.toList = hash
  | _ => True

theorem Call.sound_of_keyed {c : Call} (hw : PreimagesKeyed H w) (hc : c.Keyed H) : c.Sound H w := by
  cases c with
  | storePreimage hash preimage => exact hc
  | lookupPreimage hash => exact hw hash
  | _ => trivial

/-- The calls of an operation are sound, those that fail included. -/
theorem SoundStore.calls {op : Op} {o : Nat → Choice} (h : SoundStore H w) {past : List World}
    (hop : Vouched (Guard.labelled H) H (w :: past) op o) : Prog.Allowed exec (Call.Sound H) o (op.program H).run w := by
  let K : Ctx := ⟨H, Guard.labelled H, w, op, Truthful H⟩
  have hends : Wp exec K.Assumes (op.program H) (fun _ w' => PreimagesKeyed H w') w := by
    have hdoes := does_program K
    unfold Ctx.Does Does at hdoes
    refine Wp.mono hdoes ?_
    exact fun _ w' ht => (SoundStore.trace (K := K) rfl rfl hop.1.1 h ht.1).preimages
  -- A call that fails may always be made, and it takes nothing back.
  have hlost : ∀ v c, ¬ PreimagesKeyed H v → ∃ y, K.Assumes y v c ∧ ¬ PreimagesKeyed H (exec y c v).2 := by
    intro v c hv
    refine ⟨{ Choice.calm with fails := true }, ⟨fun hf => (by cases hf), ?_⟩, ?_⟩
    · cases c with
      | inspectOutgoingPayment => exact fun hf => by cases hf
      | _ => trivial
    · unfold PreimagesKeyed
      rw [preimages_of_failing rfl]
      exact hv
  have hbreaks : ∀ v c, ¬ (PreimagesKeyed H v ∧ c.Keyed H) →
      ∃ y, K.Assumes y v c ∧ ¬ PreimagesKeyed H (exec y c v).2 := by
    intro v c hv
    by_cases hkeyed : PreimagesKeyed H v
    · cases c with
      | storePreimage hash preimage =>
        refine ⟨Choice.calm, ⟨fun _ => trivial, trivial⟩, fun hall => hv ⟨hkeyed, ?_⟩⟩
        exact hall hash preimage (AList.lookup_insert _)
      | _ => exact absurd ⟨hkeyed, trivial⟩ hv
    · exact hlost v c hkeyed
  unfold Wp at hends
  have hcalls := Prog.allowed_of_wp hlost hbreaks hends (Ctx.kept_assumes hop.1.2 hop.2)
  exact Prog.allowed_mono (fun _ _ hc => Call.sound_of_keyed hc.1 hc.2) hcalls

/-- In every run in which labels stand for one hash each and the node reports what it has been asked to pay, every stored
    preimage is under its hash, and every operation stores and finds only such preimages. -/
theorem preimages_under_their_hash (H : Host) (w : World) (past : List World)
    (hrun : Run H (Vouched (Guard.labelled H) H) (w :: past)) :
    PreimagesKeyed H w ∧ ∀ op o, Vouched (Guard.labelled H) H (w :: past) op o →
      Prog.Allowed exec (Call.Sound H) o (op.program H).run w :=
  ⟨hrun.soundStore.preimages, fun _ _ hop => hrun.soundStore.calls hop⟩

/-! ### Two payments with one label -/

instance (w : World) (k : HtlcKey) (preimage : ByteVec 32) : Decidable (w.Paid H k preimage) :=
  inferInstanceAs (Decidable (∃ s ∈ w.onions, _))

instance (w : World) (op : Op) : Decidable (ResultPaid H w op) :=
  match op with
  | .paymentResult scid id (.succeeded preimage) => inferInstanceAs (Decidable (w.Paid H (scid, id) preimage))
  | .paymentResult _ _ (.failed _) | .paymentResult _ _ .pending | .paymentResult _ _ .unknown
  | .message _ _ _ | .htlcAccepted _ | .pay _ | .recoverCommittedHtlcs | .enforceForwardDeadlines | .connect _
  | .disconnect _ | .initialPeerConnections _ | .acceptResize _ _ | .setChannel _ _ _ | .proposeOverride _ _
  | .addSecret _ _ _ | .removeSecret _ | .policy _ | .removeChannel _ _ | .restart => .isTrue trivial

instance (w : World) (op : Op) : Decidable ((Guard.labelled H).op w op) := inferInstanceAs (Decidable (ResultPaid H w op))

instance (w : World) (p : PublicKey) (d : ChannelData) : Decidable ((Guard.labelled H).record w p d) := .isTrue trivial

instance (w : World) (k : HtlcKey) (l : ForwardLink) : Decidable ((Guard.labelled H).link w k l) :=
  have : Decidable (∀ s ∈ w.onions, s.params.label = k → s.params.paymentHash = l.paymentHash) :=
    List.decidableBAll _ _
  decidable_of_iff
    ((w.link k = none → ∀ s ∈ w.onions, s.params.label = k → s.params.paymentHash = l.paymentHash) ∧
      (l.hostedCommitDeadlineUnix = none → ∀ l' ∈ w.link k, l'.paymentHash = l.paymentHash))
    ⟨fun h => ⟨h.1, h.2⟩, fun h => ⟨h.1, h.2⟩⟩

theorem truthful_calm {c : Call} : Truthful H .calm w c := by
  cases c with
  | inspectOutgoingPayment hash k =>
    intro _ preimage h
    cases h
  | _ => trivial

/-- Two clients each send an HTLC out by the channel 77, the first one with the id 1, and the second payment succeeds. -/
def secondPaidScript (id : UInt64) : List (World → Op) := openScript ++ [
  clientInvokes .transparent otherKey, clientCommits .transparent otherKey,
  clientAdds openKey 1 1000 (digest (List.replicate 32 3)) 77, clientCommits .transparent openKey,
  clientAdds otherKey id 2000 (digest (List.replicate 32 4)) 77, clientCommits .transparent otherKey,
  fun _ => .paymentResult 77 id (.succeeded (ByteVec.fill 32 4))]

theorem secondPaid_run {G : Guard} {id : UInt64} (h : G.Follows .transparent World.empty (secondPaidScript id)) :
    Run .transparent (Vouched G .transparent) (calmHistory .transparent (secondPaidScript id)) :=
  calmHistory_follows (fun _ _ _ hop => ⟨hop, Prog.kept_of_forall fun _ _ _ => truthful_calm⟩) h

theorem preimages_under_their_hash_apart : PreimagesKeyed .transparent (calmRun .transparent (secondPaidScript 2)) ∧
    (calmRun .transparent (secondPaidScript 2)).preimages.lookup (digest (List.replicate 32 4)) =
      some (ByteVec.fill 32 4) := by
  have hfollows : (Guard.labelled .transparent).follows .transparent World.empty (secondPaidScript 2) = true := by
    decide +kernel
  have hrun := secondPaid_run (Guard.follows_sound hfollows)
  rw [calmHistory_eq] at hrun
  refine ⟨(preimages_under_their_hash .transparent _ _ hrun).1, ?_⟩
  decide +kernel

/-- With one id the second payment has the label of the first, and its preimage is stored under the hash of the first. -/
theorem preimages_under_another_hash : ¬ ∀ (H : Host) (w : World) (past : List World),
    Run H (Vouched (Guard.paid H) H) (w :: past) → PreimagesKeyed H w := by
  intro hall
  have hfollows : followsOps (fun w op => decide (ResultPaid .transparent w op)) .transparent World.empty
      (secondPaidScript 1) = true := by
    decide +kernel
  have hrun := secondPaid_run (followsOps_sound (fun w op h => of_decide_eq_true h) hfollows)
  rw [calmHistory_eq] at hrun
  have hkeyed := hall _ _ _ hrun (digest (List.replicate 32 3)) (ByteVec.fill 32 4) (by decide +kernel)
  revert hkeyed
  decide +kernel

end Canopus
