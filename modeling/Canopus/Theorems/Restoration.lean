import Canopus.Theorems.Adoption
import Canopus.Theorems.Records

/-! Restoring a state that a peer presents. What a signature covers names neither the peer nor the
    channel, so with ideal signatures the host knows of a state that it restores that it has signed it
    before, that the peer has signed it too, and that it is ahead of the stored one: but not for which
    channel it has signed it. -/

namespace Canopus
open Effect

variable {H : Host} {K : Ctx} {w w' : World} {p : PublicKey} {d d' : ChannelData} {c : Change}
  {s : LastCrossSignedState} {m : LastCrossSignedState}

/-- Runs with ideal signatures: a state that a peer presents with a valid signature of the host agrees,
    in all that is signed, with one that the host has signed. -/
def Guard.unforged (H : Host) : Guard := .ofOp fun w op => ∀ p e m, op = .message p e (.lastCrossSignedState m) →
  m.verifyRemoteSig H.crypto H.nodePublic = true → ∃ q s, (q, s) ∈ w.signed ∧ SignedAlike m.reverse s

/-- The state carries the host's own signature. -/
def SignedByHost (H : Host) (s : LastCrossSignedState) : Prop :=
  ∃ hash, s.reverse.hostedSigHash H.crypto = .ok hash ∧ s.localSigOfRemote = H.crypto.signEcdsa hash H.nodeSecret

theorem SignedByHost.sign {t : LastCrossSignedState} (hs : s.sign H.crypto H.nodeSecret = .ok t) : SignedByHost H t := by
  obtain ⟨hash, hh, rfl⟩ := sign_eq_ok hs
  have halike : SignedAlike { s with localSigOfRemote := H.crypto.signEcdsa hash H.nodeSecret }.reverse s.reverse := by
    constructor <;> rfl
  exact ⟨hash, halike.hash.trans hh, rfl⟩

theorem Signs.byHost (hs : Signs H w p s) : SignedByHost H s := by
  cases hs with
  | next _ _ _ _ hs => exact .sign hs
  | opened _ _ hs => exact .sign hs
  | overridden _ _ hs => exact .sign hs
  | proposed _ _ hs => exact .sign hs
  | resized _ _ _ hs => exact .sign hs

/-- The history of signatures is genuine. -/
theorem Reachable.signed_byHost {G : Guard} (hw : Reachable H G w) : ∀ p s, (p, s) ∈ w.signed → SignedByHost H s := by
  refine hw.keeps (P := fun w => ∀ p s, (p, s) ∈ w.signed → SignedByHost H s) ?_ ?_
  · intro p s hs
    cases hs
  · intro K act w w' hK _ _ _ _ hs hall p s hmem
    subst hK
    rcases hs.signed_eq with he | ⟨q, t, hsign, he⟩
    · exact hall p s (he ▸ hmem)
    · rw [he, List.mem_append, List.mem_singleton] at hmem
      rcases hmem with hmem | hmem
      · exact hall p s hmem
      · cases hmem
        exact hsign.byHost

/-! ### What is adopted -/

/-- While a presented state is handled, the committed state changes to that state or not at all. -/
theorem Changes.presented {e : WireEncoding} (hop : K.op = .message p e (.lastCrossSignedState m))
    (hc : Changes K.host p c d d') (ho : c.Cause K w p d) :
    d'.lcss = d.lcss ∨ d'.lcss = m.reverse ∧ Adopts K.host p d m := by
  cases hc with
  | established | committed | overridden | resized =>
    obtain ⟨⟨_, ho⟩, -⟩ := ho
    cases hop.symm.trans ho
  | adopted hown hv hl hr hne =>
    obtain ⟨⟨_, ho⟩, -⟩ := ho
    cases hop.symm.trans ho
    exact Or.inr ⟨rfl, hown, hv, hl, hr, hne⟩
  | errored _ hd =>
    subst hd
    exact Or.inl rfl
  | proposed hd =>
    subst hd
    exact Or.inl rfl
  | _ => exact Or.inl rfl

theorem adopts_of_replaced {e : WireEncoding} {o : Nat → Choice} (hd : w.channel p = some d)
    (hd' : ((Op.message p e (.lastCrossSignedState m)).next H o w).channel p = some d') (hne : d'.lcss ≠ d.lcss) :
    d'.lcss = m.reverse ∧ Adopts H p d m := by
  let K : Ctx := ⟨H, Guard.free, w, .message p e (.lastCrossSignedState m), fun _ _ _ => True⟩
  let P : World → Prop := fun v => ∃ d₁, v.channel p = some d₁ ∧
    (d₁.lcss = d.lcss ∨ d₁.lcss = m.reverse ∧ Adopts H p d m)
  have hnext : P (K.op.next H o w) := by
    refine (trace_next (K := K) (Guard.ofOp_allows H trivial) (Prog.kept_of_forall fun _ _ _ => trivial)).keeps ?_ ⟨d, hd, Or.inl rfl⟩
    intro act v v' _ hs hP
    obtain ⟨d₁, hd₁, hl₁⟩ := hP
    cases hs.record p with
    | same h => exact ⟨d₁, h.trans hd₁, hl₁⟩
    | created _ ho =>
      obtain ⟨_, _, ho⟩ := ho
      cases ho
    | wrote hd₂ hc ho _ _ h =>
      obtain rfl := Option.some.inj (hd₂.symm.trans hd₁)
      refine ⟨_, h, ?_⟩
      rcases hc.presented (e := e) rfl ho with hsame | ⟨hl, hr⟩
      · rw [hsame]
        exact hl₁
      · rcases hl₁ with hl₁ | ⟨hl₁, -⟩
        · unfold Adopts at hr ⊢
          rw [hl₁] at hr
          exact Or.inr ⟨hl, hr⟩
        · -- The state is adopted already, so it is not ahead of itself.
          exact absurd ⟨by rw [hl₁], by rw [hl₁]⟩ hr.2.2.2.2
    | removed ho =>
      obtain ⟨_, ho⟩ := ho
      cases ho
  obtain ⟨d₁, hd₁, hl⟩ := hnext
  obtain rfl := Option.some.inj (hd₁.symm.trans hd')
  exact hl.resolve_left hne

/-- With ideal signatures, the state that the host restores for a peer is one that it has signed before,
    for this peer's channel or another one, that the peer has signed too, and that is ahead of the
    stored state. -/
theorem restored_state_was_signed (H : Host) (w : World) (p : PublicKey) (e : WireEncoding) (m : LastCrossSignedState)
    (d d' : ChannelData) (o : Nat → Choice) (hw : Reachable H (Guard.unforged H) w)
    (hop : (Guard.unforged H).op w (.message p e (.lastCrossSignedState m))) (hd : w.channel p = some d)
    (hd' : ((Op.message p e (.lastCrossSignedState m)).next H o w).channel p = some d') (hne : d'.lcss ≠ d.lcss) :
    (∃ q s, (q, s) ∈ w.signed ∧ SignedByHost H s ∧ SignedAlike d'.lcss s) ∧
      d'.lcss.verifyRemoteSig H.crypto p = true ∧
      d.lcss.localUpdates ≤ d'.lcss.localUpdates ∧ d.lcss.remoteUpdates ≤ d'.lcss.remoteUpdates ∧
      ¬ (d'.lcss.localUpdates = d.lcss.localUpdates ∧ d'.lcss.remoteUpdates = d.lcss.remoteUpdates) := by
  obtain ⟨hl, hown, hchecks⟩ := adopts_of_replaced hd hd' hne
  obtain ⟨q, s, hmem, halike⟩ := hop p e m rfl hown
  rw [hl]
  exact ⟨⟨q, s, hmem, hw.signed_byHost q s hmem, halike⟩, hchecks⟩

/-! ### A state of another channel -/

/-- Two clients open channels; the first also sends an HTLC and commits to it. -/
def twoChannels : List (World → Op) := openScript ++ [
  clientAdds openKey 1 1000 (ByteVec.fill 32 3) 77, clientCommits .transparent openKey,
  clientInvokes .transparent otherKey, clientCommits .transparent otherKey]

theorem unforged_commits (key : SecretKey) (w : World) : (Guard.unforged H).op w (clientCommits H key w) := by
  intro p e m hm
  rcases clientCommits_cases H key w with h | ⟨_, h⟩
  · cases h.symm.trans hm
  · cases h.symm.trans hm

theorem unforged_other {op : Op} (h : ∀ p e m, op ≠ .message p e (.lastCrossSignedState m)) :
    (Guard.unforged H).op w op :=
  fun p e m hm => absurd hm (h p e m)

theorem twoChannels_reachable : Reachable .transparent (Guard.unforged .transparent) (calmRun .transparent twoChannels) := by
  refine calmRun_follows (Guard.ofOp_follows ?_ _)
  intro op hop w
  simp only [twoChannels, openScript, List.cons_append, List.nil_append, List.mem_cons, List.not_mem_nil, or_false] at hop
  rcases hop with rfl | rfl | rfl | rfl | rfl | rfl
  · exact unforged_other (by intro _ _ _ hm; cases hm)
  · exact unforged_commits openKey w
  · exact unforged_other (by intro _ _ _ hm; cases hm)
  · exact unforged_commits openKey w
  · exact unforged_other (by intro _ _ _ hm; cases hm)
  · exact unforged_commits otherKey w

/-- A client that presents a signed state does not forge it. -/
theorem unforged_signed {q : PublicKey} (key : SecretKey) (hs : (q, s) ∈ w.signed) :
    (Guard.unforged H).op w (.message p .strict (.lastCrossSignedState (clientView H key s))) := by
  intro _ _ _ hm _
  cases hm
  exact ⟨q, s, hs, SignedAlike.resigned s _⟩

/-- The second client signs the latest state of the first one's channel and presents it: the host takes
    it over, and it agrees with nothing that the host has signed for the second client. -/
theorem foreign_state_restored : ∃ (m : LastCrossSignedState) (d d' : ChannelData),
    (Guard.unforged .transparent).op (calmRun .transparent twoChannels) (.message otherPeer .strict (.lastCrossSignedState m)) ∧
    (calmRun .transparent twoChannels).channel otherPeer = some d ∧
    ((Op.message otherPeer .strict (.lastCrossSignedState m)).next .transparent (fun _ => .calm)
      (calmRun .transparent twoChannels)).channel otherPeer = some d' ∧ d'.lcss ≠ d.lcss ∧
    ∀ s, (otherPeer, s) ∈ (calmRun .transparent twoChannels).signed → ¬ SignedAlike d'.lcss s := by
  have hrun : ((calmRun .transparent twoChannels).signed.reverse.find? (·.1 == openPeer)).any (fun x =>
      ((calmRun .transparent twoChannels).channel otherPeer).any fun d =>
      (((Op.message otherPeer .strict (.lastCrossSignedState (clientView .transparent otherKey x.2))).next .transparent
        (fun _ => .calm) (calmRun .transparent twoChannels)).channel otherPeer).any fun d' =>
      decide (d'.lcss ≠ d.lcss ∧ ∀ y ∈ (calmRun .transparent twoChannels).signed,
        y.1 = otherPeer → d'.lcss.remoteUpdates ≠ y.2.remoteUpdates)) = true := by
    decide +kernel
  obtain ⟨x, hx, hrun⟩ := exists_of_any hrun
  obtain ⟨d, hd, hrun⟩ := exists_of_any hrun
  obtain ⟨d', hd', hrun⟩ := exists_of_any hrun
  obtain ⟨hne, hnone⟩ := of_decide_eq_true hrun
  have hmem : (x.1, x.2) ∈ (calmRun .transparent twoChannels).signed :=
    List.mem_reverse.mp (List.mem_of_find?_eq_some hx)
  refine ⟨_, d, d', unforged_signed otherKey hmem, hd, hd', hne, ?_⟩
  intro s hs halike
  exact hnone _ hs rfl halike.remoteUpdates

theorem restored_state_was_signed_foreign : ∃ d d' : ChannelData, (calmRun .transparent twoChannels).channel otherPeer = some d ∧
    d'.lcss ≠ d.lcss ∧ d'.lcss.verifyRemoteSig .transparent otherPeer = true ∧
    ∃ q s, (q, s) ∈ (calmRun .transparent twoChannels).signed ∧ SignedByHost .transparent s ∧ SignedAlike d'.lcss s := by
  obtain ⟨m, d, d', hop, hd, hd', hne, -⟩ := foreign_state_restored
  have h := restored_state_was_signed .transparent _ otherPeer .strict m d d' _ twoChannels_reachable hop hd hd' hne
  exact ⟨d, d', hd, hne, h.2.1, h.1⟩

/-- A client sends an HTLC and commits to it, and its channel is removed; later it opens another one. -/
def removedScript : List (World → Op) := openScript ++ [
  clientAdds openKey 1 1000 (ByteVec.fill 32 3) 77, clientCommits .transparent openKey,
  fun _ => .removeChannel openPeer true]

theorem reopened_reachable :
    Reachable .transparent (Guard.unforged .transparent) (calmRun .transparent (removedScript ++ openScript)) := by
  refine calmRun_follows (Guard.ofOp_follows ?_ _)
  intro op hop w
  simp only [removedScript, openScript, List.cons_append, List.nil_append, List.mem_cons, List.not_mem_nil, or_false] at hop
  rcases hop with rfl | rfl | rfl | rfl | rfl | rfl | rfl
  · exact unforged_other (by intro _ _ _ hm; cases hm)
  · exact unforged_commits openKey w
  · exact unforged_other (by intro _ _ _ hm; cases hm)
  · exact unforged_commits openKey w
  · exact unforged_other (by intro _ _ _ hm; cases hm)
  · exact unforged_other (by intro _ _ _ hm; cases hm)
  · exact unforged_commits openKey w

/-- The client presents the last state of its removed channel, and the host takes it over. -/
theorem removed_state_restored : (calmRun .transparent removedScript).channel openPeer = none ∧
    ∃ (m : LastCrossSignedState) (d d' : ChannelData), (Guard.unforged .transparent).op
      (calmRun .transparent (removedScript ++ openScript)) (.message openPeer .strict (.lastCrossSignedState m)) ∧
    (calmRun .transparent (removedScript ++ openScript)).channel openPeer = some d ∧
    ((Op.message openPeer .strict (.lastCrossSignedState m)).next .transparent (fun _ => .calm)
      (calmRun .transparent (removedScript ++ openScript))).channel openPeer = some d' ∧ d'.lcss ≠ d.lcss ∧
    ∀ s, (openPeer, s) ∈ (calmRun .transparent (removedScript ++ openScript)).signed.drop
      (calmRun .transparent removedScript).signed.length → ¬ SignedAlike d'.lcss s := by
  have hnone : (calmRun .transparent removedScript).channel openPeer = none := by
    decide +kernel
  refine ⟨hnone, ?_⟩
  have hrun : ((calmRun .transparent (removedScript ++ openScript)).signed.find? (·.2.remoteUpdates == 1)).any (fun x =>
      ((calmRun .transparent (removedScript ++ openScript)).channel openPeer).any fun d =>
      (((Op.message openPeer .strict (.lastCrossSignedState (clientView .transparent openKey x.2))).next .transparent
        (fun _ => .calm) (calmRun .transparent (removedScript ++ openScript))).channel openPeer).any fun d' =>
      decide (d'.lcss ≠ d.lcss ∧ ∀ y ∈ (calmRun .transparent (removedScript ++ openScript)).signed.drop
        (calmRun .transparent removedScript).signed.length, d'.lcss.remoteUpdates ≠ y.2.remoteUpdates)) = true := by
    decide +kernel
  obtain ⟨x, hx, hrun⟩ := exists_of_any hrun
  obtain ⟨d, hd, hrun⟩ := exists_of_any hrun
  obtain ⟨d', hd', hrun⟩ := exists_of_any hrun
  obtain ⟨hne, hlater⟩ := of_decide_eq_true hrun
  have hmem : (x.1, x.2) ∈ (calmRun .transparent (removedScript ++ openScript)).signed := List.mem_of_find?_eq_some hx
  refine ⟨_, d, d', unforged_signed openKey hmem, hd, hd', hne, ?_⟩
  intro s hs halike
  exact hlater _ hs halike.remoteUpdates

/-- A peer can restore a state that was never signed for its own channel, and one that was signed for a
    channel of its own that has been removed since. -/
theorem restored_state_not_current :
    (¬ ∀ (H : Host) (w : World) (p : PublicKey) (e : WireEncoding) (m : LastCrossSignedState) (d d' : ChannelData)
      (o : Nat → Choice), Reachable H (Guard.unforged H) w →
      (Guard.unforged H).op w (.message p e (.lastCrossSignedState m)) → w.channel p = some d →
      ((Op.message p e (.lastCrossSignedState m)).next H o w).channel p = some d' → d'.lcss ≠ d.lcss →
      ∃ s, (p, s) ∈ w.signed ∧ SignedAlike d'.lcss s) ∧
    ¬ ∀ (H : Host) (earlier later : List (World → Op)) (p : PublicKey) (e : WireEncoding) (m : LastCrossSignedState)
      (d d' : ChannelData) (o : Nat → Choice), (calmRun H earlier).channel p = none →
      Reachable H (Guard.unforged H) (calmRun H (earlier ++ later)) →
      (Guard.unforged H).op (calmRun H (earlier ++ later)) (.message p e (.lastCrossSignedState m)) →
      (calmRun H (earlier ++ later)).channel p = some d →
      ((Op.message p e (.lastCrossSignedState m)).next H o (calmRun H (earlier ++ later))).channel p = some d' →
      d'.lcss ≠ d.lcss →
      ∃ s, (p, s) ∈ (calmRun H (earlier ++ later)).signed.drop (calmRun H earlier).signed.length ∧
        SignedAlike d'.lcss s := by
  constructor
  · intro hall
    obtain ⟨m, d, d', hop, hd, hd', hne, hnone⟩ := foreign_state_restored
    obtain ⟨s, hs, halike⟩ := hall .transparent _ otherPeer .strict m d d' _ twoChannels_reachable hop hd hd' hne
    exact hnone s hs halike
  · intro hall
    obtain ⟨hgone, m, d, d', hop, hd, hd', hne, hlater⟩ := removed_state_restored
    obtain ⟨s, hs, halike⟩ := hall .transparent removedScript openScript openPeer .strict m d d' _ hgone
      reopened_reachable hop hd hd' hne
    exact hlater s hs halike

end Canopus
