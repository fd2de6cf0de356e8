import Canopus.Theorems.Records
import Canopus.Transparent

/-! The signatures of the stored state. The state of an established channel changes only when its own
    client asks for it with a signature. After every such change but one the stored state carries the
    signatures of both parties: a resize is signed by the host alone. -/

namespace Canopus
open Effect

variable {H : Host} {G : Guard} {K : Ctx} {w w' : World} {p q : PublicKey} {d d' : ChannelData} {c : Change} {act : Act}
  {s t : LastCrossSignedState} {C : Crypto} {key : SecretKey}

/-- `sig` is a signature of `key` over the state `s`, in the view of the host. -/
def SignsState (C : Crypto) (key : PublicKey) (sig : Signature) (s : LastCrossSignedState) : Prop :=
  ∃ hash, s.hostedSigHash C = .ok hash ∧ C.verifyEcdsa hash sig key = true

theorem signsState_of_verify (h : s.verifyRemoteSig C p = true) : SignsState C p s.remoteSigOfLocal s := by
  unfold LastCrossSignedState.verifyRemoteSig at h
  cases hs : s.hostedSigHash C with
  | error e =>
    rw [hs] at h
    cases h
  | ok hash =>
    rw [hs] at h
    exact ⟨hash, hs, h⟩

/-- The host's signature does not enter what the client signs. -/
theorem remoteSig_sign (hs : s.sign C key = .ok t) : t.remoteSigOfLocal = s.remoteSigOfLocal := by
  obtain ⟨hash, -, rfl⟩ := sign_eq_ok hs
  rfl

theorem verifyRemoteSig_sign (hs : s.sign C key = .ok t) (hv : s.verifyRemoteSig C p = true) :
    t.verifyRemoteSig C p = true := by
  rw [(SignedAlike.sign hs).verify (remoteSig_sign hs)]
  exact hv

theorem signsState_sign (hs : s.sign C key = .ok t) (hv : s.verifyRemoteSig C p = true) :
    SignsState C p s.remoteSigOfLocal t := by
  rw [← remoteSig_sign hs]
  exact signsState_of_verify (verifyRemoteSig_sign hs hv)

/-! ### Changes of the committed state -/

/-- The operation is a message of `q` that carries `q`'s signature for the state `s`. A resize is
    signed for its capacity. -/
def ClientSigned (H : Host) (q : PublicKey) (op : Op) (s : LastCrossSignedState) : Prop :=
  ∃ e msg, op = .message q e msg ∧ match msg with
    | .stateUpdate m => SignsState H.crypto q m.localSigOfRemote s
    | .lastCrossSignedState m => SignsState H.crypto q m.localSigOfRemote s
    | .resizeChannel m =>
      m.verifyClientSig H.crypto q = true ∧
        s.initHostedChannel.channelCapacityMsat.toNat = m.newCapacitySat.toNat * 1000
    | _ => False

theorem checkedMul_eq_some {a b c : UInt64} (h : checkedMul a b = some c) : c.toNat = a.toNat * b.toNat := by
  unfold checkedMul at h
  split at h
  · rename_i hlt
    obtain rfl := Option.some.inj h
    rw [UInt64.toNat_mul, Nat.mod_eq_of_lt hlt]
  · cases h

/-- A change keeps the committed state, or the client has signed for the new one. -/
theorem Changes.lcss (hc : Changes K.host p c d d') (ho : c.Cause K w p d) :
    d'.lcss = d.lcss ∨ ClientSigned K.host p K.op d'.lcss := by
  cases hc with
  | established _ hv hl =>
    obtain ⟨⟨e, ho⟩, -⟩ := ho
    exact Or.inr ⟨e, _, ho, signsState_sign hl hv⟩
  | committed _ _ _ hv hl =>
    obtain ⟨⟨e, ho⟩, -⟩ := ho
    exact Or.inr ⟨e, _, ho, signsState_sign hl hv⟩
  | overridden _ _ hv hl =>
    obtain ⟨⟨e, ho⟩, -⟩ := ho
    exact Or.inr ⟨e, _, ho, signsState_sign hl hv⟩
  | adopted _ hv =>
    obtain ⟨⟨e, ho⟩, -⟩ := ho
    exact Or.inr ⟨e, _, ho, signsState_of_verify hv⟩
  | resized _ hv _ _ hcap _ _ hl =>
    obtain ⟨⟨e, ho⟩, -⟩ := ho
    refine Or.inr ⟨e, _, ho, hv, ?_⟩
    obtain ⟨hash, -, rfl⟩ := sign_eq_ok hl
    exact checkedMul_eq_some hcap
  | errored _ hd =>
    subst hd
    exact Or.inl rfl
  | proposed hd =>
    subst hd
    exact Or.inl rfl
  | _ => exact Or.inl rfl

/-- The committed state of an established channel survives every operation that does not remove the
    channel, unless its own client signs for another one. -/
theorem lcss_changes_only_signed (H : Host) (w : World) (q : PublicKey) (d : ChannelData) (op : Op) (o : Nat → Choice)
    (hw : Reachable H Guard.free w) (hd : w.channel q = some d) (he : d.established = true)
    (hop : ∀ force, op ≠ .removeChannel q force) :
    ∃ d', (op.next H o w).channel q = some d' ∧ (d'.lcss = d.lcss ∨ ClientSigned H q op d'.lcss) := by
  let K : Ctx := ⟨H, Guard.free, w, op, fun _ _ _ => True⟩
  let P : World → Prop := fun v => ∃ d', v.channel q = some d' ∧ d'.established = true ∧ d'.suspended = false ∧
    (d'.lcss = d.lcss ∨ ClientSigned H q op d'.lcss)
  have hnext : P (op.next H o w) := by
    refine (trace_next (K := K) (Guard.ofOp_allows H trivial) (Prog.kept_of_forall fun _ _ _ => trivial)).keeps ?_ ⟨d, hd, he, hw.not_suspended q d hd, Or.inl rfl⟩
    intro act v v' _ hs hP
    obtain ⟨d₁, hd₁, he₁, hr₁, hl₁⟩ := hP
    cases hs.record q with
    | same h => exact ⟨d₁, h.trans hd₁, he₁, hr₁, hl₁⟩
    | created hn =>
      -- Only a channel that is not established is created anew.
      rcases hn d₁ hd₁ with hn | hn
      · cases (not_established_of_notOpened hn).symm.trans he₁
      · cases (suspended_of_status hn).symm.trans hr₁
    | wrote hd₂ hc ho _ _ h =>
      obtain rfl := Option.some.inj (hd₂.symm.trans hd₁)
      refine ⟨_, h, hc.established_mono he₁, hc.suspended hr₁, ?_⟩
      rcases hc.lcss ho with hsame | hsigned
      · rw [hsame]
        exact hl₁
      · exact Or.inr hsigned
    | removed ho =>
      obtain ⟨force, ho⟩ := ho
      exact absurd ho (hop force)
  obtain ⟨d', hd', -, -, hl⟩ := hnext
  exact ⟨d', hd', hl⟩

/-- An open channel to which the client has added an HTLC. -/
def addedScript : List (World → Op) := openScript ++ [clientAdds openKey 1 1000 (ByteVec.fill 32 3) 77]

theorem lcss_changes_only_signed_commit : ∃ d d', (calmRun .transparent addedScript).channel openPeer = some d ∧
    ((clientCommits .transparent openKey (calmRun .transparent addedScript)).next .transparent (fun _ => .calm)
      (calmRun .transparent addedScript)).channel openPeer = some d' ∧ d'.lcss ≠ d.lcss ∧
    ClientSigned .transparent openPeer (clientCommits .transparent openKey (calmRun .transparent addedScript)) d'.lcss := by
  have hrun : ((calmRun .transparent addedScript).channel openPeer).any (fun d => d.established &&
      (((clientCommits .transparent openKey (calmRun .transparent addedScript)).next .transparent (fun _ => .calm)
        (calmRun .transparent addedScript)).channel openPeer).any fun d' => decide (d'.lcss ≠ d.lcss)) = true := by
    decide +kernel
  obtain ⟨d, hd, hrun⟩ := exists_of_any hrun
  rw [Bool.and_eq_true] at hrun
  obtain ⟨d', hd', hne⟩ := exists_of_any hrun.2
  have hop : ∀ force, clientCommits .transparent openKey (calmRun .transparent addedScript) ≠
      .removeChannel openPeer force := by
    intro force he
    rcases clientCommits_cases .transparent openKey (calmRun .transparent addedScript) with h | ⟨_, h⟩
    · cases h.symm.trans he
    · cases h.symm.trans he
  obtain ⟨d₁, hd₁, hl⟩ := lcss_changes_only_signed .transparent _ openPeer d _ (fun _ => .calm)
    (calmRun_reachable _ addedScript) hd hrun.1 hop
  obtain rfl := Option.some.inj (hd₁.symm.trans hd')
  exact ⟨d, d₁, hd, hd', of_decide_eq_true hne, hl.resolve_left (of_decide_eq_true hne)⟩

/-! ### Two signatures -/

/-- The state carries valid signatures of the client `p` and of the host. -/
structure CrossSigned (H : Host) (p : PublicKey) (s : LastCrossSignedState) : Prop where
  client : s.verifyRemoteSig H.crypto p = true
  host : s.reverse.verifyRemoteSig H.crypto H.nodePublic = true

/-- What a key signs verifies under its public key. -/
def Host.SignsSoundly (H : Host) : Prop :=
  ∀ hash, H.crypto.verifyEcdsa hash (H.crypto.signEcdsa hash H.nodeSecret) H.nodePublic = true

theorem verify_sign_reverse (hkey : H.SignsSoundly) (hs : s.sign H.crypto H.nodeSecret = .ok t) :
    t.reverse.verifyRemoteSig H.crypto H.nodePublic = true := by
  obtain ⟨hash, hh, rfl⟩ := sign_eq_ok hs
  have halike : SignedAlike { s with localSigOfRemote := H.crypto.signEcdsa hash H.nodeSecret }.reverse s.reverse := by
    constructor <;> rfl
  unfold LastCrossSignedState.verifyRemoteSig
  rw [halike.hash, hh]
  exact hkey hash

theorem CrossSigned.sign (hkey : H.SignsSoundly) (hv : s.verifyRemoteSig H.crypto p = true)
    (hs : s.sign H.crypto H.nodeSecret = .ok t) : CrossSigned H p t :=
  ⟨verifyRemoteSig_sign hs hv, verify_sign_reverse hkey hs⟩

/-- `handle_resize_channel` accepts the message, and the capacity it asks for is another one. -/
def Resizes (H : Host) (p : PublicKey) (d : ChannelData) (m : ResizeChannel) : Prop :=
  deriveStatus d = .active ∧ m.verifyClientSig H.crypto p = true ∧
    (∃ max, d.acceptingResizeSat = some max ∧ m.newCapacitySat ≤ max) ∧
    ∃ cap, checkedMul m.newCapacitySat 1000 = some cap ∧ ¬ cap ≤ d.lcss.remoteBalanceMsat ∧
      (resizedLocalBalance d.lcss cap).isSome ∧ cap ≠ d.lcss.initHostedChannel.channelCapacityMsat

/-- Runs in which no resize to another capacity is accepted. -/
def Guard.unresized (H : Host) : Guard := .ofOp fun w op =>
  ∀ p e m d, op = .message p e (.resizeChannel m) → w.channel p = some d → ¬ Resizes H p d m

/-- A resize to the capacity that the channel has changes nothing that is signed. -/
theorem verifyRemoteSig_resized {bal : UInt64}
    (hb : resizedLocalBalance s s.initHostedChannel.channelCapacityMsat = some bal) :
    (resizedLcss s s.initHostedChannel.channelCapacityMsat bal).verifyRemoteSig C p = s.verifyRemoteSig C p := by
  have hbal : bal = s.localBalanceMsat := by
    unfold resizedLocalBalance at hb
    rw [if_pos UInt64.le_rfl, UInt64.sub_self] at hb
    have := checkedAdd_eq_some hb
    exact UInt64.toNat_inj.mp (by simpa using this)
  subst hbal
  have halike : SignedAlike (resizedLcss s s.initHostedChannel.channelCapacityMsat s.localBalanceMsat) s := by
    constructor <;> rfl
  exact halike.verify rfl p

/-- Every change keeps the two signatures valid, or makes them so, apart from a resize. -/
theorem CrossSigned.changes (hkey : K.host.SignsSoundly) (hop : (Guard.unresized K.host).op K.start K.op)
    (hc : Changes K.host p c d d') (ho : c.Cause K w p d)
    (h : d.established = true → CrossSigned K.host p d.lcss) :
    d'.established = true → CrossSigned K.host p d'.lcss := by
  cases hc with
  | established _ hv hl => exact fun _ => .sign hkey hv hl
  | committed _ _ _ hv hl => exact fun _ => .sign hkey hv hl
  | overridden _ _ hv hl => exact fun _ => .sign hkey hv hl
  | @adopted _ m hown hv =>
    refine fun _ => ⟨hv, ?_⟩
    rw [LastCrossSignedState.reverse_reverse]
    exact hown
  | @resized _ m cap bal lcss r max hs hv ha hm hcap hr hb hl _ =>
    obtain ⟨⟨e, ho⟩, hd⟩ := ho
    have hsame : cap = d.lcss.initHostedChannel.channelCapacityMsat := by
      by_contra hne
      refine hop p e m d ho hd ⟨hs, hv, ⟨max, ha, hm⟩, cap, hcap, hr, ?_, hne⟩
      rw [hb]
      rfl
    subst hsame
    intro he
    exact .sign hkey ((verifyRemoteSig_resized hb).trans (h he).client) hl
  | errored _ hd =>
    subst hd
    exact h
  | proposed hd =>
    subst hd
    exact h
  | _ => exact h

/-- In every run without such a resize, the stored state of an established channel is cross-signed. -/
theorem stored_state_cross_signed (H : Host) (w : World) (p : PublicKey) (d : ChannelData) (hkey : H.SignsSoundly)
    (hw : Reachable H (Guard.unresized H) w) (hd : w.channel p = some d) (he : d.established = true) :
    CrossSigned H p d.lcss := by
  refine hw.each_record (Q := fun p d => d.established = true → CrossSigned H p d.lcss) ?_ ?_ p d hd he
  · intro p policy refund he
    cases he
  · intro K w p c d d' hK hop hc ho h
    subst hK
    exact CrossSigned.changes hkey hop hc ho h

theorem transparent_signsSoundly : Host.transparent.SignsSoundly := by
  intro hash
  exact (transparent_verify hash _ _).mpr rfl

theorem stored_state_cross_signed_added : ∃ d, (calmRun .transparent addedScript).channel openPeer = some d ∧
    d.established = true ∧ CrossSigned .transparent openPeer d.lcss := by
  have hrun : ((calmRun .transparent addedScript).channel openPeer).any (·.established) = true := by
    decide +kernel
  obtain ⟨d, hd, he⟩ := exists_of_any hrun
  have hw : Reachable .transparent (Guard.unresized .transparent) (calmRun .transparent addedScript) := by
    refine calmRun_follows (Guard.ofOp_follows ?_ _)
    intro op hop w p e m d hm
    simp only [addedScript, openScript, List.cons_append, List.nil_append, List.mem_cons, List.not_mem_nil, or_false] at hop
    rcases hop with rfl | rfl | rfl
    · cases hm
    · rcases clientCommits_cases .transparent openKey w with h | ⟨_, h⟩
      · cases h.symm.trans hm
      · cases h.symm.trans hm
    · cases hm
  exact ⟨d, hd, he, stored_state_cross_signed .transparent _ openPeer d transparent_signsSoundly hw hd he⟩

/-- The operator lets the client resize its channel, and the client does. -/
def resizedScript : List (World → Op) := openScript ++ [
  fun _ => .acceptResize openPeer (some 2000),
  fun _ => .message openPeer .strict (.resizeChannel
    { newCapacitySat := 1500
      clientSig := Crypto.transparent.signEcdsa (Crypto.transparent.sha256 (leBytes 8 1500)) openKey })]

/-- After the resize the client's signature is still that of the state before it. -/
theorem resized_state_not_cross_signed : ¬ ∀ (H : Host) (w : World) (p : PublicKey) (d : ChannelData), H.SignsSoundly →
    Reachable H Guard.free w → w.channel p = some d → d.established = true → CrossSigned H p d.lcss := by
  intro hall
  have hrun : ((calmRun .transparent resizedScript).channel openPeer).any (fun d => decide
      (d.established = true ∧ d.lcss.initHostedChannel.channelCapacityMsat = 1500000 ∧
        d.lcss.verifyRemoteSig .transparent openPeer = false)) = true := by
    decide +kernel
  obtain ⟨d, hd, hrun⟩ := exists_of_any hrun
  obtain ⟨he, -, hv⟩ := of_decide_eq_true hrun
  have hsigned := hall .transparent _ openPeer d transparent_signsSoundly (calmRun_reachable _ resizedScript) hd he
  have hc : d.lcss.verifyRemoteSig .transparent openPeer = true := hsigned.client
  rw [hv] at hc
  cases hc

end Canopus
