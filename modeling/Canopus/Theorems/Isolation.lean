import Canopus.Theorems.Records
import Canopus.Transparent

/-! Isolation of channels. What one client sends, or its connecting, may reach the channel of another client: the
    host offers it HTLCs, resolves HTLCs that the other one has committed to, and gives the channel up when it
    cannot deliver. Nothing else of the other channel changes, whatever the client sends and however often. -/

namespace Canopus
open Effect

variable {H : Host} {K : Ctx} {w w' : World} {p q : PublicKey} {d d' d'' : ChannelData} {c : Change} {act : Act}

/-! ### What may happen to the channel of another client -/

/-- An update that the host makes on its own: an HTLC that it offers, or the resolution of an HTLC that the
    cross-signed state of `d` lists. -/
def Imposed (d : ChannelData) (u : UncommittedUpdate) : Prop :=
  (∃ htlc, u = .ofLocal (.add htlc)) ∨
    ∃ id, resolutionKey u = some (true, id) ∧ d.lcss.incomingHtlcs.any (·.id == id) = true

/-- `d'` is `d` with further updates and further errors of the host. -/
def Burdened (d d' : ChannelData) : Prop := ∃ us es, (∀ u ∈ us, Imposed d u) ∧
  d' = { d with uncommitted := d.uncommitted ++ us, localErrors := d.localErrors ++ es }

theorem Burdened.refl (d : ChannelData) : Burdened d d := ⟨[], [], by simp, by simp⟩

theorem Burdened.trans (h : Burdened d d') (h' : Burdened d' d'') : Burdened d d'' := by
  obtain ⟨us, es, hus, rfl⟩ := h
  obtain ⟨us', es', hus', rfl⟩ := h'
  refine ⟨us ++ us', es ++ es', ?_, by simp [List.append_assoc]⟩
  intro u hu
  rcases List.mem_append.mp hu with hu | hu
  · exact hus u hu
  · exact hus' u hu

theorem Burdened.push {u : UncommittedUpdate} (hu : Imposed d u) : Burdened d (d.push u) :=
  ⟨[u], [], by simpa using hu, by simp [ChannelData.push]⟩

/-- What becomes of the channel of `q`: there is none, or it is burdened. -/
def Spared (q : PublicKey) (w w' : World) : Prop :=
  (w.channel q = none → w'.channel q = none) ∧ ∀ d, w.channel q = some d → ∃ d', w'.channel q = some d' ∧ Burdened d d'

theorem Spared.same (h : w'.channel q = w.channel q) : Spared q w w' :=
  ⟨fun hn => h.trans hn, fun d hd => ⟨d, h.trans hd, Burdened.refl d⟩⟩

instance (q : PublicKey) : IsPreorder World (Spared q) where
  refl _ := Spared.same rfl
  trans _ _ _ h h' := by
    refine ⟨fun hn => h'.1 (h.1 hn), ?_⟩
    intro d hd
    obtain ⟨d', hd', hb⟩ := h.2 d hd
    obtain ⟨d'', hd'', hb'⟩ := h'.2 d' hd'
    exact ⟨d'', hd'', hb.trans hb'⟩

/-! ### One operation -/

/-- The acts of an operation of `p`. -/
def Act.within (p : PublicKey) : Act → Prop
  | .created q | .removed q => q = p
  | .wrote _ (.added _) | .wrote _ (.resolved _) | .wrote _ (.errored _) => True
  | .wrote q _ => q = p
  | _ => True

theorem Act.within_wrote (p : PublicKey) (c : Change) : Act.within p (.wrote p c) := by
  cases c with
  | added | resolved | errored => trivial
  | _ => rfl

instance (p : PublicKey) : Mild (Act.within p) := ⟨trivial, trivial, trivial, trivial, trivial⟩

instance (p : PublicKey) : Steady (Act.within p) := ⟨trivial, trivial, trivial, fun _ _ => trivial⟩

instance (p : PublicKey) : Serves p (Act.within p) :=
  ⟨trivial, rfl, Act.within_wrote p, fun _ _ => trivial, fun _ _ => trivial⟩

/-- A change of this kind to the record of a peer that the operation is not of. -/
theorem Changes.burdens (hc : Changes H q c d d') (ho : c.Cause K w q d) (hop : K.op.peer = some p) (hne : q ≠ p)
    (hact : Act.within p (.wrote q c)) : Burdened d d' := by
  cases hc with
  | resolved hi hk => exact Burdened.push (Or.inr ⟨_, hk, hi⟩)
  | added => exact Burdened.push (Or.inl ⟨_, rfl⟩)
  | @errored extra _ older e hd hx he =>
    rcases he with rfl | rfl
    · subst hd
      exact ⟨[], [e], by simp, by simp⟩
    · exact absurd (Option.some.inj (ho.1.peer.symm.trans hop)) hne
  | _ => exact absurd hact hne

theorem Step.spares (hs : Step K act w w') (hact : Act.within p act) (hop : K.op.peer = some p) (hne : q ≠ p) :
    Spared q w w' := by
  have wrote : ∀ {v : World} {r : PublicKey} {c : Change} {d d' : ChannelData}, w.channel r = some d →
      v.channel q = w.channel q → Changes K.host r c d d' → c.Cause K w r d → Act.within p (.wrote r c) →
      Spared q w (v.put .channels r d') := by
    intro v r c d d' hd hv hc ho hact
    by_cases hq : q = r
    · subst hq
      refine ⟨fun hn => by simp [hn] at hd, ?_⟩
      intro d₁ hd₁
      obtain rfl := Option.some.inj (hd.symm.trans hd₁)
      exact ⟨d', World.channel_put, hc.burdens ho hop hne hact⟩
    · exact Spared.same ((World.channel_put_ne hq).trans hv)
  cases hs with
  | @created _ r =>
    obtain rfl : r = p := hact
    exact Spared.same (World.channel_put_ne hne)
  | @removed _ r =>
    obtain rfl : r = p := hact
    exact Spared.same (World.channel_erase_ne hne)
  | wrote hd hc ho => exact wrote hd rfl hc ho hact
  | offered hd hc hb hi ho => exact wrote hd World.channel_put_link hc ho hact
  | linked => exact Spared.same World.channel_put_link
  | unlinked => exact Spared.same World.channel_erase_link
  | secretAdded | secretConsumed | policyChanged => exact Spared.same (by simp [World.channel, World.put_store_ne])
  | secretRemoved => exact Spared.same (by simp [World.channel, World.erase_store_ne])
  | quiet h => exact Spared.same (h.channel q)
  | _ => exact Spared.same rfl

/-- An operation of `p` acts within `p`. -/
theorem does_within {op : Op} (hop : op.peer = some p) : (Ctx.free H w op).Does (Act.within p) (op.program H) w fun _ _ => True := by
  cases op with
  | message r e msg =>
    obtain rfl : r = p := Option.some.inj hop
    exact does_handleCustommsg (K := Ctx.free H w (.message r e msg)) rfl
  | connect r =>
    obtain rfl : r = p := Option.some.inj hop
    exact does_handleConnect (K := Ctx.free H w (.connect r)) rfl
  | _ => cases hop

theorem Op.next_spares {op : Op} (o : Nat → Choice) (hop : op.peer = some p) (hne : q ≠ p) : Spared q w (op.next H o w) := by
  have hkept := (Ctx.free H w op).kept_assumes (@Guard.ofOp_allows H (fun _ _ => True) o op w trivial).2
    (Prog.kept_of_forall fun _ _ _ => trivial)
  have htrace : (Ctx.free H w op).Trace (Act.within p) w (op.next H o w) := by
    have hrun := (does_within hop).run hkept
    cases op with
    | restart => cases hop
    | _ => exact hrun
  exact htrace.keeps (P := fun v => Spared q w v)
    (fun _ _ _ hact hs hv => trans_of (Spared q) hv (hs.spares hact hop hne)) (refl_of (Spared q) w)

/-! ### Any number of operations -/

/-- The operation is of another client than `q`. -/
def ByAnother (H : Host) (q : PublicKey) (w w' : World) : Prop :=
  ∃ op o p, Op.peer op = some p ∧ q ≠ p ∧ w' = op.next H o w

/-- A client commits to an HTLC that goes on to another client. -/
def neighbourScript : List (World → Op) :=
  [clientInvokes .transparent otherKey, clientCommits .transparent otherKey] ++ openScript ++
    [clientAdds openKey 1 500 (ByteVec.fill 32 7) (Host.transparent.scid otherPeer)]

end Canopus
