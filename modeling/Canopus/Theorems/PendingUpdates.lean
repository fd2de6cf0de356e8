import Canopus.Theorems.Records
import Canopus.Transparent

/-! The pending updates of a channel during one operation. An operation reads the record, and calls helpers that
    read it again, add to it and save it. Only `recover_outgoing_htlcs` may save its own copy after such a helper:
    it then drops a resolution that the peer has been told of already. Otherwise the pending list only grows, apart
    from repeated resolutions, and whatever the peer is told of is in it at the end. -/

namespace Canopus
open Effect

variable {H : Host} {K : Ctx} {w w' : World} {p : PublicKey} {d d' d₀ : ChannelData} {c : Change} {act : Act}

/-! ### What is to be kept -/

/-- What becomes of the pending updates of `p`, whose record is `d` in `w`. They stay pending, as they were or without
    the repeated resolutions among them, and so does whatever the peer of an active channel is told of. -/
structure KeepsPending (H : Host) (p : PublicKey) (d : ChannelData) (w w' : World) : Prop where
  pending : ∃ d', w'.channel p = some d' ∧ (d.uncommitted <+: d'.uncommitted ∨
    deduplicateUncommittedResolutions d.uncommitted <+: d'.uncommitted)
  told : deriveStatus d = .active → ∀ msg, (p, msg) ∈ w'.sent.drop w.sent.length → msg.isUpdate = true →
    ∃ d' u, w'.channel p = some d' ∧ .ofLocal u ∈ d'.uncommitted ∧ msg = replayMessage H p u

/-- The operations that may commit the pending updates of `p`, accept an override or adopt a state. -/
def Op.replaces (p : PublicKey) : Op → Bool
  | .message q _ (.stateUpdate _) | .message q _ (.lastCrossSignedState _) => q = p
  | _ => false

def Op.invokes (p : PublicKey) : Op → Bool
  | .message q _ (.invokeHostedChannel _) => q = p
  | _ => false

/-- Operations without a commit, an accepted override or an adopted state, each of which empties the list. -/
def Guard.unreplaced (p : PublicKey) (op : Op) : Guard where
  op _ _ := True
  record w q d' := q = p → op.replaces p = true → d'.uncommitted = [] → ∀ d ∈ w.channel p, d.uncommitted = []
  link _ _ _ := True

/-- Operations in which `OutlivedDeadline` is recorded only with a copy of the record that lacks none of the updates
    pending in the store, and in which no suspended or unopened channel with updates pending is set up anew. -/
def Guard.upToDate (p : PublicKey) (op : Op) : Guard where
  op _ _ := True
  record w q d' := q = p → ∀ d ∈ w.channel p,
    (d'.localErrors = d.localErrors ++ [.outlivedDeadline] → d'.uncommitted = d.uncommitted) ∧
    (op.invokes p = true → deriveStatus d = .notOpened ∨ deriveStatus d = .suspended → d.uncommitted = [])
  link _ _ _ := True

/-- Both restrictions. -/
def Guard.both (G G' : Guard) : Guard where
  op w op := G.op w op ∧ G'.op w op
  record w p d := G.record w p d ∧ G'.record w p d
  link w k l := G.link w k l ∧ G'.link w k l

theorem Guard.both_call {G G' : Guard} {w : World} {c : Call} (h : G.call w c) (h' : G'.call w c) :
    (G.both G').call w c := by
  cases c with
  | create n => cases n <;> first | exact ⟨h, h'⟩ | trivial
  | update n => cases n <;> first | exact ⟨h, h'⟩ | trivial
  | _ => trivial

theorem Guard.both_allowed {G G' : Guard} {α : Type} {x : Prog iface α} {w : World} {o : Nat → Choice}
    (h : Prog.Allowed exec G.call o x w) (h' : Prog.Allowed exec G'.call o x w) :
    Prog.Allowed exec (G.both G').call o x w := by
  induction x generalizing o w with
  | pure a => trivial
  | call c k ih => exact ⟨Guard.both_call h.1 h'.1, ih _ h.2 h'.2⟩

/-! ### One step -/

theorem not_suspended_of_active (h : deriveStatus d = .active) : d.suspended = false := by
  unfold deriveStatus at h
  split_ifs at h with hs
  simpa using hs

/-- A change keeps the pending updates, or it removes the repeated resolutions that the operation has found. -/
theorem Changes.keeps_pending (hc : Changes K.host p c d d') (ho : c.Cause K w p d)
    (hr : K.op.replaces p = true → d'.uncommitted = [] → d.uncommitted = [])
    (he : d'.localErrors = d.localErrors ++ [.outlivedDeadline] → d'.uncommitted = d.uncommitted) :
    d.uncommitted <+: d'.uncommitted ∨ d'.uncommitted = deduplicateUncommittedResolutions d.uncommitted ∧
      K.start.channel p = some d ∧ K.Untold w := by
  cases hc with
  | deduplicated => exact Or.inr ⟨rfl, ho.2⟩
  | committed _ _ _ _ _ hu =>
    obtain ⟨⟨e, ho⟩, -⟩ := ho
    exact absurd (hr (by simp [ho, Op.replaces]) rfl) hu
  | overridden | adopted =>
    obtain ⟨⟨e, ho⟩, -⟩ := ho
    rw [hr (by simp [ho, Op.replaces]) rfl]
    exact Or.inl List.nil_prefix
  | errored extra hd _ hx =>
    subst hd
    rcases hx with rfl | rfl
    · exact Or.inl (by simp)
    · exact Or.inl ⟨[], by simpa using (he rfl).symm⟩
  | receivedAdd | receivedResolution | resolved | added => exact Or.inl (List.prefix_append _ _)
  | proposed hd =>
    subst hd
    exact Or.inl List.prefix_rfl
  | _ => exact Or.inl List.prefix_rfl

/-- The messages that a step sends tell of updates that are pending, and it then leaves the records alone. -/
theorem Step.tells (hs : Step K act w w') : w'.sent = w.sent ∨ w'.channel p = w.channel p ∧
    ∃ new, w'.sent = w.sent ++ new ∧ ∀ msg, (p, msg) ∈ new → msg.isUpdate = true → Tells K w p msg := by
  cases hs with
  | @sent _ q msg ht =>
    refine Or.inr ⟨rfl, [(q, msg)], rfl, ?_⟩
    intro msg' hmem _
    obtain ⟨rfl, rfl⟩ := Prod.mk.inj (List.mem_singleton.mp hmem)
    exact ht
  | quiet h =>
    obtain ⟨new, hnew, hno⟩ := h.sent
    refine Or.inr ⟨h.channel p, new, hnew, ?_⟩
    intro msg hmem hu
    cases (hno _ hmem).symm.trans hu
  | _ => exact Or.inl rfl

/-- What holds of the record of `p` in the course of an operation that has found `d₀`. -/
structure Pending (K : Ctx) (p : PublicKey) (d₀ : ChannelData) (w : World) (d : ChannelData) : Prop where
  kept : d₀.uncommitted <+: d.uncommitted ∨ deduplicateUncommittedResolutions d₀.uncommitted <+: d.uncommitted
  opened : deriveStatus d₀ = .active → d.established = true ∧ d.suspended = false
  told : deriveStatus d₀ = .active → ∀ msg, (p, msg) ∈ w.sent.drop K.start.sent.length → msg.isUpdate = true →
    ∃ u, .ofLocal u ∈ d.uncommitted ∧ msg = replayMessage K.host p u

theorem Pending.grow (h : Pending K p d₀ w d) (hu : d.uncommitted <+: d'.uncommitted) (hs : w'.sent = w.sent)
    (ho : deriveStatus d₀ = .active → d'.established = true ∧ d'.suspended = false) : Pending K p d₀ w' d' where
  kept := h.kept.imp (·.trans hu) (·.trans hu)
  opened := ho
  told hact msg hmem hup := by
    obtain ⟨u, hu', rfl⟩ := h.told hact msg (hs ▸ hmem) hup
    exact ⟨u, hu.subset hu', rfl⟩

/-- Every step keeps this, in an operation that is restricted so. -/
theorem Pending.step (hG : K.guard = (Guard.unreplaced p K.op).both (Guard.upToDate p K.op))
    (hop : ∀ force, K.op ≠ .removeChannel p force) (hd₀ : K.start.channel p = some d₀) (hs : Step K act w w')
    (h : ∃ d, w.channel p = some d ∧ Pending K p d₀ w d) : ∃ d, w'.channel p = some d ∧ Pending K p d₀ w' d := by
  obtain ⟨d, hd, h⟩ := h
  rcases hs.tells (p := p) with hsent | ⟨hrec, new, hsent, htells⟩
  · cases hs.record p with
    | same he => exact ⟨d, he.trans hd, h.grow List.prefix_rfl hsent h.opened⟩
    | removed ho =>
      obtain ⟨force, ho⟩ := ho
      exact absurd ho (hop force)
    | created hn ho _ hg he =>
      rw [hG] at hg
      obtain ⟨e, m, ho⟩ := ho
      have hnone : d.uncommitted = [] := (hg.2 rfl d hd).2 (by simp [ho, Op.invokes]) (hn d hd)
      refine ⟨_, he, h.grow (by simp [hnone]) hsent ?_⟩
      -- A channel that was active is not set up anew.
      intro hact
      obtain ⟨hest, hsus⟩ := h.opened hact
      rcases hn d hd with hst | hst
      · cases (not_established_of_notOpened hst).symm.trans hest
      · cases (suspended_of_status hst).symm.trans hsus
    | wrote hd' hc ho hv hg he =>
      obtain rfl := Option.some.inj (hd'.symm.trans hd)
      rw [hG] at hg
      have hcur : _ ∈ World.channel _ p := (congrArg (·.value? p) hv).trans hd
      have hopened := fun hact => And.intro (hc.established_mono (h.opened hact).1) (hc.suspended (h.opened hact).2)
      rcases hc.keeps_pending ho (fun hrep hnil => hg.1 rfl hrep hnil _ hcur) (hg.2 rfl _ hcur).1 with
        hu | ⟨hu, hstart, hnew⟩
      · exact ⟨_, he, h.grow hu hsent hopened⟩
      · obtain rfl := Option.some.inj (hd₀.symm.trans hstart)
        refine ⟨_, he, Or.inr (by simp [hu]), hopened, ?_⟩
        intro _ msg hmem hup
        obtain ⟨new, hnew, hno⟩ := hnew
        rw [hsent, hnew, List.drop_left] at hmem
        cases (hno _ hmem).symm.trans hup
  · refine ⟨d, hrec.trans hd, h.kept, h.opened, ?_⟩
    intro hact msg hmem hup
    rw [hsent, List.drop_append] at hmem
    rcases List.mem_append.mp hmem with hmem | hmem
    · exact h.told hact msg hmem hup
    · rcases htells msg (List.mem_of_mem_drop hmem) hup with ⟨d', hd', hna⟩ | ⟨d', u, hd', hu, rfl⟩
      · obtain rfl := Option.some.inj (hd₀.symm.trans hd')
        exact absurd hact hna
      · obtain rfl := Option.some.inj (hd.symm.trans hd')
        exact ⟨u, hu, rfl⟩

/-- The node is past the expiry of the hosted HTLCs, and its own payments have failed. -/
def Choice.expired : Choice := { Choice.calm with height := 1150, status := .failed [] }

instance (w : World) (op : Op) (q : PublicKey) (d' : ChannelData) : Decidable ((Guard.upToDate p op).record w q d') :=
  have : Decidable (∀ d ∈ w.channel p,
      (d'.localErrors = d.localErrors ++ [.outlivedDeadline] → d'.uncommitted = d.uncommitted) ∧
      (op.invokes p = true → deriveStatus d = .notOpened ∨ deriveStatus d = .suspended → d.uncommitted = [])) :=
    inferInstance
  inferInstanceAs (Decidable (q = p → _))

instance (w : World) (op : Op) (k : HtlcKey) (l : ForwardLink) : Decidable ((Guard.upToDate p op).link w k l) :=
  .isTrue trivial

theorem unreplaced_of_not_replaces {op : Op} {α : Type} {x : Prog iface α} {o : Nat → Choice} (h : op.replaces p = false) :
    Prog.Allowed exec (Guard.unreplaced p op).call o x w := by
  refine Prog.allowed_mono (fun w c _ => ?_) Prog.allowed_true
  have hno : ∀ q d', (Guard.unreplaced p op).record w q d' := fun _ _ _ hrep => by cases h.symm.trans hrep
  cases c with
  | create n => cases n <;> first | exact hno _ _ | trivial
  | update n => cases n <;> first | exact hno _ _ | trivial
  | _ => trivial

/-- The client of the open channel has committed to an HTLC that a hook has handed to it. -/
def overdueScript : List (World → Op) := openScript ++ [hookOffers (ByteVec.fill 32 3) 7 1100, clientCommits .transparent openKey]

/-- The client of the open channel has committed to an HTLC of its own, which the host has sent on over its channel 77,
    and to one that a hook has handed to it. -/
def bothWaysScript : List (World → Op) := openScript ++ [
  clientAdds openKey 1 1000 (digest (List.replicate 32 5)) 77, clientCommits .transparent openKey,
  hookOffers (ByteVec.fill 32 3) 7 1100, clientCommits .transparent openKey]

end Canopus
