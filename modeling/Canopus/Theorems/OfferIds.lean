import Canopus.Theorems.Counters
import Canopus.Theorems.Replay

/-! The ids of hosted HTLCs. The host numbers the HTLCs that it adds by the counter of its own updates: the
    committed one plus those pending. Commits keep that sum, but an adoption, an accepted override and the
    removal of repeated resolutions can each bring it back below an id that was given out before. Without that
    no id is given out twice, and the link under the id of a new HTLC is the one that was built for it. -/

namespace Canopus
open Effect Fallible

variable {H : Host} {K : Ctx} {w w' v : World} {p q : PublicKey} {d d' : ChannelData} {c : Change} {act : Act}
  {htlc : UpdateAddHtlc} {A : List UInt64}

/-! ### The ids of a run -/

/-- The HTLCs that the host has added for `p` and `p` has not committed to. -/
def World.localAdds (w : World) (p : PublicKey) : List UpdateAddHtlc := (w.channel p).elim [] uncommittedLocalAdds

/-- The HTLCs that an operation adds for `p`, from `w` to `w'`. They come after those pending before. -/
def newOffers (p : PublicKey) (w w' : World) : List UpdateAddHtlc := (w'.localAdds p).drop (w.localAdds p).length

/-- The ids that the host has given to HTLCs for `p` in the course of a run, the latest world first. -/
def assignedIds (p : PublicKey) : List World → List UInt64
  | w' :: w :: past => (newOffers p w w').map (·.id) ++ assignedIds p (w :: past)
  | _ => []

/-- The host's own updates, committed and pending. -/
def ChannelData.reach (d : ChannelData) : Nat := d.lcss.localUpdates.toNat + d.uncommitted.countP (·.isLocal)

/-- No id of a pending addition of the record is above `n`. -/
def ChannelData.AddsUpTo (d : ChannelData) (n : Nat) : Prop := ∀ h ∈ uncommittedLocalAdds d, h.id.toNat ≤ n

instance {n : Nat} : Decidable (d.AddsUpTo n) := inferInstanceAs (Decidable (∀ h ∈ uncommittedLocalAdds d, _))

/-- The state update that `p` sends by an operation. -/
def Op.updateBy (p : PublicKey) : Op → Option StateUpdate
  | .message q _ (.stateUpdate m) => if q = p then some m else none
  | _ => none

/-- What must not happen to the counter of the channel of `p`: that it falls below the id of a pending addition,
    when repeated resolutions are removed, a state is adopted or an override is accepted; nor may an accepted
    override fall behind the committed counter. -/
structure KeepsCounting (H : Host) (p : PublicKey) (d : ChannelData) (op : Op) : Prop where
  repaired : op.repairs p → deriveStatus d = .active → d.AddsUpTo d.deduplicated.reach
  adopted : ∀ m ∈ op.presentedBy p, Adopts H p d m → d.AddsUpTo m.reverse.localUpdates.toNat
  overridden : ∀ m ∈ op.updateBy p, ∀ s ∈ d.proposedOverride, deriveStatus d = .overriding →
    { s with remoteSigOfLocal := m.localSigOfRemote }.verifyRemoteSig H.crypto p = true →
    d.lcss.localUpdates ≤ s.localUpdates ∧ d.AddsUpTo s.localUpdates.toNat

instance {op : Op} : Decidable (KeepsCounting H p d op) :=
  decidable_of_iff (_ ∧ _ ∧ _) ⟨fun ⟨hr, ha, ho⟩ => ⟨hr, ha, ho⟩, fun h => ⟨h.repaired, h.adopted, h.overridden⟩⟩

/-- Runs in which the channel of `p` is not removed, its counters fit, nothing brings them back, and no other
    channel and no link of the node has its short channel id. -/
def Guard.unreused (H : Host) (p : PublicKey) : Guard where
  op w op := op.removes p = false ∧ ∀ d ∈ w.channel p, KeepsCounting H p d op
  record w q d' := if q = p then CountersFit d' ∧ (w.channel p = none → ∀ k ∈ w.linkKeys, k.1 ≠ H.scid p)
    else H.scid q ≠ H.scid p
  link _ _ _ := True

/-- Operations of such runs in which the store does not fail. -/
def Unreused (H : Host) (p : PublicKey) : List World → Op → (Nat → Choice) → Prop
  | [], _, _ => False
  | w :: _, op, o => (Guard.unreused H p).Allows H o op w ∧
    Prog.Kept exec (fun x _ call => Call.isStore call = true → x.fails = false) o (op.program H).run w

/-! ### One record -/

theorem nextLocalUpdates_toNat (h : CountersFit d) :
    (StateManager.mk d.lcss d.uncommitted).nextLocalUpdates.toNat = d.reach := by
  have hsize : UInt32.size = 2 ^ 32 := rfl
  have hcount : d.uncommitted.countP (·.isLocal) ≤ d.uncommitted.length := List.countP_le_length
  have hfit := h.1
  show (d.lcss.localUpdates + UInt32.ofNat (d.uncommitted.countP (·.isLocal))).toNat = d.reach
  rw [UInt32.toNat_add, UInt32.toNat_ofNat', Nat.mod_eq_of_lt (a := List.countP _ _) (by omega),
    Nat.mod_eq_of_lt (by omega)]
  rfl

theorem nextHtlcId_toNat (h : CountersFit d) : (nextHtlcId d).toNat = d.reach + 1 := by
  have hsize : UInt32.size = 2 ^ 32 := rfl
  have hlt := (StateManager.mk d.lcss d.uncommitted).nextLocalUpdates.toNat_lt
  unfold nextHtlcId
  rw [UInt64.toNat_add, UInt32.toNat_toUInt64, UInt64.toNat_one, Nat.mod_eq_of_lt (by omega), nextLocalUpdates_toNat h]

/-- The counter of the next state takes in the pending updates. -/
theorem next_localUpdates_toNat (h : CountersFit d) {C : Crypto} {t : LastCrossSignedState}
    (hn : StateManager.lcssNext C ⟨d.lcss, d.uncommitted⟩ = .ok t) : t.localUpdates.toNat = d.reach := by
  obtain ⟨r, -, rfl⟩ := lcssNext_eq_ok hn
  exact nextLocalUpdates_toNat h

/-- A record whose next id is above all ids given out before. -/
structure FreshRecord (A : List UInt64) (d : ChannelData) : Prop where
  running : d.suspended = false
  fit : CountersFit d
  unopened : d.established = false → A = []
  known : ∀ h ∈ uncommittedLocalAdds d, h.id ∈ A
  counted : ∀ id ∈ A, id.toNat ≤ d.lcss.localUpdates.toNat ∨ id ∈ (uncommittedLocalAdds d).map (·.id)
  ahead : deriveStatus d = .active → d.AddsUpTo d.reach

/-- A change that keeps the pending additions and the counter. -/
theorem FreshRecord.same (h : FreshRecord A d) (hfit : CountersFit d') (hr : d'.suspended = d.suspended)
    (he : d'.established = d.established) (hl : d'.lcss.localUpdates = d.lcss.localUpdates)
    (ha : uncommittedLocalAdds d' = uncommittedLocalAdds d)
    (hs : deriveStatus d' = .active → d.AddsUpTo d'.reach) : FreshRecord A d' where
  running := hr.trans h.running
  fit := hfit
  unopened := by
    rw [he]
    exact h.unopened
  known := by
    rw [ha]
    exact h.known
  counted := by
    rw [ha, hl]
    exact h.counted
  ahead := by
    intro hactive x hx
    rw [ha] at hx
    exact hs hactive x hx

/-- A change that ends with no additions pending, and a counter that none of the ids is above. -/
theorem FreshRecord.cleared (hfit : CountersFit d') (hr : d'.suspended = false) (he : d'.established = false → A = [])
    (ha : uncommittedLocalAdds d' = []) (hle : ∀ id ∈ A, id.toNat ≤ d'.lcss.localUpdates.toNat) : FreshRecord A d' where
  running := hr
  fit := hfit
  unopened := he
  known := by
    rw [ha]
    exact fun _ h => by cases h
  counted := fun id hid => Or.inl (hle id hid)
  ahead := by
    intro _ x hx
    rw [ha] at hx
    cases hx

theorem FreshRecord.perm {B : List UInt64} (h : FreshRecord A d) (hp : A.Perm B) : FreshRecord B d where
  running := h.running
  fit := h.fit
  unopened he := List.Perm.nil_eq (h.unopened he ▸ hp) |>.symm
  known x hx := hp.mem_iff.mp (h.known x hx)
  counted id hid := h.counted id (hp.mem_iff.mpr hid)
  ahead := h.ahead

/-- Where the counter goes up to `n`, and no pending addition is above it, no id is. -/
theorem FreshRecord.upTo {n : Nat} (h : FreshRecord A d) (hl : d.lcss.localUpdates.toNat ≤ n) (ha : d.AddsUpTo n) :
    ∀ id ∈ A, id.toNat ≤ n := by
  intro id hid
  rcases h.counted id hid with hle | hmem
  · exact Nat.le_trans hle hl
  · obtain ⟨x, hx, rfl⟩ := List.mem_map.mp hmem
    exact ha x hx

theorem AddsUpTo.mono {n m : Nat} (h : d.AddsUpTo n) (hle : n ≤ m) : d.AddsUpTo m := fun x hx => Nat.le_trans (h x hx) hle

theorem not_active_of_localErrors (h : d.localErrors ≠ []) : deriveStatus d ≠ .active := by
  intro hs
  unfold deriveStatus at hs
  split_ifs at hs with _ _ he
  simp only [Bool.or_eq_true, Bool.not_eq_true', List.isEmpty_eq_false_iff, not_or, ne_eq, not_not] at he
  exact h he.1

theorem not_active_of_remoteErrors (h : d.remoteErrors ≠ []) : deriveStatus d ≠ .active := by
  intro hs
  unfold deriveStatus at hs
  split_ifs at hs with _ _ he
  simp only [Bool.or_eq_true, Bool.not_eq_true', List.isEmpty_eq_false_iff, not_or, ne_eq, not_not] at he
  exact h he.2

theorem uncommittedLocalAdds_push (d : ChannelData) (u : UncommittedUpdate) :
    uncommittedLocalAdds (d.push u) = uncommittedLocalAdds d ++ localAdds [u] :=
  localAdds_append d.uncommitted [u]

theorem uncommittedLocalAdds_deduplicated (d : ChannelData) : uncommittedLocalAdds d.deduplicated = uncommittedLocalAdds d :=
  localAdds_dedupFrom []

/-- Resolutions at the end of the list add nothing. -/
theorem uncommittedLocalAdds_extended {extra : List UncommittedUpdate} (hx : ∀ u ∈ extra, u.IsLocalResolution) :
    uncommittedLocalAdds { d with uncommitted := d.uncommitted ++ extra } = uncommittedLocalAdds d := by
  have hnone : localAdds extra = [] := by
    refine localAdds_resolutions ?_
    intro u hu
    obtain ⟨id, hk⟩ := hx u hu
    rw [hk]
    rfl
  have happ : localAdds (d.uncommitted ++ extra) = localAdds d.uncommitted := by
    rw [localAdds_append, hnone, List.append_nil]
  exact happ

theorem reach_push_local (d : ChannelData) (u : PendingUpdate) : (d.push (.ofLocal u)).reach = d.reach + 1 := by
  simp [ChannelData.reach, ChannelData.push, UncommittedUpdate.isLocal, Nat.add_assoc]

theorem reach_push_remote (d : ChannelData) (u : PendingUpdate) : (d.push (.ofRemote u)).reach = d.reach := by
  simp [ChannelData.reach, ChannelData.push, UncommittedUpdate.isLocal]

/-- Every change but an addition keeps a record fresh, where the guard permits it. -/
theorem FreshRecord.change (h : FreshRecord A d) (hop : ∀ d ∈ K.start.channel p, KeepsCounting K.host p d K.op)
    (hfit : CountersFit d') (hc : Changes K.host p c d d') (ho : c.Cause K w p d) (hna : ∀ htlc, c ≠ .added htlc) :
    FreshRecord A d' := by
  cases hc with
  | deduplicated =>
    obtain ⟨hrep, hd₀, -⟩ := ho
    exact h.same hfit rfl rfl rfl (uncommittedLocalAdds_deduplicated d) fun hs => (hop d hd₀).repaired hrep hs
  | @established _ m lcss hs _ hl =>
    -- Nothing has been offered before the channel opens.
    obtain rfl := h.unopened (not_established_of_opening hs)
    have hnone : uncommittedLocalAdds d = [] := List.eq_nil_iff_forall_not_mem.mpr fun x hx => by cases h.known x hx
    exact FreshRecord.cleared hfit h.running (fun _ => rfl) hnone fun _ hid => by cases hid
  | @committed _ m next lcss hs _ hn _ hl =>
    obtain ⟨_, -, rfl⟩ := sign_eq_ok hl
    have hest := established_of_active hs
    refine FreshRecord.cleared hfit h.running (fun he => ?_) rfl ?_
    · cases hest.symm.trans he
    · show ∀ id ∈ A, id.toNat ≤ next.localUpdates.toNat
      rw [next_localUpdates_toNat h.fit hn]
      exact h.upTo (Nat.le_add_right _ _) (h.ahead hs)
  | @overridden _ m proposed lcss hs hp hv hl =>
    obtain ⟨⟨e, ho⟩, hd₀⟩ := ho
    obtain ⟨_, -, rfl⟩ := sign_eq_ok hl
    have hm : m ∈ K.op.updateBy p := by
      rw [ho]
      exact if_pos rfl
    obtain ⟨hle, hadds⟩ := (hop d hd₀).overridden m hm proposed hp hs hv
    exact FreshRecord.cleared hfit rfl (fun he => by cases he) rfl (h.upTo (UInt32.le_iff_toNat_le.mp hle) hadds)
  | receivedAdd hs =>
    refine h.same hfit rfl rfl rfl ?_ fun _ => ?_
    · rw [uncommittedLocalAdds_push, localAdds_remote, List.append_nil]
    · rw [reach_push_remote]
      exact h.ahead hs
  | receivedResolution =>
    refine h.same hfit rfl rfl rfl ?_ fun hs => ?_
    · rw [uncommittedLocalAdds_push, localAdds_remote, List.append_nil]
    · rw [reach_push_remote]
      exact h.ahead hs
  | errored extra hd hx =>
    subst hd
    refine h.same hfit rfl rfl rfl (uncommittedLocalAdds_extended hx).symm fun hs => ?_
    exact absurd hs (not_active_of_localErrors (by simp))
  | resolved hi hk =>
    refine h.same hfit rfl rfl rfl ?_ fun hs => ?_
    · rw [uncommittedLocalAdds_push, localAdds_resolutions (by simp [hk]), List.append_nil]
    · rw [reach_push_local]
      exact AddsUpTo.mono (h.ahead hs) (Nat.le_succ _)
  | added => exact absurd rfl (hna _)
  | remoteErrored => exact h.same hfit rfl rfl rfl rfl fun hs => absurd hs (not_active_of_remoteErrors (by simp))
  | resized hs _ _ _ _ _ _ hl =>
    obtain ⟨_, -, rfl⟩ := sign_eq_ok hl
    exact h.same hfit rfl rfl rfl rfl fun _ => h.ahead hs
  | proposed hd =>
    subst hd
    refine h.same hfit rfl rfl rfl rfl fun hs => ?_
    cases (no_proposal_of_active hs)
  | @adopted _ m hown hv hl hr hne =>
    obtain ⟨⟨e, ho⟩, hd₀⟩ := ho
    have hm : m ∈ K.op.presentedBy p := by
      rw [ho]
      exact if_pos rfl
    have hadds := (hop d hd₀).adopted m hm ⟨hown, hv, hl, hr, hne⟩
    exact FreshRecord.cleared hfit h.running h.unopened rfl (h.upTo (UInt32.le_iff_toNat_le.mp hl) hadds)
  | _ => exact h.same hfit rfl rfl rfl rfl fun hs => h.ahead hs

/-- An addition gives out an id that is new. -/
theorem FreshRecord.added (h : FreshRecord A d) (hc : Changes H p (.added htlc) d d') (hfit : CountersFit d') :
    htlc.id ∉ A ∧ FreshRecord (htlc.id :: A) d' ∧ uncommittedLocalAdds d' = uncommittedLocalAdds d ++ [htlc] := by
  cases hc with
  | added hs _ _ hid =>
    have hnat : htlc.id.toNat = d.reach + 1 := by
      rw [hid, nextHtlcId_toNat h.fit]
    have hbelow : ∀ id ∈ A, id.toNat ≤ d.reach := h.upTo (Nat.le_add_right _ _) (h.ahead hs)
    have hadds : uncommittedLocalAdds (d.push (.ofLocal (.add htlc))) = uncommittedLocalAdds d ++ [htlc] :=
      uncommittedLocalAdds_push d _
    refine ⟨?_, ?_, hadds⟩
    · intro hmem
      have hle := hbelow _ hmem
      omega
    · refine ⟨h.running, hfit, ?_, ?_, ?_, ?_⟩
      · intro he
        cases (established_of_active hs).symm.trans he
      · rw [hadds]
        intro x hx
        rcases List.mem_append.mp hx with hx | hx
        · exact List.mem_cons_of_mem _ (h.known x hx)
        · rw [List.mem_singleton.mp hx]
          exact List.mem_cons_self
      · rw [hadds, List.map_append]
        intro id hmem
        rcases List.mem_cons.mp hmem with rfl | hmem
        · exact Or.inr (List.mem_append_right _ (List.mem_singleton.mpr rfl))
        · exact (h.counted id hmem).imp_right (List.mem_append_left _)
      · intro _ x hx
        rw [hadds] at hx
        rw [reach_push_local]
        rcases List.mem_append.mp hx with hx | hx
        · exact Nat.le_succ_of_le (h.ahead hs x hx)
        · rw [List.mem_singleton.mp hx]
          exact Nat.le_of_eq hnat

/-- What a change other than an addition does to the pending additions. It may clear those that its operation
    has found, and nobody else adds any then. -/
theorem Changes.keeps_adds (hc : Changes K.host p c d d') (ho : c.Cause K w p d) (hna : ∀ htlc, c ≠ .added htlc) :
    uncommittedLocalAdds d' = uncommittedLocalAdds d ∨ uncommittedLocalAdds d' = [] ∧ K.op.peer = some p ∧
      ∃ d₀, K.start.channel p = some d₀ ∧ uncommittedLocalAdds d = uncommittedLocalAdds d₀ := by
  cases hc with
  | deduplicated => exact Or.inl (uncommittedLocalAdds_deduplicated d)
  | committed =>
    obtain ⟨⟨e, ho⟩, d₀, hd₀, hrep⟩ := ho
    refine Or.inr ⟨rfl, by rw [ho]; rfl, d₀, hd₀, ?_⟩
    rcases hrep with rfl | rfl
    · rfl
    · exact uncommittedLocalAdds_deduplicated d₀
  | overridden =>
    obtain ⟨⟨e, ho⟩, hd₀⟩ := ho
    exact Or.inr ⟨rfl, by rw [ho]; rfl, d, hd₀, rfl⟩
  | adopted =>
    obtain ⟨⟨e, ho⟩, hd₀⟩ := ho
    exact Or.inr ⟨rfl, by rw [ho]; rfl, d, hd₀, rfl⟩
  | receivedAdd | receivedResolution =>
    refine Or.inl ?_
    rw [uncommittedLocalAdds_push, localAdds_remote, List.append_nil]
  | resolved hi hk =>
    refine Or.inl ?_
    rw [uncommittedLocalAdds_push, localAdds_resolutions (by simp [hk]), List.append_nil]
  | errored extra hd hx =>
    subst hd
    exact Or.inl (uncommittedLocalAdds_extended hx).symm
  | proposed hd =>
    subst hd
    exact Or.inl rfl
  | added => exact absurd rfl (hna _)
  | _ => exact Or.inl rfl

/-! ### One operation -/

/-- A world in which the ids of `A` have been given to HTLCs for `p`. -/
structure Fresh (H : Host) (p : PublicKey) (A : List UInt64) (w : World) : Prop where
  alone : ∀ q, (w.channel q).isSome → H.scid q = H.scid p → q = p
  links : (w.channel p).isSome → ∀ k, (w.link (H.scid p, k)).isSome → k ∈ A
  absent : w.channel p = none → A = []
  record : ∀ d, w.channel p = some d → FreshRecord A d

/-- The links under the short channel id of `p` after a step: those before, and that of an HTLC just added. -/
theorem Step.links_of (hs : Step K act w w') (halone : ∀ q, (w.channel q).isSome → K.host.scid q = K.host.scid p → q = p)
    (hstore : ¬ K.StoreFails) (hp : (w.channel p).isSome) {k : UInt64} {l : ForwardLink}
    (hl : w'.link (K.host.scid p, k) = some l) : w.link (K.host.scid p, k) = some l ∨
      ∃ d htlc, w.channel p = some d ∧ Changes K.host p (.added htlc) d (d.push (.ofLocal (.add htlc))) ∧
        w'.channel p = some (d.push (.ofLocal (.add htlc))) ∧ htlc.id = k ∧ l.BuiltFor K.host p htlc := by
  cases hs with
  | @offered _ q htlc d d' new hd hc hb =>
    rw [World.link_put_channel] at hl
    by_cases hk : (K.host.scid p, k) = (new.outgoingScid, new.outgoingHtlcId)
    · rw [hk, World.link_put] at hl
      obtain rfl := Option.some.inj hl
      obtain ⟨hscid, hid⟩ := Prod.mk.inj hk
      obtain rfl := halone q (by rw [hd]; rfl) (hb.scid.symm.trans hscid.symm)
      obtain ⟨⟩ := hc
      exact Or.inr ⟨d, htlc, hd, by constructor <;> assumption, World.channel_put, hb.id.symm.trans hid.symm, hb⟩
    · rw [World.link_put_ne hk] at hl
      exact Or.inl hl
  | @linked _ new _ ha =>
    by_cases hk : (K.host.scid p, k) = (new.outgoingScid, new.outgoingHtlcId)
    · rcases ha with ha | ha
      · exact absurd (Prod.mk.inj hk).1 (ha p hp)
      · exact absurd ha.1 hstore
    · rw [World.link_put_ne hk] at hl
      exact Or.inl hl
  | @unlinked _ k₀ =>
    by_cases hk : (K.host.scid p, k) = k₀
    · rw [hk, World.link_erase] at hl
      cases hl
    · rw [World.link_erase_ne hk] at hl
      exact Or.inl hl
  | created | wrote =>
    rw [World.link_put_channel] at hl
    exact Or.inl hl
  | removed =>
    rw [World.link_erase_channel] at hl
    exact Or.inl hl
  | forwarded | signed | answered | sent | stored => exact Or.inl hl
  | secretAdded | secretConsumed | policyChanged => exact Or.inl (by simpa [World.link, World.put_store_ne] using hl)
  | secretRemoved => exact Or.inl (by simpa [World.link, World.erase_store_ne] using hl)
  | quiet h => exact Or.inl (h.link _ ▸ hl)

/-- A channel that is not there stays so, or is created by its peer. -/
theorem Step.absent (hs : Step K act w w') (hn : w.channel p = none) : w'.channel p = none ∨
    K.op.peer = some p ∧ (∀ k, w'.link k = w.link k) ∧ ∃ policy refund, K.guard.record w p (initialData policy refund) ∧
      w'.channel p = some (initialData policy refund) := by
  cases hs with
  | @created _ q policy refund _ ho _ hg =>
    by_cases hq : p = q
    · subst hq
      obtain ⟨e, m, ho⟩ := ho
      exact Or.inr ⟨by rw [ho]; rfl, fun _ => World.link_put_channel, policy, refund, hg, World.channel_put⟩
    · exact Or.inl ((World.channel_put_ne hq).trans hn)
  | @wrote _ q _ _ _ hd =>
    have hq : p ≠ q := by
      rintro rfl
      cases hn.symm.trans hd
    exact Or.inl ((World.channel_put_ne hq).trans hn)
  | @offered _ q _ _ _ _ hd =>
    have hq : p ≠ q := by
      rintro rfl
      cases hn.symm.trans hd
    exact Or.inl ((World.channel_put_ne hq).trans (World.channel_put_link.trans hn))
  | @removed _ q =>
    by_cases hq : p = q
    · subst hq
      exact Or.inl World.channel_erase
    · exact Or.inl ((World.channel_erase_ne hq).trans hn)
  | linked => exact Or.inl (World.channel_put_link.trans hn)
  | unlinked => exact Or.inl (World.channel_erase_link.trans hn)
  | forwarded | signed | answered | sent | stored => exact Or.inl hn
  | secretAdded | secretConsumed | policyChanged => exact Or.inl (by simpa [World.channel, World.put_store_ne] using hn)
  | secretRemoved => exact Or.inl (by simpa [World.channel, World.erase_store_ne] using hn)
  | quiet h => exact Or.inl ((h.channel p).trans hn)

theorem uncommitted_push_ne (d : ChannelData) (u : UncommittedUpdate) : d.push u ≠ d := by
  intro h
  have hlen := congrArg (fun d => d.uncommitted.length) h
  simp [ChannelData.push] at hlen

theorem Changes.added_of_push (hc : Changes K.host p c d (d.push (.ofLocal (.add htlc)))) (ho : c.Cause K w p d) :
    c = .added htlc := by
  have hadds : uncommittedLocalAdds (d.push (.ofLocal (.add htlc))) = uncommittedLocalAdds d ++ [htlc] :=
    uncommittedLocalAdds_push d _
  have hlen := congrArg List.length hadds
  by_cases hna : ∃ x, c = .added x
  · obtain ⟨x, rfl⟩ := hna
    have hx : uncommittedLocalAdds (d.push (.ofLocal (.add htlc))) = uncommittedLocalAdds d ++ [x] := by
      generalize d.push (.ofLocal (.add htlc)) = d₁ at hc
      cases hc with
      | added => exact uncommittedLocalAdds_push d _
    obtain rfl : x = htlc := by simpa using List.append_cancel_left (hx.symm.trans hadds)
    rfl
  · rcases hc.keeps_adds ho (fun x hx => hna ⟨x, hx⟩) with hsame | ⟨hnil, -⟩
    · rw [hsame, List.length_append, List.length_singleton] at hlen
      omega
    · rw [hnil, List.length_append, List.length_singleton] at hlen
      cases hlen

/-- A record that has one more addition than before has got it by an addition. -/
theorem RecordEvent.added (hr : RecordEvent K w w' p) (hd : w.channel p = some d)
    (hd' : w'.channel p = some (d.push (.ofLocal (.add htlc)))) :
    Changes K.host p (.added htlc) d (d.push (.ofLocal (.add htlc))) ∧ K.op.peer ≠ some p ∧
      ∃ v, v.store .channels = w.store .channels ∧ K.guard.record v p (d.push (.ofLocal (.add htlc))) := by
  cases hr with
  | same h => exact absurd (Option.some.inj (hd'.symm.trans (h.trans hd))) (uncommitted_push_ne d _)
  | created _ _ _ _ h =>
    have hlen := congrArg (fun d => d.uncommitted.length) (Option.some.inj (h.symm.trans hd'))
    simp [ChannelData.push, initialData] at hlen
  | @wrote c d₀ d₁ hd₀ hc ho v hv hg h =>
    obtain rfl := Option.some.inj (hd₀.symm.trans hd)
    obtain rfl := Option.some.inj (h.symm.trans hd')
    obtain rfl := hc.added_of_push ho
    exact ⟨hc, ho, v, hv, hg⟩
  | removed _ h => cases h.symm.trans hd'

/-- What holds while an operation runs that has added `new` for `p` so far; the ids of `A` were given out before. -/
structure Offering (K : Ctx) (p : PublicKey) (A : List UInt64) (new : List UpdateAddHtlc) (v : World) : Prop where
  grown : v.localAdds p = K.start.localAdds p ++ new ∨ v.localAdds p = [] ∧ new = [] ∧ K.op.peer = some p
  fresh : Fresh K.host p (new.map (·.id) ++ A) v
  nodup : (new.map (·.id) ++ A).Nodup
  present : (v.channel p).isSome → (K.start.channel p).isSome ∨ K.op.peer = some p
  unlinked : ∀ h ∈ new, K.start.link (K.host.scid p, h.id) = none
  built : ∀ h ∈ new, ∀ l, v.link (K.host.scid p, h.id) = some l → l.BuiltFor K.host p h

theorem Fresh.alone_step (hG : K.guard = Guard.unreused K.host p) (h : Fresh K.host p A w) (hs : Step K act w w') :
    ∀ q, (w'.channel q).isSome → K.host.scid q = K.host.scid p → q = p := by
  intro q hq hscid
  by_contra hne
  have hrec : ∀ v d, ¬ K.guard.record v q d := by
    intro v d hg
    rw [hG] at hg
    simp only [Guard.unreused, if_neg hne] at hg
    exact hg hscid
  cases hs.record q with
  | same he =>
    rw [he] at hq
    exact hne (h.alone q hq hscid)
  | created _ _ _ hg => exact hrec _ _ hg
  | wrote _ _ _ _ hg => exact hrec _ _ hg
  | removed _ he =>
    rw [he] at hq
    cases hq

theorem fits_of_guard (hG : K.guard = Guard.unreused K.host p) (hg : K.guard.record v p d) : CountersFit d := by
  rw [hG] at hg
  simp only [Guard.unreused, if_true] at hg
  exact hg.1

/-- A step that adds no HTLC for `p` gives out no id. -/
theorem Offering.other {new : List UpdateAddHtlc} (hG : K.guard = Guard.unreused K.host p)
    (hop : (Guard.unreused K.host p).op K.start K.op) (hstore : ¬ K.StoreFails) (h : Offering K p A new w)
    (hs : Step K act w w') (hd : w.channel p = some d)
    (hna : ∀ htlc, w'.channel p ≠ some (d.push (.ofLocal (.add htlc)))) : Offering K p A new w' := by
  have hsome : (w.channel p).isSome := by
    rw [hd]
    rfl
  have hlinks : ∀ k l, w'.link (K.host.scid p, k) = some l → w.link (K.host.scid p, k) = some l := by
    intro k l hl
    rcases hs.links_of h.fresh.alone hstore hsome hl with hl | ⟨d₀, htlc, hd₀, -, hd', -⟩
    · exact hl
    · obtain rfl := Option.some.inj (hd₀.symm.trans hd)
      exact absurd hd' (hna htlc)
  have hknown : ∀ k, (w'.link (K.host.scid p, k)).isSome → k ∈ new.map (·.id) ++ A := by
    intro k hk
    obtain ⟨l, hl⟩ := Option.isSome_iff_exists.mp hk
    refine h.fresh.links hsome k ?_
    rw [hlinks k l hl]
    rfl
  have hbuilt : ∀ x ∈ new, ∀ l, w'.link (K.host.scid p, x.id) = some l → l.BuiltFor K.host p x :=
    fun x hx l hl => h.built x hx l (hlinks _ _ hl)
  have halone := h.fresh.alone_step hG hs
  have hadds : w.localAdds p = uncommittedLocalAdds d := by
    unfold World.localAdds
    rw [hd]
    rfl
  cases hs.record p with
  | same he =>
    have hsame : w'.localAdds p = w.localAdds p := by
      unfold World.localAdds
      rw [he]
    refine ⟨?_, ⟨halone, fun _ => hknown, ?_, ?_⟩, h.nodup, ?_, h.unlinked, hbuilt⟩
    · rw [hsame]
      exact h.grown
    · rw [he]
      exact h.fresh.absent
    · rw [he]
      exact h.fresh.record
    · rw [he]
      exact h.present
  | @created policy refund hn ho _ hg he =>
    have hrec := h.fresh.record d hd
    -- A channel that is created anew has not been open.
    have hnil : new.map (·.id) ++ A = [] := by
      rcases hn d hd with hn | hn
      · exact hrec.unopened (not_established_of_notOpened hn)
      · cases (suspended_of_status hn).symm.trans hrec.running
    have hpeer : K.op.peer = some p := by
      obtain ⟨e, m, ho⟩ := ho
      rw [ho]
      rfl
    have hnew : new = [] := List.map_eq_nil_iff.mp (List.append_eq_nil_iff.mp hnil).1
    have hempty : w'.localAdds p = [] := by
      unfold World.localAdds
      rw [he]
      rfl
    refine ⟨Or.inr ⟨hempty, hnew, hpeer⟩, ⟨halone, fun _ => hknown, ?_, ?_⟩, h.nodup, fun _ => Or.inr hpeer, h.unlinked, hbuilt⟩
    · intro hnone
      cases he.symm.trans hnone
    · intro d' hd'
      obtain rfl := Option.some.inj (he.symm.trans hd')
      rw [hnil]
      exact FreshRecord.cleared (fits_of_guard hG hg) rfl (fun _ => rfl) rfl fun _ hid => by cases hid
  | @wrote c d₀ d' hd₀ hc ho v hv hg he =>
    obtain rfl := Option.some.inj (hd₀.symm.trans hd)
    have hna' : ∀ htlc, c ≠ .added htlc := by
      rintro htlc rfl
      cases hc with
      | added => exact hna htlc he
    have hlocal : w'.localAdds p = uncommittedLocalAdds d' := by
      unfold World.localAdds
      rw [he]
      rfl
    refine ⟨?_, ⟨halone, fun _ => hknown, ?_, ?_⟩, h.nodup, fun _ => h.present hsome, h.unlinked, hbuilt⟩
    · rcases hc.keeps_adds ho hna' with hsame | ⟨hnil, hpeer, d₁, hd₁, hsame⟩
      · rw [hlocal, hsame, ← hadds]
        exact h.grown
      · refine Or.inr ⟨hlocal.trans hnil, ?_, hpeer⟩
        rcases h.grown with hgrown | ⟨-, hnew, -⟩
        · have hstart : K.start.localAdds p = uncommittedLocalAdds d₁ := by
            unfold World.localAdds
            rw [hd₁]
            rfl
          rw [hadds, hsame, hstart] at hgrown
          exact List.self_eq_append_right.mp hgrown
        · exact hnew
    · intro hnone
      cases he.symm.trans hnone
    · intro d'' hd''
      obtain rfl := Option.some.inj (he.symm.trans hd'')
      exact (h.fresh.record _ hd).change hop.2 (fits_of_guard hG hg) hc ho hna'
  | removed ho _ =>
    obtain ⟨force, ho⟩ := ho
    have hkeep := hop.1
    rw [ho] at hkeep
    exact absurd rfl (of_decide_eq_false hkeep)

/-- A step that adds an HTLC for `p` gives out a new id. -/
theorem Offering.add {new : List UpdateAddHtlc} (hG : K.guard = Guard.unreused K.host p) (hstore : ¬ K.StoreFails)
    (hstart : Fresh K.host p A K.start) (h : Offering K p A new w) (hs : Step K act w w') (hd : w.channel p = some d)
    (hd' : w'.channel p = some (d.push (.ofLocal (.add htlc)))) : Offering K p A (new ++ [htlc]) w' := by
  have hsome : (w.channel p).isSome := by
    rw [hd]
    rfl
  obtain ⟨hc, hpeer, v, hv, hg⟩ := (hs.record p).added hd hd'
  obtain ⟨hfresh, hrec, hadds⟩ := (h.fresh.record d hd).added hc (fits_of_guard hG hg)
  have hids : ((new ++ [htlc]).map (·.id) ++ A).Perm (htlc.id :: (new.map (·.id) ++ A)) := by
    rw [List.map_append, List.append_assoc]
    exact List.perm_middle
  have hlinks : ∀ k l, w'.link (K.host.scid p, k) = some l → w.link (K.host.scid p, k) = some l ∨
      k = htlc.id ∧ l.BuiltFor K.host p htlc := by
    intro k l hl
    rcases hs.links_of h.fresh.alone hstore hsome hl with hl | ⟨d₀, x, hd₀, -, hx, hid, hb⟩
    · exact Or.inl hl
    · obtain rfl := Option.some.inj (hd₀.symm.trans hd)
      have hpush := congrArg ChannelData.uncommitted (Option.some.inj (hx.symm.trans hd'))
      obtain rfl : x = htlc := by simpa [ChannelData.push] using hpush
      exact Or.inr ⟨hid.symm, hb⟩
  have hlocal : w'.localAdds p = w.localAdds p ++ [htlc] := by
    unfold World.localAdds
    rw [hd', hd]
    exact hadds
  have hpresent : (K.start.channel p).isSome := (h.present hsome).resolve_right hpeer
  refine ⟨?_, ⟨h.fresh.alone_step hG hs, ?_, ?_, ?_⟩, ?_, fun _ => Or.inl hpresent, ?_, ?_⟩
  · rcases h.grown with hgrown | ⟨-, -, hp⟩
    · rw [hlocal, hgrown, List.append_assoc]
      exact Or.inl rfl
    · exact absurd hp hpeer
  · intro _ k hk
    obtain ⟨l, hl⟩ := Option.isSome_iff_exists.mp hk
    rw [hids.mem_iff]
    rcases hlinks k l hl with hl | ⟨rfl, -⟩
    · exact List.mem_cons_of_mem _ (h.fresh.links hsome k (by rw [hl]; rfl))
    · exact List.mem_cons_self
  · intro hnone
    cases hd'.symm.trans hnone
  · intro d'' hd''
    obtain rfl := Option.some.inj (hd'.symm.trans hd'')
    exact hrec.perm hids.symm
  · exact hids.nodup_iff.mpr (List.nodup_cons.mpr ⟨hfresh, h.nodup⟩)
  · intro x hx
    rcases List.mem_append.mp hx with hx | hx
    · exact h.unlinked x hx
    · rw [List.mem_singleton.mp hx]
      by_contra hlink
      have hmem := hstart.links hpresent htlc.id (Option.isSome_iff_ne_none.mpr hlink)
      exact hfresh (List.mem_append_right _ hmem)
  · intro x hx l hl
    rcases hlinks x.id l hl with hl | ⟨hid, hb⟩
    · rcases List.mem_append.mp hx with hx | hx
      · exact h.built x hx l hl
      · rw [List.mem_singleton.mp hx] at hl
        exact absurd (h.fresh.links hsome htlc.id (by rw [hl]; rfl)) hfresh
    · rcases List.mem_append.mp hx with hx | hx
      · have hmem : htlc.id ∈ new.map (·.id) ++ A := List.mem_append_left _ (hid ▸ List.mem_map_of_mem hx)
        exact absurd hmem hfresh
      · rw [List.mem_singleton.mp hx]
        exact hb

/-- A channel that was not there when the operation started has been offered nothing. -/
theorem Offering.absent {new : List UpdateAddHtlc} (hG : K.guard = Guard.unreused K.host p) (h : Offering K p A new w)
    (hs : Step K act w w') (hn : w.channel p = none) : Offering K p A new w' := by
  have hnil := h.fresh.absent hn
  have hnew : new = [] := List.map_eq_nil_iff.mp (List.append_eq_nil_iff.mp hnil).1
  have hempty : w.localAdds p = [] := by
    unfold World.localAdds
    rw [hn]
    rfl
  have hnone : ∀ x ∈ new, ∀ l, w'.link (K.host.scid p, x.id) = some l → l.BuiltFor K.host p x := by
    rw [hnew]
    exact fun _ hx => by cases hx
  rcases hs.absent hn with hn' | ⟨hpeer, hsame, policy, refund, hg, he⟩
  · have hempty' : w'.localAdds p = w.localAdds p := by
      unfold World.localAdds
      rw [hn', hn]
    refine ⟨by rw [hempty']; exact h.grown, ⟨h.fresh.alone_step hG hs, ?_, fun _ => hnil, ?_⟩, h.nodup, ?_, h.unlinked, hnone⟩
    · rw [hn']
      exact fun hsome => by cases hsome
    · rw [hn']
      exact fun _ hd => by cases hd
    · rw [hn']
      exact fun hsome => by cases hsome
  · have hempty' : w'.localAdds p = [] := by
      unfold World.localAdds
      rw [he]
      rfl
    refine ⟨Or.inr ⟨hempty', hnew, hpeer⟩, ⟨h.fresh.alone_step hG hs, ?_, ?_, ?_⟩, h.nodup, fun _ => Or.inr hpeer,
      h.unlinked, hnone⟩
    · intro _ k hk
      -- The guard permits the creation only if no link is under the short channel id.
      have hfree := hg
      rw [hG] at hfree
      simp only [Guard.unreused, if_true] at hfree
      rw [hsame] at hk
      exact absurd rfl (hfree.2 hn (K.host.scid p, k) (World.mem_linkKeys.mpr hk))
    · intro hnone'
      cases he.symm.trans hnone'
    · intro d' hd'
      obtain rfl := Option.some.inj (he.symm.trans hd')
      rw [hnil]
      exact FreshRecord.cleared (fits_of_guard hG hg) rfl (fun _ => rfl) rfl fun _ hid => by cases hid

theorem Offering.step {new : List UpdateAddHtlc} (hG : K.guard = Guard.unreused K.host p)
    (hop : (Guard.unreused K.host p).op K.start K.op) (hstore : ¬ K.StoreFails) (hstart : Fresh K.host p A K.start)
    (h : Offering K p A new w) (hs : Step K act w w') : Offering K p A new w' ∨
      ∃ d htlc, w.channel p = some d ∧ w'.channel p = some (d.push (.ofLocal (.add htlc))) ∧
        Offering K p A (new ++ [htlc]) w' := by
  cases hd : w.channel p with
  | none => exact Or.inl (h.absent hG hs hd)
  | some d =>
    by_cases hadd : ∃ htlc, w'.channel p = some (d.push (.ofLocal (.add htlc)))
    · obtain ⟨htlc, hd'⟩ := hadd
      exact Or.inr ⟨d, htlc, rfl, hd', h.add hG hstore hstart hs hd hd'⟩
    · exact Or.inl (h.other hG hop hstore hs hd fun htlc hd' => hadd ⟨htlc, hd'⟩)

theorem Offering.start (h : Fresh K.host p A K.start) (hA : A.Nodup) : Offering K p A [] K.start where
  grown := Or.inl (List.append_nil _).symm
  fresh := h
  nodup := hA
  present hsome := Or.inl hsome
  unlinked _ hx := by cases hx
  built _ hx := by cases hx

/-- The HTLCs that the operation has added are those it is seen to have added. -/
theorem Offering.newOffers_eq {new : List UpdateAddHtlc} (h : Offering K p A new w) : newOffers p K.start w = new := by
  unfold newOffers
  rcases h.grown with hgrown | ⟨hnil, hnew, -⟩
  · rw [hgrown, List.drop_left]
  · rw [hnil, hnew, List.drop_nil]

/-! ### Hooks -/

/-- The acts that delete no link. -/
def Act.keepsLinks : Act → Prop
  | .unlinked => False
  | _ => True

instance : Mild Act.keepsLinks := ⟨trivial, trivial, trivial, trivial, trivial⟩

/-- A hook deletes no link. -/
theorem trace_hook {o : Nat → Choice} {r : HtlcAcceptedRequest} (hop : K.op = .htlcAccepted r)
    (h : K.guard.Allows K.host o K.op K.start)
    (he : Prog.Kept exec K.env o (K.op.program K.host).run K.start) :
    K.Trace Act.keepsLinks K.start (K.op.next K.host o K.start) := by
  have hdoes : K.Does Act.keepsLinks (K.op.program K.host) K.start fun _ _ => True := by
    rw [hop]
    exact Does.bind (does_handleHtlcAccepted (fun _ _ => trivial) (fun _ _ => trivial) hop) fun _ _ _ => Does.pure trivial
  have hrun := Does.run hdoes (Ctx.kept_assumes h.2 he)
  rw [hop] at hrun ⊢
  exact hrun

theorem Step.link_kept {k : HtlcKey} (hs : Step K act w w') (hact : act.keepsLinks) (hk : (w.link k).isSome) :
    (w'.link k).isSome := by
  cases hs with
  | @offered _ q _ _ _ l =>
    rw [World.link_put_channel]
    by_cases he : k = (l.outgoingScid, l.outgoingHtlcId)
    · rw [he, World.link_put]
      rfl
    · rw [World.link_put_ne he]
      exact hk
  | @linked _ l =>
    by_cases he : k = (l.outgoingScid, l.outgoingHtlcId)
    · rw [he, World.link_put]
      rfl
    · rw [World.link_put_ne he]
      exact hk
  | unlinked => cases hact
  | created | wrote =>
    rw [World.link_put_channel]
    exact hk
  | removed =>
    rw [World.link_erase_channel]
    exact hk
  | forwarded | signed | answered | sent | stored => exact hk
  | secretAdded | secretConsumed | policyChanged => simpa [World.link, World.put_store_ne] using hk
  | secretRemoved => simpa [World.link, World.erase_store_ne] using hk
  | quiet h =>
    rw [h.link]
    exact hk

/-- The HTLC of a hook is added with a link. -/
theorem Step.link_added {r : HtlcAcceptedRequest} (hop : K.op = .htlcAccepted r) (hs : Step K act w w')
    (hd : w.channel p = some d) (hd' : w'.channel p = some (d.push (.ofLocal (.add htlc)))) :
    (w'.link (K.host.scid p, htlc.id)).isSome := by
  have hne : w'.channel p ≠ w.channel p := by
    rw [hd, hd']
    exact fun h => uncommitted_push_ne d _ (Option.some.inj h)
  cases hs with
  | @created _ q =>
    by_cases hq : p = q
    · subst hq
      have hlen := congrArg (fun d => d.uncommitted.length) (Option.some.inj (World.channel_put.symm.trans hd'))
      simp [ChannelData.push, initialData] at hlen
    · exact absurd (World.channel_put_ne hq) hne
  | @wrote _ q c d₀ d₁ hd₀ hc ho hg hb =>
    by_cases hq : p = q
    · subst hq
      obtain rfl := Option.some.inj (hd₀.symm.trans hd)
      obtain rfl := Option.some.inj (World.channel_put.symm.trans hd')
      obtain rfl := hc.added_of_push ho
      rw [World.link_put_channel]
      -- It is no payment of the host, so there is a link already.
      refine hb.resolve_left ?_
      rw [hop]
      rintro ⟨_, h⟩
      cases h
    · exact absurd (World.channel_put_ne hq) hne
  | @offered _ q x d₀ d₁ l hd₀ hc hb _ ho =>
    by_cases hq : p = q
    · subst hq
      obtain rfl := Option.some.inj (hd₀.symm.trans hd)
      obtain rfl := Option.some.inj (World.channel_put.symm.trans hd')
      have hx : Change.added x = .added htlc := hc.added_of_push (w := w) ho
      obtain rfl := Change.added.inj hx
      rw [World.link_put_channel, ← hb.scid, ← hb.id, World.link_put]
      rfl
    · exact absurd ((World.channel_put_ne hq).trans World.channel_put_link) hne
  | @removed _ q =>
    by_cases hq : p = q
    · subst hq
      cases World.channel_erase.symm.trans hd'
    · exact absurd (World.channel_erase_ne hq) hne
  | linked => exact absurd World.channel_put_link hne
  | unlinked => exact absurd World.channel_erase_link hne
  | forwarded | signed | answered | sent | stored => exact absurd rfl hne
  | secretAdded | secretConsumed | policyChanged => exact absurd (by simp [World.channel, World.put_store_ne]) hne
  | secretRemoved => exact absurd (by simp [World.channel, World.erase_store_ne]) hne
  | quiet h => exact absurd (h.channel p) hne

/-! ### Runs -/

section Operation
variable {o : Nat → Choice} (hG : K.guard = Guard.unreused K.host p) (hstore : ¬ K.StoreFails)
  (hstart : Fresh K.host p A K.start) (hA : A.Nodup) (hop : K.guard.Allows K.host o K.op K.start)
  (he : Prog.Kept exec K.env o (K.op.program K.host).run K.start)
include hG hstore hstart hA hop he

theorem Offering.next : ∃ new, Offering K p A new (K.op.next K.host o K.start) := by
  refine (trace_next hop he).keeps (P := fun v => ∃ new, Offering K p A new v) ?_ ⟨[], .start hstart hA⟩
  intro act v v' _ hs hv
  obtain ⟨new, hv⟩ := hv
  rcases hv.step hG (hG ▸ hop.1) hstore hstart hs with hv' | ⟨d, htlc, -, -, hv'⟩
  · exact ⟨new, hv'⟩
  · exact ⟨_, hv'⟩

/-- What a hook adds has a link when it ends. -/
theorem Offering.hook {r : HtlcAcceptedRequest} (hr : K.op = .htlcAccepted r) :
    ∃ new, Offering K p A new (K.op.next K.host o K.start) ∧
      ∀ x ∈ new, ((K.op.next K.host o K.start).link (K.host.scid p, x.id)).isSome := by
  refine (trace_hook hr hop he).keeps
    (P := fun v => ∃ new, Offering K p A new v ∧ ∀ x ∈ new, (v.link (K.host.scid p, x.id)).isSome) ?_
    ⟨[], .start hstart hA, fun _ hx => by cases hx⟩
  intro act v v' hact hs hv
  obtain ⟨new, hv, hl⟩ := hv
  rcases hv.step hG (hG ▸ hop.1) hstore hstart hs with hv' | ⟨d, htlc, hd, hd', hv'⟩
  · exact ⟨new, hv', fun x hx => hs.link_kept hact (hl x hx)⟩
  · refine ⟨_, hv', ?_⟩
    intro x hx
    rcases List.mem_append.mp hx with hx | hx
    · exact hs.link_kept hact (hl x hx)
    · rw [List.mem_singleton.mp hx]
      exact hs.link_added hr hd hd'

end Operation

/-- What one operation gives out. -/
theorem Fresh.next {op : Op} {o : Nat → Choice} (h : Fresh H p A w) (hA : A.Nodup)
    (hop : (Guard.unreused H p).Allows H o op w)
    (hstore : Prog.Kept exec (fun x _ call => Call.isStore call = true → x.fails = false) o (op.program H).run w) :
    Fresh H p ((newOffers p w (op.next H o w)).map (·.id) ++ A) (op.next H o w) ∧
      ((newOffers p w (op.next H o w)).map (·.id) ++ A).Nodup ∧
      ∀ x ∈ newOffers p w (op.next H o w), w.link (H.scid p, x.id) = none ∧
        (∀ l, (op.next H o w).link (H.scid p, x.id) = some l → l.BuiltFor H p x) ∧
        ((∃ r, op = .htlcAccepted r) → ((op.next H o w).link (H.scid p, x.id)).isSome) := by
  let K : Ctx := ⟨H, Guard.unreused H p, w, op, fun x _ call => call.isStore = true → x.fails = false⟩
  have hfails : ¬ K.StoreFails := by
    rintro ⟨x, v, call, he, hc, hx⟩
    cases (he hc).symm.trans hx
  obtain ⟨new, hend⟩ := Offering.next (K := K) rfl hfails h hA hop hstore
  have hnew : newOffers p w (op.next H o w) = new := hend.newOffers_eq
  rw [hnew]
  refine ⟨hend.fresh, hend.nodup, fun x hx => ⟨hend.unlinked x hx, hend.built x hx, ?_⟩⟩
  rintro ⟨r, hr⟩
  obtain ⟨new', hend', hl⟩ := Offering.hook (K := K) rfl hfails h hA hop hstore hr
  have hnew' : newOffers p w (op.next H o w) = new' := hend'.newOffers_eq
  rw [hnew.symm.trans hnew'] at hx
  exact hl x hx

theorem fresh_empty (H : Host) (p : PublicKey) : Fresh H p [] World.empty where
  alone _ hq := by cases hq
  links hp := by cases hp
  absent _ := rfl
  record _ hd := by cases hd

/-- The ids given out in a run are distinct, and the last world of the run is fresh for them. -/
theorem Run.fresh {past : List World} (hrun : Run H (Unreused H p) (w :: past)) :
    Fresh H p (assignedIds p (w :: past)) w ∧ (assignedIds p (w :: past)).Nodup := by
  generalize hhist : w :: past = hist at hrun
  induction hrun generalizing w past with
  | start =>
    obtain ⟨rfl, rfl⟩ := List.cons.inj hhist
    exact ⟨fresh_empty H p, List.nodup_nil⟩
  | step op o hw hop ih =>
    obtain ⟨rfl, rfl⟩ := List.cons.inj hhist
    obtain ⟨hfresh, hA⟩ := ih rfl
    obtain ⟨hfresh', hA', -⟩ := hfresh.next hA hop.1 hop.2
    exact ⟨hfresh', hA'⟩

/-- In every run in which nothing brings the counter of the channel back, no HTLC gets an id that was given out
    before. The key of its link is free before the operation, any link under it afterwards is the one built for
    it, and the HTLC of a hook has one. -/
theorem offer_ids_distinct (H : Host) (p : PublicKey) (w : World) (past : List World) (op : Op) (o : Nat → Choice)
    (hrun : Run H (Unreused H p) (w :: past)) (hop : Unreused H p (w :: past) op o) :
    (assignedIds p (op.next H o w :: w :: past)).Nodup ∧
      ∀ x ∈ newOffers p w (op.next H o w), w.link (H.scid p, x.id) = none ∧
        (∀ l, (op.next H o w).link (H.scid p, x.id) = some l → l.BuiltFor H p x) ∧
        ((∃ r, op = .htlcAccepted r) → ((op.next H o w).link (H.scid p, x.id)).isSome) := by
  obtain ⟨hfresh, hA⟩ := hrun.fresh
  obtain ⟨-, hA', hnew⟩ := hfresh.next hA hop.1 hop.2
  exact ⟨hA', hnew⟩

instance (w : World) (op : Op) : Decidable ((Guard.unreused H p).op w op) := inferInstanceAs (Decidable (_ ∧ _))

instance (w : World) (q : PublicKey) (d : ChannelData) : Decidable ((Guard.unreused H p).record w q d) :=
  -- The keys are looked at one by one, not all pairs of numbers.
  letI : Decidable (∀ k ∈ w.linkKeys, k.1 ≠ H.scid p) := List.decidableBAll _ _
  inferInstanceAs (Decidable (if q = p then _ else _))

instance (w : World) (k : HtlcKey) (l : ForwardLink) : Decidable ((Guard.unreused H p).link w k l) := .isTrue trivial

/-- The client has committed to a payment when the channel fails, and the host's proposal is accepted. -/
def resetScript : List (World → Op) := openScript ++ [
  hostPays 3, clientCommits .transparent openKey, clientErrs openKey, fun _ => .proposeOverride openPeer none,
  clientAccepts .transparent openKey]

theorem offer_ids_distinct_reset : ∃ past, Run .transparent (Unreused .transparent openPeer)
      (calmRun .transparent resetScript :: past) ∧
    (assignedIds openPeer ((hookOffers (ByteVec.fill 32 4) 1 1100 (calmRun .transparent resetScript)).next .transparent
      (fun _ => .calm) (calmRun .transparent resetScript) :: calmRun .transparent resetScript :: past)).Nodup ∧
    (newOffers openPeer (calmRun .transparent resetScript) ((hookOffers (ByteVec.fill 32 4) 1 1100
      (calmRun .transparent resetScript)).next .transparent (fun _ => .calm) (calmRun .transparent resetScript))).map
        (·.id) = [3] := by
  have hfollows : (Guard.unreused .transparent openPeer).follows .transparent World.empty resetScript = true := by
    decide +kernel
  have hcalm : ∀ w past op, (Guard.unreused .transparent openPeer).Allows .transparent (fun _ => .calm) op w →
      Unreused .transparent openPeer (w :: past) op fun _ => .calm :=
    fun w past op hop => ⟨hop, Prog.kept_of_forall fun _ _ _ _ => rfl⟩
  have hrun := calmHistory_follows hcalm (Guard.follows_sound hfollows)
  rw [calmHistory_eq] at hrun
  have hop : (Guard.unreused .transparent openPeer).op (calmRun .transparent resetScript)
      (hookOffers (ByteVec.fill 32 4) 1 1100 (calmRun .transparent resetScript)) := by
    decide +kernel
  have hcalls : Prog.Allowed.check exec (Guard.unreused .transparent openPeer).call (fun _ => .calm)
      ((hookOffers (ByteVec.fill 32 4) 1 1100 (calmRun .transparent resetScript)).program .transparent).run
      (calmRun .transparent resetScript) = true := by
    decide +kernel
  refine ⟨_, hrun, ?_, by decide +kernel⟩
  exact (offer_ids_distinct .transparent openPeer _ _ _ (fun _ => .calm) hrun
    (hcalm _ _ _ ⟨hop, Prog.allowed_of_check hcalls⟩)).1

/-- The host has added two HTLCs when the channel fails; its proposal counts one of them. -/
def reusingScript : List (World → Op) := openScript ++ [
  hostPays 3, hostPays 4, clientErrs openKey, fun _ => .proposeOverride openPeer none,
  clientAccepts .transparent openKey, hostPays 5]

theorem offer_ids_reused : ¬ ∀ (H : Host) (p : PublicKey) (past : List World),
    Run H (fun _ op _ => op.removes p = false) past → (assignedIds p past).Nodup := by
  intro hall
  have hids : assignedIds openPeer (calmHistory .transparent reusingScript) = [2, 2, 1] := by
    decide +kernel
  have hrun : Run .transparent (fun _ op _ => op.removes openPeer = false) (calmHistory .transparent reusingScript) := by
    refine calmHistory_run reusingScript ?_
    intro op hop w past
    simp only [reusingScript, openScript, List.cons_append, List.nil_append, List.mem_cons, List.not_mem_nil, or_false] at hop
    rcases hop with rfl | rfl | rfl | rfl | rfl | rfl | rfl | rfl
    · rfl
    · rcases clientCommits_cases .transparent openKey w with h | ⟨m, h⟩ <;> rw [h] <;> rfl
    · rfl
    · rfl
    · rfl
    · rfl
    · rcases clientAccepts_cases .transparent openKey w with h | ⟨m, h⟩ <;> rw [h] <;> rfl
    · rfl
  have hnodup := hall .transparent openPeer _ hrun
  rw [hids] at hnodup
  exact absurd hnodup (by decide)

end Canopus
