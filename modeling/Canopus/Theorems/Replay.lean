import Canopus.Theorems.Fold
import Canopus.Theorems.Records
import Canopus.Transparent

/-! Replays of upstream HTLCs. The host should offer at most one hosted HTLC for an upstream one, but only
    recovery looks for a link that carries the HTLC already: the hook creates its link under a new key and
    offers again. Where no link is ever created beside another one for the same HTLC, and ids are not
    reused, every upstream HTLC has at most one hosted HTLC pending. -/

namespace Canopus
open Effect StateManager Buffer

variable {H : Host} {K : Ctx} {w w' : World} {p q : PublicKey} {d d' : ChannelData} {c : Change} {act : Act}
  {s t : LastCrossSignedState} {us vs : List UncommittedUpdate} {C : Crypto}

/-! ### Pending hosted HTLCs -/

/-- The HTLCs that the host adds by a list of updates. -/
def localAdds (us : List UncommittedUpdate) : List UpdateAddHtlc :=
  us.filterMap fun
    | .ofLocal (.add htlc) => some htlc
    | _ => none

/-- The hosted HTLCs of a channel: committed, or added and not committed to yet. -/
def ChannelData.offers (d : ChannelData) : List UpdateAddHtlc := d.lcss.outgoingHtlcs ++ uncommittedLocalAdds d

/-- All pending hosted HTLCs, each with the client it is offered to. -/
def World.offers (w : World) : List (PublicKey × UpdateAddHtlc) :=
  w.peers.flatMap fun p => ((w.channel p).elim [] ChannelData.offers).map (p, ·)

/-- The upstream HTLC that a link carries. -/
def ForwardLink.upstream (l : ForwardLink) : HtlcKey := (l.incomingScid, l.incomingHtlcId)

/-- The pending hosted HTLCs whose stored link carries the upstream HTLC `u`. -/
def World.offersFor (w : World) (H : Host) (u : HtlcKey) : List (PublicKey × UpdateAddHtlc) :=
  w.offers.filter fun x => (w.link (H.scid x.1, x.2.id)).any (·.upstream == u)

/-- The state that a peer presents by an operation. -/
def Op.presented : Op → Option LastCrossSignedState
  | .message _ _ (.lastCrossSignedState m) => some m
  | _ => none

/-- Runs in which a link is created only for an upstream HTLC that no other stored link carries, an HTLC
    is offered only under an id that is not pending in the channel, no two channels have the same short
    channel id, and no presented state lists two hosted HTLCs under one id. -/
def Guard.unreplayed (H : Host) : Guard where
  op _ op := ∀ m ∈ op.presented, DistinctIds m.incomingHtlcs
  record w p d' := (∀ q ∈ w.peers, H.scid q = H.scid p → q = p) ∧
    ∀ d ∈ w.channel p, (uncommittedLocalAdds d).length < (uncommittedLocalAdds d').length →
      nextHtlcId d ∉ d.offers.map (·.id)
  link w k l := ∀ k' ∈ w.linkKeys, ∀ l' ∈ w.link k', l'.upstream = l.upstream → k' = k

/-! ### Changes of a record -/

theorem uncommittedLocalAdds_eq (d : ChannelData) : uncommittedLocalAdds d = localAdds d.uncommitted := rfl

theorem localAdds_append (us vs : List UncommittedUpdate) : localAdds (us ++ vs) = localAdds us ++ localAdds vs :=
  List.filterMap_append

theorem localAdds_remote (u : PendingUpdate) : localAdds [.ofRemote u] = [] := rfl

/-- Resolutions add nothing. -/
theorem localAdds_resolutions (h : ∀ u ∈ us, (resolutionKey u).isSome) : localAdds us = [] := by
  refine List.filterMap_eq_nil_iff.mpr ?_
  intro u hu
  have hk := h u hu
  cases u with
  | ofRemote u => rfl
  | ofLocal u =>
    cases u with
    | add htlc => cases hk
    | _ => rfl

/-- Dropping repeated resolutions keeps the additions. -/
theorem localAdds_dedupFrom (seen : List (Bool × UInt64)) : localAdds (dedupFrom seen us) = localAdds us := by
  induction us generalizing seen with
  | nil => rfl
  | cons u us ih =>
    have hcons : ∀ vs, localAdds (u :: vs) = localAdds [u] ++ localAdds vs := fun vs => localAdds_append [u] vs
    unfold dedupFrom
    cases hk : resolutionKey u with
    | none =>
      dsimp only
      rw [hcons, hcons us, ih]
    | some key =>
      have hu : localAdds [u] = [] := localAdds_resolutions (by simp [hk])
      dsimp only
      split
      · rw [ih, hcons us, hu, List.nil_append]
      · rw [hcons, hcons us, ih]

/-- An update leaves of the HTLCs offered and still to be added all or all but one. -/
theorem applyUpdate_offers {u : UncommittedUpdate} (ha : applyUpdate C s u = .ok t) :
    t.outgoingHtlcs.Sublist (s.outgoingHtlcs ++ localAdds [u]) := by
  cases u with
  | ofLocal u =>
    rw [(applyUpdate_local ha).outgoing]
    cases u <;> exact List.Sublist.refl _
  | ofRemote u =>
    rw [localAdds_remote, List.append_nil]
    rcases (applyUpdate_remote ha).incoming with ⟨-, h⟩ | ⟨id, _, -, -, h⟩
    · have h : t.outgoingHtlcs = s.outgoingHtlcs := h
      rw [h]
    · have h : t.outgoingHtlcs = s.outgoingHtlcs.eraseP (·.id == id) := h
      rw [h]
      exact List.eraseP_sublist

theorem applyUpdates_offers (ha : applyUpdates C s us = .ok t) :
    t.outgoingHtlcs.Sublist (s.outgoingHtlcs ++ localAdds us) := by
  induction us generalizing s with
  | nil =>
    cases ha
    simp [localAdds]
  | cons u us ih =>
    obtain ⟨s', hs', ha⟩ := bind_eq_ok.mp ha
    have hfirst := (applyUpdate_offers hs').append (List.Sublist.refl (localAdds us))
    rw [List.append_assoc, ← localAdds_append] at hfirst
    exact (ih ha).trans hfirst

/-- The hosted HTLCs of the next state are among those pending. -/
theorem lcssNext_offers (hn : lcssNext C ⟨s, us⟩ = .ok t) : t.outgoingHtlcs.Sublist (s.outgoingHtlcs ++ localAdds us) := by
  obtain ⟨r, hr, rfl⟩ := lcssNext_eq_ok hn
  have hsub := applyUpdates_offers hr
  exact hsub

theorem outgoing_sign {key : SecretKey} (hs : s.sign C key = .ok t) : t.outgoingHtlcs = s.outgoingHtlcs :=
  (SignedAlike.sign hs).outgoing

/-- A record that lists no hosted HTLC twice. -/
structure OffersOnce (d : ChannelData) : Prop where
  ids : DistinctIds d.offers
  proposal : ∀ s, d.proposedOverride = some s → s.outgoingHtlcs = []

theorem OffersOnce.initial (policy : ChannelPolicy) (refund : Bytes) : OffersOnce (initialData policy refund) where
  ids := List.nodup_nil
  proposal s hs := by cases hs

/-- A change that adds no hosted HTLC. -/
theorem OffersOnce.fewer (h : OffersOnce d) (hs : d'.offers.Sublist d.offers)
    (hp : d'.proposedOverride = d.proposedOverride) : OffersOnce d' where
  ids := h.ids.sublist hs
  proposal s hs := h.proposal s (hp ▸ hs)

theorem OffersOnce.push_other (h : OffersOnce d) {u : UncommittedUpdate} (hu : localAdds [u] = []) :
    OffersOnce (d.push u) := by
  refine h.fewer ?_ rfl
  unfold ChannelData.offers ChannelData.push
  rw [uncommittedLocalAdds_eq, uncommittedLocalAdds_eq, localAdds_append, hu, List.append_nil]

theorem OffersOnce.push_add (h : OffersOnce d) {htlc : UpdateAddHtlc} (hid : htlc.id ∉ d.offers.map (·.id)) :
    OffersOnce (d.push (.ofLocal (.add htlc))) where
  ids := by
    have hoffers : (d.push (.ofLocal (.add htlc))).offers = d.offers ++ [htlc] := by
      unfold ChannelData.offers ChannelData.push
      rw [uncommittedLocalAdds_eq, uncommittedLocalAdds_eq, localAdds_append, ← List.append_assoc]
      rfl
    unfold DistinctIds
    rw [hoffers, List.map_append]
    refine List.Nodup.append h.ids (List.nodup_singleton _) ?_
    intro id hmem hnew
    rw [List.map_singleton, List.mem_singleton] at hnew
    exact hid (hnew ▸ hmem)
  proposal := h.proposal

/-- Every change keeps this, given that an HTLC is added under a new id and that an adopted state lists
    no id twice. -/
theorem OffersOnce.changes (h : OffersOnce d) (hc : Changes H p c d d')
    (hnew : (uncommittedLocalAdds d).length < (uncommittedLocalAdds d').length → nextHtlcId d ∉ d.offers.map (·.id))
    (hm : ∀ m, c = .adopted m → DistinctIds m.incomingHtlcs) : OffersOnce d' := by
  cases hc with
  | deduplicated =>
    refine h.fewer ?_ rfl
    unfold ChannelData.offers
    rw [uncommittedLocalAdds_eq, uncommittedLocalAdds_eq]
    unfold deduplicateUncommittedResolutions
    rw [localAdds_dedupFrom]
  | established _ _ hl =>
    refine h.fewer ?_ rfl
    unfold ChannelData.offers
    rw [outgoing_sign hl]
    exact List.sublist_append_right _ _
  | committed _ _ hn _ hl =>
    refine h.fewer ?_ rfl
    unfold ChannelData.offers
    rw [outgoing_sign hl, uncommittedLocalAdds_eq, uncommittedLocalAdds_eq]
    simpa [localAdds, proposedNext] using lcssNext_offers hn
  | @overridden _ _ _ lcss _ hp _ hl =>
    constructor
    · have hnil : (overriddenData d lcss).offers = [] := by
        unfold ChannelData.offers overriddenData
        rw [outgoing_sign hl, h.proposal _ hp]
        rfl
      rw [hnil]
      exact List.nodup_nil
    · intro s hs
      cases hs
  | receivedAdd => exact h.push_other (localAdds_remote _)
  | receivedResolution => exact h.push_other (localAdds_remote _)
  | @errored extra _ older e hd hx =>
    subst hd
    refine h.fewer ?_ rfl
    unfold ChannelData.offers
    rw [uncommittedLocalAdds_eq, uncommittedLocalAdds_eq, localAdds_append]
    exact (List.Sublist.refl _).append (List.sublist_append_left _ _)
  | resolved _ hk => exact h.push_other (localAdds_resolutions (by simp [hk]))
  | added _ _ _ hid =>
    refine h.push_add ?_
    rw [hid]
    refine hnew ?_
    unfold ChannelData.push
    rw [uncommittedLocalAdds_eq, uncommittedLocalAdds_eq, localAdds_append, List.length_append]
    exact Nat.lt_succ_self _
  | resized _ _ _ _ _ _ _ hl =>
    refine h.fewer ?_ rfl
    unfold ChannelData.offers
    rw [outgoing_sign hl]
    exact List.Sublist.refl _
  | proposed hd _ hl =>
    subst hd
    refine ⟨h.ids, ?_⟩
    intro s hs
    obtain rfl := Option.some.inj hs
    exact outgoing_sign hl
  | @adopted _ m =>
    refine ⟨?_, h.proposal⟩
    have hoffers : ChannelData.offers { d with lcss := m.reverse, uncommitted := [] } = m.incomingHtlcs :=
      List.append_nil _
    rw [hoffers]
    exact hm m rfl
  | remoteErrored => exact ⟨h.ids, h.proposal⟩
  | resizeAllowed => exact ⟨h.ids, h.proposal⟩
  | retuned => exact ⟨h.ids, h.proposal⟩
  | updateSent => exact ⟨h.ids, h.proposal⟩

/-! ### Runs -/

/-- The invariant of the runs. -/
structure Unreplayed (H : Host) (w : World) : Prop where
  links : ∀ k k' l l', w.link k = some l → w.link k' = some l' → l.upstream = l'.upstream → k = k'
  records : ∀ p d, w.channel p = some d → OffersOnce d
  scids : ∀ p q, (w.channel p).isSome → (w.channel q).isSome → H.scid p = H.scid q → p = q

theorem Unreplayed.step (hG : K.guard = Guard.unreplayed K.host) (hop : (Guard.unreplayed K.host).op K.start K.op)
    (hs : Step K act w w') (h : Unreplayed K.host w) : Unreplayed K.host w' := by
  constructor
  case links =>
    intro k k' l l' hl hl' hu
    cases hs.link with
    | same he => exact h.links k k' l l' (he k ▸ hl) (he k' ▸ hl') hu
    | @linked new _ _ hn hg he =>
      rw [hG] at hg
      -- A link that is not the new one carries another upstream HTLC.
      have hother : ∀ k l, w.link k = some l → l.upstream = new.upstream → k = (new.outgoingScid, new.outgoingHtlcId) :=
        fun k l hk => hg k (World.mem_linkKeys.mpr (by rw [hk]; rfl)) l hk
      rw [he] at hl hl'
      split at hl
      · rename_i hk
        obtain rfl := Option.some.inj hl
        split at hl'
        · rename_i hk'
          rw [hk, hk']
        · exact hk.trans (hother k' l' hl' hu.symm).symm
      · split at hl'
        · rename_i hk'
          obtain rfl := Option.some.inj hl'
          exact (hother k l hl hu).trans hk'.symm
        · exact h.links k k' l l' hl hl' hu
    | unlinked _ he =>
      rw [he] at hl hl'
      split at hl
      · cases hl
      · split at hl'
        · cases hl'
        · exact h.links k k' l l' hl hl' hu
  case records =>
    intro p d hd
    cases hs.record p with
    | same he => exact h.records p d (he ▸ hd)
    | created _ _ _ _ he =>
      obtain rfl := Option.some.inj (he.symm.trans hd)
      exact .initial _ _
    | wrote hd₀ hc ho hv hg he =>
      obtain rfl := Option.some.inj (he.symm.trans hd)
      rw [hG] at hg
      refine (h.records p _ hd₀).changes hc (hg.2 _ (by rw [World.channel, hv]; exact hd₀)) ?_
      intro m hm
      subst hm
      obtain ⟨⟨e, ho⟩, -⟩ := ho
      rw [ho] at hop
      exact hop m rfl
    | removed _ he => cases he.symm.trans hd
  case scids =>
    intro p q hp hq he
    rcases hs.newcomer with hold | ⟨new, _, hg, hnew⟩
    · exact h.scids p q (hold p hp) (hold q hq) he
    · rw [hG] at hg
      rcases hnew p hp with rfl | hp₀
      · rcases hnew q hq with rfl | hq₀
        · rfl
        · exact (hg.1 q (World.mem_peers.mpr hq₀) he.symm).symm
      · rcases hnew q hq with rfl | hq₀
        · exact hg.1 p (World.mem_peers.mpr hp₀) he
        · exact h.scids p q hp₀ hq₀ he

theorem unreplayed_empty (H : Host) : Unreplayed H World.empty where
  links k k' l l' hl := by cases hl
  records p d hd := by cases hd
  scids p q hp := by cases hp

/-! ### Counting -/

theorem World.peers_nodup (w : World) : w.peers.Nodup := Table.sortedKeys_nodup

/-- The keys of the pending hosted HTLCs are distinct. -/
theorem Unreplayed.keys_nodup (h : Unreplayed H w) : (w.offers.map fun x => (H.scid x.1, x.2.id)).Nodup := by
  unfold World.offers
  rw [List.map_flatMap, List.nodup_flatMap]
  constructor
  · intro p hp
    obtain ⟨d, hd⟩ := Option.isSome_iff_exists.mp (World.mem_peers.mp hp)
    rw [hd, List.map_map]
    have hids := (h.records p d hd).ids
    have hkeys : d.offers.map ((fun x : PublicKey × UpdateAddHtlc => (H.scid x.1, x.2.id)) ∘ (p, ·)) =
        (d.offers.map (·.id)).map (H.scid p, ·) := by
      rw [List.map_map]
      rfl
    rw [Option.elim_some, hkeys]
    exact hids.map fun a b hab => (Prod.mk.inj hab).2
  · refine (w.peers_nodup).imp_of_mem ?_
    intro p q hp hq hne key hkp hkq
    obtain ⟨x, hx, hkx⟩ := List.mem_map.mp hkp
    obtain ⟨_, _, rfl⟩ := List.mem_map.mp hx
    obtain ⟨y, hy, hky⟩ := List.mem_map.mp hkq
    obtain ⟨_, _, rfl⟩ := List.mem_map.mp hy
    have hscid := (Prod.mk.inj (hkx.trans hky.symm)).1
    exact hne (h.scids p q (World.mem_peers.mp hp) (World.mem_peers.mp hq) hscid)

/-- A list without repetition whose elements are all equal has at most one. -/
theorem length_le_one_of_nodup {α : Type} {l : List α} (hn : l.Nodup) (he : ∀ a ∈ l, ∀ b ∈ l, a = b) : l.length ≤ 1 := by
  match l, hn, he with
  | [], _, _ => exact Nat.zero_le _
  | [_], _, _ => exact Nat.le_refl _
  | a :: b :: l, hn, he =>
    have hab : a = b := he a (by simp) b (by simp)
    simp [hab] at hn

theorem Unreplayed.offersFor_le_one (h : Unreplayed H w) (u : HtlcKey) : (w.offersFor H u).length ≤ 1 := by
  have hkeys : ((w.offersFor H u).map fun x => (H.scid x.1, x.2.id)).Nodup :=
    h.keys_nodup.sublist (List.filter_sublist.map _)
  rw [← List.length_map (f := fun x : PublicKey × UpdateAddHtlc => (H.scid x.1, x.2.id))]
  refine length_le_one_of_nodup hkeys ?_
  -- Two of the keys hold links that carry the same upstream HTLC.
  have hlink : ∀ k ∈ (w.offersFor H u).map (fun x => (H.scid x.1, x.2.id)), ∃ l, w.link k = some l ∧ l.upstream = u := by
    intro k hk
    obtain ⟨x, hx, rfl⟩ := List.mem_map.mp hk
    obtain ⟨l, hl, hu⟩ := exists_of_any (List.mem_filter.mp hx).2
    exact ⟨l, hl, by simpa using hu⟩
  intro a ha b hb
  obtain ⟨l, hl, hu⟩ := hlink a ha
  obtain ⟨l', hl', hu'⟩ := hlink b hb
  exact h.links a b l l' hl hl' (hu.trans hu'.symm)

instance (w : World) (op : Op) : Decidable ((Guard.unreplayed H).op w op) :=
  inferInstanceAs (Decidable (∀ m ∈ op.presented, _))

instance (w : World) (p : PublicKey) (d : ChannelData) : Decidable ((Guard.unreplayed H).record w p d) :=
  have : Decidable (∀ q ∈ w.peers, H.scid q = H.scid p → q = p) := List.decidableBAll _ _
  inferInstanceAs (Decidable (_ ∧ _))

instance (w : World) (k : HtlcKey) (l : ForwardLink) : Decidable ((Guard.unreplayed H).link w k l) :=
  List.decidableBAll (fun k' => ∀ l' ∈ w.link k', l'.upstream = l.upstream → k' = k) w.linkKeys

/-- The hook for the HTLC 7 of the node's channel 55, which goes to the client. -/
def replayedHook (_ : World) : Op := .htlcAccepted
  { targetScid := some (Host.transparent.scid openPeer)
    amountMsat := some 1000
    forwardAmount := some 1000
    paymentHash := some (ByteVec.fill 32 3)
    cltvExpiry := some 1200
    outgoingCltvValue := some 1100
    nextOnion := some (List.replicate 1366 0)
    htlcId := some 7
    shortChannelId := some 55
    sharedSecret := some none }

end Canopus
