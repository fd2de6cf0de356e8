import Canopus.Theorems.Replay
import Canopus.Theorems.Restoration

/-! The ids of incoming HTLCs. A client chooses the id of an HTLC that it adds, and the handler takes
    whatever id it is given: a second HTLC under an id that is in use is added like the first. Everything
    after it finds HTLCs by their ids. Where clients add HTLCs under free ids only, the ids of the incoming
    HTLCs of a channel, committed and pending, are distinct in every reachable state. -/

namespace Canopus
open Effect StateManager

variable {H : Host} {K : Ctx} {w w' : World} {p q : PublicKey} {d d' : ChannelData} {c : Change} {act : Act}
  {s t : LastCrossSignedState} {us vs : List UncommittedUpdate} {C : Crypto}

/-! ### Pending incoming HTLCs -/

/-- The HTLCs that the client adds by a list of updates. -/
def remoteAdds (us : List UncommittedUpdate) : List UpdateAddHtlc :=
  us.filterMap fun
    | .ofRemote (.add htlc) => some htlc
    | _ => none

/-- The HTLCs of the client: committed, or added and not committed yet. -/
def ChannelData.received (d : ChannelData) : List UpdateAddHtlc := d.lcss.incomingHtlcs ++ remoteAdds d.uncommitted

/-- The handler adds the HTLC: the channel is active and the client can pay for it. -/
def TakesAdd (H : Host) (d : ChannelData) (htlc : UpdateAddHtlc) : Prop :=
  deriveStatus d = .active ∧ ∃ next, d.next H = .ok next ∧ htlc.amountMsat ≤ next.remoteBalanceMsat

/-- Runs in which every HTLC that a client adds has an id that none of the client's HTLCs in the channel has, and with
    ideal signatures. -/
def Guard.freshAdds (H : Host) : Guard := .ofOp fun w op =>
  (∀ p e htlc, op = .message p e (.updateAddHtlc htlc) → ∀ d, w.channel p = some d → TakesAdd H d htlc →
    htlc.id ∉ d.received.map (·.id)) ∧ (Guard.unforged H).op w op

theorem remoteAdds_append (us vs : List UncommittedUpdate) : remoteAdds (us ++ vs) = remoteAdds us ++ remoteAdds vs :=
  List.filterMap_append

theorem remoteAdds_local (h : ∀ u ∈ us, u.isLocal = true) : remoteAdds us = [] := by
  refine List.filterMap_eq_nil_iff.mpr ?_
  intro u hu
  have hl := h u hu
  cases u with
  | ofLocal u => rfl
  | ofRemote u => cases hl

/-- What the client adds, the host adds in the other view. -/
theorem remoteAdds_eq_swap (us : List UncommittedUpdate) : remoteAdds us = localAdds (us.map .swap) := by
  unfold remoteAdds localAdds
  rw [List.filterMap_map]
  refine List.filterMap_congr ?_
  intro u _
  cases u with
  | ofLocal u => rfl
  | ofRemote u => cases u <;> rfl

/-- The incoming HTLCs of the next state are among those committed and pending. -/
theorem lcssNext_received (hn : lcssNext C ⟨s, us⟩ = .ok t) : t.incomingHtlcs.Sublist (s.incomingHtlcs ++ remoteAdds us) := by
  obtain ⟨r, hr, rfl⟩ := lcssNext_eq_ok hn
  have hswap := applyUpdates_swap (C := C) us { s with localUpdates := 0, remoteUpdates := 0 }
  rw [hr] at hswap
  rw [remoteAdds_eq_swap]
  exact applyUpdates_offers hswap

/-! ### Changes of a record -/

/-- The client's HTLCs have distinct ids, and a proposal lists none. -/
structure DistinctRecord (d : ChannelData) : Prop where
  received : DistinctIds d.received
  proposal : ∀ s, d.proposedOverride = some s → s.incomingHtlcs = []

theorem DistinctRecord.sublist (h : DistinctRecord d) (hs : d'.received.Sublist d.received)
    (hp : d'.proposedOverride = d.proposedOverride) : DistinctRecord d' where
  received := h.received.sublist hs
  proposal := by
    rw [hp]
    exact h.proposal

/-- A record with no pending HTLCs of the client and without a proposal. -/
theorem DistinctRecord.of_lcss (hu : d.uncommitted = []) (hl : DistinctIds d.lcss.incomingHtlcs)
    (hp : ∀ s, d.proposedOverride = some s → s.incomingHtlcs = []) : DistinctRecord d where
  received := by
    unfold ChannelData.received
    rw [hu]
    exact (List.append_nil d.lcss.incomingHtlcs).symm ▸ hl
  proposal := hp

theorem DistinctRecord.push (h : DistinctRecord d) {u : UncommittedUpdate} (hu : remoteAdds [u] = []) :
    DistinctRecord (d.push u) := by
  refine h.sublist ?_ rfl
  show (d.lcss.incomingHtlcs ++ remoteAdds (d.uncommitted ++ [u])).Sublist _
  rw [remoteAdds_append, hu, List.append_nil]
  exact List.Sublist.refl _

theorem remoteAdds_resolution {u : UncommittedUpdate} {key : Bool × UInt64} (h : resolutionKey u = some key) :
    remoteAdds [u] = [] := by
  cases u with
  | ofLocal u => rfl
  | ofRemote u =>
    cases u with
    | add htlc => cases h
    | _ => rfl

/-- The incoming HTLCs of what the host signs for a channel have distinct ids. -/
def SignsDistinct (w : World) : Prop := ∀ q s, (q, s) ∈ w.signed → DistinctIds s.incomingHtlcs

theorem DistinctRecord.changes (h : DistinctRecord d) (hsigned : SignsDistinct K.start)
    (hop : (Guard.freshAdds K.host).op K.start K.op) (hc : Changes K.host p c d d') (ho : c.Cause K w p d) :
    DistinctRecord d' := by
  cases hc with
  | deduplicated =>
    refine h.sublist ?_ rfl
    exact (List.Sublist.refl _).append ((dedupFrom_sublist [] d.uncommitted).filterMap _)
  | established _ _ hl =>
    refine h.sublist ?_ rfl
    unfold ChannelData.received
    rw [(SignedAlike.sign hl).incoming]
    exact List.sublist_append_right _ _
  | @committed _ m next lcss _ _ hn _ hl =>
    refine .of_lcss rfl ?_ h.proposal
    show DistinctIds lcss.incomingHtlcs
    rw [(SignedAlike.sign hl).incoming]
    show DistinctIds next.incomingHtlcs
    exact h.received.sublist (lcssNext_received hn)
  | @overridden _ m proposed lcss _ hp _ hl =>
    refine .of_lcss rfl ?_ fun s hs => by cases hs
    show DistinctIds lcss.incomingHtlcs
    rw [(SignedAlike.sign hl).incoming]
    show DistinctIds proposed.incomingHtlcs
    rw [h.proposal _ hp]
    exact List.nodup_nil
  | @receivedAdd _ htlc next hs hn ha =>
    obtain ⟨⟨e, ho⟩, hd⟩ := ho
    have hfresh := hop.1 p e htlc ho d hd ⟨hs, next, hn, ha⟩
    refine ⟨?_, h.proposal⟩
    show DistinctIds (d.lcss.incomingHtlcs ++ remoteAdds (d.uncommitted ++ [.ofRemote (.add htlc)]))
    rw [remoteAdds_append, ← List.append_assoc]
    show ((d.received ++ [htlc]).map (·.id)).Nodup
    rw [List.map_append, List.nodup_append]
    refine ⟨h.received, List.nodup_singleton _, ?_⟩
    rintro id hid _ hmem rfl
    rw [List.map_singleton, List.mem_singleton] at hmem
    exact hfresh (hmem ▸ hid)
  | receivedResolution _ _ _ hk => exact h.push (remoteAdds_resolution hk)
  | errored extra hd =>
    subst hd
    refine h.sublist ?_ rfl
    unfold ChannelData.received
    rw [remoteAdds_append, ← List.append_assoc]
    exact List.sublist_append_left _ _
  | resolved => exact h.push rfl
  | added => exact h.push rfl
  | resized _ _ _ _ _ _ _ hl =>
    obtain ⟨_, -, rfl⟩ := sign_eq_ok hl
    exact ⟨h.received, h.proposal⟩
  | proposed hd _ hl =>
    subst hd
    refine ⟨h.received, ?_⟩
    intro s hs
    obtain rfl := Option.some.inj hs
    exact (SignedAlike.sign hl).incoming
  | @adopted _ m hown =>
    obtain ⟨⟨e, ho⟩, -⟩ := ho
    obtain ⟨q, s, hmem, halike⟩ := hop.2 p e m ho hown
    refine .of_lcss rfl ?_ h.proposal
    show DistinctIds m.reverse.incomingHtlcs
    rw [halike.incoming]
    exact hsigned q s hmem
  | _ => exact h.sublist (List.Sublist.refl _) rfl

/-! ### Runs -/

/-- All records have distinct ids, and so have all states that the host has signed. -/
structure DistinctWorld (w : World) : Prop where
  records : ∀ p d, w.channel p = some d → DistinctRecord d
  signed : SignsDistinct w

theorem DistinctWorld.signs (h : DistinctWorld w) (hs : Signs H w p s) : DistinctIds s.incomingHtlcs := by
  cases hs with
  | @next us d next _ _ _ hd _ hn hs ho =>
    rw [(SignedAlike.sign hs).incoming]
    show DistinctIds next.incomingHtlcs
    refine (h.records p d hd).received.sublist ((lcssNext_received hn).trans ?_)
    rw [remoteAdds_append, remoteAdds_local ho, List.append_nil]
    exact List.Sublist.refl _
  | opened _ _ hs =>
    rw [(SignedAlike.sign hs).incoming]
    exact List.nodup_nil
  | @overridden d proposed _ _ hd hp hs =>
    rw [(SignedAlike.sign hs).incoming]
    show DistinctIds proposed.incomingHtlcs
    rw [(h.records p d hd).proposal _ hp]
    exact List.nodup_nil
  | proposed _ _ hs =>
    rw [(SignedAlike.sign hs).incoming]
    exact List.nodup_nil
  | @resized d _ _ _ hd _ _ hs =>
    rw [(SignedAlike.sign hs).incoming]
    exact (h.records p d hd).received.sublist (List.sublist_append_left _ _)

theorem DistinctWorld.step (h : DistinctWorld w) (hstart : SignsDistinct K.start)
    (hop : (Guard.freshAdds K.host).op K.start K.op) (hs : Step K act w w') : DistinctWorld w' where
  records := by
    intro p d hd
    cases hs.record p with
    | same heq => exact h.records p d (heq.symm.trans hd)
    | created _ _ _ _ heq =>
      obtain rfl := Option.some.inj (heq.symm.trans hd)
      exact ⟨List.nodup_nil, fun s hs => by cases hs⟩
    | wrote hd₀ hc ho _ _ heq =>
      obtain rfl := Option.some.inj (heq.symm.trans hd)
      exact (h.records p _ hd₀).changes hstart hop hc ho
    | removed _ heq => cases heq.symm.trans hd
  signed := by
    intro q s hmem
    rcases hs.signed_eq with he | ⟨p, t, hsign, he⟩
    · exact h.signed q s (he ▸ hmem)
    · rw [he, List.mem_append, List.mem_singleton] at hmem
      rcases hmem with hmem | hmem
      · exact h.signed q s hmem
      · cases hmem
        exact h.signs hsign

/-- In every run in which clients add HTLCs under free ids only, and with ideal signatures, the ids of the committed
    incoming HTLCs of a channel and of those that its client has added since are distinct. -/
theorem incoming_ids_distinct (H : Host) (w : World) (p : PublicKey) (d : ChannelData)
    (hw : Reachable H (Guard.freshAdds H) w) (hd : w.channel p = some d) :
    (d.lcss.incomingHtlcs.map (·.id) ++ (remoteAdds d.uncommitted).map (·.id)).Nodup := by
  have hworld : DistinctWorld w := by
    refine hw.keeps (P := DistinctWorld) ?_ ?_
    · exact ⟨fun _ _ hd => (by cases hd), fun _ _ hs => by cases hs⟩
    · intro K act w w' hK _ hop hstart _ hs h
      subst hK
      exact h.step hstart.signed hop hs
  rw [← List.map_append]
  exact (hworld.records p d hd).received

/-- The client adds an HTLC, commits to it, and adds another one. -/
def addingScript (second : UInt64) : List (World → Op) := openScript ++ [
  clientAdds openKey 1 1000 (ByteVec.fill 32 3) 77, clientCommits .transparent openKey,
  clientAdds openKey second 1000 (ByteVec.fill 32 4) 77]

/-- A check of the guard that allows no presented states. -/
def addsFreshly (w : World) : Op → Bool
  | .message p _ (.updateAddHtlc htlc) => (w.channel p).all fun d => !(d.received.map (·.id)).contains htlc.id
  | .message _ _ (.lastCrossSignedState _) => false
  | _ => true

theorem freshAdds_of_check {op : Op} (h : addsFreshly w op = true) : (Guard.freshAdds H).op w op := by
  refine ⟨?_, ?_⟩
  · rintro p e htlc rfl d hd -
    have h : (w.channel p).all (fun d => !(d.received.map (·.id)).contains htlc.id) = true := h
    rw [hd] at h
    simpa using h
  · rintro p e m rfl
    cases h

theorem incoming_ids_distinct_added : ∃ d, (calmRun .transparent (addingScript 2)).channel openPeer = some d ∧
    d.lcss.incomingHtlcs.map (·.id) = [1] ∧ (remoteAdds d.uncommitted).map (·.id) = [2] ∧
    (d.lcss.incomingHtlcs.map (·.id) ++ (remoteAdds d.uncommitted).map (·.id)).Nodup := by
  have hrun : (followsOps addsFreshly .transparent World.empty (addingScript 2) &&
      ((calmRun .transparent (addingScript 2)).channel openPeer).any fun d => decide (d.lcss.incomingHtlcs.map (·.id) = [1] ∧
        (remoteAdds d.uncommitted).map (·.id) = [2])) = true := by
    decide +kernel
  obtain ⟨hfollows, hrun⟩ := Bool.and_eq_true_iff.mp hrun
  obtain ⟨d, hd, hrun⟩ := exists_of_any hrun
  obtain ⟨hin, hadds⟩ := of_decide_eq_true hrun
  have hw : Reachable .transparent (Guard.freshAdds .transparent) _ :=
    calmRun_follows (followsOps_sound (fun _ _ => freshAdds_of_check) hfollows)
  exact ⟨d, hd, hin, hadds, incoming_ids_distinct .transparent _ openPeer d hw hd⟩

/-- The client adds the second HTLC under the id of the first. -/
theorem incoming_ids_repeated : ¬ ∀ (H : Host) (w : World) (p : PublicKey) (d : ChannelData), Reachable H Guard.free w →
    w.channel p = some d → (d.lcss.incomingHtlcs.map (·.id) ++ (remoteAdds d.uncommitted).map (·.id)).Nodup := by
  intro hall
  have hrun : ((calmRun .transparent (addingScript 1)).channel openPeer).any (fun d => decide
      (d.lcss.incomingHtlcs.map (·.id) ++ (remoteAdds d.uncommitted).map (·.id) = [1, 1])) = true := by
    decide +kernel
  obtain ⟨d, hd, hrun⟩ := exists_of_any hrun
  have hnodup := hall .transparent _ openPeer d (calmRun_reachable _ _) hd
  rw [of_decide_eq_true hrun] at hnodup
  exact absurd hnodup (by decide)

end Canopus
