import Canopus.Theorems.Accounting

/-! The repair of a pending list. What it removes are the later resolutions of an HTLC that an earlier one has resolved.
    A list with such a resolution does not fold, as long as no two HTLCs have one id: the first one takes the HTLC out of
    the state, and the second one does not find it. So a list that folds is not repaired. -/

namespace Canopus
open StateManager

variable {C : Crypto} {s t : LastCrossSignedState} {us : List UncommittedUpdate} {rs : List Removal}
  {u : UncommittedUpdate} {seen : List (Bool × UInt64)} {key : Bool × UInt64}

def UncommittedUpdate.isAdd : UncommittedUpdate → Bool
  | .ofLocal (.add _) | .ofRemote (.add _) => true
  | _ => false

/-- The update resolves the HTLC of the key. -/
def UncommittedUpdate.resolves (key : Bool × UInt64) (u : UncommittedUpdate) : Bool := resolutionKey u == some key

/-! ### What is kept -/

theorem isAdd_eq_isNone (u : UncommittedUpdate) : u.isAdd = (resolutionKey u).isNone := by
  rcases u with (u | u) <;> cases u <;> rfl

theorem filter_isAdd_dedupFrom (seen : List (Bool × UInt64)) (us : List UncommittedUpdate) :
    (dedupFrom seen us).filter (·.isAdd) = us.filter (·.isAdd) := by
  induction us generalizing seen with
  | nil => rfl
  | cons u us ih =>
    have hadd := isAdd_eq_isNone u
    unfold dedupFrom
    cases hk : resolutionKey u with
    | none =>
      rw [hk] at hadd
      rw [List.filter_cons_of_pos hadd, List.filter_cons_of_pos hadd, ih]
    | some key =>
      rw [hk] at hadd
      have hnot : ¬ u.isAdd = true := by simp [hadd]
      rw [List.filter_cons_of_neg hnot]
      dsimp only
      split
      · exact ih seen
      · rw [List.filter_cons_of_neg hnot, ih]

/-- Of the resolutions of an HTLC the first one is left, if none has been seen before. -/
theorem filter_resolves_dedupFrom (key : Bool × UInt64) (seen : List (Bool × UInt64)) (us : List UncommittedUpdate) :
    (dedupFrom seen us).filter (·.resolves key) = if key ∈ seen then [] else (us.find? (·.resolves key)).toList := by
  induction us generalizing seen with
  | nil => simp [dedupFrom]
  | cons u us ih =>
    unfold dedupFrom
    cases hk : resolutionKey u with
    | none =>
      have hnot : ¬ u.resolves key = true := by simp [UncommittedUpdate.resolves, hk]
      rw [List.filter_cons_of_neg hnot, ih, List.find?_cons_of_neg hnot]
    | some key' =>
      dsimp only
      by_cases hkey : key' = key
      · -- It is a resolution of the HTLC, and the first one unless the key has been seen.
        subst hkey
        have hres : u.resolves key' = true := by simp [UncommittedUpdate.resolves, hk]
        split
        · rename_i hseen
          have hmem := List.contains_iff_mem.mp hseen
          rw [ih, if_pos hmem, if_pos hmem]
        · rename_i hnew
          have hmem : key' ∉ seen := fun h => hnew (List.contains_iff_mem.mpr h)
          rw [List.filter_cons_of_pos hres, ih, if_pos (List.mem_cons_self ..), if_neg hmem, List.find?_cons_of_pos hres]
          rfl
      · have hnot : ¬ u.resolves key = true := by simpa [UncommittedUpdate.resolves, hk] using hkey
        rw [List.find?_cons_of_neg hnot]
        split
        · exact ih seen
        · have hmem : key ∈ key' :: seen ↔ key ∈ seen := by simp [Ne.symm hkey]
          rw [List.filter_cons_of_neg hnot, ih]
          simp only [hmem]

theorem dedup_idem (us : List UncommittedUpdate) :
    deduplicateUncommittedResolutions (deduplicateUncommittedResolutions us) = deduplicateUncommittedResolutions us := by
  obtain ⟨hnodup, hapart⟩ := dedupFrom_nodup [] us
  exact dedupFrom_eq_self hnodup hapart

/-! ### Lists that fold -/

theorem isLocal_of_resolutionKey {side : Bool} {id : UInt64} (hk : resolutionKey u = some (side, id)) : u.isLocal = side := by
  rcases u with (u | u) <;> cases u <;> cases hk <;> rfl

theorem taken_id {h : UpdateAddHtlc} (ht : s.htlcTaken u = some h) : resolutionKey u = some (u.isLocal, h.id) := by
  unfold LastCrossSignedState.htlcTaken at ht
  split at ht
  · rename_i id hk
    have hid : h.id = id := by simpa using List.find?_some ht
    rw [hk, isLocal_of_resolutionKey hk, hid]
  · rename_i id hk
    have hid : h.id = id := by simpa using List.find?_some ht
    rw [hk, isLocal_of_resolutionKey hk, hid]
  · cases ht

/-- A removal takes out the HTLC that its resolution names. -/
theorem removals_key (s : LastCrossSignedState) (us : List UncommittedUpdate) :
    ∀ r ∈ removalsFrom C s us, resolutionKey r.1 = some (r.1.isLocal, r.2.id) := by
  induction us generalizing s with
  | nil => simp [removalsFrom]
  | cons u us ih =>
    intro r hr
    unfold removalsFrom at hr
    split at hr
    · rename_i t _
      rcases List.mem_append.mp hr with hr | hr
      · obtain ⟨h, hh, rfl⟩ := Option.map_eq_some_iff.mp (Option.mem_toList.mp hr)
        exact taken_id hh
      · exact ih t r hr
    · cases hr

/-- The keys that a fold resolves, with the HTLCs that it takes out. -/
theorem Accounts.keys (h : Accounts C s us rs t) (hk : ∀ r ∈ rs, resolutionKey r.1 = some (r.1.isLocal, r.2.id)) :
    us.filterMap resolutionKey = rs.map fun r => (r.1.isLocal, r.2.id) := by
  have hfilter : us.filterMap resolutionKey = (us.filter fun u => (resolutionKey u).isSome).filterMap resolutionKey := by
    rw [List.filterMap_filter]
    refine List.filterMap_congr fun u _ => ?_
    cases resolutionKey u <;> rfl
  calc us.filterMap resolutionKey
    _ = (rs.map (·.1)).filterMap resolutionKey := by rw [hfilter, h.resolutions]
    _ = rs.filterMap fun r => some (r.1.isLocal, r.2.id) := by
      rw [List.filterMap_map]
      exact List.filterMap_congr hk
    _ = rs.map fun r => (r.1.isLocal, r.2.id) := by rw [List.filterMap_eq_map']

/-- Pairs are distinct if those of each side are. -/
theorem nodup_of_sides {l : List (Bool × UInt64)} (h : ∀ side, ((l.filter (·.1 == side)).map (·.2)).Nodup) : l.Nodup := by
  induction l with
  | nil => exact List.nodup_nil
  | cons x l ih =>
    refine List.nodup_cons.mpr ⟨fun hmem => ?_, ih fun side => ?_⟩
    · have hside := h x.1
      rw [List.filter_cons_of_pos (by simp), List.map_cons, List.nodup_cons] at hside
      exact hside.1 (List.mem_map_of_mem (List.mem_filter.mpr ⟨hmem, by simp⟩))
    · exact ((List.sublist_cons_self x l).filter _ |>.map _).nodup (h side)

/-- No two HTLCs of a party have one id, be they committed or pending. -/
structure DistinctHtlcs (s : LastCrossSignedState) (us : List UncommittedUpdate) : Prop where
  incoming : ((s.incomingHtlcs ++ remoteAdds us).map (·.id)).Nodup
  outgoing : ((s.outgoingHtlcs ++ localAdds us).map (·.id)).Nodup

/-- A list that folds resolves every HTLC at most once. -/
theorem Accounts.resolves_once (h : Accounts C s us rs t) (hd : DistinctHtlcs s us)
    (hk : ∀ r ∈ rs, resolutionKey r.1 = some (r.1.isLocal, r.2.id)) : (us.filterMap resolutionKey).Nodup := by
  have htaken : ∀ side, ((takenBy side rs).map (·.id)).Nodup := by
    rintro (_ | _)
    · have hnodup := (h.outgoing.map (·.id)).nodup_iff.mpr hd.outgoing
      rw [List.map_append] at hnodup
      exact (List.sublist_append_right _ _).nodup hnodup
    · have hnodup := (h.incoming.map (·.id)).nodup_iff.mpr hd.incoming
      rw [List.map_append] at hnodup
      exact (List.sublist_append_right _ _).nodup hnodup
  rw [h.keys hk]
  refine nodup_of_sides fun side => ?_
  have hside := htaken side
  unfold takenBy at hside
  rw [List.map_map] at hside
  rw [List.filter_map, List.map_map]
  exact hside

theorem repair_harmless (C : Crypto) :
    (∀ us : List UncommittedUpdate,
      (deduplicateUncommittedResolutions us).Sublist us ∧
      (deduplicateUncommittedResolutions us).filter (·.isAdd) = us.filter (·.isAdd) ∧
      (∀ key, (deduplicateUncommittedResolutions us).filter (·.resolves key) = (us.find? (·.resolves key)).toList) ∧
      deduplicateUncommittedResolutions (deduplicateUncommittedResolutions us) = deduplicateUncommittedResolutions us) ∧
    ∀ (s t : LastCrossSignedState) (us : List UncommittedUpdate), DistinctHtlcs s us → lcssNext C ⟨s, us⟩ = .ok t →
      deduplicateUncommittedResolutions us = us ∧
      ∀ (peer : PublicKey) (d : ChannelData), d.uncommitted = us → repairDuplicateUncommittedResolutions peer d = pure d := by
  refine ⟨fun us => ⟨dedupFrom_sublist [] us, filter_isAdd_dedupFrom [] us, fun key => ?_, dedup_idem us⟩, ?_⟩
  · exact (filter_resolves_dedupFrom key [] us).trans (if_neg List.not_mem_nil)
  · intro s t us hd hn
    have hnodup := (lcssNext_accounts hn).1.resolves_once hd (removals_key _ _)
    refine ⟨dedupFrom_eq_self hnodup fun _ _ => List.not_mem_nil, ?_⟩
    rintro peer d rfl
    exact repair_eq_pure hnodup peer

end Canopus
