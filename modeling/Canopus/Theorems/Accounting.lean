import Canopus.Theorems.Foldable

/-! The accounts of a fold. Each resolution is paired with the HTLC that it takes out of the state that the updates
    before it lead to. A balance changes by what its party adds, by the HTLCs that it fulfils with their preimages,
    and by its own HTLCs that come back failed; nothing else credits it. -/

namespace Canopus
open StateManager
open Buffer (bind_eq_ok)

/-- The HTLC that an update takes out of a state. -/
def LastCrossSignedState.htlcTaken (s : LastCrossSignedState) (u : UncommittedUpdate) : Option UpdateAddHtlc :=
  match resolutionKey u with
  | some (true, id) => s.incomingHtlcs.find? (·.id == id)
  | some (false, id) => s.outgoingHtlcs.find? (·.id == id)
  | none => none

/-- A resolution with the HTLC that it takes out. -/
abbrev Removal := UncommittedUpdate × UpdateAddHtlc

/-- The removals of a fold, each found in the state that the updates before it lead to. -/
def removalsFrom (C : Crypto) : LastCrossSignedState → List UncommittedUpdate → List Removal
  | _, [] => []
  | s, u :: us => match applyUpdate C s u with
    | .ok t => ((s.htlcTaken u).map (u, ·)).toList ++ removalsFrom C t us
    | .error _ => []

def StateManager.removals (C : Crypto) (sm : StateManager) : List Removal :=
  removalsFrom C { sm.lcss with localUpdates := 0, remoteUpdates := 0 } sm.uncommitted

def PendingUpdate.preimage? : PendingUpdate → Option (ByteVec 32)
  | .fulfill _ _ preimage => some preimage
  | _ => none

/-- The preimage of a fulfil of either party. -/
def UncommittedUpdate.preimage? : UncommittedUpdate → Option (ByteVec 32)
  | .ofLocal u | .ofRemote u => u.preimage?

/-- The HTLCs that the resolutions of one party take out. -/
def takenBy (isLocal : Bool) (rs : List Removal) : List UpdateAddHtlc :=
  (rs.filter fun r => r.1.isLocal == isLocal).map (·.2)

/-- Those of them that it fulfils. -/
def fulfilledBy (isLocal : Bool) (rs : List Removal) : List UpdateAddHtlc :=
  takenBy isLocal (rs.filter (·.1.preimage?.isSome))

/-- And those that it fails, the malformed ones among them. -/
def failedBy (isLocal : Bool) (rs : List Removal) : List UpdateAddHtlc :=
  takenBy isLocal (rs.filter (·.1.preimage?.isNone))

/-- The updates `us` lead from `s` to `t` by the removals `rs`. -/
structure Accounts (C : Crypto) (s : LastCrossSignedState) (us : List UncommittedUpdate) (rs : List Removal)
    (t : LastCrossSignedState) : Prop where
  funds : t.funds = s.funds
  remote : t.remoteBalanceMsat.toNat + totalAmount (remoteAdds us) =
    s.remoteBalanceMsat.toNat + totalAmount (fulfilledBy false rs) + totalAmount (failedBy true rs)
  own : t.localBalanceMsat.toNat + totalAmount (localAdds us) =
    s.localBalanceMsat.toNat + totalAmount (fulfilledBy true rs) + totalAmount (failedBy false rs)
  /-- every resolution takes out one HTLC, -/
  resolutions : rs.map (·.1) = us.filter fun u => (resolutionKey u).isSome
  /-- those of the host out of the incoming ones, -/
  incoming : (t.incomingHtlcs ++ takenBy true rs).Perm (s.incomingHtlcs ++ remoteAdds us)
  /-- those of the client out of the outgoing ones, -/
  outgoing : (t.outgoingHtlcs ++ takenBy false rs).Perm (s.outgoingHtlcs ++ localAdds us)
  /-- and a fulfil has the preimage of its payment hash. -/
  preimages : ∀ r ∈ rs, ∀ preimage, r.1.preimage? = some preimage → C.sha256 preimage.toList = r.2.paymentHash

section
variable {C : Crypto} {s t r : LastCrossSignedState} {us vs : List UncommittedUpdate} {rs qs : List Removal}
  {u : UncommittedUpdate} {isLocal : Bool}

/-! ### Sequences -/

theorem takenBy_append : takenBy isLocal (rs ++ qs) = takenBy isLocal rs ++ takenBy isLocal qs := by
  simp [takenBy]

theorem fulfilledBy_append : fulfilledBy isLocal (rs ++ qs) = fulfilledBy isLocal rs ++ fulfilledBy isLocal qs := by
  simp [fulfilledBy, takenBy_append]

theorem failedBy_append : failedBy isLocal (rs ++ qs) = failedBy isLocal rs ++ failedBy isLocal qs := by
  simp [failedBy, takenBy_append]

/-- The HTLCs after two folds, from those after each. -/
theorem perm_append {a b c taken taken' adds adds' : List UpdateAddHtlc} (h : (b ++ taken).Perm (a ++ adds))
    (h' : (c ++ taken').Perm (b ++ adds')) : (c ++ (taken ++ taken')).Perm (a ++ (adds ++ adds')) := by
  calc c ++ (taken ++ taken')
      _ |>.Perm (c ++ taken' ++ taken) := by
        rw [List.append_assoc]
        exact List.perm_append_comm.append_left c
      _ |>.Perm (b ++ adds' ++ taken) := h'.append_right taken
      _ |>.Perm (b ++ taken ++ adds') := by
        rw [List.append_assoc, List.append_assoc]
        exact List.perm_append_comm.append_left b
      _ |>.Perm (a ++ adds ++ adds') := h.append_right adds'
      _ |>.Perm (a ++ (adds ++ adds')) := by rw [List.append_assoc]

theorem Accounts.append (h : Accounts C s us rs t) (h' : Accounts C t vs qs r) :
    Accounts C s (us ++ vs) (rs ++ qs) r where
  funds := h'.funds.trans h.funds
  remote := by
    have := h.remote
    have := h'.remote
    simp only [remoteAdds_append, fulfilledBy_append, failedBy_append, totalAmount_append]
    omega
  own := by
    have := h.own
    have := h'.own
    simp only [localAdds_append, fulfilledBy_append, failedBy_append, totalAmount_append]
    omega
  resolutions := by rw [List.map_append, List.filter_append, h.resolutions, h'.resolutions]
  incoming := by
    rw [takenBy_append, remoteAdds_append]
    exact perm_append h.incoming h'.incoming
  outgoing := by
    rw [takenBy_append, localAdds_append]
    exact perm_append h.outgoing h'.outgoing
  preimages x hx := (List.mem_append.mp hx).elim (h.preimages x) (h'.preimages x)

/-! ### The other view -/

def Removal.swap (x : Removal) : Removal := (x.1.swap, x.2)

theorem UncommittedUpdate.swap_swap (u : UncommittedUpdate) : u.swap.swap = u := by
  cases u <;> rfl

theorem UncommittedUpdate.preimage?_swap (u : UncommittedUpdate) : u.swap.preimage? = u.preimage? := by
  cases u <;> rfl

theorem takenBy_swap (rs : List Removal) : takenBy isLocal (rs.map Removal.swap) = takenBy (!isLocal) rs := by
  unfold takenBy
  rw [List.filter_map, List.map_map]
  congr 1
  refine List.filter_congr ?_
  rintro ⟨u, h⟩ -
  cases u <;> cases isLocal <;> rfl

theorem fulfilledBy_swap (rs : List Removal) : fulfilledBy isLocal (rs.map Removal.swap) = fulfilledBy (!isLocal) rs := by
  unfold fulfilledBy
  rw [List.filter_map, takenBy_swap]
  simp only [Function.comp_def, Removal.swap, UncommittedUpdate.preimage?_swap]

theorem failedBy_swap (rs : List Removal) : failedBy isLocal (rs.map Removal.swap) = failedBy (!isLocal) rs := by
  unfold failedBy
  rw [List.filter_map, takenBy_swap]
  simp only [Function.comp_def, Removal.swap, UncommittedUpdate.preimage?_swap]

theorem localAdds_eq_swap (us : List UncommittedUpdate) : localAdds us = remoteAdds (us.map .swap) := by
  rw [remoteAdds_eq_swap, List.map_map]
  simp only [Function.comp_def, UncommittedUpdate.swap_swap, List.map_id']

/-- The counterparty keeps the same accounts. -/
theorem Accounts.swap (h : Accounts C s us rs t) :
    Accounts C s.reverse (us.map .swap) (rs.map Removal.swap) t.reverse where
  funds := by rw [funds_reverse, funds_reverse, h.funds]
  remote := by
    rw [← localAdds_eq_swap, fulfilledBy_swap, failedBy_swap]
    exact h.own
  own := by
    rw [← remoteAdds_eq_swap, fulfilledBy_swap, failedBy_swap]
    exact h.remote
  resolutions := by
    rw [List.map_map, List.filter_map]
    simp only [Function.comp_def, Removal.swap, resolutionKey_swap, Option.isSome_map, ← h.resolutions, List.map_map]
  incoming := by
    rw [takenBy_swap, ← localAdds_eq_swap]
    exact h.outgoing
  outgoing := by
    rw [takenBy_swap, ← remoteAdds_eq_swap]
    exact h.incoming
  preimages x hx preimage hp := by
    obtain ⟨y, hy, rfl⟩ := List.mem_map.mp hx
    exact h.preimages y hy preimage (y.1.preimage?_swap ▸ hp)

theorem htlcTaken_swap (s : LastCrossSignedState) (u : UncommittedUpdate) : s.reverse.htlcTaken u.swap = s.htlcTaken u := by
  simp only [LastCrossSignedState.htlcTaken, resolutionKey_swap]
  rcases resolutionKey u with _ | ⟨_ | _, id⟩ <;> rfl

/-! ### One update -/

theorem perm_eraseP {htlcs : List UpdateAddHtlc} {h : UpdateAddHtlc} {id : UInt64}
    (hf : htlcs.find? (·.id == id) = some h) : (htlcs.eraseP (·.id == id) ++ [h]).Perm htlcs := by
  induction htlcs with
  | nil => simp at hf
  | cons x xs ih =>
    by_cases hx : x.id = id
    · simp only [List.find?_cons, hx, beq_self_eq_true, Option.some.injEq] at hf
      subst hf
      rw [List.eraseP_cons_of_pos (by simpa using hx)]
      exact List.perm_append_comm
    · rw [List.find?_cons_of_neg (by simpa using hx)] at hf
      rw [List.eraseP_cons_of_neg (by simpa using hx)]
      exact (ih hf).cons x

/-- A resolution by the host, with what it does to the balances. -/
theorem Accounts.resolved {u : PendingUpdate} {h : UpdateAddHtlc} {id : UInt64} (hfunds : t.funds = s.funds)
    (hk : resolutionKey (.ofLocal u) = some (true, id)) (hf : s.incomingHtlcs.find? (·.id == id) = some h)
    (hin : t.incomingHtlcs = s.incomingHtlcs.eraseP (·.id == id)) (hout : t.outgoingHtlcs = s.outgoingHtlcs)
    (hown : t.localBalanceMsat.toNat = s.localBalanceMsat.toNat + if u.preimage?.isSome then h.amountMsat.toNat else 0)
    (hremote : t.remoteBalanceMsat.toNat =
      s.remoteBalanceMsat.toNat + if u.preimage?.isSome then 0 else h.amountMsat.toNat)
    (hp : ∀ preimage, u.preimage? = some preimage → C.sha256 preimage.toList = h.paymentHash) :
    Accounts C s [.ofLocal u] ((s.htlcTaken (.ofLocal u)).map (.ofLocal u, ·)).toList t := by
  have htaken : s.htlcTaken (.ofLocal u) = some h := by
    simp only [LastCrossSignedState.htlcTaken, hk, hf]
  have hpreimage : (UncommittedUpdate.ofLocal u).preimage? = u.preimage? := rfl
  have hremoteAdds : remoteAdds [.ofLocal u] = [] := rfl
  have hlocalAdds : localAdds [.ofLocal u] = [] := localAdds_resolutions (by simp [hk])
  rw [htaken]
  refine ⟨hfunds, ?_, ?_, ?_, ?_, ?_, ?_⟩
  · rw [hremoteAdds, hremote]
    cases hu : u.preimage? <;> simp [fulfilledBy, failedBy, takenBy, totalAmount, hpreimage, hu, UncommittedUpdate.isLocal]
  · rw [hlocalAdds, hown]
    cases hu : u.preimage? <;> simp [fulfilledBy, failedBy, takenBy, totalAmount, hpreimage, hu, UncommittedUpdate.isLocal]
  · simp [hk]
  · rw [hin, hremoteAdds, List.append_nil]
    exact perm_eraseP hf
  · rw [hout, hlocalAdds]
    exact List.Perm.refl _
  · intro x hx preimage hx'
    obtain rfl : x = (.ofLocal u, h) := by simpa using hx
    exact hp preimage hx'

theorem Accounts.ofLocal {u : PendingUpdate} (ha : applyUpdate C s (.ofLocal u) = .ok t) :
    Accounts C s [.ofLocal u] ((s.htlcTaken (.ofLocal u)).map (.ofLocal u, ·)).toList t := by
  have hfunds := (applyUpdate_keeps ha).1
  cases applyUpdate_local ha with
  | add hb =>
    refine ⟨hfunds, rfl, hb.symm, rfl, ?_, ?_, ?_⟩
    · exact List.Perm.refl _
    · simp [LastCrossSignedState.htlcTaken, resolutionKey, takenBy, localAdds]
    · simp [LastCrossSignedState.htlcTaken, resolutionKey]
  | fulfill hf hb =>
    obtain ⟨h, hf', hp⟩ := preimage_of_applied ha
    obtain rfl := Option.some.inj (hf'.symm.trans hf)
    refine .resolved hfunds rfl hf rfl rfl hb rfl ?_
    rintro _ ⟨⟩
    exact hp
  | fail hu hf hb =>
    rcases hu with ⟨_, _, rfl⟩ | ⟨_, _, _, rfl⟩
    · exact .resolved hfunds rfl hf rfl rfl rfl hb (by simp [PendingUpdate.preimage?])
    · exact .resolved hfunds rfl hf rfl rfl rfl hb (by simp [PendingUpdate.preimage?])

/-- An update of the client is one of the host in the other view. -/
theorem applyUpdate_accounts (ha : applyUpdate C s u = .ok t) :
    Accounts C s [u] ((s.htlcTaken u).map (u, ·)).toList t := by
  cases u with
  | ofLocal u => exact .ofLocal ha
  | ofRemote u =>
    have hswap := applyUpdate_swap (C := C) s (.ofRemote u)
    rw [ha] at hswap
    have hmirror := (Accounts.ofLocal (s := s.reverse) (t := t.reverse) hswap).swap
    rw [LastCrossSignedState.reverse_reverse, LastCrossSignedState.reverse_reverse] at hmirror
    have htaken : s.reverse.htlcTaken (.ofLocal u) = s.htlcTaken (.ofRemote u) := htlcTaken_swap s (.ofRemote u)
    rw [htaken] at hmirror
    cases htlc? : s.htlcTaken (.ofRemote u) with
    | none =>
      rw [htlc?] at hmirror
      exact hmirror
    | some h =>
      rw [htlc?] at hmirror
      exact hmirror

/-! ### The fold -/

theorem applyUpdates_accounts (ha : applyUpdates C s us = .ok t) : Accounts C s us (removalsFrom C s us) t := by
  induction us generalizing s with
  | nil =>
    cases ha
    exact ⟨rfl, rfl, rfl, rfl, List.Perm.refl _, List.Perm.refl _, by simp [removalsFrom]⟩
  | cons u us ih =>
    obtain ⟨s', hs', ha⟩ := bind_eq_ok.mp ha
    have hone := applyUpdate_accounts hs'
    have hremovals : removalsFrom C s (u :: us) =
        ((s.htlcTaken u).map (u, ·)).toList ++ removalsFrom C s' us := by
      simp only [removalsFrom, hs']
    rw [hremovals]
    exact hone.append (ih ha)

/-- A fulfil of the list has the preimage for the HTLC that it takes out. -/
theorem Accounts.fulfils {preimage : ByteVec 32} (h : Accounts C s us rs t) (hu : u ∈ us)
    (hp : u.preimage? = some preimage) : ∃ htlc, (u, htlc) ∈ rs ∧ C.sha256 preimage.toList = htlc.paymentHash := by
  have hk : (resolutionKey u).isSome := by
    rcases u with (u | u) <;> cases u <;> simp_all [UncommittedUpdate.preimage?, PendingUpdate.preimage?, resolutionKey]
  have hmem : u ∈ rs.map (·.1) := by
    rw [h.resolutions]
    exact List.mem_filter.mpr ⟨hu, hk⟩
  obtain ⟨⟨u', htlc⟩, hr, rfl⟩ := List.mem_map.mp hmem
  exact ⟨htlc, hr, h.preimages _ hr preimage hp⟩

/-- The accounts of the next state: the funds are the same, each balance changes by the HTLCs that its party adds, by
    those that it fulfils with their preimages and by its own that the other fails, and each fulfil has its preimage. -/
theorem lcssNext_accounts {n : LastCrossSignedState} (hn : lcssNext C ⟨s, us⟩ = .ok n) :
    Accounts C s us (StateManager.removals C ⟨s, us⟩) n ∧
    ∀ u ∈ us, ∀ preimage, u.preimage? = some preimage →
      ∃ h, (u, h) ∈ StateManager.removals C ⟨s, us⟩ ∧ C.sha256 preimage.toList = h.paymentHash := by
  obtain ⟨r, hr, rfl⟩ := lcssNext_eq_ok hn
  have h := applyUpdates_accounts hr
  refine ⟨?_, fun u hu preimage hp => h.fulfils hu hp⟩
  -- The counters and the block day are no part of the accounts.
  obtain ⟨funds, remote, own, resolutions, incoming, outgoing, preimages⟩ := h
  exact ⟨funds, remote, own, resolutions, incoming, outgoing, preimages⟩

/-- The host settles an HTLC while the client adds another. -/
theorem lcssNext_accounts_settling : ∃ n, lcssNext .transparent ⟨heldState, [.ofLocal heldFulfill, .ofRemote lateAdd]⟩ =
      .ok n ∧
    Accounts .transparent heldState [.ofLocal heldFulfill, .ofRemote lateAdd]
      (StateManager.removals .transparent ⟨heldState, [.ofLocal heldFulfill, .ofRemote lateAdd]⟩) n := by
  obtain ⟨n, hn⟩ := exists_eq_ok
    (x := lcssNext .transparent ⟨heldState, [.ofLocal heldFulfill, .ofRemote lateAdd]⟩) (by decide +kernel)
  exact ⟨n, hn, (lcssNext_accounts hn).1⟩

end

end Canopus
