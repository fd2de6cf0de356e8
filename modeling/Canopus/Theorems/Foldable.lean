import Canopus.Theorems.Conservation
import Canopus.Theorems.CrossSigned
import Canopus.Theorems.IncomingIds
import Canopus.Theorems.RemoteResolutions

/-! The pending updates fold. Each handler that adds an update checks it in its own way, and the committed state
    under the list is edited too: a resize moves the balance of the host without a look at the list, and opening
    clears the HTLCs. Where the new balance pays for the pending HTLCs, the list of every record folds. -/

namespace Canopus
open Effect StateManager
open Buffer (bind_eq_ok)

variable {H : Host} {K : Ctx} {w w' : World} {p q : PublicKey} {d d' : ChannelData} {c : Change} {act : Act}
  {s s' t : LastCrossSignedState} {us vs : List UncommittedUpdate} {C : Crypto} {u : UncommittedUpdate} {id : UInt64}

/-! ### The condition -/

/-- What an update does to the balance of the host; `incoming` and `outgoing` are the HTLCs that it may resolve. -/
def hostDelta (incoming outgoing : List UpdateAddHtlc) : UncommittedUpdate → Int
  | .ofLocal u => ownDelta incoming u
  | .ofRemote u => otherDelta outgoing u

/-- The balance pays for the updates of a list on the state `s`, each with what those before it give back. -/
def Covers (s : LastCrossSignedState) (us : List UncommittedUpdate) (balance : UInt64) : Prop :=
  ∀ pre, pre <+: us → 0 ≤ (balance.toNat : Int) +
    (pre.map (hostDelta (s.incomingHtlcs ++ remoteAdds us) (s.outgoingHtlcs ++ localAdds us))).sum

/-- No HTLC has two pending resolutions. -/
def ChannelData.ResolvesOnce (d : ChannelData) : Prop := (d.uncommitted.filterMap resolutionKey).Nodup

instance (d : ChannelData) : Decidable d.ResolvesOnce := inferInstanceAs (Decidable (List.Nodup _))

/-- The operation does nothing to the record `d` of `p` that may leave pending updates without what they need: a channel
    is opened with none pending, repeated resolutions are not there to be removed, and a resize that takes from the
    balance of the host leaves enough for the pending HTLCs. -/
structure SparesPending (H : Host) (p : PublicKey) (d : ChannelData) (op : Op) : Prop where
  opened : ∀ e m, op = .message p e (.stateUpdate m) → deriveStatus d = .opening → d.uncommitted = []
  repaired : op.repairs p = true → d.ResolvesOnce
  resized : ∀ e m cap balance, op = .message p e (.resizeChannel m) → Resizes H p d m →
    checkedMul m.newCapacitySat 1000 = some cap → resizedLocalBalance d.lcss cap = some balance →
    balance < d.lcss.localBalanceMsat → d.ResolvesOnce ∧ Covers d.lcss d.uncommitted balance

/-- Runs of such operations, with ideal signatures and secrets that grant no balance above the capacity. -/
def Guard.sparing (H : Host) : Guard := .ofOp fun w op => (∀ p d, w.channel p = some d → SparesPending H p d op) ∧
  (∀ text capacity initial, op = .addSecret text capacity initial → initial ≤ capacity) ∧ (Guard.unforged H).op w op

/-! ### The balance of the host in a fold -/

theorem remoteAdds_ofRemote (u : PendingUpdate) : remoteAdds [.ofRemote u] = addsOf [u] := by
  cases u <;> rfl

/-- Until an incoming HTLC is resolved, its id leads to the same HTLC, be it committed or yet to be added. -/
theorem find_received (ha : applyUpdate C s u = .ok t) (hk : resolutionKey u ≠ some (true, id)) :
    (t.incomingHtlcs ++ remoteAdds us).find? (·.id == id) = (s.incomingHtlcs ++ remoteAdds (u :: us)).find? (·.id == id) := by
  have hcons : remoteAdds (u :: us) = remoteAdds [u] ++ remoteAdds us := remoteAdds_append [u] us
  rw [hcons]
  cases u with
  | ofLocal u =>
    have hnone : remoteAdds [.ofLocal u] = [] := rfl
    rw [hnone, List.nil_append]
    rcases (applyUpdate_local ha).incoming with ⟨-, he⟩ | ⟨id', g, hu, -, he⟩
    · rw [he]
    · rw [he, List.find?_append, List.find?_append, find?_eraseP_ne]
      rintro rfl
      exact hk (resolutionKey_of_resolvedBy hu)
  | ofRemote u =>
    have hin : t.incomingHtlcs = s.incomingHtlcs ++ addsOf [u] := (applyUpdate_remote ha).outgoing
    rw [hin, remoteAdds_ofRemote, List.append_assoc]

theorem find_offered (ha : applyUpdate C s u = .ok t) (hk : resolutionKey u ≠ some (false, id)) :
    (t.outgoingHtlcs ++ localAdds us).find? (·.id == id) = (s.outgoingHtlcs ++ localAdds (u :: us)).find? (·.id == id) := by
  have hswap := applyUpdate_swap (C := C) s u
  rw [ha] at hswap
  have hadds : ∀ vs : List UncommittedUpdate, localAdds vs = remoteAdds (vs.map .swap) := by
    intro vs
    have hid : (vs.map UncommittedUpdate.swap).map UncommittedUpdate.swap = vs := by
      rw [List.map_map]
      refine (List.map_congr_left ?_).trans (List.map_id vs)
      rintro (v | v) - <;> rfl
    rw [remoteAdds_eq_swap, hid]
  rw [hadds, hadds]
  exact find_received (s := s.reverse) (t := t.reverse) hswap (resolutionKey_swap_ne hk)

theorem amountOf_find {htlcs : List UpdateAddHtlc} {h : UpdateAddHtlc} (hf : htlcs.find? (·.id == id) = some h) :
    amountOf htlcs id = h.amountMsat.toNat := by
  simp only [amountOf, hf]

/-- What one update does to the balance of the host. -/
theorem applyUpdate_hostDelta {I O : List UpdateAddHtlc} (ha : applyUpdate C s u = .ok t)
    (hI : ∀ id h, resolutionKey u = some (true, id) → s.incomingHtlcs.find? (·.id == id) = some h →
      I.find? (·.id == id) = some h)
    (hO : ∀ id h, resolutionKey u = some (false, id) → s.outgoingHtlcs.find? (·.id == id) = some h →
      O.find? (·.id == id) = some h) :
    (t.localBalanceMsat.toNat : Int) = s.localBalanceMsat.toNat + hostDelta I O u := by
  cases u with
  | ofLocal u =>
    refine ((applyUpdate_local ha).balances fun id h hu hf => ?_).1
    exact amountOf_find (hI id h (resolutionKey_of_resolvedBy hu) hf)
  | ofRemote u =>
    refine ((applyUpdate_remote ha).balances fun id h hu hf => ?_).2
    refine amountOf_find (hO id h ?_ hf)
    have hswap := resolutionKey_swap (.ofLocal u)
    rw [resolutionKey_of_resolvedBy hu] at hswap
    exact hswap

/-- The balance of the host after a fold in which no HTLC is resolved twice. -/
theorem applyUpdates_hostDelta {I O : List UpdateAddHtlc} (ha : applyUpdates C s us = .ok t)
    (hn : (us.filterMap resolutionKey).Nodup)
    (hI : ∀ id h, (true, id) ∈ us.filterMap resolutionKey →
      (s.incomingHtlcs ++ remoteAdds us).find? (·.id == id) = some h → I.find? (·.id == id) = some h)
    (hO : ∀ id h, (false, id) ∈ us.filterMap resolutionKey →
      (s.outgoingHtlcs ++ localAdds us).find? (·.id == id) = some h → O.find? (·.id == id) = some h) :
    (t.localBalanceMsat.toNat : Int) = s.localBalanceMsat.toNat + (us.map (hostDelta I O)).sum := by
  induction us generalizing s with
  | nil =>
    cases ha
    simp
  | cons u us ih =>
    obtain ⟨s', hs', ha⟩ := bind_eq_ok.mp ha
    have hmem : ∀ key, resolutionKey u = some key → key ∈ (u :: us).filterMap resolutionKey := fun key hk =>
      List.mem_filterMap.mpr ⟨u, List.mem_cons_self .., hk⟩
    have hlater : ∀ key ∈ us.filterMap resolutionKey, key ∈ (u :: us).filterMap resolutionKey ∧ resolutionKey u ≠ some key := by
      intro key hkey
      cases hk : resolutionKey u with
      | none => exact ⟨by rwa [List.filterMap_cons_none hk], fun h => by cases h⟩
      | some key' =>
        rw [List.filterMap_cons_some hk] at hn ⊢
        refine ⟨List.mem_cons_of_mem _ hkey, fun h => ?_⟩
        obtain rfl := Option.some.inj h
        exact (List.nodup_cons.mp hn).1 hkey
    have hone := applyUpdate_hostDelta (I := I) (O := O) hs'
      (fun id h hk hf => hI id h (hmem _ hk) (by rw [List.find?_append, hf]; rfl))
      (fun id h hk hf => hO id h (hmem _ hk) (by rw [List.find?_append, hf]; rfl))
    have hrest := ih (s := s') ha (hn.sublist ((List.sublist_cons_self u us).filterMap _))
      (fun id h hk hf => hI id h (hlater _ hk).1 (by rwa [← find_received hs' (hlater _ hk).2]))
      (fun id h hk hf => hO id h (hlater _ hk).1 (by rwa [← find_offered hs' (hlater _ hk).2]))
    simp only [List.map_cons, List.sum_cons]
    omega

/-! ### Other balances -/

/-- The states list the same HTLCs. -/
def SameHtlcs (s s' : LastCrossSignedState) : Prop :=
  s'.incomingHtlcs = s.incomingHtlcs ∧ s'.outgoingHtlcs = s.outgoingHtlcs

/-- The balances of `t'` and `t` differ as those of `s'` and `s` do. -/
def SameDifference (s s' t t' : LastCrossSignedState) : Prop :=
  t'.localBalanceMsat.toNat + s.localBalanceMsat.toNat = t.localBalanceMsat.toNat + s'.localBalanceMsat.toNat ∧
    t'.remoteBalanceMsat.toNat + s.remoteBalanceMsat.toNat = t.remoteBalanceMsat.toNat + s'.remoteBalanceMsat.toNat

/-- An HTLC is added by a party that can pay for it. -/
def UncommittedUpdate.Paid (s : LastCrossSignedState) : UncommittedUpdate → Prop
  | .ofLocal (.add htlc) => htlc.amountMsat ≤ s.localBalanceMsat
  | .ofRemote (.add htlc) => htlc.amountMsat ≤ s.remoteBalanceMsat
  | _ => True

theorem debit_ok {a b : UInt64} (h : b ≤ a) : debit a b = .ok (a - b) := by
  unfold debit checkedSub
  rw [if_pos h]

theorem preimage_of_applied {cid preimage : ByteVec 32} (ha : applyUpdate C s (.ofLocal (.fulfill cid id preimage)) = .ok t) :
    ∃ h, s.incomingHtlcs.find? (·.id == id) = some h ∧ C.sha256 preimage.toList = h.paymentHash := by
  simp only [applyUpdate, bind_eq_ok] at ha
  obtain ⟨⟨h, rest⟩, hh, ha⟩ := ha
  dsimp only at ha
  split at ha
  · cases ha
  · rename_i hp
    exact ⟨h, (takeHtlc_eq_ok hh).1, by simpa using hp⟩

/-- What an update needs of a state are the HTLC that it resolves and a balance that pays for the one that it adds. -/
theorem applyUpdate_local_again {u : PendingUpdate} (hsame : SameHtlcs s s') (hfunds : s'.funds < 2 ^ 64)
    (ha : applyUpdate C s (.ofLocal u) = .ok t) (hpay : (UncommittedUpdate.ofLocal u).Paid s') :
    ∃ t', applyUpdate C s' (.ofLocal u) = .ok t' := by
  have hfind : ∀ id h, s.incomingHtlcs.find? (·.id == id) = some h → s'.incomingHtlcs.find? (·.id == id) = some h := by
    rw [hsame.1]
    exact fun _ _ hf => hf
  cases u with
  | add htlc =>
    refine ⟨_, bind_eq_ok.mpr ⟨_, debit_ok hpay, rfl⟩⟩
  | fulfill cid id preimage =>
    obtain ⟨h, hf, hp⟩ := preimage_of_applied ha
    refine applyUpdate_resolution rfl (hfind id h hf) ?_ hfunds
    rintro _ _ ⟨⟩
    exact hp
  | fail cid id reason =>
    rcases (applyUpdate_local ha).incoming with ⟨hr, -⟩ | ⟨_, h, hr, hf, -⟩
    · cases hr
    · obtain rfl := List.head_eq_of_cons_eq hr
      exact applyUpdate_resolution rfl (hfind _ h hf) (fun _ _ hu => by cases hu) hfunds
  | failMalformed cid id sha code =>
    rcases (applyUpdate_local ha).incoming with ⟨hr, -⟩ | ⟨_, h, hr, hf, -⟩
    · cases hr
    · obtain rfl := List.head_eq_of_cons_eq hr
      exact applyUpdate_resolution rfl (hfind _ h hf) (fun _ _ hu => by cases hu) hfunds

/-- It does the same to both states. -/
theorem AppliedLocal.again {u : PendingUpdate} {t' : LastCrossSignedState} (hsame : SameHtlcs s s') (ha : AppliedLocal s u t)
    (ha' : AppliedLocal s' u t') : SameHtlcs t t' ∧ SameDifference s s' t t' := by
  have hb := ha.balances fun _ _ _ => amountOf_find
  have hb' := ha'.balances fun _ _ _ => amountOf_find
  rw [hsame.1] at hb'
  refine ⟨⟨?_, ?_⟩, ?_, ?_⟩
  · rcases ha.incoming with ⟨hr, he⟩ | ⟨id, h, hr, -, he⟩ <;> rcases ha'.incoming with ⟨hr', he'⟩ | ⟨id', h', hr', -, he'⟩
    · rw [he, he', hsame.1]
    · cases hr.symm.trans hr'
    · cases hr'.symm.trans hr
    · obtain rfl := List.head_eq_of_cons_eq (hr.symm.trans hr')
      rw [he, he', hsame.1]
  · rw [ha.outgoing, ha'.outgoing, hsame.2]
  · omega
  · omega

/-- One update applies to both states, if the balances of the other state pay for it too. -/
theorem applyUpdate_again (hsame : SameHtlcs s s') (hfunds : s'.funds < 2 ^ 64) (ha : applyUpdate C s u = .ok t)
    (hpay : u.Paid s') : ∃ t', applyUpdate C s' u = .ok t' ∧ SameHtlcs t t' ∧ SameDifference s s' t t' := by
  cases u with
  | ofLocal u =>
    obtain ⟨t', ht'⟩ := applyUpdate_local_again hsame hfunds ha hpay
    exact ⟨t', ht', (applyUpdate_local ha).again hsame (applyUpdate_local ht')⟩
  | ofRemote u =>
    have hview : applyUpdate C s.reverse (.ofLocal u) = .ok t.reverse := by
      have hswap := applyUpdate_swap (C := C) s (.ofRemote u)
      rwa [ha] at hswap
    have hsame' : SameHtlcs s.reverse s'.reverse := ⟨hsame.2, hsame.1⟩
    have hpay' : (UncommittedUpdate.ofLocal u).Paid s'.reverse := by
      cases u with
      | add htlc => exact hpay
      | _ => trivial
    obtain ⟨t', ht'⟩ := applyUpdate_remote_ok
      (applyUpdate_local_again hsame' ((funds_reverse s').symm ▸ hfunds) hview hpay')
    obtain ⟨⟨hin, hout⟩, hlocal, hremote⟩ := (applyUpdate_remote ha).again hsame' (applyUpdate_remote ht')
    exact ⟨t', ht', ⟨hout, hin⟩, hremote, hlocal⟩

/-- A list of updates that folds over a state also folds over one with other balances, if these pay for the HTLCs that
    are added. -/
theorem applyUpdates_again (hsame : SameHtlcs s s') (hfunds : s'.funds < 2 ^ 64) (ha : applyUpdates C s us = .ok t)
    (hpay : ∀ pre u post, us = pre ++ u :: post → ∀ r r', applyUpdates C s pre = .ok r → SameDifference s s' r r' →
      u.Paid r') : ∃ t', applyUpdates C s' us = .ok t' := by
  induction us generalizing s s' with
  | nil => exact ⟨s', rfl⟩
  | cons u us ih =>
    obtain ⟨s₁, hs₁, ha⟩ := bind_eq_ok.mp ha
    obtain ⟨s₁', hs₁', hsame₁, hdiff⟩ := applyUpdate_again hsame hfunds hs₁
      (hpay [] u us rfl s s' rfl ⟨Nat.add_comm .., Nat.add_comm ..⟩)
    obtain ⟨t', ht'⟩ := ih hsame₁ ((applyUpdate_keeps hs₁').1 ▸ hfunds) ha (by
      intro pre v post hus r r' hr hd
      refine hpay (u :: pre) v post (by rw [hus]; rfl) r r' (bind_eq_ok.mpr ⟨s₁, hs₁, hr⟩) ?_
      obtain ⟨hl, hr⟩ := hdiff
      obtain ⟨hl', hr'⟩ := hd
      exact ⟨by omega, by omega⟩)
    exact ⟨t', bind_eq_ok.mpr ⟨s₁', hs₁', ht'⟩⟩

/-- The updates before one that is folded are folded first. -/
theorem applyUpdates_split {pre post : List UncommittedUpdate} {r : LastCrossSignedState}
    (ha : applyUpdates C s (pre ++ u :: post) = .ok t) (hr : applyUpdates C s pre = .ok r) : ∃ r', applyUpdate C r u = .ok r' := by
  rw [applyUpdates_append, hr] at ha
  obtain ⟨r', hr', -⟩ := bind_eq_ok.mp (show applyUpdates C r (u :: post) = .ok t from ha)
  exact ⟨r', hr'⟩

theorem applied_add {r r' : LastCrossSignedState} {htlc : UpdateAddHtlc} (ha : applyUpdate C r (.ofLocal (.add htlc)) = .ok r') :
    r.localBalanceMsat.toNat = r'.localBalanceMsat.toNat + htlc.amountMsat.toNat := by
  cases applyUpdate_local ha with
  | fail hu => rcases hu with ⟨_, _, hu⟩ | ⟨_, _, _, hu⟩ <;> cases hu
  | add hb => exact hb

/-- The balance that covers a list of updates pays for each HTLC that the host adds in it. -/
theorem Covers.pays {balance : UInt64} {pre post : List UncommittedUpdate} {htlc : UpdateAddHtlc} {r : LastCrossSignedState}
    (h : Covers s us balance) (honce : (us.filterMap resolutionKey).Nodup) (ha : applyUpdates C s us = .ok t)
    (hus : us = pre ++ .ofLocal (.add htlc) :: post) (hr : applyUpdates C s pre = .ok r) :
    htlc.amountMsat.toNat + s.localBalanceMsat.toNat ≤ r.localBalanceMsat.toNat + balance.toNat := by
  obtain ⟨r₁, hr₁⟩ := applyUpdates_split (hus ▸ ha) hr
  have hpre : pre ++ [.ofLocal (.add htlc)] <+: us := ⟨post, by simp [hus]⟩
  have hbalance := applyUpdates_hostDelta (I := s.incomingHtlcs ++ remoteAdds us) (O := s.outgoingHtlcs ++ localAdds us)
    (applyUpdates_snoc hr hr₁) (honce.sublist (hpre.sublist.filterMap _)) ?_ ?_
  · have hcover := h _ hpre
    have hadd := applied_add hr₁
    omega
  · intro id h _ hf
    obtain ⟨post', hpost'⟩ := hpre
    rw [← hpost', remoteAdds_append, ← List.append_assoc, List.find?_append, hf]
    rfl
  · intro id h _ hf
    obtain ⟨post', hpost'⟩ := hpre
    rw [← hpost', localAdds_append, ← List.append_assoc, List.find?_append, hf]
    rfl

/-- A list of updates also folds over the state with another balance of the host, if the balance covers the list. -/
theorem applyUpdates_rebalanced (hsame : SameHtlcs s s') (hremote : s'.remoteBalanceMsat = s.remoteBalanceMsat)
    (hfunds : s'.funds < 2 ^ 64) (ha : applyUpdates C s us = .ok t)
    (hcovers : s'.localBalanceMsat < s.localBalanceMsat →
      (us.filterMap resolutionKey).Nodup ∧ Covers s us s'.localBalanceMsat) :
    ∃ t', applyUpdates C s' us = .ok t' := by
  refine applyUpdates_again hsame hfunds ha ?_
  rintro pre u post hus r r' hr ⟨hlocal, hrem⟩
  obtain ⟨r₁, hr₁⟩ := applyUpdates_split (hus ▸ ha) hr
  match u with
  | .ofLocal (.add htlc) =>
    rw [UncommittedUpdate.Paid, UInt64.le_iff_toNat_le]
    by_cases hlt : s'.localBalanceMsat < s.localBalanceMsat
    · have hpays := (hcovers hlt).2.pays (hcovers hlt).1 ha hus hr
      omega
    · have hle := UInt64.le_iff_toNat_le.mp (UInt64.not_lt.mp hlt)
      have hadd := applied_add hr₁
      omega
  | .ofRemote (.add htlc) =>
    have hview := applyUpdate_swap (C := C) r (.ofRemote (.add htlc))
    rw [hr₁] at hview
    have hadd : r.remoteBalanceMsat.toNat = r₁.remoteBalanceMsat.toNat + htlc.amountMsat.toNat := applied_add hview
    rw [UncommittedUpdate.Paid, UInt64.le_iff_toNat_le]
    rw [hremote] at hrem
    omega
  | .ofLocal (.fulfill ..) | .ofLocal (.fail ..) | .ofLocal (.failMalformed ..) | .ofRemote (.fulfill ..)
  | .ofRemote (.fail ..) | .ofRemote (.failMalformed ..) => trivial

/-! ### Records -/

/-- The state accounts for no more than the capacity of the channel. -/
def WithinCapacity (s : LastCrossSignedState) : Prop := s.funds ≤ s.initHostedChannel.channelCapacityMsat.toNat

theorem Balanced.within (h : Balanced s) : WithinCapacity s := Nat.le_of_eq h

theorem WithinCapacity.lt (h : WithinCapacity s) : s.funds < 2 ^ 64 := Nat.lt_of_le_of_lt h (UInt64.toNat_lt _)

theorem SignedAlike.within (ha : SignedAlike s t) (h : WithinCapacity t) : WithinCapacity s := by
  unfold WithinCapacity LastCrossSignedState.funds at h ⊢
  rw [ha.localBalance, ha.remoteBalance, ha.incoming, ha.outgoing, ha.capacity]
  exact h

theorem WithinCapacity.next (h : WithinCapacity s) (hn : lcssNext C ⟨s, us⟩ = .ok t) : WithinCapacity t := by
  obtain ⟨hf, ht⟩ := lcssNext_keeps hn
  unfold WithinCapacity
  rw [hf, ht.init]
  exact h

theorem WithinCapacity.opened {m : StateUpdate} (h : WithinCapacity s) : WithinCapacity (openedLcss s m) := by
  unfold WithinCapacity LastCrossSignedState.funds openedLcss at *
  simp only [totalAmount, List.map_nil, List.sum_nil]
  omega

theorem WithinCapacity.resized {cap balance : UInt64} (h : WithinCapacity s) (hb : resizedLocalBalance s cap = some balance) :
    WithinCapacity (resizedLcss s cap balance) := by
  simp only [WithinCapacity, LastCrossSignedState.funds, resizedLcss] at h ⊢
  have := resizedLocalBalance_eq hb
  omega

/-- The pending updates of the record fold, and its state and what may replace it account for no more than the capacity. -/
structure FoldableRecord (H : Host) (d : ChannelData) : Prop where
  folds : ∃ next, d.next H = .ok next
  lcss : WithinCapacity d.lcss
  proposal : ∀ s, d.proposedOverride = some s → WithinCapacity s

/-- With nothing pending there is nothing to fold. -/
theorem folds_of_nil (hu : d.uncommitted = []) : ∃ next, d.next H = .ok next := by
  unfold ChannelData.next
  rw [hu]
  exact ⟨_, rfl⟩

/-- Without the last updates a list folds too. -/
theorem folds_before {extra : List UncommittedUpdate} (h : ∃ next, lcssNext C ⟨s, us ++ extra⟩ = .ok next) :
    ∃ next, lcssNext C ⟨s, us⟩ = .ok next := by
  obtain ⟨next, hn⟩ := h
  obtain ⟨r, hr, -⟩ := lcssNext_eq_ok hn
  rw [applyUpdates_append] at hr
  cases ha : applyUpdates C { s with localUpdates := 0, remoteUpdates := 0 } us with
  | error e =>
    rw [ha] at hr
    cases hr
  | ok r => exact ⟨_, bind_eq_ok.mpr ⟨r, ha, rfl⟩⟩

/-- An HTLC that its party can pay for folds after the other updates. -/
theorem folds_push_add {next : LastCrossSignedState} {htlc : UpdateAddHtlc} (hn : lcssNext C ⟨s, us⟩ = .ok next)
    (hu : u = .ofLocal (.add htlc) ∧ htlc.amountMsat ≤ next.localBalanceMsat ∨
      u = .ofRemote (.add htlc) ∧ htlc.amountMsat ≤ next.remoteBalanceMsat) :
    ∃ next', lcssNext C ⟨s, us ++ [u]⟩ = .ok next' := by
  refine lcssNext_push hn fun r hr => ?_
  obtain ⟨r', hr', rfl⟩ := lcssNext_eq_ok hn
  obtain rfl := Except.ok.inj (hr'.symm.trans hr)
  rcases hu with ⟨rfl, hle⟩ | ⟨rfl, hle⟩
  · exact ⟨_, bind_eq_ok.mpr ⟨_, debit_ok hle, rfl⟩⟩
  · exact ⟨_, bind_eq_ok.mpr ⟨_, debit_ok hle, rfl⟩⟩

/-- The states that the host has signed account for no more than the capacity of their channel. -/
def SignsWithin (w : World) : Prop := ∀ q s, (q, s) ∈ w.signed → WithinCapacity s

/-- The pending list folds over the resized state. -/
theorem folds_resized {m : ResizeChannel} {cap balance : UInt64} {lcss : LastCrossSignedState} {max : UInt64}
    (h : FoldableRecord H d) (hop : ∀ d₀, K.start.channel p = some d₀ → SparesPending H p d₀ K.op)
    (ho : Change.Cause K w p d (.resized m)) (hs : deriveStatus d = .active) (hv : m.verifyClientSig H.crypto p = true)
    (ha : d.acceptingResizeSat = some max) (hm : m.newCapacitySat ≤ max) (hc : checkedMul m.newCapacitySat 1000 = some cap)
    (hr : ¬ cap ≤ d.lcss.remoteBalanceMsat) (hb : resizedLocalBalance d.lcss cap = some balance)
    (hl : (resizedLcss d.lcss cap balance).sign H.crypto H.nodeSecret = .ok lcss) :
    ∃ next, lcssNext H.crypto ⟨lcss, d.uncommitted⟩ = .ok next := by
  obtain ⟨⟨e, ho⟩, hd⟩ := ho
  obtain ⟨next, hn⟩ := h.folds
  obtain ⟨t, ht, -⟩ := lcssNext_eq_ok hn
  have halike := SignedAlike.sign hl
  have hwithin : WithinCapacity lcss := halike.within (h.lcss.resized hb)
  have hlocal : lcss.localBalanceMsat = balance := halike.localBalance
  have hsame : SameHtlcs { d.lcss with localUpdates := 0, remoteUpdates := 0 }
    { lcss with localUpdates := 0, remoteUpdates := 0 } := ⟨halike.incoming, halike.outgoing⟩
  obtain ⟨t', ht'⟩ := applyUpdates_rebalanced hsame halike.remoteBalance hwithin.lt ht (by
      intro hlt
      dsimp only at hlt ⊢
      rw [hlocal] at hlt ⊢
      refine (hop d hd).resized e m cap balance ho ⟨hs, hv, ⟨max, ha, hm⟩, cap, hc, hr, by rw [hb]; rfl, ?_⟩ hc hb hlt
      rintro rfl
      have := resizedLocalBalance_eq hb
      have := UInt64.lt_iff_toNat_lt.mp hlt
      omega)
  exact ⟨_, bind_eq_ok.mpr ⟨t', ht', rfl⟩⟩

theorem FoldableRecord.changes (h : FoldableRecord K.host d) (hsigned : SignsWithin K.start)
    (hop : (Guard.sparing K.host).op K.start K.op) (hc : Changes K.host p c d d') (ho : c.Cause K w p d) :
    FoldableRecord K.host d' := by
  obtain ⟨next, hn⟩ := h.folds
  cases hc with
  | deduplicated =>
    have hself : d.deduplicated = d := ChannelData.deduplicated_eq_self ((hop.1 p d ho.2.1).repaired ho.1)
    show FoldableRecord K.host d.deduplicated
    rw [hself]
    exact h
  | @established _ m lcss hs _ hl =>
    have hwithin : WithinCapacity lcss := (SignedAlike.sign hl).within h.lcss.opened
    obtain ⟨⟨e, ho⟩, hd⟩ := ho
    exact ⟨folds_of_nil ((hop.1 p d hd).opened e m ho hs), hwithin, h.proposal⟩
  | @committed _ m next lcss _ _ hn _ hl =>
    have hwithin : WithinCapacity next := h.lcss.next hn
    exact ⟨folds_of_nil rfl, (SignedAlike.sign hl).within (t := proposedNext next m) hwithin, h.proposal⟩
  | @overridden _ m proposed lcss _ hp _ hl =>
    have hwithin : WithinCapacity proposed := h.proposal _ hp
    refine ⟨folds_of_nil rfl, ?_, fun s hs => by cases hs⟩
    exact (SignedAlike.sign hl).within (t := { proposed with remoteSigOfLocal := m.localSigOfRemote }) hwithin
  | receivedAdd _ hn ha => exact ⟨folds_push_add hn (Or.inr ⟨rfl, ha⟩), h.lcss, h.proposal⟩
  | @receivedResolution _ u id _ hr hany hk hf =>
    obtain ⟨g, hg⟩ := exists_find_of_any hany
    refine ⟨next_push_resolution hn hk ?_ hg ?_ h.lcss.lt, h.lcss, h.proposal⟩
    · rw [← hasUncommittedRemoteResolution_iff, hr]
      exact Bool.false_ne_true
    · intro c preimage hu
      obtain ⟨g', hg', hhash⟩ := hf c preimage hu
      obtain rfl := Option.some.inj (hg'.symm.trans hg)
      exact hhash.symm
  | errored extra hd =>
    subst hd
    exact ⟨folds_before h.folds, h.lcss, h.proposal⟩
  | resolved _ _ hn => exact ⟨⟨_, hn⟩, h.lcss, h.proposal⟩
  | added _ hn ha => exact ⟨folds_push_add hn (Or.inl ⟨rfl, ha⟩), h.lcss, h.proposal⟩
  | @resized _ m cap balance lcss r max hs hv ha hm hc hr hb hl _ =>
    have hfolds := folds_resized (d := d) (w := w) h (hop.1 p) ho hs hv ha hm hc hr hb hl
    exact ⟨hfolds, (SignedAlike.sign hl).within (h.lcss.resized hb), h.proposal⟩
  | proposed hd hb hl =>
    subst hd
    refine ⟨h.folds, h.lcss, ?_⟩
    rintro s ⟨⟩
    exact (SignedAlike.sign hl).within (balanced_override hb).within
  | @adopted _ m hown =>
    obtain ⟨⟨e, ho⟩, -⟩ := ho
    obtain ⟨q, s, hmem, halike⟩ := hop.2.2 p e m ho hown
    exact ⟨folds_of_nil rfl, halike.within (hsigned q s hmem), h.proposal⟩
  | _ => exact ⟨h.folds, h.lcss, h.proposal⟩

/-! ### Runs -/

/-- All records fold, and what a record may become later accounts for no more than the capacity. -/
structure FoldableWorld (H : Host) (w : World) : Prop where
  records : ∀ p d, w.channel p = some d → FoldableRecord H d
  signed : SignsWithin w
  terms : FairTerms H w

theorem FoldableWorld.signs (h : FoldableWorld H w) (hs : Signs H w p s) : WithinCapacity s := by
  cases hs with
  | @next us d next _ day sig hd _ hn hs =>
    have hwithin : WithinCapacity next := (h.records p d hd).lcss.next hn
    exact (SignedAlike.sign hs).within (t := { next with blockDay := day, remoteSigOfLocal := sig }) hwithin
  | opened hd _ hs => exact (SignedAlike.sign hs).within (h.records p _ hd).lcss.opened
  | @overridden d proposed _ sig hd hp hs =>
    have hwithin : WithinCapacity proposed := (h.records p d hd).proposal _ hp
    exact (SignedAlike.sign hs).within (t := { proposed with remoteSigOfLocal := sig }) hwithin
  | proposed _ hb hs => exact (SignedAlike.sign hs).within (balanced_override hb).within
  | resized hd _ hb hs => exact (SignedAlike.sign hs).within ((h.records p _ hd).lcss.resized hb)

theorem FoldableWorld.step (h : FoldableWorld K.host w) (hstart : FoldableWorld K.host K.start)
    (hop : (Guard.sparing K.host).op K.start K.op) (hs : Step K act w w') : FoldableWorld K.host w' where
  records := by
    intro p d hd
    cases hs.record p with
    | same heq => exact h.records p d (heq.symm.trans hd)
    | created _ _ hp _ heq =>
      obtain rfl := Option.some.inj (heq.symm.trans hd)
      exact ⟨folds_of_nil rfl, (balanced_initial (hstart.terms.granted hp)).within, fun s hs => by cases hs⟩
    | wrote hd₀ hc ho _ _ heq =>
      obtain rfl := Option.some.inj (heq.symm.trans hd)
      exact (h.records p _ hd₀).changes hstart.signed hop hc ho
    | removed _ heq => cases heq.symm.trans hd
  signed := by
    intro q s hmem
    rcases hs.signed_eq with he | ⟨p, t, hsign, he⟩
    · exact h.signed q s (he ▸ hmem)
    · rw [he, List.mem_append, List.mem_singleton] at hmem
      rcases hmem with hmem | hmem
      · exact h.signed q s hmem
      · cases hmem
        exact h.signs hsign
  terms := h.terms.step hs hop.2.1

/-- In every run in which nothing takes from pending updates what they need, the pending updates of every record fold. -/
theorem pending_list_folds (H : Host) (w : World) (p : PublicKey) (d : ChannelData)
    (hpolicy : H.config.policy.initialClientBalanceMsat ≤ H.config.policy.channelCapacityMsat)
    (hw : Reachable H (Guard.sparing H) w) (hd : w.channel p = some d) : ∃ next, d.next H = .ok next := by
  have hworld : FoldableWorld H w := by
    refine hw.keeps (P := FoldableWorld H) ?_ ?_
    · exact ⟨fun _ _ hd => (by cases hd), fun _ _ hs => (by cases hs), (conserved_empty hpolicy).terms⟩
    · intro K act w w' hK _ hop hstart _ hs h
      subst hK
      exact h.step hstart hop hs
  exact (hworld.records p d hd).folds

/-- The host pays an invoice of the client, and before the client commits to the HTLC the channel is resized. -/
def shrunkScript (capacitySat : UInt64) : List (World → Op) := openScript ++ [
  fun _ => .acceptResize openPeer (some 2000),
  fun _ => .pay ⟨[Host.transparent.scid openPeer], 300000, ByteVec.fill 32 1, 20, ByteVec.fill 32 1⟩,
  fun _ => .message openPeer .strict (.resizeChannel
    { newCapacitySat := capacitySat
      clientSig := Crypto.transparent.signEcdsa (Crypto.transparent.sha256 (leBytes 8 capacitySat.toNat)) openKey })]

def covers (s : LastCrossSignedState) (us : List UncommittedUpdate) (balance : UInt64) : Bool :=
  us.inits.all fun pre => decide (0 ≤ (balance.toNat : Int) +
    (pre.map (hostDelta (s.incomingHtlcs ++ remoteAdds us) (s.outgoingHtlcs ++ localAdds us))).sum)

/-- A check of the guard that allows no presented states and no secrets. -/
def sparesPending (w : World) : Op → Bool
  | .message _ _ (.lastCrossSignedState _) | .addSecret _ _ _ => false
  | .message p _ msg => (w.channel p).all fun d => decide d.ResolvesOnce && match msg with
    | .stateUpdate _ => deriveStatus d != .opening || d.uncommitted.isEmpty
    | .resizeChannel m => (checkedMul m.newCapacitySat 1000).all fun cap =>
      (resizedLocalBalance d.lcss cap).all (covers d.lcss d.uncommitted)
    | _ => true
  | _ => true

theorem covers_sound {balance : UInt64} (h : covers s us balance = true) : Covers s us balance := by
  intro pre hpre
  have hall := List.all_eq_true.mp h pre ((List.mem_inits pre us).mpr hpre)
  exact of_decide_eq_true hall

theorem sparing_of_check {op : Op} (h : sparesPending w op = true) : (Guard.sparing H).op w op := by
  refine ⟨fun p d hd => ?_, ?_, ?_⟩
  · have hcheck : ∀ e msg, op = .message p e msg → d.ResolvesOnce ∧ (∀ m, msg = .stateUpdate m →
        deriveStatus d != .opening || d.uncommitted.isEmpty) ∧ ∀ m, msg = .resizeChannel m →
        (checkedMul m.newCapacitySat 1000).all (fun cap => (resizedLocalBalance d.lcss cap).all (covers d.lcss d.uncommitted)) := by
      rintro e msg rfl
      cases msg <;> simp_all [sparesPending]
    constructor
    · rintro e m rfl hs
      simpa [hs] using (hcheck e _ rfl).2.1 m rfl
    · intro hr
      cases op with
      | message q e msg =>
        obtain rfl : q = p := by cases msg <;> simp_all [Op.repairs]
        exact (hcheck e msg rfl).1
      | _ => cases hr
    · rintro e m cap balance rfl - hc hb -
      have hall := (hcheck e _ rfl).2.2 m rfl
      rw [hc, Option.all_some, hb, Option.all_some] at hall
      exact ⟨(hcheck e _ rfl).1, covers_sound hall⟩
  · rintro text capacity initial rfl
    cases h
  · rintro p e m rfl
    cases h

theorem pending_list_folds_shrunk : ∃ d next, (calmRun .transparent (shrunkScript 700)).channel openPeer = some d ∧
    d.established = true ∧ d.uncommitted.length = 1 ∧ d.lcss.localBalanceMsat = 300000 ∧ d.next .transparent = .ok next := by
  have hrun : (followsOps sparesPending .transparent World.empty (shrunkScript 700) &&
      ((calmRun .transparent (shrunkScript 700)).channel openPeer).any fun d => decide (d.established = true ∧
        d.uncommitted.length = 1 ∧ d.lcss.localBalanceMsat = 300000)) = true := by
    decide +kernel
  obtain ⟨hfollows, hrun⟩ := Bool.and_eq_true_iff.mp hrun
  obtain ⟨d, hd, hrun⟩ := exists_of_any hrun
  obtain ⟨he, hlen, hlocal⟩ := of_decide_eq_true hrun
  have hw : Reachable .transparent (Guard.sparing .transparent) _ :=
    calmRun_follows (followsOps_sound (fun _ _ => sparing_of_check) hfollows)
  obtain ⟨next, hn⟩ := pending_list_folds .transparent _ openPeer d (by decide) hw hd
  exact ⟨d, next, hd, he, hlen, hlocal, hn⟩

/-- One satoshi less, and the balance of the host no longer pays for the HTLC: the record does not fold. -/
theorem shrunk_list_does_not_fold : ¬ ∀ (H : Host) (w : World) (p : PublicKey) (d : ChannelData),
    H.config.policy.initialClientBalanceMsat ≤ H.config.policy.channelCapacityMsat → Reachable H Guard.free w →
    w.channel p = some d → d.established = true → ∃ next, d.next H = .ok next := by
  intro hall
  have hrun : ((calmRun .transparent (shrunkScript 699)).channel openPeer).any (fun d =>
      d.established && !(d.next .transparent).toBool) = true := by
    decide +kernel
  obtain ⟨d, hd, hrun⟩ := exists_of_any hrun
  obtain ⟨he, hfails⟩ := Bool.and_eq_true_iff.mp hrun
  obtain ⟨next, hn⟩ := hall .transparent _ openPeer d (by decide) (calmRun_reachable _ _) hd he
  rw [hn] at hfails
  cases hfails

end Canopus
