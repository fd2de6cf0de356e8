import Canopus.Lib.Reader
import Canopus.Transparent
import Mathlib.Algebra.BigOperators.Group.List.Lemmas
import Mathlib.Algebra.Order.Ring.Int
import Mathlib.Algebra.Order.Ring.Nat
import Mathlib.Data.List.Nodup

/-! The fold of the uncommitted updates. What one update does to a state is said once, in `Applied`;
    from it: the fold conserves the funds of a channel, it commutes with the change of view, and its
    result depends on the updates of each party but not on how the two sequences are interleaved. -/

namespace Canopus
open StateManager Buffer

/-! ### One update -/

section
variable {C : Crypto} {s t : LastCrossSignedState} {htlcs rest : List UpdateAddHtlc} {h : UpdateAddHtlc} {id : UInt64}

theorem takeHtlc_eq_ok (ht : takeHtlc htlcs id = .ok (h, rest)) :
    htlcs.find? (·.id == id) = some h ∧ rest = htlcs.eraseP (·.id == id) := by
  unfold takeHtlc at ht
  split at ht
  · rename_i h' hf
    cases ht
    exact ⟨hf, rfl⟩
  · cases ht

theorem debit_eq_ok {a b c : UInt64} (hd : debit a b = .ok c) : a.toNat = c.toNat + b.toNat := by
  unfold debit at hd
  split at hd
  · rename_i c' hc
    cases hd
    exact checkedSub_eq_some hc
  · cases hd

theorem credit_eq_ok {a b c : UInt64} (hd : credit a b = .ok c) : c.toNat = a.toNat + b.toNat := by
  unfold credit at hd
  split at hd
  · rename_i c' hc
    cases hd
    exact checkedAdd_eq_some hc
  · cases hd

/-- What an update of the host does, with the HTLC it takes out of the incoming ones. -/
inductive AppliedLocal (s : LastCrossSignedState) : PendingUpdate → LastCrossSignedState → Prop
  | add {htlc : UpdateAddHtlc} {b : UInt64} (hb : s.localBalanceMsat.toNat = b.toNat + htlc.amountMsat.toNat) :
    AppliedLocal s (.add htlc) { s with
      localBalanceMsat := b, outgoingHtlcs := s.outgoingHtlcs ++ [htlc], localUpdates := s.localUpdates + 1 }
  | fulfill {cid : ByteVec 32} {id : UInt64} {preimage : ByteVec 32} {h : UpdateAddHtlc} {b : UInt64}
    (hf : s.incomingHtlcs.find? (·.id == id) = some h) (hb : b.toNat = s.localBalanceMsat.toNat + h.amountMsat.toNat) :
    AppliedLocal s (.fulfill cid id preimage) { s with
      incomingHtlcs := s.incomingHtlcs.eraseP (·.id == id), localBalanceMsat := b, localUpdates := s.localUpdates + 1 }
  | fail {u : PendingUpdate} {id : UInt64} {h : UpdateAddHtlc} {b : UInt64}
    (hu : (∃ cid reason, u = .fail cid id reason) ∨ ∃ cid sha code, u = .failMalformed cid id sha code)
    (hf : s.incomingHtlcs.find? (·.id == id) = some h) (hb : b.toNat = s.remoteBalanceMsat.toNat + h.amountMsat.toNat) :
    AppliedLocal s u { s with
      incomingHtlcs := s.incomingHtlcs.eraseP (·.id == id), remoteBalanceMsat := b, localUpdates := s.localUpdates + 1 }

theorem applyUpdate_local {u : PendingUpdate} (ha : applyUpdate C s (.ofLocal u) = .ok t) : AppliedLocal s u t := by
  cases u with
  | add htlc =>
    simp only [applyUpdate, bind_eq_ok] at ha
    obtain ⟨b, hb, ha⟩ := ha
    cases ha
    exact .add (debit_eq_ok hb)
  | fulfill cid id preimage =>
    simp only [applyUpdate, bind_eq_ok] at ha
    obtain ⟨⟨h, rest⟩, hh, ha⟩ := ha
    obtain ⟨hf, rfl⟩ := takeHtlc_eq_ok hh
    dsimp only at ha
    split at ha
    · cases ha
    · obtain ⟨b, hb, ha⟩ := bind_eq_ok.mp ha
      cases ha
      exact .fulfill hf (credit_eq_ok hb)
  | fail cid id reason =>
    simp only [applyUpdate, bind_eq_ok] at ha
    obtain ⟨⟨h, rest⟩, hh, b, hb, ha⟩ := ha
    obtain ⟨hf, rfl⟩ := takeHtlc_eq_ok hh
    cases ha
    exact .fail (Or.inl ⟨cid, reason, rfl⟩) hf (credit_eq_ok hb)
  | failMalformed cid id sha code =>
    simp only [applyUpdate, bind_eq_ok] at ha
    obtain ⟨⟨h, rest⟩, hh, b, hb, ha⟩ := ha
    obtain ⟨hf, rfl⟩ := takeHtlc_eq_ok hh
    cases ha
    exact .fail (Or.inr ⟨cid, sha, code, rfl⟩) hf (credit_eq_ok hb)

end

/-! ### The other view -/

def UncommittedUpdate.swap : UncommittedUpdate → UncommittedUpdate
  | .ofLocal u => .ofRemote u
  | .ofRemote u => .ofLocal u

section
variable {C : Crypto} {s t : LastCrossSignedState}

/-- The counterparty, which sees the update as its own or as the other's, computes the same state. -/
theorem applyUpdate_swap (s : LastCrossSignedState) (u : UncommittedUpdate) :
    applyUpdate C s.reverse u.swap = (applyUpdate C s u).map LastCrossSignedState.reverse := by
  rcases u with (u | u) <;> cases u with
  | add htlc =>
    simp only [UncommittedUpdate.swap, applyUpdate, LastCrossSignedState.reverse]
    cases debit _ _ <;> rfl
  | fulfill cid id preimage =>
    simp only [UncommittedUpdate.swap, applyUpdate, LastCrossSignedState.reverse]
    cases takeHtlc _ _ with
    | error e => rfl
    | ok r =>
      simp only [bind, Except.bind]
      split
      · rfl
      · cases credit _ _ <;> rfl
  | fail cid id reason =>
    simp only [UncommittedUpdate.swap, applyUpdate, LastCrossSignedState.reverse]
    cases takeHtlc _ _ with
    | error e => rfl
    | ok r =>
      simp only [bind, Except.bind]
      cases credit _ _ <;> rfl
  | failMalformed cid id sha code =>
    simp only [UncommittedUpdate.swap, applyUpdate, LastCrossSignedState.reverse]
    cases takeHtlc _ _ with
    | error e => rfl
    | ok r =>
      simp only [bind, Except.bind]
      cases credit _ _ <;> rfl

theorem applyUpdates_swap (us : List UncommittedUpdate) (s : LastCrossSignedState) :
    applyUpdates C s.reverse (us.map UncommittedUpdate.swap) = (applyUpdates C s us).map LastCrossSignedState.reverse := by
  induction us generalizing s with
  | nil => rfl
  | cons u us ih =>
    simp only [List.map_cons, applyUpdates, applyUpdate_swap]
    cases applyUpdate C s u with
    | error e => rfl
    | ok t => exact ih t

theorem countP_isLocal_swap (us : List UncommittedUpdate) :
    (us.map UncommittedUpdate.swap).countP (·.isLocal) = us.countP (·.isRemote) := by
  rw [List.countP_map]
  congr 1
  funext u
  cases u <;> rfl

theorem countP_isRemote_swap (us : List UncommittedUpdate) :
    (us.map UncommittedUpdate.swap).countP (·.isRemote) = us.countP (·.isLocal) := by
  rw [List.countP_map]
  congr 1
  funext u
  cases u <;> rfl

/-- The mirrored fold is the mirror of the fold, errors included. -/
theorem lcssNext_swap (s : LastCrossSignedState) (us : List UncommittedUpdate) :
    lcssNext C ⟨s.reverse, us.map UncommittedUpdate.swap⟩ = (lcssNext C ⟨s, us⟩).map LastCrossSignedState.reverse := by
  have h := applyUpdates_swap (C := C) us { s with localUpdates := 0, remoteUpdates := 0 }
  simp only [LastCrossSignedState.reverse] at h
  simp only [lcssNext, nextLocalUpdates, nextRemoteUpdates, countP_isLocal_swap, countP_isRemote_swap,
    LastCrossSignedState.reverse, h]
  cases applyUpdates C { s with localUpdates := 0, remoteUpdates := 0 } us <;> rfl

/-- An update of the peer is one of the host in the other view. -/
theorem applyUpdate_remote {u : PendingUpdate} (ha : applyUpdate C s (.ofRemote u) = .ok t) :
    AppliedLocal s.reverse u t.reverse := by
  have h := applyUpdate_swap (C := C) s (.ofRemote u)
  rw [ha] at h
  exact applyUpdate_local h

/-- An update of the peer applies if it does in the peer's view. -/
theorem applyUpdate_remote_ok {u : PendingUpdate} (h : ∃ t, applyUpdate C s.reverse (.ofLocal u) = .ok t) :
    ∃ t, applyUpdate C s (.ofRemote u) = .ok t := by
  obtain ⟨t, ht⟩ := h
  have hswap := applyUpdate_swap (C := C) s (.ofRemote u)
  cases ha : applyUpdate C s (.ofRemote u) with
  | ok t => exact ⟨t, rfl⟩
  | error e =>
    rw [ha] at hswap
    cases ht.symm.trans hswap

end

/-! ### What the fold keeps -/

def totalAmount (htlcs : List UpdateAddHtlc) : Nat := (htlcs.map (·.amountMsat.toNat)).sum

/-- All that a state accounts for: the two balances and the HTLCs between them. -/
def LastCrossSignedState.funds (s : LastCrossSignedState) : Nat :=
  s.localBalanceMsat.toNat + s.remoteBalanceMsat.toNat + totalAmount s.incomingHtlcs + totalAmount s.outgoingHtlcs

/-- The parts of a state that no update touches. -/
structure SameTerms (s t : LastCrossSignedState) : Prop where
  isHost : t.isHost = s.isHost
  refund : t.lastRefundScriptpubkey = s.lastRefundScriptpubkey
  init : t.initHostedChannel = s.initHostedChannel
  remoteSig : t.remoteSigOfLocal = s.remoteSigOfLocal
  localSig : t.localSigOfRemote = s.localSigOfRemote

section
variable {C : Crypto} {s t : LastCrossSignedState} {htlcs : List UpdateAddHtlc} {h : UpdateAddHtlc} {id : UInt64}

theorem totalAmount_append (a b : List UpdateAddHtlc) : totalAmount (a ++ b) = totalAmount a + totalAmount b := by
  simp [totalAmount]

theorem totalAmount_eraseP (hf : htlcs.find? (·.id == id) = some h) :
    totalAmount htlcs = totalAmount (htlcs.eraseP (·.id == id)) + h.amountMsat.toNat := by
  induction htlcs with
  | nil => simp at hf
  | cons x xs ih =>
    by_cases hx : x.id = id
    · simp only [List.find?_cons, hx, beq_self_eq_true, Option.some.injEq] at hf
      subst hf
      simp only [totalAmount, List.eraseP_cons, hx, beq_self_eq_true, cond_true, List.map_cons, List.sum_cons]
      omega
    · have hb : (x.id == id) = false := by simpa using hx
      simp only [List.find?_cons, hb] at hf
      have := ih hf
      simp only [totalAmount, List.eraseP_cons, hb, cond_false, List.map_cons, List.sum_cons] at this ⊢
      omega

theorem funds_reverse (s : LastCrossSignedState) : s.reverse.funds = s.funds := by
  simp only [LastCrossSignedState.funds, LastCrossSignedState.reverse]
  omega

theorem AppliedLocal.funds {u : PendingUpdate} (ha : AppliedLocal s u t) : t.funds = s.funds := by
  cases ha with
  | add hb =>
    simp only [LastCrossSignedState.funds, totalAmount_append]
    simp only [totalAmount, List.map_cons, List.map_nil, List.sum_cons, List.sum_nil]
    omega
  | fulfill hf hb =>
    have := totalAmount_eraseP hf
    simp only [LastCrossSignedState.funds]
    omega
  | fail hu hf hb =>
    have := totalAmount_eraseP hf
    simp only [LastCrossSignedState.funds]
    omega

theorem AppliedLocal.terms {u : PendingUpdate} (ha : AppliedLocal s u t) : SameTerms s t := by
  cases ha <;> exact ⟨rfl, rfl, rfl, rfl, rfl⟩

/-- Every update conserves the funds and keeps the terms. -/
theorem applyUpdate_keeps {u : UncommittedUpdate} (ha : applyUpdate C s u = .ok t) :
    t.funds = s.funds ∧ SameTerms s t := by
  cases u with
  | ofLocal u => exact ⟨(applyUpdate_local ha).funds, (applyUpdate_local ha).terms⟩
  | ofRemote u =>
    have ha := applyUpdate_remote ha
    have hf := ha.funds
    have ht := ha.terms
    rw [funds_reverse, funds_reverse] at hf
    exact ⟨hf, ⟨by simpa [LastCrossSignedState.reverse] using ht.isHost, ht.refund, ht.init, ht.localSig, ht.remoteSig⟩⟩

theorem applyUpdates_keeps {us : List UncommittedUpdate} (ha : applyUpdates C s us = .ok t) :
    t.funds = s.funds ∧ SameTerms s t := by
  induction us generalizing s with
  | nil =>
    cases ha
    exact ⟨rfl, rfl, rfl, rfl, rfl, rfl⟩
  | cons u us ih =>
    obtain ⟨s', hs', ha⟩ := bind_eq_ok.mp ha
    obtain ⟨hf, ht⟩ := applyUpdate_keeps hs'
    obtain ⟨hf', ht'⟩ := ih ha
    exact ⟨hf'.trans hf, ht'.isHost.trans ht.isHost, ht'.refund.trans ht.refund, ht'.init.trans ht.init,
      ht'.remoteSig.trans ht.remoteSig, ht'.localSig.trans ht.localSig⟩

/-- The next state, by the fold of the updates. -/
theorem lcssNext_eq_ok {us : List UncommittedUpdate} (hn : lcssNext C ⟨s, us⟩ = .ok t) :
    ∃ r, applyUpdates C { s with localUpdates := 0, remoteUpdates := 0 } us = .ok r ∧
      t = { r with
        localUpdates := (StateManager.mk s us).nextLocalUpdates
        remoteUpdates := (StateManager.mk s us).nextRemoteUpdates
        blockDay := s.blockDay } := by
  obtain ⟨r, hr, ht⟩ := bind_eq_ok.mp hn
  cases ht
  exact ⟨r, hr, rfl⟩

/-- Folding conserves the funds of a channel and does not touch its parameters. -/
theorem lcssNext_keeps {us : List UncommittedUpdate} (hn : lcssNext C ⟨s, us⟩ = .ok t) :
    t.funds = s.funds ∧ SameTerms s t := by
  obtain ⟨r, hr, rfl⟩ := lcssNext_eq_ok hn
  obtain ⟨hf, ht⟩ := applyUpdates_keeps hr
  exact ⟨hf, ht.isHost, ht.refund, ht.init, ht.remoteSig, ht.localSig⟩

end

/-! ### Repeated resolutions -/

/-- The record with repeated resolutions removed. -/
def ChannelData.deduplicated (d : ChannelData) : ChannelData :=
  { d with uncommitted := deduplicateUncommittedResolutions d.uncommitted }

theorem dedupFrom_sublist (seen : List (Bool × UInt64)) (us : List UncommittedUpdate) : (dedupFrom seen us).Sublist us := by
  induction us generalizing seen with
  | nil => exact List.Sublist.refl _
  | cons u us ih =>
    unfold dedupFrom
    split
    · exact (ih seen).cons_cons u
    · split
      · exact (ih seen).cons u
      · exact (ih _).cons_cons u

/-- Without repeated resolutions nothing is removed. -/
theorem dedupFrom_eq_self {us : List UncommittedUpdate} : ∀ {seen : List (Bool × UInt64)},
    (us.filterMap resolutionKey).Nodup → (∀ k ∈ us.filterMap resolutionKey, k ∉ seen) → dedupFrom seen us = us := by
  induction us with
  | nil => exact fun _ _ => rfl
  | cons u us ih =>
    intro seen hn hseen
    unfold dedupFrom
    split
    · rename_i hk
      rw [List.filterMap_cons_none hk] at hn hseen
      rw [ih hn hseen]
    · rename_i k hk
      rw [List.filterMap_cons_some hk] at hn hseen
      obtain ⟨hk', hn⟩ := List.nodup_cons.mp hn
      rw [if_neg (by simpa using hseen k (List.mem_cons_self ..)), ih hn]
      intro k₁ hk₁ hmem
      rcases List.mem_cons.mp hmem with rfl | hmem
      · exact hk' hk₁
      · exact hseen k₁ (List.mem_cons_of_mem _ hk₁) hmem

/-- A resolution that is not repeated has its own key. -/
theorem dedupFrom_nodup (keys : List (Bool × UInt64)) (us : List UncommittedUpdate) :
    ((dedupFrom keys us).filterMap resolutionKey).Nodup ∧
      ∀ key ∈ (dedupFrom keys us).filterMap resolutionKey, key ∉ keys := by
  induction us generalizing keys with
  | nil => exact ⟨List.nodup_nil, fun _ hmem => by cases hmem⟩
  | cons u us ih =>
    unfold dedupFrom
    split
    · rename_i hk
      rw [List.filterMap_cons_none hk]
      exact ih keys
    · rename_i key hk
      split
      · exact ih keys
      · rename_i hnew
        obtain ⟨hnodup, hapart⟩ := ih (key :: keys)
        rw [List.filterMap_cons_some hk]
        refine ⟨List.nodup_cons.mpr ⟨fun hmem => hapart key hmem (List.mem_cons_self ..), hnodup⟩, ?_⟩
        intro key' hmem hseen
        rcases List.mem_cons.mp hmem with rfl | hmem
        · exact hnew (List.contains_iff_mem.mpr hseen)
        · exact hapart key' hmem (List.mem_cons_of_mem _ hseen)

theorem ChannelData.deduplicated_eq_self {d : ChannelData} (h : (d.uncommitted.filterMap resolutionKey).Nodup) :
    d.deduplicated = d := by
  unfold ChannelData.deduplicated deduplicateUncommittedResolutions
  rw [dedupFrom_eq_self h (by simp)]

/-- A record without repeated resolutions is not repaired. -/
theorem repair_eq_pure {d : ChannelData} (h : (d.uncommitted.filterMap resolutionKey).Nodup) (peer : PublicKey) :
    repairDuplicateUncommittedResolutions peer d = pure d := by
  have hlist : deduplicateUncommittedResolutions d.uncommitted = d.uncommitted :=
    congrArg (·.uncommitted) (ChannelData.deduplicated_eq_self h)
  unfold repairDuplicateUncommittedResolutions
  simp only [hlist, ne_eq, not_true_eq_false, if_false]

/-! ### Interleavings -/

/-- The updates of the two parties, each in its order, merged into one sequence. -/
inductive Interleaves : List PendingUpdate → List PendingUpdate → List UncommittedUpdate → Prop
  | nil : Interleaves [] [] []
  | ofLocal {L R : List PendingUpdate} {us : List UncommittedUpdate} (u : PendingUpdate) (h : Interleaves L R us) :
    Interleaves (u :: L) R (.ofLocal u :: us)
  | ofRemote {L R : List PendingUpdate} {us : List UncommittedUpdate} (u : PendingUpdate) (h : Interleaves L R us) :
    Interleaves L (u :: R) (.ofRemote u :: us)

/-- The HTLCs that a party adds. -/
def addsOf (us : List PendingUpdate) : List UpdateAddHtlc :=
  us.filterMap fun
    | .add htlc => some htlc
    | _ => none

/-- The ids of the HTLCs that a party resolves. -/
def resolvedBy (us : List PendingUpdate) : List UInt64 :=
  us.filterMap fun
    | .add _ => none
    | .fulfill _ id _ | .fail _ id _ | .failMalformed _ id _ _ => some id

/-- The amount of the HTLC with a given id. -/
def amountOf (htlcs : List UpdateAddHtlc) (id : UInt64) : Int :=
  match htlcs.find? (·.id == id) with
  | some h => h.amountMsat.toNat
  | none => 0

/-- What an update does to the balance of the party that makes it; `offered` are the HTLCs of the other. -/
def ownDelta (offered : List UpdateAddHtlc) : PendingUpdate → Int
  | .add htlc => -htlc.amountMsat.toNat
  | .fulfill _ id _ => amountOf offered id
  | .fail _ _ _ | .failMalformed _ _ _ _ => 0

/-- What it does to the balance of the other party, which gets failed HTLCs back. -/
def otherDelta (offered : List UpdateAddHtlc) : PendingUpdate → Int
  | .add _ | .fulfill _ _ _ => 0
  | .fail _ id _ | .failMalformed _ id _ _ => amountOf offered id

def DistinctIds (htlcs : List UpdateAddHtlc) : Prop := (htlcs.map (·.id)).Nodup

instance (htlcs : List UpdateAddHtlc) : Decidable (DistinctIds htlcs) := inferInstanceAs (Decidable (List.Nodup _))

section
variable {C : Crypto} {s t : LastCrossSignedState} {L R : List PendingUpdate} {us vs : List UncommittedUpdate}
  {htlcs offered : List UpdateAddHtlc} {id : UInt64}

theorem Interleaves.swap (h : Interleaves L R us) : Interleaves R L (us.map .swap) := by
  induction h with
  | nil => exact .nil
  | ofLocal u _ ih => exact .ofRemote u ih
  | ofRemote u _ ih => exact .ofLocal u ih

theorem Interleaves.countP_isLocal (h : Interleaves L R us) : us.countP (·.isLocal) = L.length := by
  induction h with
  | nil => rfl
  | ofLocal u _ ih => rw [List.countP_cons_of_pos rfl, ih, List.length_cons]
  | ofRemote u _ ih => rw [List.countP_cons_of_neg (by simp [UncommittedUpdate.isLocal]), ih]

theorem Interleaves.countP_isRemote (h : Interleaves L R us) : us.countP (·.isRemote) = R.length := by
  rw [← countP_isLocal_swap, h.swap.countP_isLocal]

theorem DistinctIds.sublist (h : DistinctIds htlcs) {htlcs' : List UpdateAddHtlc} (hs : htlcs'.Sublist htlcs) :
    DistinctIds htlcs' :=
  List.Nodup.sublist (hs.map _) h

theorem eraseP_eq_filter (hd : DistinctIds htlcs) : htlcs.eraseP (·.id == id) = htlcs.filter (·.id != id) := by
  induction htlcs with
  | nil => rfl
  | cons x xs ih =>
    have hx : x.id ∉ xs.map (·.id) := (List.nodup_cons.mp hd).1
    by_cases he : x.id = id
    · subst he
      rw [List.eraseP_cons, beq_self_eq_true, cond_true, List.filter_cons_of_neg (by simp)]
      refine (List.filter_eq_self.mpr fun y hy => ?_).symm
      have hne : y.id ≠ x.id := fun e => hx (e ▸ List.mem_map_of_mem hy)
      simpa using hne
    · have hb : (x.id == id) = false := by simpa using he
      rw [List.eraseP_cons, hb, cond_false, List.filter_cons_of_pos (by simpa using he),
        ih (hd.sublist (List.sublist_cons_self x xs))]

/-- Taking an HTLC out of the first list takes its id out of both. -/
theorem eraseP_append_filter {adds : List UpdateAddHtlc} {h : UpdateAddHtlc} (hd : DistinctIds (htlcs ++ adds))
    (hf : htlcs.find? (·.id == id) = some h) :
    htlcs.eraseP (·.id == id) ++ adds = (htlcs ++ adds).filter (·.id != id) := by
  have hid : h.id = id := by simpa using List.find?_some hf
  rw [List.filter_append, ← eraseP_eq_filter (hd.sublist (List.sublist_append_left _ _))]
  congr 1
  refine (List.filter_eq_self.mpr fun y hy => ?_).symm
  have := (List.nodup_append.mp (List.map_append ▸ hd)).2.2 h.id (List.mem_map_of_mem (List.mem_of_find?_eq_some hf))
    y.id (List.mem_map_of_mem hy)
  simpa [← hid] using Ne.symm this

/-- An update adds to the HTLCs that its party has offered. -/
theorem AppliedLocal.outgoing {u : PendingUpdate} (ha : AppliedLocal s u t) :
    t.outgoingHtlcs = s.outgoingHtlcs ++ addsOf [u] := by
  cases ha with
  | add hb => rfl
  | fulfill hf hb => exact (List.append_nil _).symm
  | fail hu hf hb => rcases hu with ⟨_, _, rfl⟩ | ⟨_, _, _, rfl⟩ <;> exact (List.append_nil _).symm

/-- An update takes at most one HTLC out of those offered to its party. -/
theorem AppliedLocal.incoming {u : PendingUpdate} (ha : AppliedLocal s u t) :
    (resolvedBy [u] = [] ∧ t.incomingHtlcs = s.incomingHtlcs) ∨
    ∃ id h, resolvedBy [u] = [id] ∧ s.incomingHtlcs.find? (·.id == id) = some h ∧
      t.incomingHtlcs = s.incomingHtlcs.eraseP (·.id == id) := by
  cases ha with
  | add hb => exact Or.inl ⟨rfl, rfl⟩
  | fulfill hf hb => exact Or.inr ⟨_, _, rfl, hf, rfl⟩
  | fail hu hf hb => rcases hu with ⟨_, _, rfl⟩ | ⟨_, _, _, rfl⟩ <;> exact Or.inr ⟨_, _, rfl, hf, rfl⟩

theorem addsOf_cons (u : PendingUpdate) (us : List PendingUpdate) : addsOf (u :: us) = addsOf [u] ++ addsOf us := by
  cases u <;> rfl

theorem resolvedBy_cons (u : PendingUpdate) (us : List PendingUpdate) :
    resolvedBy (u :: us) = resolvedBy [u] ++ resolvedBy us := by
  cases u <;> rfl

/-- The incoming HTLCs after a fold: those there were and those the peer added, without those that
    the host resolved. -/
theorem applyUpdates_incoming (hi : Interleaves L R us) (hd : DistinctIds (s.incomingHtlcs ++ addsOf R))
    (ha : applyUpdates C s us = .ok t) :
    t.incomingHtlcs = (s.incomingHtlcs ++ addsOf R).filter (fun h => !(resolvedBy L).contains h.id) := by
  induction hi generalizing s with
  | nil =>
    cases ha
    simp [addsOf, resolvedBy]
  | @ofLocal L R us u hi ih =>
    obtain ⟨s', hs', ha⟩ := bind_eq_ok.mp ha
    rw [resolvedBy_cons]
    rcases (applyUpdate_local hs').incoming with ⟨hr, he⟩ | ⟨id, h, hr, hf, he⟩
    · rw [hr, List.nil_append, ← he]
      exact ih (he ▸ hd) ha
    · have hd' : DistinctIds (s'.incomingHtlcs ++ addsOf R) := by
        rw [he]
        exact hd.sublist (List.eraseP_sublist.append (List.Sublist.refl _))
      rw [ih hd' ha, he, eraseP_append_filter hd hf, List.filter_filter, hr]
      refine List.filter_congr fun x _ => ?_
      simp only [List.cons_append, List.nil_append, List.contains_cons, Bool.not_or, bne]
      rw [Bool.and_comm]
  | @ofRemote L R us u hi ih =>
    obtain ⟨s', hs', ha⟩ := bind_eq_ok.mp ha
    have he : s'.incomingHtlcs = s.incomingHtlcs ++ addsOf [u] := (applyUpdate_remote hs').outgoing
    rw [addsOf_cons, ← List.append_assoc, ← he] at hd ⊢
    exact ih hd ha

/-- The outgoing HTLCs after a fold, in the same way. -/
theorem applyUpdates_outgoing (hi : Interleaves L R us) (hd : DistinctIds (s.outgoingHtlcs ++ addsOf L))
    (ha : applyUpdates C s us = .ok t) :
    t.outgoingHtlcs = (s.outgoingHtlcs ++ addsOf L).filter (fun h => !(resolvedBy R).contains h.id) := by
  have h := applyUpdates_swap (C := C) us s
  rw [ha] at h
  exact applyUpdates_incoming (s := s.reverse) (t := t.reverse) hi.swap hd h

/-- An id finds the same HTLC in a list and in a longer one without repeated ids. -/
theorem amountOf_eq {h : UpdateAddHtlc} (hd : DistinctIds offered) (hsub : ∀ x ∈ htlcs, x ∈ offered)
    (hf : htlcs.find? (·.id == id) = some h) : amountOf offered id = h.amountMsat.toNat := by
  have hid : h.id = id := by simpa using List.find?_some hf
  have hm := hsub h (List.mem_of_find?_eq_some hf)
  have hfind : offered.find? (·.id == id) = some h := by
    have hsome : (offered.find? (·.id == id)).isSome := List.find?_isSome.mpr ⟨h, hm, by simpa using hid⟩
    obtain ⟨h', hf'⟩ := Option.isSome_iff_exists.mp hsome
    have hid' : h'.id = id := by simpa using List.find?_some hf'
    have := List.inj_on_of_nodup_map hd (List.mem_of_find?_eq_some hf') hm (hid'.trans hid.symm)
    rw [hf', this]
  simp only [amountOf, hfind]

theorem AppliedLocal.balances {u : PendingUpdate} (ha : AppliedLocal s u t)
    (hamount : ∀ id h, resolvedBy [u] = [id] → s.incomingHtlcs.find? (·.id == id) = some h →
      amountOf offered id = h.amountMsat.toNat) :
    (t.localBalanceMsat.toNat : Int) = s.localBalanceMsat.toNat + ownDelta offered u ∧
      (t.remoteBalanceMsat.toNat : Int) = s.remoteBalanceMsat.toNat + otherDelta offered u := by
  cases ha with
  | add hb =>
    simp only [ownDelta, otherDelta]
    omega
  | fulfill hf hb =>
    simp only [ownDelta, otherDelta, hamount _ _ rfl hf]
    omega
  | fail hu hf hb =>
    rcases hu with ⟨_, _, rfl⟩ | ⟨_, _, _, rfl⟩ <;> simp only [ownDelta, otherDelta, hamount _ _ rfl hf] <;> omega

/-- The host's balance after a fold: a sum over the updates of each party. -/
theorem applyUpdates_balance {I O : List UpdateAddHtlc} (hI : DistinctIds I) (hO : DistinctIds O)
    (hi : Interleaves L R us) (hsI : ∀ x ∈ s.incomingHtlcs ++ addsOf R, x ∈ I)
    (hsO : ∀ x ∈ s.outgoingHtlcs ++ addsOf L, x ∈ O) (ha : applyUpdates C s us = .ok t) :
    (t.localBalanceMsat.toNat : Int) =
      s.localBalanceMsat.toNat + (L.map (ownDelta I)).sum + (R.map (otherDelta O)).sum := by
  induction hi generalizing s with
  | nil =>
    cases ha
    simp
  | @ofLocal L R us u hi ih =>
    obtain ⟨s', hs', ha⟩ := bind_eq_ok.mp ha
    have hs' := applyUpdate_local hs'
    have hb := (hs'.balances fun _ _ _ => amountOf_eq hI fun x hx => hsI x (List.mem_append_left _ hx)).1
    have hsub : ∀ x ∈ s'.incomingHtlcs, x ∈ s.incomingHtlcs := by
      rcases hs'.incoming with ⟨-, he⟩ | ⟨_, _, -, -, he⟩ <;> rw [he]
      · exact fun _ hx => hx
      · exact fun _ hx => List.mem_of_mem_eraseP hx
    have := ih (s := s') ?_ ?_ ha
    · simp only [List.map_cons, List.sum_cons]
      omega
    · intro x hx
      rcases List.mem_append.mp hx with hx | hx
      · exact hsI x (List.mem_append_left _ (hsub x hx))
      · exact hsI x (List.mem_append_right _ hx)
    · rwa [hs'.outgoing, List.append_assoc, ← addsOf_cons]
  | @ofRemote L R us u hi ih =>
    obtain ⟨s', hs', ha⟩ := bind_eq_ok.mp ha
    have hs' := applyUpdate_remote hs'
    have hb := (hs'.balances fun _ _ _ => amountOf_eq hO fun x hx => hsO x (List.mem_append_left _ hx)).2
    have hsub : ∀ x ∈ s'.outgoingHtlcs, x ∈ s.outgoingHtlcs := by
      rcases hs'.incoming with ⟨-, he⟩ | ⟨_, _, -, -, he⟩ <;> simp only [LastCrossSignedState.reverse] at he <;> rw [he]
      · exact fun _ hx => hx
      · exact fun _ hx => List.mem_of_mem_eraseP hx
    have hin : s'.incomingHtlcs = s.incomingHtlcs ++ addsOf [u] := hs'.outgoing
    have := ih (s := s') ?_ ?_ ha
    · simp only [List.map_cons, List.sum_cons]
      simp only [LastCrossSignedState.reverse] at hb
      omega
    · rwa [hin, List.append_assoc, ← addsOf_cons]
    · intro x hx
      rcases List.mem_append.mp hx with hx | hx
      · exact hsO x (List.mem_append_left _ (hsub x hx))
      · exact hsO x (List.mem_append_right _ hx)

/-- Two interleavings of the same updates, if both fold, fold to the same state. -/
theorem lcssNext_interleaving (hu : Interleaves L R us) (hv : Interleaves L R vs)
    (hin : DistinctIds (s.incomingHtlcs ++ addsOf R)) (hout : DistinctIds (s.outgoingHtlcs ++ addsOf L))
    {t₁ t₂ : LastCrossSignedState} (h₁ : lcssNext C ⟨s, us⟩ = .ok t₁) (h₂ : lcssNext C ⟨s, vs⟩ = .ok t₂) : t₁ = t₂ := by
  obtain ⟨r₁, hr₁, rfl⟩ := lcssNext_eq_ok h₁
  obtain ⟨r₂, hr₂, rfl⟩ := lcssNext_eq_ok h₂
  -- The counters start from zero; the lists and the balances are those of `s`.
  let s₀ := { s with localUpdates := 0, remoteUpdates := 0 }
  have terms₁ := (applyUpdates_keeps hr₁).2
  have terms₂ := (applyUpdates_keeps hr₂).2
  have hinc : r₁.incomingHtlcs = r₂.incomingHtlcs :=
    (applyUpdates_incoming (s := s₀) hu hin hr₁).trans (applyUpdates_incoming (s := s₀) hv hin hr₂).symm
  have houtg : r₁.outgoingHtlcs = r₂.outgoingHtlcs :=
    (applyUpdates_outgoing (s := s₀) hu hout hr₁).trans (applyUpdates_outgoing (s := s₀) hv hout hr₂).symm
  have hloc : r₁.localBalanceMsat = r₂.localBalanceMsat := by
    have b₁ := applyUpdates_balance (s := s₀) hin hout hu (fun _ h => h) (fun _ h => h) hr₁
    have b₂ := applyUpdates_balance (s := s₀) hin hout hv (fun _ h => h) (fun _ h => h) hr₂
    exact UInt64.toNat_inj.mp (by omega)
  have hrem : r₁.remoteBalanceMsat = r₂.remoteBalanceMsat := by
    -- The funds are conserved, so the other balance follows.
    have f₁ := (applyUpdates_keeps hr₁).1
    have f₂ := (applyUpdates_keeps hr₂).1
    simp only [LastCrossSignedState.funds, hinc, houtg, hloc] at f₁ f₂
    exact UInt64.toNat_inj.mp (by omega)
  simp only [nextLocalUpdates, nextRemoteUpdates, hu.countP_isLocal, hv.countP_isLocal, hu.countP_isRemote,
    hv.countP_isRemote, hinc, houtg, hloc, hrem, terms₁.isHost, terms₂.isHost, terms₁.refund, terms₂.refund,
    terms₁.init, terms₂.init, terms₁.remoteSig, terms₂.remoteSig, terms₁.localSig, terms₂.localSig]

/-- Host and client compute the same next state, each in its own view and whatever the order in which
    it has seen the two sequences of updates; and on one order either both folds succeed or neither. -/
theorem client_next_is_reverse (C : Crypto) (s : LastCrossSignedState) (L R : List PendingUpdate)
    (hin : (s.incomingHtlcs.map (·.id) ++ (addsOf R).map (·.id)).Nodup)
    (hout : (s.outgoingHtlcs.map (·.id) ++ (addsOf L).map (·.id)).Nodup) :
    (∀ us vs host client, Interleaves L R us → Interleaves L R vs →
      lcssNext C ⟨s, us⟩ = .ok host → lcssNext C ⟨s.reverse, vs.map UncommittedUpdate.swap⟩ = .ok client →
      client = host.reverse) ∧
    (∀ us, Interleaves L R us → ((∃ host, lcssNext C ⟨s, us⟩ = .ok host) ↔
      ∃ client, lcssNext C ⟨s.reverse, us.map UncommittedUpdate.swap⟩ = .ok client)) := by
  rw [← List.map_append] at hin hout
  constructor
  · intro us vs host client hu hv hhost hclient
    rw [lcssNext_swap] at hclient
    cases hfold : lcssNext C ⟨s, vs⟩ with
    | error e =>
      rw [hfold] at hclient
      cases hclient
    | ok host' =>
      rw [hfold] at hclient
      cases hclient
      rw [lcssNext_interleaving hu hv hin hout hhost hfold]
  · intro us _
    rw [lcssNext_swap]
    cases lcssNext C ⟨s, us⟩ with
    | error e => simp [Except.map]
    | ok host => simp [Except.map]

/-- A channel with an incoming HTLC of 100 whose preimage is all ones, -/
def heldState : LastCrossSignedState :=
  { initialLcss Host.transparent.config.policy [] with
    remoteBalanceMsat := 399900
    incomingHtlcs := [⟨ByteVec.fill 32 0, 1, 100, digest (List.replicate 32 1), 500, [], []⟩] }

/-- its settlement by the host, -/
def heldFulfill : PendingUpdate := .fulfill (ByteVec.fill 32 0) 1 (ByteVec.fill 32 1)

/-- and another HTLC that the client adds meanwhile. -/
def lateAdd : PendingUpdate := .add ⟨ByteVec.fill 32 0, 2, 50, ByteVec.fill 32 0, 500, [], []⟩

theorem exists_eq_ok {ε α : Type} {x : Except ε α} (h : x.toBool = true) : ∃ a, x = .ok a := by
  cases x with
  | error e => cases h
  | ok a => exact ⟨a, rfl⟩

/-- Each party sees its own update first. -/
theorem client_next_is_reverse_settling : ∃ host client,
    lcssNext .transparent ⟨heldState, [.ofLocal heldFulfill, .ofRemote lateAdd]⟩ = .ok host ∧
    lcssNext .transparent ⟨heldState.reverse, [.ofRemote lateAdd, .ofLocal heldFulfill].map UncommittedUpdate.swap⟩ =
      .ok client ∧
    client = host.reverse := by
  obtain ⟨host, hhost⟩ := exists_eq_ok
    (x := lcssNext .transparent ⟨heldState, [.ofLocal heldFulfill, .ofRemote lateAdd]⟩) (by decide +kernel)
  obtain ⟨client, hclient⟩ := exists_eq_ok
    (x := lcssNext .transparent
      ⟨heldState.reverse, [.ofRemote lateAdd, .ofLocal heldFulfill].map UncommittedUpdate.swap⟩) (by decide +kernel)
  refine ⟨host, client, hhost, hclient, ?_⟩
  exact (client_next_is_reverse .transparent heldState [heldFulfill] [lateAdd] (by decide) (by decide)).1 _ _ host client
    (.ofLocal _ (.ofRemote _ .nil)) (.ofRemote _ (.ofLocal _ .nil)) hhost hclient

end

/-! ### When an update applies -/

section
variable {C : Crypto} {s t : LastCrossSignedState} {us vs : List UncommittedUpdate} {h : UpdateAddHtlc} {id : UInt64}

theorem credit_ok {a b : UInt64} (h : a.toNat + b.toNat < 2 ^ 64) : credit a b = .ok (a + b) := by
  unfold credit checkedAdd
  rw [if_pos h]

theorem amount_le_totalAmount {htlcs : List UpdateAddHtlc} (hf : htlcs.find? (·.id == id) = some h) :
    h.amountMsat.toNat ≤ totalAmount htlcs := by
  rw [totalAmount_eraseP hf]
  exact Nat.le_add_left _ _

/-- A resolution applies if it finds its HTLC, and a fulfil has the right preimage. No balance overflows, since the
    HTLC is a part of the funds. -/
theorem applyUpdate_resolution {u : PendingUpdate} (hk : resolutionKey (.ofLocal u) = some (true, id))
    (hf : s.incomingHtlcs.find? (·.id == id) = some h)
    (hp : ∀ c preimage, u = .fulfill c id preimage → C.sha256 preimage.toList = h.paymentHash) (hs : s.funds < 2 ^ 64) :
    ∃ t, applyUpdate C s (.ofLocal u) = .ok t := by
  have hle := amount_le_totalAmount hf
  unfold LastCrossSignedState.funds at hs
  have hown := credit_ok (a := s.localBalanceMsat) (b := h.amountMsat) (by omega)
  have hother := credit_ok (a := s.remoteBalanceMsat) (b := h.amountMsat) (by omega)
  cases u with
  | add htlc => cases hk
  | fulfill c i preimage =>
    obtain rfl : i = id := by simpa [resolutionKey] using hk
    simp only [applyUpdate, takeHtlc, hf, bind, Except.bind, hp c preimage rfl, ne_eq, not_true_eq_false, if_false, hown]
    exact ⟨_, rfl⟩
  | fail c i reason =>
    obtain rfl : i = id := by simpa [resolutionKey] using hk
    simp only [applyUpdate, takeHtlc, hf, bind, Except.bind, hother]
    exact ⟨_, rfl⟩
  | failMalformed c i sha code =>
    obtain rfl : i = id := by simpa [resolutionKey] using hk
    simp only [applyUpdate, takeHtlc, hf, bind, Except.bind, hother]
    exact ⟨_, rfl⟩

theorem resolutionKey_swap (u : UncommittedUpdate) :
    resolutionKey u.swap = (resolutionKey u).map fun k => (!k.1, k.2) := by
  rcases u with (u | u) <;> cases u <;> rfl

theorem resolutionKey_swap_ne {u : UncommittedUpdate} (hk : resolutionKey u ≠ some (false, id)) :
    resolutionKey u.swap ≠ some (true, id) := by
  rw [resolutionKey_swap]
  intro hmirror
  obtain ⟨⟨side, i⟩, hside, hmirror⟩ := Option.map_eq_some_iff.mp hmirror
  obtain ⟨hfalse, rfl⟩ := Prod.mk.inj hmirror
  have hfalse : side = false := by simpa using hfalse
  exact hk (by rw [hside, hfalse])

theorem applyUpdate_remoteResolution {u : PendingUpdate} (hk : resolutionKey (.ofRemote u) = some (false, id))
    (hf : s.outgoingHtlcs.find? (·.id == id) = some h)
    (hp : ∀ c preimage, u = .fulfill c id preimage → C.sha256 preimage.toList = h.paymentHash) (hs : s.funds < 2 ^ 64) :
    ∃ t, applyUpdate C s (.ofRemote u) = .ok t := by
  have hk' : resolutionKey (.ofLocal u) = some (true, id) := by
    have h := resolutionKey_swap (.ofRemote u)
    rw [hk] at h
    exact h
  exact applyUpdate_remote_ok (applyUpdate_resolution (s := s.reverse) hk' hf hp ((funds_reverse s).symm ▸ hs))

theorem find?_eraseP_ne {htlcs : List UpdateAddHtlc} {id' : UInt64} (hne : id' ≠ id) :
    (htlcs.eraseP (·.id == id')).find? (·.id == id) = htlcs.find? (·.id == id) := by
  induction htlcs with
  | nil => rfl
  | cons x xs ih =>
    rw [List.eraseP_cons, List.find?_cons]
    by_cases hx : x.id = id'
    · have hid : (x.id == id) = false := by simpa [hx] using hne
      rw [hx, beq_self_eq_true, cond_true, ← hx, hid]
    · rw [show (x.id == id') = false by simpa using hx, cond_false, List.find?_cons, ih]

theorem resolutionKey_of_resolvedBy {u : PendingUpdate} (hu : resolvedBy [u] = [id]) :
    resolutionKey (.ofLocal u) = some (true, id) := by
  cases u with
  | add htlc => cases hu
  | fulfill c i preimage | fail c i reason | failMalformed c i sha code =>
    obtain rfl : i = id := by simpa [resolvedBy] using hu
    rfl

/-- The first incoming HTLC with an id stays where it is found as long as it is not resolved. -/
theorem applyUpdates_find_incoming (ha : applyUpdates C s us = .ok t) (hr : ∀ u ∈ us, resolutionKey u ≠ some (true, id))
    (hf : s.incomingHtlcs.find? (·.id == id) = some h) : t.incomingHtlcs.find? (·.id == id) = some h := by
  induction us generalizing s with
  | nil =>
    cases ha
    exact hf
  | cons u us ih =>
    obtain ⟨s', hs', ha⟩ := bind_eq_ok.mp ha
    refine ih ha (fun v hv => hr v (List.mem_cons_of_mem _ hv)) ?_
    cases u with
    | ofLocal u =>
      rcases (applyUpdate_local hs').incoming with ⟨-, he⟩ | ⟨id', g, hu, -, he⟩
      · rw [he]
        exact hf
      · rw [he, find?_eraseP_ne]
        · exact hf
        · rintro rfl
          exact hr _ (List.mem_cons_self ..) (resolutionKey_of_resolvedBy hu)
    | ofRemote u =>
      have hin : s'.incomingHtlcs = s.incomingHtlcs ++ addsOf [u] := (applyUpdate_remote hs').outgoing
      rw [hin, List.find?_append, hf]
      rfl

theorem applyUpdates_find_outgoing (ha : applyUpdates C s us = .ok t) (hr : ∀ u ∈ us, resolutionKey u ≠ some (false, id))
    (hf : s.outgoingHtlcs.find? (·.id == id) = some h) : t.outgoingHtlcs.find? (·.id == id) = some h := by
  have hswap := applyUpdates_swap (C := C) us s
  rw [ha] at hswap
  refine applyUpdates_find_incoming (s := s.reverse) (t := t.reverse) hswap ?_ hf
  intro v hv
  obtain ⟨u, hu, rfl⟩ := List.mem_map.mp hv
  exact resolutionKey_swap_ne (hr u hu)

theorem applyUpdates_append : applyUpdates C s (us ++ vs) = (applyUpdates C s us).bind fun t => applyUpdates C t vs := by
  induction us generalizing s with
  | nil => rfl
  | cons u us ih =>
    simp only [List.cons_append, applyUpdates]
    cases applyUpdate C s u with
    | error e => rfl
    | ok t => exact ih

theorem applyUpdates_snoc {u : UncommittedUpdate} {r : LastCrossSignedState} (ha : applyUpdates C s us = .ok r)
    (hu : applyUpdate C r u = .ok t) : applyUpdates C s (us ++ [u]) = .ok t := by
  rw [applyUpdates_append, ha]
  simp only [Except.bind, applyUpdates, hu, bind]

/-- One more update folds if it applies to the state that the others lead to. -/
theorem lcssNext_push {u : UncommittedUpdate} {next : LastCrossSignedState} (hn : lcssNext C ⟨s, us⟩ = .ok next)
    (hu : ∀ r, applyUpdates C { s with localUpdates := 0, remoteUpdates := 0 } us = .ok r →
      ∃ t, applyUpdate C r u = .ok t) : ∃ next', lcssNext C ⟨s, us ++ [u]⟩ = .ok next' := by
  obtain ⟨r, hr, -⟩ := lcssNext_eq_ok hn
  obtain ⟨t, ht⟩ := hu r hr
  exact ⟨_, bind_eq_ok.mpr ⟨t, applyUpdates_snoc hr ht, rfl⟩⟩

end

end Canopus
