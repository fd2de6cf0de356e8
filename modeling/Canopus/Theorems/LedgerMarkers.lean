import Canopus.Theorems.LedgerNumbers

/-! Markers of the ledger. `record_once` tests the marker of its event id before it writes the event, and writes the
    marker after it. Two calls that test in between both write the event. An id is recorded once in the runs in which a
    call that finds no marker is alone with its id: no event has the id, and no other call that found no marker is still
    under way. -/

namespace Canopus
open Effect

/-- No two events of the ledger have one id. -/
def OncePerId (w : World) : Prop := ∀ id seq seq' e e', (w.store .ledger).value? seq = some e →
  (w.store .ledger).value? seq' = some e' → e.eventId = some id → e'.eventId = some id → seq = seq'

/-- The call has found no marker of the id. -/
def unmarkedTest (i : Nat) (id : EventId) : Crowd.Event iface := ⟨i, .existsKey .ledgerEventIds id, .ok false⟩

/-- Where a call finds no marker, no event has the id, and every call that has found no marker before has returned. -/
def AloneWithId (h : List (Crowd.Event iface)) (s : Crowd iface (Except ChannelError Unit) World)
    (e : Crowd.Event iface) : Prop :=
  ∀ i id, e = unmarkedTest i id →
    (∀ seq event, (s.world.store .ledger).value? seq = some event → event.eventId ≠ some id) ∧
    ∀ j, unmarkedTest j id ∈ h → ∃ r, s.Returned j r

/-- Whether a call is a test that found no marker. -/
def foundUnmarked (e : Crowd.Event iface) : Bool :=
  match e with
  | ⟨_, .existsKey .ledgerEventIds _, .ok false⟩ => true
  | _ => false

theorem aloneWithId_of_marked {h : List (Crowd.Event iface)} {s : Crowd iface (Except ChannelError Unit) World}
    {e : Crowd.Event iface} (he : (!foundUnmarked e) = true) : AloneWithId h s e := by
  rintro i id rfl
  cases he

/-! ### What the steps keep -/

/-- The call has found no marker of the id, and may still store its event. -/
def PendingAt (phs : List (LedgerCall × LedgerStage)) (i : Nat) (id : EventId) : Prop :=
  ∃ c st, phs[i]? = some (c, st) ∧ st.pending = true ∧ c.eventId = some id

/-- Of each id at most one call is pending, and while one is, no event has the id. -/
structure MarkersKept (h : List (Crowd.Event iface)) (phs : List (LedgerCall × LedgerStage)) (w : World) : Prop where
  tested : ∀ {i id}, PendingAt phs i id → unmarkedTest i id ∈ h
  single : ∀ {i j id}, PendingAt phs i id → PendingAt phs j id → i = j
  clear : ∀ {i id}, PendingAt phs i id →
    ∀ seq e, (w.store .ledger).value? seq = some e → e.eventId ≠ some id
  once : OncePerId w

section
variable {h : List (Crowd.Event iface)} {phs : List (LedgerCall × LedgerStage)} {w w' : World} {i : Nat}
  {c : LedgerCall} {st st' : LedgerStage} {e : Crowd.Event iface}

/-- The calls that are pending after a move. -/
theorem pendingAt_set (hph : phs[i]? = some (c, st)) {j : Nat} {id : EventId} :
    PendingAt (phs.set i (c, st')) j id ↔
      if i = j then st'.pending = true ∧ c.eventId = some id else PendingAt phs j id := by
  unfold PendingAt
  rw [Crowd.phase_set hph]
  by_cases hij : i = j
  · rw [if_pos hij, if_pos hij]
    constructor
    · rintro ⟨_, _, heq, hst⟩
      cases heq
      exact hst
    · exact fun hst => ⟨c, st', rfl, hst⟩
  · rw [if_neg hij, if_neg hij]

/-- A step after which nothing more is pending, and which stores no event. -/
theorem MarkersKept.keeps (hk : MarkersKept h phs w) (hph : phs[i]? = some (c, st))
    (hpending : st'.pending = true → st.pending = true) (hledger : w'.store .ledger = w.store .ledger) :
    MarkersKept (h ++ [e]) (phs.set i (c, st')) w' := by
  have hbefore {j : Nat} {id : EventId} (hj : PendingAt (phs.set i (c, st')) j id) : PendingAt phs j id := by
    rw [pendingAt_set hph] at hj
    split at hj
    · rename_i hij
      subst hij
      exact ⟨c, st, hph, hpending hj.1, hj.2⟩
    · exact hj
  refine ⟨?_, ?_, ?_, ?_⟩
  · exact fun hj => List.mem_append_left _ (hk.tested (hbefore hj))
  · exact fun hi hj => hk.single (hbefore hi) (hbefore hj)
  · rw [hledger]
    exact fun hj => hk.clear (hbefore hj)
  · unfold OncePerId
    rw [hledger]
    exact hk.once

/-- A call that finds no marker is the only one that is pending with its id. -/
theorem MarkersKept.unmarked (hk : MarkersKept h phs w) (hph : phs[i]? = some (c, .start)) {id : EventId}
    (hid : c.eventId = some id)
    (hfree : ∀ seq event, (w.store .ledger).value? seq = some event → event.eventId ≠ some id)
    (halone : ∀ j, ¬ PendingAt phs j id) :
    MarkersKept (h ++ [unmarkedTest i id]) (phs.set i (c, .going)) w := by
  have hcases {j : Nat} {id' : EventId} (hj : PendingAt (phs.set i (c, .going)) j id') :
      (j = i ∧ id' = id) ∨ (id' ≠ id ∧ PendingAt phs j id') := by
    rw [pendingAt_set hph] at hj
    split at hj
    · rename_i hij
      exact Or.inl ⟨hij.symm, Option.some.inj (hj.2.symm.trans hid)⟩
    · refine Or.inr ⟨?_, hj⟩
      rintro rfl
      exact halone j hj
  refine ⟨?_, ?_, ?_, hk.once⟩
  · intro j id' hj
    obtain ⟨rfl, rfl⟩ | ⟨-, hj⟩ := hcases hj
    · exact List.mem_append_right _ (List.mem_singleton_self _)
    · exact List.mem_append_left _ (hk.tested hj)
  · intro j k id' hj hl
    obtain ⟨rfl, rfl⟩ | ⟨hne, hj⟩ := hcases hj
    · obtain ⟨rfl, -⟩ | ⟨hne, -⟩ := hcases hl
      · rfl
      · exact absurd rfl hne
    · obtain ⟨-, rfl⟩ | ⟨-, hl⟩ := hcases hl
      · exact absurd rfl hne
      · exact hk.single hj hl
  · intro j id' hj
    obtain ⟨-, rfl⟩ | ⟨-, hj⟩ := hcases hj
    · exact hfree
    · exact hk.clear hj

/-- The event of a pending call is the first one with its id. -/
theorem MarkersKept.written (hk : MarkersKept h phs w) {seq t : UInt64} (hph : phs[i]? = some (c, .timed seq t))
    (hentry : (w.store .ledger).lookup seq = none) :
    MarkersKept (h ++ [e]) (phs.set i (c, .stored seq t)) (w.put .ledger seq (c.event seq t)) := by
  have hother {j : Nat} {id : EventId} (hj : PendingAt (phs.set i (c, .stored seq t)) j id) :
      i ≠ j ∧ PendingAt phs j id := by
    rw [pendingAt_set hph] at hj
    split at hj
    · cases hj.1
    · rename_i hij
      exact ⟨hij, hj⟩
  have hevent {seq' : UInt64} {event : LedgerEvent}
      (hv : ((w.put .ledger seq (c.event seq t)).store .ledger).value? seq' = some event) :
      (seq' = seq ∧ event = c.event seq t) ∨ (w.store .ledger).value? seq' = some event := by
    rw [World.put_store_self] at hv
    by_cases hseq : seq' = seq
    · subst hseq
      rw [Table.value?_put] at hv
      exact Or.inl ⟨rfl, (Option.some.inj hv).symm⟩
    · rw [Table.value?_put_ne hseq] at hv
      exact Or.inr hv
  have hpending {id : EventId} (hid : c.eventId = some id) : PendingAt phs i id := ⟨c, _, hph, rfl, hid⟩
  refine ⟨?_, ?_, ?_, ?_⟩
  · exact fun hj => List.mem_append_left _ (hk.tested (hother hj).2)
  · exact fun hj hl => hk.single (hother hj).2 (hother hl).2
  · intro j id hj seq' event hv hid
    obtain ⟨hij, hbefore⟩ := hother hj
    obtain ⟨rfl, rfl⟩ | hv := hevent hv
    · exact hij (hk.single (hpending hid) hbefore)
    · exact hk.clear hbefore seq' event hv hid
  · intro id seq₁ seq₂ e₁ e₂ h₁ h₂ hid₁ hid₂
    obtain ⟨rfl, rfl⟩ | hold₁ := hevent h₁
    · obtain ⟨rfl, -⟩ | hold₂ := hevent h₂
      · rfl
      · exact absurd hid₂ (hk.clear (hpending hid₁) seq₂ e₂ hold₂)
    · obtain ⟨rfl, rfl⟩ | hold₂ := hevent h₂
      · exact absurd hid₁ (hk.clear (hpending hid₂) seq₁ e₁ hold₁)
      · exact hk.once id seq₁ seq₂ e₁ e₂ hold₁ hold₂ hid₁ hid₂

/-- One call of a crowd in which a call that finds no marker is alone with its id. -/
theorem MarkersKept.step {s : Crowd iface (Except ChannelError Unit) World} (hk : MarkersKept h phs s.world)
    (hf : s.Follows LedgerStep LedgerReturn phs) {ph ph' : LedgerCall × LedgerStage} (hph : phs[i]? = some ph)
    {x : Choice} {q : Call} (hguard : AloneWithId h s ⟨i, q, (exec x q s.world).1⟩)
    (hstep : LedgerStep ph q (exec x q s.world).1 ph') :
    MarkersKept (h ++ [⟨i, q, (exec x q s.world).1⟩]) (phs.set i ph') (exec x q s.world).2 := by
  generalize hr : (exec x q s.world).1 = r at hstep hguard ⊢
  obtain ⟨hmove⟩ := hstep
  cases hmove with
  | known | untested | found | missing | unread | timed =>
    rw [exec_reads x s.world rfl]
    exact hk.keeps hph (by simp [LedgerStage.pending]) rfl
  | forestalled =>
    rw [exec_create_error hr]
    exact hk.keeps hph (by simp [LedgerStage.pending]) rfl
  | lost =>
    rw [exec_create_error hr]
    exact hk.keeps hph (by simp [LedgerStage.pending]) rfl
  | overtaken =>
    rw [exec_update_error hr]
    exact hk.keeps hph (by simp [LedgerStage.pending]) rfl
  | created =>
    rw [(exec_create_ok hr).2]
    exact hk.keeps hph (by simp [LedgerStage.pending]) (World.put_store_ne (by decide))
  | numbered =>
    obtain ⟨_, -, hw⟩ := exec_update_ok hr
    rw [hw]
    exact hk.keeps hph (by simp [LedgerStage.pending]) (World.put_store_ne (by decide))
  | @marked _ _ id r =>
    refine hk.keeps hph (by simp [LedgerStage.pending]) ?_
    cases r with
    | error e => rw [exec_create_error hr]
    | ok u => rw [(exec_create_ok hr).2, World.put_store_ne (by decide)]
  | @unknown id hid =>
    rw [exec_reads x s.world rfl]
    obtain ⟨hfree, hreturned⟩ := hguard i id rfl
    refine hk.unmarked hph hid hfree ?_
    -- A pending call would have returned, which no call does before it has stored its event or failed.
    intro j hj
    obtain ⟨r, hret⟩ := hreturned j (hk.tested hj)
    obtain ⟨_, hph', hreturn⟩ := hf.of_returned hret
    obtain ⟨c', st', hj', hpending, -⟩ := hj
    obtain rfl := Option.some.inj (hph'.symm.trans hj')
    rw [hreturn.2] at hpending
    cases hpending
  | stored =>
    obtain ⟨hentry, hw⟩ := exec_create_ok hr
    rw [hw]
    exact hk.written hph hentry

end

/-! ### A run -/

/-- In every run of any number of calls in which each call that finds no marker is alone with its id, an id is recorded
    at most once. -/
theorem record_once_alone (calls : List LedgerCall) (w : World) (hw : OncePerId w) (schedule : List (Nat × Choice))
    (hguard : Crowd.Guarded exec AloneWithId schedule [] (ledgerCrowd calls w)) :
    OncePerId (Crowd.run exec schedule (ledgerCrowd calls w)).world := by
  have hnone {i : Nat} {id : EventId} : ¬ PendingAt (calls.map fun c => (c, c.stage)) i id := by
    rintro ⟨c, st, hi, hpending, hid⟩
    rw [List.getElem?_map] at hi
    obtain ⟨c', -, heq⟩ := Option.map_eq_some_iff.mp hi
    cases heq
    rw [LedgerCall.stage, hid] at hpending
    cases hpending
  have hstart : MarkersKept [] (calls.map fun c => (c, c.stage)) w :=
    ⟨fun hi => absurd hi hnone, fun hi => absurd hi hnone, fun hi => absurd hi hnone, hw⟩
  have hstep (h : List (Crowd.Event iface)) (s : Crowd iface (Except ChannelError Unit) World)
      (phs : List (LedgerCall × LedgerStage)) (i : Nat) (ph : LedgerCall × LedgerStage) (q : Call) (x : Choice)
      (ph' : LedgerCall × LedgerStage) (hf : s.Follows LedgerStep LedgerReturn phs) (hph : phs[i]? = some ph)
      (hk : MarkersKept h phs s.world) (hguard : AloneWithId h s ⟨i, q, (exec x q s.world).1⟩)
      (hmove : LedgerStep ph q (exec x q s.world).1 ph') :
      MarkersKept (h ++ [⟨i, q, (exec x q s.world).1⟩]) (phs.set i ph') (exec x q s.world).2 :=
    hk.step hf hph hguard hmove
  obtain ⟨_, -, hk⟩ := Crowd.run_guarded hstep schedule (ledgerCrowd_follows calls w) hstart hguard
  exact hk.once

/-- A call with an event id, which is made twice. -/
def twin : LedgerCall := ⟨some ⟨ByteVec.fill 33 2, 1, 0, .localAdd 0⟩, ByteVec.fill 33 2, .htlcForwarded, 1000, 0, none⟩

/-- One call after the other: the second one finds the marker of the first one. -/
theorem record_once_alone_twins :
    OncePerId (Crowd.run exec ([0, 0, 0, 0, 0, 0, 0, 1].map (·, .calm)) (ledgerCrowd [twin, twin] .empty)).world := by
  refine record_once_alone [twin, twin] .empty (fun _ _ _ _ _ h => by cases h) _ ⟨?_, ?_⟩
  · -- The first test, on an empty ledger.
    intro e he i id _
    constructor
    · intro seq event h
      cases h
    · intro j h
      cases h
  · have hmarked : ∀ h s e, (!foundUnmarked e) = true → AloneWithId h s e := fun _ _ _ => aloneWithId_of_marked
    exact Crowd.guarded_of_history hmarked (List.all_eq_true.mp (by decide +kernel))

/-- Both calls find no marker, and both record the event. -/
theorem record_once_twice : ¬ OncePerId (Crowd.run exec ([0, 1, 0, 0, 0, 0, 0, 0, 1, 1, 1, 1, 1].map (·, .calm))
    (ledgerCrowd [twin, twin] .empty)).world := by
  intro h
  have hboth : ∀ seq < 2, ((Crowd.run exec ([0, 1, 0, 0, 0, 0, 0, 0, 1, 1, 1, 1, 1].map (·, .calm))
      (ledgerCrowd [twin, twin] .empty)).world.store .ledger).value? (UInt64.ofNat seq) =
        some (twin.event (UInt64.ofNat seq) Choice.calm.time) := by
    decide +kernel
  exact absurd (h _ 0 1 _ _ (hboth 0 (by decide)) (hboth 1 (by decide)) rfl rfl) (by decide)

end Canopus
