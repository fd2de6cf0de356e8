import Canopus.Lib.Crowd
import Canopus.Theorems.Steps
import Canopus.Transparent

/-! Sequence numbers of the ledger. A call takes its number by a compare-and-swap of the metadata, which the first call
    creates with the generation it assumes, and only then writes its event under that number. However calls are
    interleaved, and wherever they stop, the numbers are handed out in order and each of them once. -/

namespace Canopus
open Effect

/-! ### The calls -/

/-- A call of the ledger: `record_once` if it has an event id, `record` otherwise. -/
structure LedgerCall where
  eventId : Option EventId
  peer : PublicKey
  eventType : LedgerEventType
  amountMsat : UInt64
  feeMsat : UInt64
  paymentHash : Option Hash

namespace LedgerCall

def answer (c : LedgerCall) : Ctl Unit :=
  match c.eventId with
  | some id => recordOnce id c.peer c.eventType c.amountMsat c.feeMsat c.paymentHash
  | none => record c.peer c.eventType c.amountMsat c.feeMsat c.paymentHash

/-- The event that the call writes under a number. -/
def event (c : LedgerCall) (seq timestamp : UInt64) : LedgerEvent :=
  ⟨seq, c.eventId, c.peer, c.eventType, c.amountMsat, c.feeMsat, c.paymentHash, timestamp⟩

end LedgerCall

/-- Calls that start together on a world. -/
def ledgerCrowd (calls : List LedgerCall) (w : World) : Crowd iface (Except ChannelError Unit) World :=
  ⟨calls.map fun c => c.answer.run, w⟩

/-- The number that an accepted update of the metadata hands out, and to which call. -/
def numberGiven (e : Crowd.Event iface) : Option (Nat × UInt64) :=
  match e with
  | ⟨i, .update .metadata _ metadata _, .ok _⟩ => some (i, metadata.nextLedgerSeq - 1)
  | _ => none

def numbersGiven (h : List (Crowd.Event iface)) : List (Nat × UInt64) := h.filterMap numberGiven

/-! ### The protocol of a call -/

/-- How far a call has come: it is to test the marker; it is to read the metadata; it has found none; it has read it; it
    has taken its number, and the time; it has stored its event; it has then written the marker. Or it is over without a
    number, or has lost the one it had. -/
inductive LedgerStage where
  | start
  | going
  | absent
  | read (metadata : Meta) (generation : Nat)
  | numbered (seq : UInt64)
  | timed (seq timestamp : UInt64)
  | stored (seq timestamp : UInt64)
  | marked (seq timestamp : UInt64)
  | over
  | lost (seq : UInt64)

namespace LedgerStage

/-- The number that the call has taken. -/
def number : LedgerStage → Option UInt64
  | .numbered seq | .timed seq _ | .stored seq _ | .marked seq _ | .lost seq => some seq
  | _ => none

/-- The number and the time of the event that the call has stored. -/
def event : LedgerStage → Option (UInt64 × UInt64)
  | .stored seq timestamp | .marked seq timestamp => some (seq, timestamp)
  | _ => none

/-- The call has found no marker and may still store its event. -/
def pending : LedgerStage → Bool
  | .going | .absent | .read _ _ | .numbered _ | .timed _ _ => true
  | _ => false

end LedgerStage

/-- What a call does in each stage. -/
inductive LedgerMove (c : LedgerCall) : Protocol iface LedgerStage
  | known {id : EventId} (hid : c.eventId = some id) :
    LedgerMove c .start (.existsKey .ledgerEventIds id) (.ok true) .over
  | unknown {id : EventId} (hid : c.eventId = some id) :
    LedgerMove c .start (.existsKey .ledgerEventIds id) (.ok false) .going
  | untested {id : EventId} {e : StoreError} :
    LedgerMove c .start (.existsKey .ledgerEventIds id) (.error e) .over
  | found {metadata : Meta} {generation : Nat} :
    LedgerMove c .going (.get .metadata ()) (.ok (metadata, generation)) (.read metadata generation)
  | missing : LedgerMove c .going (.get .metadata ()) (.error .notFound) .absent
  | unread {e : StoreError} : LedgerMove c .going (.get .metadata ()) (.error e) .over
  | created : LedgerMove c .absent (.create .metadata () ⟨0, 0⟩) (.ok ()) (.read ⟨0, 0⟩ 0)
  | forestalled {e : StoreError} : LedgerMove c .absent (.create .metadata () ⟨0, 0⟩) (.error e) .over
  | numbered {metadata : Meta} {generation : Nat} :
    LedgerMove c (.read metadata generation)
      (.update .metadata () { metadata with nextLedgerSeq := metadata.nextLedgerSeq + 1 } generation) (.ok ())
      (.numbered metadata.nextLedgerSeq)
  | overtaken {metadata : Meta} {generation : Nat} {e : StoreError} :
    LedgerMove c (.read metadata generation)
      (.update .metadata () { metadata with nextLedgerSeq := metadata.nextLedgerSeq + 1 } generation) (.error e) .over
  | timed {seq : UInt64} {time : Option UInt64} : LedgerMove c (.numbered seq) .systemTime time (.timed seq (time.getD 0))
  | stored {seq timestamp : UInt64} :
    LedgerMove c (.timed seq timestamp) (.create .ledger seq (c.event seq timestamp)) (.ok ()) (.stored seq timestamp)
  | lost {seq timestamp : UInt64} {e : StoreError} :
    LedgerMove c (.timed seq timestamp) (.create .ledger seq (c.event seq timestamp)) (.error e) (.lost seq)
  | marked {seq timestamp : UInt64} {id : EventId} {r : Except StoreError Unit} (hid : c.eventId = some id) :
    LedgerMove c (.stored seq timestamp) (.create .ledgerEventIds id true) r (.marked seq timestamp)

/-- A call stays itself and follows its own protocol. -/
inductive LedgerStep : Protocol iface (LedgerCall × LedgerStage)
  | move {c : LedgerCall} {st st' : LedgerStage} {q : Call} {r : q.Ans} (h : LedgerMove c st q r st') :
    LedgerStep (c, st) q r (c, st')

/-- A call of `record` that returns `Ok` has stored its event, and no call returns while it may still store one. -/
def LedgerReturn (ph : LedgerCall × LedgerStage) (r : Except ChannelError Unit) : Prop :=
  (ph.1.eventId = none → r = .ok () → ∃ seq timestamp, ph.2 = .stored seq timestamp) ∧ ph.2.pending = false

section
variable {c : LedgerCall} {α : Type}

abbrev FollowsLedger (x : Ctl α) (Q : LedgerCall × LedgerStage → Except ChannelError α → Prop)
    (ph : LedgerCall × LedgerStage) : Prop := Fallible.Follows LedgerStep x Q ph

theorem follows_recordInner :
    FollowsLedger (recordInner c.peer c.eventType c.amountMsat c.feeMsat c.paymentHash c.eventId)
      (fun ph r => ph.1 = c ∧ ph.2.pending = false ∧ (r = .ok () → ∃ seq timestamp, ph.2 = .stored seq timestamp))
      (c, .going) := by
  -- From the metadata on.
  have hread (metadata : Meta) (generation : Nat) :
      FollowsLedger (do
        liftStore (← updateJson .metadata () { metadata with nextLedgerSeq := metadata.nextLedgerSeq + 1 } generation)
        let timestamp := (← ask .systemTime).getD 0
        liftStore (← createJson .ledger metadata.nextLedgerSeq ⟨metadata.nextLedgerSeq, c.eventId, c.peer, c.eventType,
          c.amountMsat, c.feeMsat, c.paymentHash, timestamp⟩))
        (fun ph r => ph.1 = c ∧ ph.2.pending = false ∧ (r = .ok () → ∃ seq timestamp, ph.2 = .stored seq timestamp))
        (c, .read metadata generation) := by
    refine Fallible.Follows.bind (Fallible.Follows.ask ?_)
    rintro (e | ⟨⟩)
    · exact ⟨_, .move .overtaken, Fallible.Follows.bind (Fallible.Follows.throw ⟨rfl, rfl, by simp⟩)⟩
    · refine ⟨_, .move .numbered, Fallible.Follows.bind (Fallible.Follows.pure ?_)⟩
      refine Fallible.Follows.bind (Fallible.Follows.ask fun time => ⟨_, .move .timed, ?_⟩)
      refine Fallible.Follows.bind (Fallible.Follows.ask ?_)
      rintro (e | ⟨⟩)
      · exact ⟨_, .move .lost, Fallible.Follows.throw ⟨rfl, rfl, by simp⟩⟩
      · exact ⟨_, .move .stored, Fallible.Follows.pure ⟨rfl, rfl, fun _ => ⟨_, _, rfl⟩⟩⟩
  unfold recordInner loadMeta
  refine Fallible.Follows.bind (Fallible.Follows.bind (Fallible.Follows.ask ?_))
  rintro (e | ⟨metadata, generation⟩)
  · cases e with
    | notFound =>
      refine ⟨_, .move .missing, Fallible.Follows.bind (Fallible.Follows.ask ?_)⟩
      rintro (e | ⟨⟩)
      · exact ⟨_, .move .forestalled, Fallible.Follows.bind (Fallible.Follows.throw ⟨rfl, rfl, by simp⟩)⟩
      · exact ⟨_, .move .created, Fallible.Follows.bind (Fallible.Follows.pure (Fallible.Follows.pure (hread ⟨0, 0⟩ 0)))⟩
    | generationMismatch | alreadyExists | backend =>
      exact ⟨_, .move .unread, Fallible.Follows.throw ⟨rfl, rfl, by simp⟩⟩
  · exact ⟨_, .move .found, Fallible.Follows.pure (hread metadata generation)⟩

/-- Where a call starts. -/
def LedgerCall.stage (c : LedgerCall) : LedgerStage := if c.eventId.isSome then .start else .going

theorem follows_ledgerCall : FollowsLedger c.answer LedgerReturn (c, c.stage) := by
  unfold LedgerCall.answer LedgerCall.stage
  cases hid : c.eventId with
  | none =>
    have hinner := follows_recordInner (c := c)
    rw [hid] at hinner
    refine hinner.mono ?_
    rintro ⟨c', st⟩ r ⟨rfl, hpending, hok⟩
    exact ⟨fun _ => hok, hpending⟩
  | some id =>
    have hinner := follows_recordInner (c := c)
    rw [hid] at hinner
    have hsome {st : LedgerStage} {r : Except ChannelError Unit} (h : st.pending = false) : LedgerReturn (c, st) r :=
      ⟨fun hnone => absurd (hid.symm.trans hnone) (by simp), h⟩
    dsimp only [Option.isSome_some]
    rw [if_pos rfl]
    unfold recordOnce
    refine Fallible.Follows.bind (Fallible.Follows.ask ?_)
    rintro (e | (_ | _))
    · exact ⟨_, .move .untested, Fallible.Follows.bind (Fallible.Follows.throw (hsome rfl))⟩
    · refine ⟨_, .move (.unknown hid), Fallible.Follows.bind (Fallible.Follows.pure (Fallible.Follows.bind ?_))⟩
      refine hinner.mono ?_
      rintro ⟨c', st⟩ (e | ⟨⟩) ⟨rfl, hpending, hok⟩
      · exact hsome hpending
      · obtain ⟨seq, timestamp, rfl⟩ := hok rfl
        refine Fallible.Follows.bind (Fallible.Follows.ask fun r => ⟨_, .move (.marked hid), ?_⟩)
        rcases r with (e | ⟨⟩)
        · cases e with
          | alreadyExists => exact Fallible.Follows.pure (hsome rfl)
          | notFound | generationMismatch | backend => exact Fallible.Follows.throw (hsome rfl)
        · exact Fallible.Follows.pure (hsome rfl)
    · exact ⟨_, .move (.known hid), Fallible.Follows.bind (Fallible.Follows.pure (Fallible.Follows.pure (hsome rfl)))⟩

end

/-! ### What the steps keep -/

/-- The number that the metadata holds for the next event, which is 0 before there is any. -/
def World.nextSeq (w : World) : Nat := ((w.store .metadata).value? ()).elim 0 fun m => m.nextLedgerSeq.toNat

/-- The numbers were given out in order, each to the call that has it; the next one is their count; a call that has read
    the metadata has read what is stored, unless that has a later generation; and the stored events are those of the
    calls that have stored one. -/
structure LedgerKept (calls : List LedgerCall) (h : List (Crowd.Event iface)) (phs : List (LedgerCall × LedgerStage))
    (w : World) : Prop where
  call : ∀ i : Nat, phs[i]?.map (·.1) = calls[i]?
  numbers : (numbersGiven h).map (·.2.toNat) = List.range (numbersGiven h).length
  given : ∀ (i : Nat) (seq : UInt64), (i, seq) ∈ numbersGiven h ↔ ∃ c st, phs[i]? = some (c, st) ∧ st.number = some seq
  metadata : w.nextSeq = (numbersGiven h).length
  held : ∀ {i : Nat} {c : LedgerCall} {m : Meta} {g : Nat}, phs[i]? = some (c, .read m g) →
    ∃ g' m', (w.store .metadata).lookup () = some (g', m') ∧ g ≤ g' ∧ (g = g' → m' = m)
  stored : ∀ (seq : UInt64) (e : LedgerEvent), (w.store .ledger).value? seq = some e ↔ ∃ (i : Nat) (c : LedgerCall)
    (st : LedgerStage), phs[i]? = some (c, st) ∧ ∃ t, st.event = some (seq, t) ∧ e = c.event seq t

section
variable {calls : List LedgerCall} {h : List (Crowd.Event iface)} {phs : List (LedgerCall × LedgerStage)} {w w' : World}
  {i : Nat} {c : LedgerCall} {st st' : LedgerStage} {e : Crowd.Event iface}

theorem numbersGiven_append : numbersGiven (h ++ [e]) = numbersGiven h ++ (numberGiven e).toList := by
  unfold numbersGiven
  rw [List.filterMap_append]
  cases he : numberGiven e <;> simp [he]

/-- A call that moves keeps what holds of it before and after alike. -/
theorem exists_stage_set {F : LedgerCall → LedgerStage → Prop} (hph : phs[i]? = some (c, st)) (hF : F c st' ↔ F c st)
    (j : Nat) : (∃ c' st'', (phs.set i (c, st'))[j]? = some (c', st'') ∧ F c' st'') ↔
      ∃ c' st'', phs[j]? = some (c', st'') ∧ F c' st'' := by
  rw [Crowd.phase_set hph]
  by_cases hij : i = j
  · subst hij
    rw [if_pos rfl, hph]
    constructor
    · rintro ⟨_, _, heq, h'⟩
      cases heq
      exact ⟨c, st, rfl, hF.mp h'⟩
    · rintro ⟨_, _, heq, h'⟩
      cases heq
      exact ⟨c, st', rfl, hF.mpr h'⟩
  · rw [if_neg hij]

theorem LedgerKept.call_set (hk : LedgerKept calls h phs w) (hph : phs[i]? = some (c, st)) (j : Nat) :
    (phs.set i (c, st'))[j]?.map (·.1) = calls[j]? := by
  refine (Crowd.map_phase_set hph ?_ j).trans (hk.call j)
  rfl

/-- What a call has read is held by it until the generation changes. -/
theorem LedgerKept.held_set (hk : LedgerKept calls h phs w) (hph : phs[i]? = some (c, st))
    (hmeta : w'.store .metadata = w.store .metadata)
    (hread : ∀ {m g}, st' = .read m g → (w'.store .metadata).lookup () = some (g, m))
    {j : Nat} {c' : LedgerCall} {m : Meta} {g : Nat} (hj : (phs.set i (c, st'))[j]? = some (c', .read m g)) :
    ∃ g' m', (w'.store .metadata).lookup () = some (g', m') ∧ g ≤ g' ∧ (g = g' → m' = m) := by
  rcases Crowd.of_phase_set hph hj with ⟨-, heq⟩ | ⟨-, hj⟩
  · exact ⟨g, m, hread (Prod.mk.inj heq).2, Nat.le_refl g, fun _ => rfl⟩
  · rw [hmeta]
    exact hk.held hj

/-- A step that gives out no number and stores no event. -/
theorem LedgerKept.quiet (hk : LedgerKept calls h phs w) (hph : phs[i]? = some (c, st)) (he : numberGiven e = none)
    (hnumber : st'.number = st.number) (hevent : st'.event = st.event) (hnext : w'.nextSeq = w.nextSeq)
    (hledger : w'.store .ledger = w.store .ledger)
    (hheld : ∀ {j : Nat} {c' : LedgerCall} {m : Meta} {g : Nat}, (phs.set i (c, st'))[j]? = some (c', .read m g) →
      ∃ g' m', (w'.store .metadata).lookup () = some (g', m') ∧ g ≤ g' ∧ (g = g' → m' = m)) :
    LedgerKept calls (h ++ [e]) (phs.set i (c, st')) w' := by
  have hnumbers : numbersGiven (h ++ [e]) = numbersGiven h := by
    rw [numbersGiven_append, he]
    exact List.append_nil _
  refine ⟨hk.call_set hph, ?_, ?_, ?_, hheld, ?_⟩
  · rw [hnumbers]
    exact hk.numbers
  · intro j seq
    rw [hnumbers, hk.given j seq]
    exact (exists_stage_set hph (by rw [hnumber]) j).symm
  · rw [hnumbers, hnext, hk.metadata]
  · intro seq event
    rw [hledger, hk.stored seq event]
    exact exists_congr fun j => (exists_stage_set hph (by rw [hevent]) j).symm

/-- A step that leaves the metadata as well. -/
theorem LedgerKept.keeps (hk : LedgerKept calls h phs w) (hph : phs[i]? = some (c, st)) (he : numberGiven e = none)
    (hnumber : st'.number = st.number) (hevent : st'.event = st.event)
    (hmeta : w'.store .metadata = w.store .metadata) (hledger : w'.store .ledger = w.store .ledger)
    (hread : ∀ {m g}, st' = .read m g → (w'.store .metadata).lookup () = some (g, m)) :
    LedgerKept calls (h ++ [e]) (phs.set i (c, st')) w' := by
  refine hk.quiet hph he hnumber hevent ?_ hledger (hk.held_set hph hmeta hread)
  rw [World.nextSeq, hmeta, World.nextSeq]

/-- The first call creates the metadata, from which the number 0 is next. -/
theorem LedgerKept.created (hk : LedgerKept calls h phs w) (hph : phs[i]? = some (c, .absent))
    (hentry : (w.store .metadata).lookup () = none) (he : numberGiven e = none) :
    LedgerKept calls (h ++ [e]) (phs.set i (c, .read ⟨0, 0⟩ 0)) (w.put .metadata () ⟨0, 0⟩) := by
  have hentry' : ((w.put .metadata () ⟨0, 0⟩).store .metadata).lookup () = some (0, ⟨0, 0⟩) := by
    rw [World.put_store_self]
    exact Table.lookup_put_new hentry
  refine hk.quiet hph he rfl rfl ?_ (World.put_store_ne (by decide)) ?_
  · rw [World.nextSeq, World.nextSeq, Table.value?_of_entry hentry', Table.value?_eq_none_of_entry hentry]
    rfl
  · intro j c' m g hj
    rcases Crowd.of_phase_set hph hj with ⟨-, heq⟩ | ⟨-, hj⟩
    · cases heq
      exact ⟨0, ⟨0, 0⟩, hentry', Nat.le_refl 0, fun _ => rfl⟩
    · obtain ⟨_, _, hentry'', -⟩ := hk.held hj
      rw [hentry] at hentry''
      cases hentry''

/-- The accepted update of the metadata gives out the number that is stored there. -/
theorem LedgerKept.numbered (hk : LedgerKept calls h phs w) {m : Meta} {g : Nat} (hph : phs[i]? = some (c, .read m g))
    {u : Meta} (hentry : (w.store .metadata).lookup () = some (g, u)) (hfit : (numbersGiven h).length + 1 < 2 ^ 64)
    (he : numberGiven e = some (i, m.nextLedgerSeq)) :
    LedgerKept calls (h ++ [e]) (phs.set i (c, .numbered m.nextLedgerSeq))
      (w.put .metadata () { m with nextLedgerSeq := m.nextLedgerSeq + 1 }) := by
  obtain ⟨g', m', hentry', -, hsame⟩ := hk.held hph
  obtain ⟨rfl, rfl⟩ := Prod.mk.inj (Option.some.inj (hentry.symm.trans hentry'))
  obtain rfl := hsame rfl
  have hnext : u.nextLedgerSeq.toNat = (numbersGiven h).length := by
    rw [← hk.metadata, World.nextSeq, Table.value?_of_entry hentry]
    rfl
  have hnumbers : numbersGiven (h ++ [e]) = numbersGiven h ++ [(i, u.nextLedgerSeq)] := by
    rw [numbersGiven_append, he]
    rfl
  have hentry' : ((w.put .metadata () { u with nextLedgerSeq := u.nextLedgerSeq + 1 }).store .metadata).lookup () =
      some (g + 1, { u with nextLedgerSeq := u.nextLedgerSeq + 1 }) := by
    rw [World.put_store_self]
    exact Table.lookup_put_next hentry
  have hset (j : Nat) : (phs.set i (c, .numbered u.nextLedgerSeq))[j]? =
      if i = j then some (c, .numbered u.nextLedgerSeq) else phs[j]? := Crowd.phase_set hph
  refine ⟨hk.call_set hph, ?_, ?_, ?_, ?_, ?_⟩
  · rw [hnumbers, List.map_append, hk.numbers, List.length_append, List.length_singleton, List.range_succ]
    exact congrArg (_ ++ [·]) hnext
  · intro j seq
    rw [hnumbers, List.mem_append, hk.given j seq, List.mem_singleton, hset]
    by_cases hij : i = j
    · subst hij
      rw [if_pos rfl, hph]
      constructor
      · rintro (⟨_, _, heq, hnone⟩ | heq)
        · cases heq
          cases hnone
        · cases heq
          exact ⟨c, _, rfl, rfl⟩
      · rintro ⟨_, _, heq, hseq⟩
        cases heq
        cases hseq
        exact Or.inr rfl
    · rw [if_neg hij]
      exact or_iff_left fun heq => hij (Prod.mk.inj heq).1.symm
  · rw [hnumbers, World.nextSeq, Table.value?_of_entry hentry', List.length_append, List.length_singleton, ← hnext]
    show (u.nextLedgerSeq + 1).toNat = u.nextLedgerSeq.toNat + 1
    rw [UInt64.toNat_add, UInt64.toNat_one]
    exact Nat.mod_eq_of_lt (by omega)
  · intro j c' m' g' hj
    rcases Crowd.of_phase_set hph hj with ⟨-, heq⟩ | ⟨-, hj⟩
    · cases heq
    · obtain ⟨g'', m'', hentry'', hle, -⟩ := hk.held hj
      obtain ⟨rfl, rfl⟩ := Prod.mk.inj (Option.some.inj (hentry.symm.trans hentry''))
      exact ⟨g + 1, _, hentry', by omega, fun heq => by omega⟩
  · intro seq event
    rw [World.put_store_ne (by decide), hk.stored seq event]
    refine exists_congr fun j => (exists_stage_set hph ?_ j).symm
    rfl

/-- The event is stored under a number that no event has. -/
theorem LedgerKept.written (hk : LedgerKept calls h phs w) {seq t : UInt64} (hph : phs[i]? = some (c, .timed seq t))
    (hentry : (w.store .ledger).lookup seq = none) (he : numberGiven e = none) :
    LedgerKept calls (h ++ [e]) (phs.set i (c, .stored seq t)) (w.put .ledger seq (c.event seq t)) := by
  have hnumbers : numbersGiven (h ++ [e]) = numbersGiven h := by
    rw [numbersGiven_append, he]
    exact List.append_nil _
  have hset (j : Nat) : (phs.set i (c, .stored seq t))[j]? = if i = j then some (c, .stored seq t) else phs[j]? :=
    Crowd.phase_set hph
  have hmeta : (w.put .ledger seq (c.event seq t)).store .metadata = w.store .metadata := World.put_store_ne (by decide)
  refine ⟨hk.call_set hph, ?_, ?_, ?_, hk.held_set hph hmeta (by simp), ?_⟩
  · rw [hnumbers]
    exact hk.numbers
  · intro j seq'
    rw [hnumbers, hk.given j seq']
    refine (exists_stage_set hph ?_ j).symm
    rfl
  · rw [hnumbers, World.nextSeq, hmeta, ← hk.metadata, World.nextSeq]
  · intro seq' event
    rw [World.put_store_self]
    by_cases hseq : seq' = seq
    · subst hseq
      rw [Table.value?_put]
      constructor
      · intro heq
        cases heq
        exact ⟨i, c, _, by rw [hset, if_pos rfl], t, rfl, rfl⟩
      · rintro ⟨j, c', st, hj, t', hst, rfl⟩
        rcases Crowd.of_phase_set hph hj with ⟨-, heq⟩ | ⟨-, hj⟩
        · cases heq
          cases hst
          rfl
        · -- Another call would have stored its event under the number before.
          have hold := (hk.stored seq' (c'.event seq' t')).mpr ⟨j, c', st, hj, t', hst, rfl⟩
          rw [Table.value?_eq_none_of_entry hentry] at hold
          cases hold
    · rw [Table.value?_put_ne hseq, hk.stored seq' event]
      refine exists_congr fun j => (exists_stage_set hph ?_ j).symm
      constructor
      · rintro ⟨t', hst, -⟩
        cases hst
        exact absurd rfl hseq
      · rintro ⟨t', hst, -⟩
        cases hst

/-- One call of a program that follows the protocol. -/
theorem LedgerKept.step (hk : LedgerKept calls h phs w) {ph ph' : LedgerCall × LedgerStage} (hph : phs[i]? = some ph)
    {x : Choice} {q : Call} (hstep : LedgerStep ph q (exec x q w).1 ph')
    (hfit : (numbersGiven (h ++ [⟨i, q, (exec x q w).1⟩])).length < 2 ^ 64) :
    LedgerKept calls (h ++ [⟨i, q, (exec x q w).1⟩]) (phs.set i ph') (exec x q w).2 := by
  generalize hr : (exec x q w).1 = r at hstep hfit ⊢
  obtain ⟨hmove⟩ := hstep
  cases hmove with
  | known | unknown | untested | missing | unread | timed =>
    rw [exec_reads x w rfl]
    exact hk.keeps hph rfl rfl rfl rfl rfl (by simp)
  | found =>
    rw [exec_reads x w rfl]
    refine hk.keeps hph rfl rfl rfl rfl rfl ?_
    intro m g heq
    cases heq
    exact exec_get_ok hr
  | forestalled =>
    rw [exec_create_error hr]
    exact hk.keeps hph rfl rfl rfl rfl rfl (by simp)
  | lost =>
    rw [exec_create_error hr]
    exact hk.keeps hph rfl rfl rfl rfl rfl (by simp)
  | overtaken =>
    rw [exec_update_error hr]
    exact hk.keeps hph rfl rfl rfl rfl rfl (by simp)
  | @marked seq t id r hid =>
    have hstore (n : Ns) (hn : n ≠ .ledgerEventIds) :
        (exec x (.create .ledgerEventIds id true) w).2.store n = w.store n := by
      cases r with
      | error e => rw [exec_create_error hr]
      | ok u => rw [(exec_create_ok hr).2, World.put_store_ne hn]
    have he : numberGiven ⟨i, .create .ledgerEventIds id true, r⟩ = none := rfl
    exact hk.keeps hph he rfl rfl (hstore .metadata (by decide)) (hstore .ledger (by decide)) (by simp)
  | created =>
    obtain ⟨hentry, hw⟩ := exec_create_ok hr
    rw [hw]
    exact hk.created hph hentry rfl
  | @numbered m g =>
    obtain ⟨u, hentry, hw⟩ := exec_update_ok hr
    have he : numberGiven ⟨i, .update .metadata () { m with nextLedgerSeq := m.nextLedgerSeq + 1 } g, .ok ()⟩ =
        some (i, m.nextLedgerSeq) := by
      show some (i, m.nextLedgerSeq + 1 - 1) = _
      rw [UInt64.add_sub_cancel]
    rw [numbersGiven_append, he, List.length_append] at hfit
    rw [hw]
    exact hk.numbered hph hentry hfit he
  | stored =>
    obtain ⟨hentry, hw⟩ := exec_create_ok hr
    rw [hw]
    exact hk.written hph hentry rfl

/-- A stored event is not touched again. -/
theorem event_kept {ph ph' : LedgerCall × LedgerStage} {x : Choice} {q : Call} (hstep : LedgerStep ph q (exec x q w).1 ph')
    {seq : UInt64} {entry : Nat × LedgerEvent} (hentry : (w.store .ledger).lookup seq = some entry) :
    ((exec x q w).2.store .ledger).lookup seq = some entry := by
  generalize hr : (exec x q w).1 = r at hstep
  have created {n : Ns} {k : n.Key} {v : n.Val} (hr : (exec x (.create n k v) w).1 = .ok ()) (hn : n ≠ .ledger) :
      ((exec x (.create n k v) w).2.store .ledger).lookup seq = some entry := by
    rw [(exec_create_ok hr).2, World.put_store_ne hn.symm, hentry]
  obtain ⟨hmove⟩ := hstep
  cases hmove with
  | known | unknown | untested | missing | unread | timed | found =>
    rw [exec_reads x w rfl]
    exact hentry
  | forestalled | lost =>
    rw [exec_create_error hr]
    exact hentry
  | overtaken =>
    rw [exec_update_error hr]
    exact hentry
  | created => exact created hr (by decide)
  | @marked _ _ _ r =>
    cases r with
    | error e =>
      rw [exec_create_error hr]
      exact hentry
    | ok u => exact created hr (by decide)
  | numbered =>
    obtain ⟨_, -, hw⟩ := exec_update_ok hr
    rw [hw, World.put_store_ne (by decide)]
    exact hentry
  | @stored seq' t =>
    obtain ⟨hnone, hw⟩ := exec_create_ok hr
    rw [hw, World.put_store_self, Table.lookup_put_ne, hentry]
    rintro rfl
    rw [hnone] at hentry
    cases hentry

end

/-! ### A run -/

theorem ledgerCrowd_follows (calls : List LedgerCall) (w : World) :
    (ledgerCrowd calls w).Follows LedgerStep LedgerReturn (calls.map fun c => (c, c.stage)) := by
  show List.Forall₂ _ (calls.map _) (calls.map _)
  induction calls with
  | nil => exact .nil
  | cons c calls ih => exact .cons follows_ledgerCall ih

theorem ledgerKept_start (calls : List LedgerCall) {w : World} (hmeta : (w.store .metadata).lookup () = none)
    (hledger : ∀ seq, (w.store .ledger).lookup seq = none) :
    LedgerKept calls [] (calls.map fun c => (c, c.stage)) w := by
  have hstage {i : Nat} {c : LedgerCall} {st : LedgerStage}
      (hi : (calls.map fun c => (c, c.stage))[i]? = some (c, st)) : st = .start ∨ st = .going := by
    rw [List.getElem?_map] at hi
    obtain ⟨c', -, heq⟩ := Option.map_eq_some_iff.mp hi
    cases heq
    unfold LedgerCall.stage
    split
    · exact Or.inl rfl
    · exact Or.inr rfl
  refine ⟨?_, rfl, ?_, ?_, ?_, ?_⟩
  · intro i
    rw [List.getElem?_map, Option.map_map]
    exact Option.map_id'
  · intro i seq
    constructor
    · intro h
      cases h
    · rintro ⟨c, st, hi, hseq⟩
      obtain rfl | rfl := hstage hi <;> cases hseq
  · rw [World.nextSeq, Table.value?_eq_none_of_entry hmeta]
    rfl
  · intro i c m g hi
    obtain h | h := hstage hi <;> cases h
  · intro seq e
    rw [Table.value?_eq_none_of_entry (hledger seq)]
    constructor
    · intro h
      cases h
    · rintro ⟨i, c, st, hi, t, hst, -⟩
      obtain rfl | rfl := hstage hi <;> cases hst

theorem ledgerCrowd_kept (calls : List LedgerCall) {w : World} (hmeta : (w.store .metadata).lookup () = none)
    (hledger : ∀ seq, (w.store .ledger).lookup seq = none) (schedule : List (Nat × Choice))
    (hfit : (numbersGiven (Crowd.history exec schedule (ledgerCrowd calls w))).length < 2 ^ 64) :
    ∃ phs, (Crowd.run exec schedule (ledgerCrowd calls w)).Follows LedgerStep LedgerReturn phs ∧
      LedgerKept calls (Crowd.history exec schedule (ledgerCrowd calls w)) phs
        (Crowd.run exec schedule (ledgerCrowd calls w)).world := by
  have hstep (h : List (Crowd.Event iface)) (phs : List (LedgerCall × LedgerStage)) (w : World) (i : Nat)
      (ph : LedgerCall × LedgerStage) (q : Call) (x : Choice) (ph' : LedgerCall × LedgerStage) (hph : phs[i]? = some ph)
      (hk : (numbersGiven h).length < 2 ^ 64 → LedgerKept calls h phs w) (hmove : LedgerStep ph q (exec x q w).1 ph')
      (hfit : (numbersGiven (h ++ [⟨i, q, (exec x q w).1⟩])).length < 2 ^ 64) :
      LedgerKept calls (h ++ [⟨i, q, (exec x q w).1⟩]) (phs.set i ph') (exec x q w).2 := by
    refine (hk ?_).step hph hmove hfit
    rw [numbersGiven_append, List.length_append] at hfit
    omega
  obtain ⟨phs, hfollows, hkept⟩ := Crowd.run_history hstep schedule (ledgerCrowd_follows calls w)
    fun _ => ledgerKept_start calls hmeta hledger
  rw [List.nil_append] at hkept
  exact ⟨phs, hfollows, hkept hfit⟩

/-- What holds of the numbers given out, of the ledger, and of the calls that have returned `Ok`. -/
structure LedgerNumbered (calls : List LedgerCall) (s : Crowd iface (Except ChannelError Unit) World)
    (numbers : List (Nat × UInt64)) : Prop where
  inOrder : numbers.map (·.2.toNat) = List.range numbers.length
  unique : ∀ i j seq, (i, seq) ∈ numbers → (j, seq) ∈ numbers → i = j
  single : ∀ i seq seq', (i, seq) ∈ numbers → (i, seq') ∈ numbers → seq = seq'
  stored : ∀ seq e, (s.world.store .ledger).value? seq = some e →
    ∃ i c, calls[i]? = some c ∧ (i, seq) ∈ numbers ∧ e = c.event seq e.timestamp
  answered : ∀ i c, calls[i]? = some c → c.eventId = none → s.Returned i (.ok ()) →
    ∃ seq t, (i, seq) ∈ numbers ∧ (s.world.store .ledger).value? seq = some (c.event seq t)
  below : ∀ seq e, (s.world.store .ledger).value? seq = some e →
    ∃ m, (s.world.store .metadata).value? () = some m ∧ seq < m.nextLedgerSeq

theorem number_of_event {st : LedgerStage} {seq t : UInt64} (h : st.event = some (seq, t)) : st.number = some seq := by
  cases st <;> cases h <;> rfl

theorem ledgerNumbered_of_kept {calls : List LedgerCall} {s : Crowd iface (Except ChannelError Unit) World}
    {h : List (Crowd.Event iface)} {phs : List (LedgerCall × LedgerStage)} (hf : s.Follows LedgerStep LedgerReturn phs)
    (hk : LedgerKept calls h phs s.world) : LedgerNumbered calls s (numbersGiven h) := by
  have hcall {i : Nat} {c : LedgerCall} {st : LedgerStage} (hi : phs[i]? = some (c, st)) : calls[i]? = some c := by
    rw [← hk.call i, hi]
    rfl
  have hgiven {i : Nat} {c : LedgerCall} {st : LedgerStage} {seq t : UInt64} (hi : phs[i]? = some (c, st))
      (hst : st.event = some (seq, t)) : (i, seq) ∈ numbersGiven h :=
    (hk.given i seq).mpr ⟨c, st, hi, number_of_event hst⟩
  refine ⟨hk.numbers, ?_, ?_, ?_, ?_, ?_⟩
  · intro i j seq hi hj
    have hnodup : ((numbersGiven h).map (·.2.toNat)).Nodup := by
      rw [hk.numbers]
      exact List.nodup_range
    exact congrArg Prod.fst (List.inj_on_of_nodup_map hnodup hi hj rfl)
  · intro i seq seq' hi hj
    obtain ⟨c, st, hph, hst⟩ := (hk.given i seq).mp hi
    obtain ⟨c', st', hph', hst'⟩ := (hk.given i seq').mp hj
    obtain ⟨rfl, rfl⟩ := Prod.mk.inj (Option.some.inj (hph.symm.trans hph'))
    exact Option.some.inj (hst.symm.trans hst')
  · intro seq e he
    obtain ⟨i, c, st, hi, t, hst, rfl⟩ := (hk.stored seq e).mp he
    exact ⟨i, c, hcall hi, hgiven hi hst, rfl⟩
  · intro i c hc hid hret
    obtain ⟨⟨c', st⟩, hi, hok, -⟩ := hf.of_returned hret
    obtain rfl := Option.some.inj ((hcall hi).symm.trans hc)
    obtain ⟨seq, t, rfl⟩ := hok hid rfl
    exact ⟨seq, t, hgiven hi rfl, (hk.stored seq _).mpr ⟨i, c', _, hi, t, rfl, rfl⟩⟩
  · intro seq e he
    obtain ⟨i, c, st, hi, t, hst, -⟩ := (hk.stored seq e).mp he
    have hlt : seq.toNat < (numbersGiven h).length := by
      have hmem := List.mem_map_of_mem (f := (·.2.toNat)) (hgiven hi hst)
      rw [hk.numbers] at hmem
      exact List.mem_range.mp hmem
    rw [← hk.metadata, World.nextSeq] at hlt
    cases hm : (s.world.store .metadata).value? () with
    | none =>
      rw [hm] at hlt
      cases hlt
    | some m =>
      rw [hm] at hlt
      exact ⟨m, rfl, UInt64.lt_iff_toNat_lt.mpr hlt⟩

/-- In every interleaving of any number of calls that start without metadata and events, each number is given out once
    and each stored event has its own, as long as the numbers fit. No later step touches a stored event. -/
theorem ledger_numbers_unique (calls : List LedgerCall) (w : World) (hmeta : (w.store .metadata).lookup () = none)
    (hledger : ∀ seq, (w.store .ledger).lookup seq = none) (before after : List (Nat × Choice))
    (hfit : (numbersGiven (Crowd.history exec (before ++ after) (ledgerCrowd calls w))).length < 2 ^ 64) :
    LedgerNumbered calls (Crowd.run exec (before ++ after) (ledgerCrowd calls w))
      (numbersGiven (Crowd.history exec (before ++ after) (ledgerCrowd calls w))) ∧
    ∀ seq entry, ((Crowd.run exec before (ledgerCrowd calls w)).world.store .ledger).lookup seq = some entry →
      ((Crowd.run exec (before ++ after) (ledgerCrowd calls w)).world.store .ledger).lookup seq = some entry := by
  constructor
  · obtain ⟨phs, hfollows, hkept⟩ := ledgerCrowd_kept calls hmeta hledger (before ++ after) hfit
    exact ledgerNumbered_of_kept hfollows hkept
  · intro seq entry hentry
    rw [Crowd.run_append]
    obtain ⟨phs, hfollows⟩ := Crowd.run_follows before (ledgerCrowd_follows calls w)
    have hstep (phs : List (LedgerCall × LedgerStage)) (w : World) (i : Nat) (ph : LedgerCall × LedgerStage) (q : Call)
        (x : Choice) (ph' : LedgerCall × LedgerStage) (_ : phs[i]? = some ph)
        (hentry : (w.store .ledger).lookup seq = some entry) (hmove : LedgerStep ph q (exec x q w).1 ph') :
        ((exec x q w).2.store .ledger).lookup seq = some entry := event_kept hmove hentry
    obtain ⟨_, -, hkept⟩ := Crowd.run_keeps hstep after hfollows hentry
    exact hkept

/-- Two calls that both find no metadata: one of them creates it, and the other one fails. -/
def firstCalls : List LedgerCall :=
  List.replicate 2 ⟨none, ByteVec.fill 33 2, .htlcForwarded, 1000, 0, none⟩

theorem ledger_numbers_unique_first :
    (numbersGiven (Crowd.history exec ([0, 1, 0, 1, 0, 0, 0].map (·, .calm)) (ledgerCrowd firstCalls .empty))) = [(0, 0)] ∧
    LedgerNumbered firstCalls (Crowd.run exec ([0, 1, 0, 1, 0, 0, 0].map (·, .calm)) (ledgerCrowd firstCalls .empty))
      (numbersGiven (Crowd.history exec ([0, 1, 0, 1, 0, 0, 0].map (·, .calm)) (ledgerCrowd firstCalls .empty))) :=
  ⟨by decide +kernel, (ledger_numbers_unique firstCalls .empty rfl (fun _ => rfl) ([0, 1, 0, 1].map (·, .calm))
    ([0, 0, 0].map (·, .calm)) (by decide +kernel)).1⟩

end Canopus
