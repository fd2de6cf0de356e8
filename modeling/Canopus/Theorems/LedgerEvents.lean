import Canopus.Theorems.Accounting
import Canopus.Theorems.HonestCommit

/-! The events of the ledger. An event is recorded under an id that is made of the peer, the two counters of the new
    state and what has happened, and an id that is known is not recorded again. This module shows that where no call
    fails the ledger has one event for each id of what was to be recorded, and so one for each establishment, committed
    update, override and resize exactly if their ids are distinct. -/

namespace Canopus
open Effect Fallible StateManager
open Buffer (bind_eq_ok)

variable {H : Host} {K : Ctx} {E : Choice → Prop} {w w' v : World} {p peer : PublicKey} {d d' : ChannelData}
  {s t : LastCrossSignedState} {us : List UncommittedUpdate} {act : Act}

/-! ### What is to be recorded -/

def UncommittedUpdate.eventTag : UncommittedUpdate → EventTag
  | .ofLocal (.add htlc) => .localAdd htlc.id
  | .ofRemote (.add htlc) => .remoteAdd htlc.id
  | .ofLocal (.fulfill _ id _) => .localFulfill id
  | .ofRemote (.fulfill _ id _) => .remoteFulfill id
  | .ofLocal (.fail _ id _) | .ofLocal (.failMalformed _ id _ _) => .localFail id
  | .ofRemote (.fail _ id _) | .ofRemote (.failMalformed _ id _ _) => .remoteFail id

/-- The ids of the events of the updates of `sm`, when they are committed. -/
def StateManager.eventIds (peer : PublicKey) (sm : StateManager) : List EventId :=
  sm.uncommitted.map fun u => ⟨peer, sm.nextLocalUpdates, sm.nextRemoteUpdates, u.eventTag⟩

/-- The amount of the HTLC that an update adds to the state, or resolves in it. -/
def LastCrossSignedState.amountOf (s : LastCrossSignedState) : UncommittedUpdate → UInt64
  | .ofLocal (.add htlc) | .ofRemote (.add htlc) => htlc.amountMsat
  | u => ((s.htlcTaken u).map (·.amountMsat)).getD 0

/-- What is to be recorded of the updates of `sm`, when they are committed. -/
def StateManager.dues (peer : PublicKey) (sm : StateManager) : List Due :=
  sm.uncommitted.map fun u => ⟨⟨peer, sm.nextLocalUpdates, sm.nextRemoteUpdates, u.eventTag⟩, sm.lcss.amountOf u⟩

/-- What is to be recorded when the host takes a message of `peer`: that the channel is established, each update that
    is committed, that an override is accepted, or that the channel is resized. -/
def ChannelData.owed (d : ChannelData) (peer : PublicKey) : HostedMessage → List EventId
  | .stateUpdate _ => match deriveStatus d with
    | .opening => [⟨peer, 0, 0, .channelOpen⟩]
    | .overriding => d.proposedOverride.toList.map fun s => ⟨peer, s.localUpdates, s.remoteUpdates, .override⟩
    | .active => StateManager.eventIds peer ⟨d.lcss, deduplicateUncommittedResolutions d.uncommitted⟩
    | .notOpened | .errored | .suspended => []
  | .resizeChannel m => (checkedMul m.newCapacitySat 1000).toList.map fun capacity =>
    ⟨peer, d.lcss.localUpdates, d.lcss.remoteUpdates, .resize capacity⟩
  | _ => []

/-- The same with the amounts. -/
def ChannelData.dues (d : ChannelData) (peer : PublicKey) : HostedMessage → List Due
  | .stateUpdate _ => match deriveStatus d with
    | .opening => [⟨⟨peer, 0, 0, .channelOpen⟩, d.lcss.remoteBalanceMsat⟩]
    | .overriding => d.proposedOverride.toList.map fun s =>
      ⟨⟨peer, s.localUpdates, s.remoteUpdates, .override⟩, s.localBalanceMsat⟩
    | .active => StateManager.dues peer ⟨d.lcss, deduplicateUncommittedResolutions d.uncommitted⟩
    | .notOpened | .errored | .suspended => []
  | .resizeChannel m => (checkedMul m.newCapacitySat 1000).toList.map fun capacity =>
    ⟨⟨peer, d.lcss.localUpdates, d.lcss.remoteUpdates, .resize capacity⟩, capacity⟩
  | _ => []

/-- The ids of what an operation has to record that leads from `w` to `w'`. The host takes a message by signing. -/
def Op.owed (w w' : World) : Op → List EventId
  | .message peer _ msg =>
    if w.signed.length < w'.signed.length then ((w.channel peer).map (·.owed peer msg)).getD [] else []
  | _ => []

/-- What an operation has to record that leads from `w` to `w'`. -/
def Op.dues (w w' : World) : Op → List Due
  | .message peer _ msg =>
    if w.signed.length < w'.signed.length then ((w.channel peer).map (·.dues peer msg)).getD [] else []
  | _ => []

/-- The worlds of runs in which no call fails, with the ids of all that was to be recorded. -/
inductive Booked (H : Host) : World → List EventId → Prop
  | start : Booked H World.empty []
  | step {w : World} {ids : List EventId} (op : Op) (o : Nat → Choice) (hw : Booked H w ids)
    (ho : ∀ n, (o n).fails = false) : Booked H (op.next H o w) (ids ++ op.owed w (op.next H o w))

/-- The worlds of runs in which no call fails and every operation meets `G`, with all that was to be recorded. -/
inductive Billed (H : Host) (G : World → Op → Prop) : World → List Due → Prop
  | start : Billed H G World.empty []
  | step {w : World} {dues : List Due} (op : Op) (o : Nat → Choice) (hw : Billed H G w dues)
    (ho : ∀ n, (o n).fails = false) (hop : G w op) : Billed H G (op.next H o w) (dues ++ op.dues w (op.next H o w))

def World.ledgerEvents (w : World) : List LedgerEvent := (w.store .ledger).values

/-- The events of a peer. -/
def World.eventsOf (w : World) (peer : PublicKey) : List LedgerEvent := w.ledgerEvents.filter (·.peerPubkey == peer)

theorem ChannelData.dues_ids (d : ChannelData) (peer : PublicKey) (msg : HostedMessage) :
    (d.dues peer msg).map (·.id) = d.owed peer msg := by
  cases msg with
  | stateUpdate m =>
    unfold ChannelData.dues ChannelData.owed
    dsimp only
    split
    · rfl
    · rw [List.map_map]
      rfl
    · unfold StateManager.dues StateManager.eventIds
      rw [List.map_map]
      rfl
    all_goals rfl
  | resizeChannel m =>
    unfold ChannelData.dues ChannelData.owed
    rw [List.map_map]
    rfl
  | _ => rfl

theorem ChannelData.dues_opening (peer : PublicKey) (m : StateUpdate) (hs : deriveStatus d = .opening) :
    d.dues peer (.stateUpdate m) = [⟨⟨peer, 0, 0, .channelOpen⟩, d.lcss.remoteBalanceMsat⟩] := by
  unfold ChannelData.dues
  rw [hs]

theorem ChannelData.dues_active (peer : PublicKey) (m : StateUpdate) (hs : deriveStatus d = .active) :
    d.dues peer (.stateUpdate m) = StateManager.dues peer ⟨d.lcss, d.deduplicated.uncommitted⟩ := by
  unfold ChannelData.dues
  rw [hs]
  rfl

theorem Op.dues_ids (op : Op) (w w' : World) : (op.dues w w').map (·.id) = op.owed w w' := by
  cases op with
  | message peer encoding msg =>
    simp only [Op.dues, Op.owed]
    split
    · cases w.channel peer with
      | none => rfl
      | some d => exact d.dues_ids peer msg
    · rfl
  | _ => rfl

theorem Billed.reachable {G : World → Op → Prop} {dues : List Due} (h : Billed H G w dues) : Reachable H .free w := by
  induction h with
  | start => exact .start
  | step op o _ _ _ ih => exact .step op o ih (Guard.ofOp_allows H trivial)

/-- A run with the ids of what was to be recorded, with the amounts too. -/
theorem Booked.billed {ids : List EventId} (h : Booked H w ids) :
    ∃ dues, Billed H (fun _ _ => True) w dues ∧ dues.map (·.id) = ids := by
  induction h with
  | start => exact ⟨[], .start, rfl⟩
  | step op o _ ho ih =>
    obtain ⟨dues, hbilled, rfl⟩ := ih
    exact ⟨_, .step op o hbilled ho trivial, by rw [List.map_append, op.dues_ids]⟩

/-! ### Resolutions of committed HTLCs -/

/-- The key under which the HTLC of an addition is resolved. -/
def additionKey : UncommittedUpdate → Option (Bool × UInt64)
  | .ofRemote (.add htlc) => some (true, htlc.id)
  | .ofLocal (.add htlc) => some (false, htlc.id)
  | _ => none

/-- The state lists an HTLC that is resolved under the key. -/
def LastCrossSignedState.Lists (s : LastCrossSignedState) : Bool × UInt64 → Prop
  | (true, id) => s.incomingHtlcs.any (·.id == id) = true
  | (false, id) => s.outgoingHtlcs.any (·.id == id) = true

theorem LastCrossSignedState.lists_congr {key : Bool × UInt64} (hin : t.incomingHtlcs = s.incomingHtlcs)
    (hout : t.outgoingHtlcs = s.outgoingHtlcs) : t.Lists key ↔ s.Lists key := by
  rcases key with ⟨side, id⟩
  cases side with
  | false => simp only [Lists, hout]
  | true => simp only [Lists, hin]

/-- An update does not resolve what another one has added, unless the state lists it. -/
def ResolvesApart (s : LastCrossSignedState) (a u : UncommittedUpdate) : Prop :=
  ∀ key, additionKey a = some key → resolutionKey u = some key → s.Lists key

/-- Pending updates resolve what is committed, not what is pending with them. -/
structure ResolvesCommitted (d : ChannelData) : Prop where
  apart : d.uncommitted.Pairwise (ResolvesApart d.lcss)
  opening : d.established = false → ∀ u ∈ d.uncommitted, additionKey u = none

theorem additionKey_of_resolution {key : Bool × UInt64} {u : UncommittedUpdate} (h : resolutionKey u = some key) :
    additionKey u = none := by
  rcases u with (u | u) <;> cases u <;> first | rfl | cases h

theorem ResolvesCommitted.of_nil (hu : d.uncommitted = []) : ResolvesCommitted d where
  apart := by
    rw [hu]
    exact List.Pairwise.nil
  opening := by
    rw [hu]
    exact fun _ _ hmem => by cases hmem

/-- Fewer updates on a state with the same HTLCs. -/
theorem ResolvesCommitted.fewer (h : ResolvesCommitted d) (hu : d'.uncommitted.Sublist d.uncommitted)
    (hin : d'.lcss.incomingHtlcs = d.lcss.incomingHtlcs) (hout : d'.lcss.outgoingHtlcs = d.lcss.outgoingHtlcs)
    (he : d'.established = d.established) : ResolvesCommitted d' where
  apart := by
    refine (h.apart.sublist hu).imp ?_
    intro a u ha key hadd hres
    exact (LastCrossSignedState.lists_congr hin hout).mpr (ha key hadd hres)
  opening hest u hmem := h.opening (he ▸ hest) u (hu.subset hmem)

/-- One more update, which is an addition in an established channel or resolves what is committed. -/
theorem ResolvesCommitted.push {u : UncommittedUpdate} (h : ResolvesCommitted d)
    (hu : d.established = true ∧ resolutionKey u = none ∨ ∃ key, resolutionKey u = some key ∧ d.lcss.Lists key) :
    ResolvesCommitted (d.push u) where
  apart := by
    refine List.pairwise_append.mpr ⟨h.apart, List.pairwise_singleton _ _, ?_⟩
    intro a _ u' hu' key _ hres
    obtain rfl := List.mem_singleton.mp hu'
    rcases hu with ⟨-, hnone⟩ | ⟨key', hkey, hlists⟩
    · rw [hnone] at hres
      cases hres
    · rw [hkey] at hres
      obtain rfl := Option.some.inj hres
      exact hlists
  opening := by
    intro hest u' hu'
    rcases List.mem_append.mp hu' with hu' | hu'
    · exact h.opening hest u' hu'
    · obtain rfl := List.mem_singleton.mp hu'
      rcases hu with ⟨htrue, -⟩ | ⟨key, hkey, -⟩
      · cases hest.symm.trans htrue
      · exact additionKey_of_resolution hkey

theorem ResolvesCommitted.changes {c : Change} (h : ResolvesCommitted d) (hc : Changes H p c d d') :
    ResolvesCommitted d' := by
  cases hc with
  | deduplicated => exact h.fewer (dedupFrom_sublist [] _) rfl rfl rfl
  | @established _ m lcss hs =>
    -- The state has no HTLCs, and so far only resolutions were pending.
    have hnone := h.opening (not_established_of_opening hs)
    refine ⟨?_, fun hest => by cases hest⟩
    refine List.Pairwise.imp_of_mem ?_ h.apart
    intro a u ha _ _ key hadd
    rw [hnone a ha] at hadd
    cases hadd
  | committed | overridden | adopted => exact .of_nil rfl
  | receivedAdd hs => exact h.push (Or.inl ⟨established_of_active hs, rfl⟩)
  | receivedResolution _ _ ho hk => exact h.push (Or.inr ⟨_, hk, ho⟩)
  | errored extra hd =>
    subst hd
    exact h.fewer (List.sublist_append_left _ _) rfl rfl rfl
  | resolved hi hk => exact h.push (Or.inr ⟨_, hk, hi⟩)
  | added hs => exact h.push (Or.inl ⟨established_of_active hs, rfl⟩)
  | resized _ _ _ _ _ _ _ hl =>
    exact h.fewer (List.Sublist.refl _) (SignedAlike.sign hl).incoming (SignedAlike.sign hl).outgoing rfl
  | proposed hd =>
    subst hd
    exact h.fewer (List.Sublist.refl _) rfl rfl rfl
  | remoteErrored | resizeAllowed | retuned | updateSent => exact h.fewer (List.Sublist.refl _) rfl rfl rfl

theorem Reachable.resolvesCommitted {G : Guard} (hw : Reachable H G w) (hd : w.channel p = some d) : ResolvesCommitted d :=
  hw.each_record (Q := fun _ d => ResolvesCommitted d) (fun _ _ _ => .of_nil rfl)
    (fun _ _ _ _ _ _ _ _ hc _ h => h.changes hc) p d hd

/-! #### Folding them -/

/-- A resolution that can be applied finds its HTLC. -/
theorem lists_of_applied {C : Crypto} {u : UncommittedUpdate} {key : Bool × UInt64} (ha : applyUpdate C s u = .ok t)
    (hk : resolutionKey u = some key) : s.Lists key := by
  have htaken := (applyUpdate_accounts ha).resolutions
  rw [List.filter_cons_of_pos (by simp [hk])] at htaken
  rcases key with ⟨side, id⟩
  cases htlc? : s.htlcTaken u with
  | none =>
    rw [htlc?] at htaken
    cases htaken
  | some htlc =>
    simp only [LastCrossSignedState.htlcTaken, hk] at htlc?
    cases side with
    | false =>
      have hfind : s.outgoingHtlcs.find? (·.id == id) = some htlc := htlc?
      have hid := List.find?_some hfind
      exact List.any_eq_true.mpr ⟨htlc, List.mem_of_find?_eq_some hfind, hid⟩
    | true =>
      have hfind : s.incomingHtlcs.find? (·.id == id) = some htlc := htlc?
      have hid := List.find?_some hfind
      exact List.any_eq_true.mpr ⟨htlc, List.mem_of_find?_eq_some hfind, hid⟩

/-- What is listed after an update was listed before, or is what the update adds. -/
theorem lists_before {C : Crypto} {u : UncommittedUpdate} {key : Bool × UInt64} (ha : applyUpdate C s u = .ok t)
    (hk : t.Lists key) : s.Lists key ∨ additionKey u = some key := by
  have haccounts := applyUpdate_accounts ha
  rcases key with ⟨side, id⟩
  cases side with
  | false =>
    obtain ⟨htlc, hmem, hid⟩ := List.any_eq_true.mp hk
    rcases List.mem_append.mp (haccounts.outgoing.subset (List.mem_append_left _ hmem)) with hmem | hmem
    · exact Or.inl (List.any_eq_true.mpr ⟨htlc, hmem, hid⟩)
    · rcases u with (u | u) <;> cases u <;> simp_all [localAdds, additionKey]
  | true =>
    obtain ⟨htlc, hmem, hid⟩ := List.any_eq_true.mp hk
    rcases List.mem_append.mp (haccounts.incoming.subset (List.mem_append_left _ hmem)) with hmem | hmem
    · exact Or.inl (List.any_eq_true.mpr ⟨htlc, hmem, hid⟩)
    · rcases u with (u | u) <;> cases u <;> simp_all [remoteAdds, additionKey]

/-- Where the updates can be applied to `s`, and `s` lists of what they resolve only what `r` lists, `r` lists all that
    they resolve. -/
theorem lists_of_fold {C : Crypto} {r : LastCrossSignedState} (hapart : us.Pairwise (ResolvesApart r))
    (hlists : ∀ u ∈ us, ∀ key, resolutionKey u = some key → s.Lists key → r.Lists key) (ha : applyUpdates C s us = .ok t) :
    ∀ u ∈ us, ∀ key, resolutionKey u = some key → r.Lists key := by
  induction us generalizing s with
  | nil => exact fun _ hmem => by cases hmem
  | cons u us ih =>
    obtain ⟨s', hs', ha⟩ := bind_eq_ok.mp ha
    obtain ⟨hhead, htail⟩ := List.pairwise_cons.mp hapart
    have hrest := ih htail (by
      intro v hv key hk hs
      rcases lists_before hs' hs with hs | hadd
      · exact hlists v (List.mem_cons_of_mem _ hv) key hk hs
      · exact hhead v hv key hadd hk) ha
    intro v hv key hk
    rcases List.mem_cons.mp hv with rfl | hv
    · exact hlists v (List.mem_cons_self ..) key hk (lists_of_applied hs' hk)
    · exact hrest v hv key hk

/-- Where the next state can be computed, all that is resolved is committed. -/
theorem ResolvesCommitted.lists {next : LastCrossSignedState} (h : ResolvesCommitted d) (hn : d.next H = .ok next) :
    ∀ u ∈ d.uncommitted, ∀ key, resolutionKey u = some key → d.lcss.Lists key := by
  obtain ⟨r, hr, -⟩ := lcssNext_eq_ok hn
  refine lists_of_fold h.apart ?_ hr
  intro u _ key _ hlists
  exact (LastCrossSignedState.lists_congr rfl rfl).mp hlists

/-! ### The ledger -/

/-- The ledger where the ids `ids` were to be recorded, each as often as it occurs: it has one event for each id. -/
structure LedgerSound (w : World) (ids : List EventId) : Prop where
  numbers : ∀ k, ((w.store .ledger).lookup k).isSome → k.toNat < w.nextLedgerSeq.toNat
  seq : w.nextLedgerSeq.toNat ≤ ids.length
  markers : ∀ id, ((w.store .ledgerEventIds).lookup id).isSome ↔ id ∈ ids
  peers : ∀ e ∈ w.ledgerEvents, ∃ id, e.eventId = some id ∧ e.peerPubkey = id.peer
  distinct : (w.ledgerEvents.map (·.eventId)).Nodup
  events : ∀ id, some id ∈ w.ledgerEvents.map (·.eventId) ↔ id ∈ ids

/-- The dues whose ids are not in `seen` yet, each id once. -/
def unseen (seen : List EventId) : List Due → List Due
  | [] => []
  | x :: xs => if x.id ∈ seen then unseen seen xs else x :: unseen (x.id :: seen) xs

/-- The dues of a peer. -/
def duesTo (dues : List Due) (peer : PublicKey) : List Due := dues.filter (·.id.peer == peer)

/-- The ledger where `dues` were to be recorded: by their numbers, the events of a peer record its dues in their order,
    each id once. -/
structure LedgerHolds (w : World) (dues : List Due) : Prop extends LedgerSound w (dues.map (·.id)) where
  numbered : ∀ e ∈ w.ledgerEvents, e.seq.toNat < w.nextLedgerSeq.toNat
  recorded : ∀ p, List.Forall₂ Due.RecordedBy (unseen [] (duesTo dues p)) (w.listEvents (some p))

section Sound
variable {ids seen : List EventId} {id : EventId} {dues xs : List Due} {x : Due} {e : LedgerEvent}

/-! #### The order of the events -/

theorem unseen_append : unseen seen (xs ++ [x]) =
    unseen seen xs ++ if x.id ∈ seen ∨ x.id ∈ xs.map (·.id) then [] else [x] := by
  induction xs generalizing seen with
  | nil => simp [unseen]
  | cons y ys ih =>
    rw [List.cons_append, unseen, unseen]
    by_cases hy : y.id ∈ seen
    · have hx : (x.id ∈ seen ∨ x.id ∈ (y :: ys).map (·.id)) ↔ (x.id ∈ seen ∨ x.id ∈ ys.map (·.id)) := by
        rw [List.map_cons, List.mem_cons]
        refine ⟨?_, Or.imp_right Or.inr⟩
        rintro (h | h | h)
        · exact Or.inl h
        · exact Or.inl (h ▸ hy)
        · exact Or.inr h
      rw [if_pos hy, if_pos hy, ih]
      simp only [hx]
    · have hx : (x.id ∈ y.id :: seen ∨ x.id ∈ ys.map (·.id)) ↔ (x.id ∈ seen ∨ x.id ∈ (y :: ys).map (·.id)) := by
        rw [List.map_cons, List.mem_cons, List.mem_cons, or_assoc]
        exact or_left_comm
      rw [if_neg hy, if_neg hy, ih, List.cons_append]
      simp only [hx]

theorem duesTo_append (peer : PublicKey) :
    duesTo (dues ++ xs) peer = duesTo dues peer ++ duesTo xs peer := List.filter_append _ _

/-- What comes after all others in the order is inserted last. -/
theorem orderedInsert_last {α : Type} {r : α → α → Prop} [DecidableRel r] {a : α} {l : List α} (h : ∀ b ∈ l, ¬ r a b) :
    l.orderedInsert r a = l ++ [a] := by
  induction l with
  | nil => rfl
  | cons b l ih =>
    rw [List.orderedInsert, if_neg (h b (List.mem_cons_self ..)), ih fun c hc => h c (List.mem_cons_of_mem _ hc)]
    rfl

/-- The event with the largest number is listed last. -/
theorem listEvents_append {p : PublicKey} (hevents : w'.ledgerEvents = e :: w.ledgerEvents)
    (hlast : ∀ e' ∈ w.ledgerEvents, e'.seq < e.seq) :
    w'.listEvents (some p) = w.listEvents (some p) ++ if e.peerPubkey = p then [e] else [] := by
  unfold World.ledgerEvents at hevents hlast
  unfold World.listEvents
  rw [hevents, List.filter_cons]
  by_cases hp : e.peerPubkey = p
  · rw [if_pos (by simpa using hp), if_pos hp, List.insertionSort]
    refine orderedInsert_last fun e' he' hle => ?_
    have hmem := (List.mem_insertionSort _).mp he'
    exact absurd (hlast e' (List.mem_filter.mp hmem).1) (UInt64.not_lt.mpr hle)
  · rw [if_neg (by simpa using hp), if_neg hp, List.append_nil]

/-! #### What is recorded -/

theorem ledgerSound_empty : LedgerSound World.empty [] where
  numbers _ h := by cases h
  seq := Nat.le_refl 0
  markers id := ⟨fun h => (by cases h), fun h => (by cases h)⟩
  peers _ h := by cases h
  distinct := List.nodup_nil
  events id := ⟨fun h => (by cases h), fun h => (by cases h)⟩

theorem SameLedger.nextLedgerSeq (h : SameLedger w w') : w'.nextLedgerSeq = w.nextLedgerSeq := by
  unfold World.nextLedgerSeq
  rw [h.metadata]

theorem SameLedger.ledgerEvents (h : SameLedger w w') : w'.ledgerEvents = w.ledgerEvents := by
  unfold World.ledgerEvents
  rw [h.entries]

theorem LedgerSound.same (h : LedgerSound w ids) (hs : SameLedger w w') : LedgerSound w' ids where
  numbers := by
    rw [hs.entries, hs.nextLedgerSeq]
    exact h.numbers
  seq := by
    rw [hs.nextLedgerSeq]
    exact h.seq
  markers := by
    rw [hs.ids]
    exact h.markers
  peers := by
    rw [hs.ledgerEvents]
    exact h.peers
  distinct := by
    rw [hs.ledgerEvents]
    exact h.distinct
  events := by
    rw [hs.ledgerEvents]
    exact h.events

/-- The next number is free. -/
theorem LedgerSound.free (h : LedgerSound w ids) : (w.store .ledger).lookup w.nextLedgerSeq = none := by
  by_contra hne
  exact Nat.lt_irrefl _ (h.numbers _ (Option.isSome_iff_ne_none.mpr hne))

theorem LedgerSound.room (h : LedgerSound w ids) : w.LedgerRoom 1 := by
  refine ⟨by decide, fun i hi => ?_⟩
  obtain rfl := Nat.lt_one_iff.mp hi
  simpa using h.free

/-- An id that is known is not recorded again. -/
theorem LedgerSound.again (h : LedgerSound w ids) (hid : id ∈ ids) : LedgerSound w (ids ++ [id]) := by
  have hmem : ∀ id', id' ∈ ids ++ [id] ↔ id' ∈ ids := by
    intro id'
    rw [List.mem_append, List.mem_singleton]
    exact ⟨fun h' => h'.elim (fun h' => h') fun h' => h' ▸ hid, Or.inl⟩
  refine ⟨h.numbers, ?_, fun id' => (h.markers id').trans (hmem id').symm, h.peers, h.distinct,
    fun id' => (h.events id').trans (hmem id').symm⟩
  rw [List.length_append]
  exact Nat.le_trans h.seq (Nat.le_add_right _ _)

/-- The next number, after one has been used. -/
theorem LedgerSound.next_number (id : EventId) (h : LedgerSound w ids) (hfits : ids.length + 1 < 2 ^ 64) (he : Entered w e v) :
    (v.put .ledgerEventIds id true).nextLedgerSeq.toNat = w.nextLedgerSeq.toNat + 1 := by
  have hseq : (v.put .ledgerEventIds id true).nextLedgerSeq = v.nextLedgerSeq := by
    unfold World.nextLedgerSeq
    rw [World.store_put_ne (by decide)]
  have := h.seq
  rw [hseq, he.seq, UInt64.toNat_add]
  exact Nat.mod_eq_of_lt (by simp; omega)

/-- The event that was entered is the only new one. -/
theorem LedgerSound.events_entered (id : EventId) (h : LedgerSound w ids) (he : Entered w e v) :
    (v.put .ledgerEventIds id true).ledgerEvents = e :: w.ledgerEvents := by
  unfold World.ledgerEvents
  rw [World.store_put_ne (by decide), he.entry]
  exact Table.values_put_new h.free

theorem LedgerSound.entered (h : LedgerSound w ids) (hfits : ids.length + 1 < 2 ^ 64) (hid : x.id ∉ ids)
    (hx : x.RecordedBy e) (he : Entered w e v) :
    LedgerSound (v.put .ledgerEventIds x.id true) (ids ++ [x.id]) := by
  have hnumber : (v.put .ledgerEventIds x.id true).nextLedgerSeq.toNat = w.nextLedgerSeq.toNat + 1 :=
    h.next_number x.id hfits he
  have hledger : (v.put .ledgerEventIds x.id true).store .ledger = (w.store .ledger).put w.nextLedgerSeq e := by
    rw [World.store_put_ne (by decide), he.entry]
  have hevents : (v.put .ledgerEventIds x.id true).ledgerEvents = e :: w.ledgerEvents := h.events_entered x.id he
  refine ⟨?_, ?_, ?_, ?_, ?_, ?_⟩
  · intro k hk
    rw [hnumber]
    by_cases hkey : k = w.nextLedgerSeq
    · rw [hkey]
      exact Nat.lt_succ_self _
    · rw [hledger, Table.lookup_put_ne hkey] at hk
      exact Nat.lt_succ_of_lt (h.numbers k hk)
  · rw [hnumber, List.length_append]
    exact Nat.add_le_add_right h.seq 1
  · intro id'
    rw [World.store_put, he.ids, List.mem_append, List.mem_singleton]
    by_cases hsame : id' = x.id
    · rw [hsame]
      have hnew : ((w.store .ledgerEventIds).put x.id true).lookup x.id ≠ none := by
        intro hnone
        have := Table.value?_eq_none_of_entry hnone
        rw [Table.value?_put] at this
        cases this
      exact ⟨fun _ => Or.inr rfl, fun _ => Option.isSome_iff_ne_none.mpr hnew⟩
    · rw [Table.lookup_put_ne hsame, h.markers id']
      exact ⟨Or.inl, fun h' => h'.resolve_right hsame⟩
  · rw [hevents]
    intro e' he'
    rcases List.mem_cons.mp he' with rfl | he'
    · exact ⟨x.id, hx.name, hx.peer⟩
    · exact h.peers e' he'
  · rw [hevents, List.map_cons, hx.name]
    exact List.nodup_cons.mpr ⟨fun hmem => hid ((h.events x.id).mp hmem), h.distinct⟩
  · intro id'
    rw [hevents, List.map_cons, hx.name, List.mem_cons, List.mem_append, List.mem_singleton, h.events id', Option.some_inj]
    exact Or.comm

/-! #### Dues -/

theorem ledgerHolds_empty : LedgerHolds World.empty [] where
  toLedgerSound := ledgerSound_empty
  numbered _ h := by cases h
  recorded _ := List.Forall₂.nil

theorem SameLedger.listEvents (h : SameLedger w w') (peer : Option PublicKey) : w'.listEvents peer = w.listEvents peer := by
  unfold World.listEvents
  rw [h.entries]

theorem LedgerHolds.same (h : LedgerHolds w dues) (hs : SameLedger w w') : LedgerHolds w' dues where
  toLedgerSound := h.toLedgerSound.same hs
  numbered := by
    rw [hs.ledgerEvents, hs.nextLedgerSeq]
    exact h.numbered
  recorded p := by
    rw [hs.listEvents]
    exact h.recorded p

theorem mem_duesTo_ids {p : PublicKey} (hp : id.peer = p) : id ∈ (duesTo dues p).map (·.id) ↔ id ∈ dues.map (·.id) := by
  simp only [duesTo, List.mem_map, List.mem_filter, beq_iff_eq]
  constructor
  · rintro ⟨y, ⟨hy, -⟩, rfl⟩
    exact ⟨y, hy, rfl⟩
  · rintro ⟨y, hy, rfl⟩
    exact ⟨y, ⟨hy, hp⟩, rfl⟩

/-- One more due, of which an event is made unless its id is known. -/
theorem unseen_duesTo (p : PublicKey) : unseen [] (duesTo (dues ++ [x]) p) = unseen [] (duesTo dues p) ++
    if x.id.peer = p ∧ x.id ∉ dues.map (·.id) then [x] else [] := by
  rw [duesTo_append]
  by_cases hp : x.id.peer = p
  · have hone : duesTo [x] p = [x] := List.filter_cons_of_pos (by simpa using hp)
    rw [hone, unseen_append]
    simp only [List.not_mem_nil, false_or, mem_duesTo_ids hp, hp, true_and]
    split <;> simp_all
  · have hnone : duesTo [x] p = [] := List.filter_cons_of_neg (by simpa using hp)
    rw [hnone, List.append_nil, if_neg fun h => hp h.1, List.append_nil]

theorem LedgerHolds.once (h : LedgerHolds w dues) (hfits : dues.length + 1 < 2 ^ 64) (he : EnteredOnce w x v) :
    LedgerHolds v (dues ++ [x]) := by
  have hids : (dues ++ [x]).map (·.id) = dues.map (·.id) ++ [x.id] := List.map_append
  cases he with
  | known hk =>
    have hid := (h.markers x.id).mp hk
    refine ⟨?_, h.numbered, fun p => ?_⟩
    · rw [hids]
      exact h.toLedgerSound.again hid
    · rw [unseen_duesTo, if_neg fun h => h.2 hid, List.append_nil]
      exact h.recorded p
  | @entered v e hn hx he =>
    have hid : x.id ∉ dues.map (·.id) := by
      intro hmem
      have hsome := (h.markers x.id).mpr hmem
      rw [hn] at hsome
      cases hsome
    have hfits' : (dues.map (·.id)).length + 1 < 2 ^ 64 := by rwa [List.length_map]
    have hnumber := h.toLedgerSound.next_number x.id hfits' he
    have hevents := h.toLedgerSound.events_entered x.id he
    refine ⟨?_, ?_, fun p => ?_⟩
    · rw [hids]
      exact h.toLedgerSound.entered hfits' hid hx he
    · rw [hevents, hnumber]
      intro e' he'
      rcases List.mem_cons.mp he' with rfl | he'
      · rw [he.number]
        exact Nat.lt_succ_self _
      · exact Nat.lt_succ_of_lt (h.numbered e' he')
    · have hlast : ∀ e' ∈ w.ledgerEvents, e'.seq < e.seq := by
        intro e' he'
        rw [he.number]
        exact UInt64.lt_iff_toNat_lt.mpr (h.numbered e' he')
      rw [unseen_duesTo, listEvents_append hevents hlast]
      refine List.rel_append (h.recorded p) ?_
      rw [hx.peer]
      by_cases hp : x.id.peer = p
      · rw [if_pos ⟨hp, hid⟩, if_pos hp]
        exact List.Forall₂.cons hx List.Forall₂.nil
      · rw [if_neg fun h => hp h.1, if_neg hp]
        exact List.Forall₂.nil

section Recording
variable (hE : Unfailing E)
include hE

theorem surely_records {lcss : LastCrossSignedState} {tag : EventTag} {type : LedgerEventType} {amount : UInt64}
    {hash : Option Hash} (hx : x = ⟨⟨peer, lcss.localUpdates, lcss.remoteUpdates, tag⟩, amount⟩) (ht : type = tag.eventType)
    (h : LedgerHolds w dues) (hfits : dues.length + 1 < 2 ^ 64) :
    Surely exec E (recordLedgerOnce peer lcss tag type amount hash)
      (fun r v => r = .ok () ∧ LedgerHolds v (dues ++ [x])) w := by
  subst hx
  exact (surely_recordLedgerOnce hE h.toLedgerSound.room).mono fun _ _ hr => ⟨hr.1, h.once hfits (hr.2.2.2 ht)⟩

theorem surely_recordsResolution {new : LastCrossSignedState} {htlcs : List UpdateAddHtlc} {htlcId : UInt64} {tag : EventTag}
    {type : LedgerEventType} {htlc : UpdateAddHtlc} (hhtlc : htlcs.find? (·.id == htlcId) = some htlc)
    (hx : x = ⟨⟨peer, new.localUpdates, new.remoteUpdates, tag⟩, htlc.amountMsat⟩) (ht : type = tag.eventType)
    (h : LedgerHolds w dues) (hfits : dues.length + 1 < 2 ^ 64) :
    Surely exec E (recordResolution peer new htlcs htlcId tag type) (fun r v => r = .ok () ∧
      LedgerHolds v (dues ++ [x])) w := by
  unfold recordResolution
  rw [hhtlc]
  exact surely_records hE hx ht h hfits

/-- One event for each update, if those that resolve resolve what is committed. -/
theorem surely_recordsCommitted {old new : LastCrossSignedState}
    (hlists : ∀ u ∈ us, ∀ key, resolutionKey u = some key → old.Lists key) (h : LedgerHolds w dues)
    (hfits : dues.length + us.length < 2 ^ 64) :
    Surely exec E (recordCommittedUpdateEvents peer us old new) (fun r v => r = .ok () ∧ LedgerHolds v
      (dues ++ us.map fun u => ⟨⟨peer, new.localUpdates, new.remoteUpdates, u.eventTag⟩, old.amountOf u⟩)) w := by
  unfold recordCommittedUpdateEvents
  induction us generalizing w dues with
  | nil =>
    rw [List.map_nil, List.append_nil]
    exact Surely.pure ⟨rfl, h⟩
  | cons u us ih =>
    rw [List.length_cons] at hfits
    have hone : dues.length + 1 < 2 ^ 64 := by omega
    refine Surely.andThen (S := fun r v => r = .ok () ∧
      LedgerHolds v (dues ++ [⟨⟨peer, new.localUpdates, new.remoteUpdates, u.eventTag⟩, old.amountOf u⟩])) ?_ ?_ ?_
    · have hu := hlists u (List.mem_cons_self ..)
      rcases u with (u | u) <;> cases u with
      | add htlc => exact surely_records hE rfl rfl h hone
      | _ =>
        obtain ⟨htlc, hfind⟩ := exists_find_of_any (hu _ rfl)
        refine surely_recordsResolution hE hfind ?_ rfl h hone
        simp only [LastCrossSignedState.amountOf, LastCrossSignedState.htlcTaken, resolutionKey, hfind]
        rfl
    · rintro _ v ⟨-, hv⟩
      refine (ih (fun u' hu' => hlists u' (List.mem_cons_of_mem _ hu')) hv ?_).mono ?_
      · simp only [List.length_append, List.length_singleton]
        omega
      · rintro r v' ⟨hr, hv'⟩
        refine ⟨hr, ?_⟩
        rw [List.append_assoc] at hv'
        exact hv'
    · rintro e v ⟨he, -⟩
      cases he

end Recording

/-! ### What leaves the ledger alone -/

/-- Nothing has been recorded and nothing signed. -/
structure Unsigned (w w' : World) : Prop extends SameLedger w w' where
  signed : w'.signed = w.signed

/-- Nothing has been recorded. -/
structure Unbooked (w w' : World) : Prop extends SameLedger w w' where
  signed : w.signed.length ≤ w'.signed.length

instance : IsPreorder World Unsigned where
  refl w := ⟨SameLedger.refl w, rfl⟩
  trans _ _ _ h h' := ⟨h.toSameLedger.trans h'.toSameLedger, h'.signed.trans h.signed⟩

instance : IsPreorder World Unbooked where
  refl w := ⟨SameLedger.refl w, Nat.le_refl _⟩
  trans _ _ _ h h' := ⟨h.toSameLedger.trans h'.toSameLedger, Nat.le_trans h.signed h'.signed⟩

theorem Unsigned.unbooked (h : Unsigned w w') : Unbooked w w' := ⟨h.toSameLedger, by rw [h.signed]⟩

theorem Unsigned.trans {w'' : World} (h : Unsigned w w') (h' : Unsigned w' w'') : Unsigned w w'' := trans_of Unsigned h h'

theorem unsigned_putChannel : Unsigned w (w.put .channels p d) :=
  ⟨SameLedger.put (by decide) (by decide) (by decide), rfl⟩

theorem Silent.unsigned {α : Type} {x : Ctl α} (h : Silent x) : Stays exec Unsigned x :=
  Stays.weaken h fun _ _ hq => ⟨hq.toSameLedger, hq.signed⟩

theorem unsigned_saveChannel {g : Option Nat} : Stays exec Unsigned (saveChannel peer d g) := by
  have hupdate : ∀ g, Stays exec Unsigned (updateJson .channels peer d g) :=
    fun _ => stays_updateJson fun _ => unsigned_putChannel
  have hcreate : Stays exec Unsigned (createJson .channels peer d) := stays_createJson fun _ => unsigned_putChannel
  have hlift : ∀ r : Except StoreError Unit, Stays exec Unsigned (liftStore r) :=
    fun r => (Reading.liftStore r).silent.unsigned
  unfold saveChannel
  split
  · exact (hupdate _).bind hlift
  · refine hcreate.bind fun r => ?_
    split
    · exact Stays.pure _
    · refine reading_getJson.silent.unsigned.bind fun r => ?_
      exact (Reading.liftStore r).silent.unsigned.bind fun _ => (hupdate _).bind hlift
    · exact Stays.throw _

theorem unsigned_repair : Stays exec Unsigned (repairDuplicateUncommittedResolutions peer d) := by
  unfold repairDuplicateUncommittedResolutions
  dsimp only
  split
  · exact unsigned_saveChannel.bind fun _ => Stays.pure _
  · exact Stays.pure _

theorem unsigned_sendPendingChannelUpdate : Stays exec Unsigned (sendPendingChannelUpdate H peer) := by
  refine (Reading.loadExisting peer).silent.unsigned.bind fun _ => ?_
  split
  · exact Stays.pure _
  · refine (Silent.sendChannelUpdate H peer).unsigned.bind fun _ => ?_
    exact (Reading.loadExisting peer).silent.unsigned.bind fun _ => unsigned_saveChannel

/-- An operation that does not write to the ledger. -/
theorem Step.unbooked (hb : K.op.books = false) (hs : Step K act w w') : Unbooked w w' where
  toSameLedger := by
    cases hs with
    | created | wrote => exact SameLedger.put (by decide) (by decide) (by decide)
    | removed => exact SameLedger.erase (by decide) (by decide) (by decide)
    | offered =>
      exact (SameLedger.put (by decide) (by decide) (by decide)).trans (SameLedger.put (by decide) (by decide) (by decide))
    | linked => exact SameLedger.put (by decide) (by decide) (by decide)
    | unlinked => exact SameLedger.erase (by decide) (by decide) (by decide)
    | forwarded | signed | answered | sent | stored => exact ⟨rfl, rfl, rfl⟩
    | secretAdded | secretConsumed | policyChanged => exact SameLedger.put (by decide) (by decide) (by decide)
    | secretRemoved => exact SameLedger.erase (by decide) (by decide) (by decide)
    | quiet _ h =>
      rcases h with h | h
      · exact h
      · cases hb.symm.trans h
  signed := by
    rcases hs.signed_eq with h | ⟨_, _, _, h⟩
    · rw [h]
    · rw [h, List.length_append]
      exact Nat.le_add_right _ _

theorem unbooked_of_trace {B : Act → Prop} (hb : K.op.books = false) (ht : K.Trace B w w') : Unbooked w w' :=
  ht.keeps (P := fun v => Unbooked w v) (fun _ _ _ _ hs h => trans_of Unbooked h (hs.unbooked hb)) (refl_of Unbooked w)

/-- What is dispatched after a commit. -/
theorem surely_dispatches {old new : ChannelData} (hd : (v.channel peer).isSome) :
    Surely exec E (dispatchCommittedEffects H peer old new us) (fun _ v' => Unbooked v v') v :=
  (surely_dispatched hd).mono fun _ _ h => unbooked_of_trace rfl h

/-! ### The messages that are recorded -/

/-- Nothing was signed and nothing recorded, or something was signed and `xs` recorded, as far as there are numbers. -/
def Books (w : World) (dues xs : List Due) (v : World) : Prop :=
  Unsigned w v ∨ w.signed.length < v.signed.length ∧ (dues.length + xs.length < 2 ^ 64 → LedgerHolds v (dues ++ xs))

theorem Books.of_eq (h : w = v) : Books w dues xs v := Or.inl (h ▸ refl_of Unsigned w)

theorem Books.after (hw : Unsigned w w') (h : Books w' dues xs v) : Books w dues xs v := by
  rcases h with h | ⟨hs, hl⟩
  · exact Or.inl (hw.trans h)
  · exact Or.inr ⟨hw.signed ▸ hs, hl⟩

section Messages
variable {m : StateUpdate} (hE : Unfailing E)
include hE

/-- A state is signed and saved, and then recorded. -/
theorem surely_books {record rest : LastCrossSignedState → Ctl Unit} {saved : LastCrossSignedState → ChannelData}
    (h : LedgerHolds w dues) (hrecording : ∀ lcss, Recording (record lcss))
    (hrecord : ∀ lcss v, s.sign H.crypto H.nodeSecret = .ok lcss → LedgerHolds v dues → dues.length + xs.length < 2 ^ 64 →
      Surely exec E (record lcss) (fun r v' => r = .ok () ∧ LedgerHolds v' (dues ++ xs)) v)
    (hrest : ∀ lcss v, (v.channel peer).isSome → Surely exec E (rest lcss) (fun _ v' => Unbooked v v') v) :
    Surely exec E (do
      let lcss ← signFor H peer s
      saveChannel peer (saved lcss) none
      record lcss
      rest lcss) (fun _ v => Books w dues xs v) w := by
  refine surely_signs hE (Books.of_eq rfl) fun lcss hsign => ?_
  have hsaved : LedgerHolds ((w.noteSigned peer lcss).put .channels peer (saved lcss)) dues :=
    h.same ⟨World.put_store_ne (by decide), World.put_store_ne (by decide), World.put_store_ne (by decide)⟩
  have hrecords : Surely exec E (record lcss) (fun r v => dues.length + xs.length < 2 ^ 64 →
      r = .ok () ∧ LedgerHolds v (dues ++ xs)) ((w.noteSigned peer lcss).put .channels peer (saved lcss)) := by
    by_cases hfits : dues.length + xs.length < 2 ^ 64
    · exact (hrecord lcss _ hsign hsaved hfits).mono fun _ _ hr _ => hr
    · exact (Stays.surely (hrecording lcss)).mono fun _ _ _ hlt => absurd hlt hfits
  have hgrown : ∀ {v : World}, Recorded ((w.noteSigned peer lcss).put .channels peer (saved lcss)) v →
      v.signed.length = w.signed.length + 1 := by
    intro v hv
    rw [hv.signed]
    exact List.length_append
  refine Surely.andThen (hrecords.and (Stays.surely (hrecording lcss))) ?_ ?_
  · rintro _ v ⟨hsound, hquiet⟩
    have hchannel : (v.channel peer).isSome := by
      rw [hquiet.channel peer, World.channel_put]
      rfl
    refine (hrest lcss v hchannel).mono fun _ v' hv' => Or.inr ⟨?_, fun hfits => (hsound hfits).2.same hv'.toSameLedger⟩
    have := hgrown hquiet
    have := hv'.signed
    omega
  · rintro e v ⟨hsound, hquiet⟩
    refine Or.inr ⟨?_, fun hfits => by cases (hsound hfits).1⟩
    have := hgrown hquiet
    omega

theorem surely_handleOpening (h : LedgerHolds w dues) :
    Surely exec E (handleOpeningStateUpdate H peer d m)
      (fun _ v => Books w dues [⟨⟨peer, 0, 0, .channelOpen⟩, d.lcss.remoteBalanceMsat⟩] v) w := by
  unfold handleOpeningStateUpdate
  refine surely_onDay (Books.of_eq rfl) fun day => ?_
  split
  · exact Surely.pure (Books.of_eq rfl)
  split
  · exact Surely.pure (Books.of_eq rfl)
  refine surely_books hE h (fun lcss => Recording.recordLedgerOnce _ _ _ _ _ _) ?_ ?_
  · intro lcss v hsign hv hfits
    have hcounters := SignedAlike.sign hsign
    refine surely_records hE ?_ rfl hv hfits
    rw [hcounters.localUpdates, hcounters.remoteUpdates, hcounters.remoteBalance]
    rfl
  · intro lcss v _
    have hsend := (Silent.sendMessage peer (.stateUpdate lcss.stateUpdate) rfl).unsigned
    exact (Stays.surely (hsend.bind fun _ => (Silent.sendChannelUpdate H peer).unsigned)).mono fun _ _ hv => hv.unbooked

theorem surely_handleOverride (hs : deriveStatus d = .overriding) (h : LedgerHolds w dues) :
    Surely exec E (handleOverrideAcceptance H peer d m)
      (fun _ v => Books w dues (d.dues peer (.stateUpdate m)) v) w := by
  unfold handleOverrideAcceptance ChannelData.dues
  rw [hs]
  cases hp : d.proposedOverride with
  | none => exact Yields.fail Yields.throw (Books.of_eq rfl)
  | some proposed =>
    refine Yields.pure.bind ?_
    split
    · exact Surely.pure (Books.of_eq rfl)
    refine surely_onDay (Books.of_eq rfl) fun day => ?_
    split
    · exact Surely.pure (Books.of_eq rfl)
    split
    · exact Surely.pure (Books.of_eq rfl)
    refine surely_books hE h (fun lcss => Recording.recordLedgerOnce _ _ _ _ _ _) ?_ ?_
    · intro lcss v hsign hv hfits
      have hcounters := SignedAlike.sign hsign
      refine surely_records hE ?_ rfl hv hfits
      rw [hcounters.localUpdates, hcounters.remoteUpdates, hcounters.localBalance]
    · intro lcss v _
      have hsend := (Silent.sendMessage peer (.stateUpdate lcss.stateUpdate) rfl).unsigned
      refine (Stays.surely (hsend.bind fun _ => ?_)).mono fun _ _ hv => hv.unbooked
      split
      · exact unsigned_sendPendingChannelUpdate
      · exact (Silent.sendChannelUpdate H peer).unsigned

theorem surely_commitUpdates (hr : ResolvesCommitted d) (h : LedgerHolds w dues) :
    Surely exec E (commitUpdates H peer d m)
      (fun _ v => Books w dues (StateManager.dues peer ⟨d.lcss, d.uncommitted⟩) v) w := by
  unfold commitUpdates
  cases hn : lcssNext H.crypto ⟨d.lcss, d.uncommitted⟩ with
  | error e => exact Yields.fail Yields.throw (Books.of_eq rfl)
  | ok next =>
    refine Yields.pure.bind ?_
    split
    · exact Surely.pure (Books.of_eq rfl)
    refine surely_books hE h (fun lcss => Recording.recordCommittedUpdateEvents _ _ _ _) ?_ ?_
    · intro lcss v hsign hv hfits
      have hcounters := SignedAlike.sign hsign
      rw [StateManager.dues, List.length_map] at hfits
      obtain ⟨r, -, rfl⟩ := lcssNext_eq_ok hn
      refine (surely_recordsCommitted hE (hr.lists hn) hv hfits).mono fun r v' hrecords => ?_
      rw [hcounters.localUpdates, hcounters.remoteUpdates] at hrecords
      exact hrecords
    · intro lcss v hv
      have hsend := (Silent.sendMessage peer (.stateUpdate lcss.stateUpdate) rfl).unsigned
      refine Surely.andThen ((Stays.surely hsend).and (Stays.surely (Silent.sendMessage peer _ rfl))) ?_ ?_
      · rintro _ v₁ ⟨h₁, hq⟩
        have hchannel : (v₁.channel peer).isSome := by
          rw [hq.channel peer]
          exact hv
        exact (surely_dispatches hchannel).mono fun _ v₂ h₂ => trans_of Unbooked h₁.unbooked h₂
      · exact fun _ v₁ h₁ => h₁.1.unbooked

theorem surely_handleActive (hd : w.channel peer = some d) (hs : deriveStatus d = .active) (hr : ResolvesCommitted d)
    (h : LedgerHolds w dues) : Surely exec E (handleActiveStateUpdate H peer d m)
      (fun _ v => Books w dues (d.dues peer (.stateUpdate m)) v) w := by
  rw [d.dues_active peer m hs]
  refine Surely.andThen ((surely_repair hd).and (Stays.surely unsigned_repair)) ?_ ?_
  · rintro d' v ⟨⟨-, hd'⟩, hv⟩
    obtain rfl := hd' d' rfl
    refine Surely.mono (Q := fun _ v' => Books v dues _ v') ?_ fun _ _ h' => h'.after hv
    split
    · exact Surely.pure (Books.of_eq rfl)
    split
    · exact Surely.pure (Books.of_eq rfl)
    refine surely_onDay (Books.of_eq rfl) fun day => ?_
    split
    · exact Surely.pure (Books.of_eq rfl)
    · refine surely_commitUpdates hE ?_ (h.same hv.toSameLedger)
      exact hr.fewer (dedupFrom_sublist [] d.uncommitted) rfl rfl rfl
  · exact fun _ v hv => Or.inl hv.2

/-- What is owed for a message of `peer`. -/
theorem surely_handleStateUpdate (hr : ∀ d, w.channel peer = some d → ResolvesCommitted d) (h : LedgerHolds w dues) :
    Surely exec E (handleStateUpdate H peer m) (fun _ v =>
      Books w dues (((w.channel peer).map (·.dues peer (.stateUpdate m))).getD []) v) w := by
  refine Surely.andThen surely_loadExisting ?_ ?_
  · rintro d _ ⟨rfl, hd⟩
    have hd := hd d rfl
    rw [hd, Option.map_some, Option.getD_some]
    split
    · rename_i hs
      rw [d.dues_opening peer m hs]
      exact surely_handleOpening hE h
    · exact surely_handleOverride hE ‹_› h
    · exact surely_handleActive hE hd ‹_› (hr d hd) h
    · exact Surely.pure (Books.of_eq rfl)
    · exact Surely.pure (Books.of_eq rfl)
    · exact Surely.pure (Books.of_eq rfl)
  · rintro e _ ⟨rfl, -⟩
    exact Books.of_eq rfl

theorem surely_handleResizeChannel {m : ResizeChannel} (h : LedgerHolds w dues) :
    Surely exec E (handleResizeChannel H peer m) (fun _ v =>
      Books w dues (((w.channel peer).map (·.dues peer (.resizeChannel m))).getD []) v) w := by
  refine Surely.andThen surely_loadExisting ?_ ?_
  · rintro d _ ⟨rfl, hd⟩
    rw [hd d rfl, Option.map_some, Option.getD_some]
    split
    · exact Surely.pure (Books.of_eq rfl)
    split
    · exact Surely.pure (Books.of_eq rfl)
    split
    · exact Surely.pure (Books.of_eq rfl)
    cases hc : checkedMul m.newCapacitySat 1000 with
    | none => exact Yields.fail Yields.throw (Books.of_eq rfl)
    | some capacity =>
      have hdues : d.dues peer (.resizeChannel m) =
          [⟨⟨peer, d.lcss.localUpdates, d.lcss.remoteUpdates, .resize capacity⟩, capacity⟩] := by
        simp only [ChannelData.dues, hc]
        rfl
      rw [hdues]
      refine Yields.pure.bind ?_
      split
      · exact Surely.pure (Books.of_eq rfl)
      unfold applyResize
      cases hb : resizedLocalBalance d.lcss capacity with
      | none => exact Yields.fail Yields.throw (Books.of_eq rfl)
      | some balance =>
        refine Yields.pure.bind ((yields_routingPolicyForData hE).bind ?_)
        refine surely_books hE h (fun lcss => Recording.recordLedgerOnce _ _ _ _ _ _) ?_ ?_
        · intro lcss v hsign hv hfits
          have hcounters := SignedAlike.sign hsign
          refine surely_records hE ?_ rfl hv hfits
          rw [hcounters.localUpdates, hcounters.remoteUpdates]
          rfl
        · intro lcss v _
          have hsend := (Silent.sendMessage peer (.stateUpdate lcss.stateUpdate) rfl).unsigned
          refine (Stays.surely (hsend.bind fun _ => ?_)).mono fun _ _ hv => hv.unbooked
          exact (Stays.attempt unsigned_sendPendingChannelUpdate).bind fun _ => Stays.pure _
  · rintro e _ ⟨rfl, -⟩
    exact Books.of_eq rfl

end Messages

/-! ### Runs -/

theorem Op.dues_of_not_books {op : Op} (h : op.books = false) : op.dues w w' = [] := by
  cases op with
  | message peer encoding msg =>
    have hdues : ∀ d : ChannelData, d.dues peer msg = [] := by
      intro d
      cases msg with
      | stateUpdate | resizeChannel => cases h
      | _ => rfl
    have hnone : ((w.channel peer).map (·.dues peer msg)).getD [] = [] := by
      cases w.channel peer with
      | none => rfl
      | some d => exact hdues d
    simp only [Op.dues, hnone, ite_self]
  | _ => rfl

/-- What is recorded while an operation handles a message. -/
theorem LedgerHolds.books {encoding : WireEncoding} {msg : HostedMessage} (h : LedgerHolds w dues)
    (hb : Books w dues (((w.channel peer).map (·.dues peer msg)).getD []) v)
    (hfits : (dues ++ (Op.message peer encoding msg).dues w v).length < 2 ^ 64) :
    LedgerHolds v (dues ++ (Op.message peer encoding msg).dues w v) := by
  rcases hb with hsame | ⟨hgrown, hsound⟩
  · have hdues : (Op.message peer encoding msg).dues w v = [] :=
      if_neg (by rw [hsame.signed]; exact Nat.lt_irrefl _)
    rw [hdues, List.append_nil]
    exact h.same hsame.toSameLedger
  · have hdues : (Op.message peer encoding msg).dues w v = ((w.channel peer).map (·.dues peer msg)).getD [] :=
      if_pos hgrown
    rw [hdues] at hfits ⊢
    rw [List.length_append] at hfits
    exact hsound hfits

theorem LedgerHolds.next {op : Op} {o : Nat → Choice} (hw : Reachable H .free w) (h : LedgerHolds w dues)
    (ho : ∀ n, (o n).fails = false) (hfits : (dues ++ op.dues w (op.next H o w)).length < 2 ^ 64) :
    LedgerHolds (op.next H o w) (dues ++ op.dues w (op.next H o w)) := by
  have hE : Unfailing fun x => x.fails = false := fun _ hx => hx
  cases hbooks : op.books with
  | false =>
    rw [Op.dues_of_not_books hbooks, List.append_nil]
    exact h.same (unbooked_of_trace hbooks (trace_free H w op o)).toSameLedger
  | true =>
    cases op with
    | message peer encoding msg =>
      -- The framing of the message is noted first.
      let w₁ : World := { w with peerWireEncodings := w.peerWireEncodings.insert peer encoding }
      have hnoted : Unsigned w w₁ := ⟨⟨rfl, rfl, rfl⟩, rfl⟩
      have hresolves : ∀ d, w₁.channel peer = some d → ResolvesCommitted d := fun d hd => hw.resolvesCommitted hd
      have hdues := h.same hnoted.toSameLedger
      cases msg with
      | stateUpdate m =>
        refine h.books (Surely.run (E := fun x => x.fails = false) (surely_message ?_) ho) hfits
        exact (surely_handleStateUpdate hE hresolves hdues).mono fun _ _ hv => hv.after hnoted
      | resizeChannel m =>
        refine h.books (Surely.run (E := fun x => x.fails = false) (surely_message ?_) ho) hfits
        exact (surely_handleResizeChannel hE hdues).mono fun _ _ hv => hv.after hnoted
      | _ => cases hbooks
    | _ => cases hbooks

theorem Billed.ledgerHolds {G : World → Op → Prop} (h : Billed H G w dues) (hfits : dues.length < 2 ^ 64) :
    LedgerHolds w dues := by
  induction h with
  | start => exact ledgerHolds_empty
  | @step w₀ dues₀ op o hw ho _ ih =>
    have hfits₀ : dues₀.length < 2 ^ 64 := by
      rw [List.length_append] at hfits
      omega
    exact (ih hfits₀).next hw.reachable ho hfits

theorem Booked.ledgerSound (h : Booked H w ids) (hfits : ids.length < 2 ^ 64) : LedgerSound w ids := by
  obtain ⟨dues, hbilled, rfl⟩ := h.billed
  rw [List.length_map] at hfits
  exact (hbilled.ledgerHolds hfits).toLedgerSound

end Sound

/-! ### The result -/

/-- What is to be recorded of a peer. -/
def owedTo (ids : List EventId) (peer : PublicKey) : List EventId := ids.filter (·.peer == peer)

/-- The ledger has one event of the peer for each id. -/
theorem LedgerSound.eventsOf {ids : List EventId} (h : LedgerSound w ids) (p : PublicKey) :
    ((w.eventsOf p).map (·.eventId)).Perm ((owedTo ids p).dedup.map some) := by
  have hnodup : ((w.eventsOf p).map (·.eventId)).Nodup := h.distinct.sublist (List.filter_sublist.map _)
  refine (List.perm_ext_iff_of_nodup hnodup ((List.nodup_dedup _).map (Option.some_injective _))).mpr ?_
  intro name
  simp only [World.eventsOf, owedTo, List.mem_map, List.mem_filter, List.mem_dedup, beq_iff_eq]
  constructor
  · rintro ⟨e, ⟨he, hp⟩, rfl⟩
    obtain ⟨id, hname, hpeer⟩ := h.peers e he
    exact ⟨id, ⟨(h.events id).mp (List.mem_map.mpr ⟨e, he, hname⟩), hpeer.symm.trans hp⟩, hname.symm⟩
  · rintro ⟨id, ⟨hid, hp⟩, rfl⟩
    obtain ⟨e, he, hname⟩ := List.mem_map.mp ((h.events id).mpr hid)
    obtain ⟨id', hname', hpeer⟩ := h.peers e he
    obtain rfl := Option.some.inj (hname'.symm.trans hname)
    exact ⟨e, ⟨he, hpeer.trans hp⟩, hname⟩

/-- In a run in which no call fails, and which has not used up the numbers of the ledger, there are as many events of a
    peer as there were to be recorded, and one for each, exactly if no two of them have the same id. -/
theorem ledger_records_each_event_once (H : Host) (w : World) (ids : List EventId) (p : PublicKey)
    (hrun : Booked H w ids) (hfits : ids.length < 2 ^ 64) :
    ((w.eventsOf p).length = (owedTo ids p).length ↔ (owedTo ids p).Nodup) ∧
      (((w.eventsOf p).map (·.eventId)).Perm ((owedTo ids p).map some) ↔ (owedTo ids p).Nodup) := by
  have hperm := (hrun.ledgerSound hfits).eventsOf p
  have hlength : (w.eventsOf p).length = (owedTo ids p).dedup.length := by
    simpa using hperm.length_eq
  have hcount : (w.eventsOf p).length = (owedTo ids p).length ↔ (owedTo ids p).Nodup := by
    rw [hlength]
    constructor
    · intro h
      exact List.dedup_eq_self.mp ((List.dedup_sublist _).eq_of_length h)
    · intro h
      rw [h.dedup]
  refine ⟨hcount, fun h => hcount.mp (by simpa using h.length_eq), fun h => ?_⟩
  rw [h.dedup] at hperm
  exact hperm

/-- What a script has to record, when nothing fails. -/
def owedFrom (H : Host) : World → List (World → Op) → List EventId
  | _, [] => []
  | w, op :: script => (op w).owed w ((op w).next H (fun _ => .calm) w) ++
    owedFrom H ((op w).next H (fun _ => .calm) w) script

theorem calmRun_booked (H : Host) (script : List (World → Op)) :
    Booked H (calmRun H script) (owedFrom H World.empty script) := by
  have hfrom : ∀ w ids, Booked H w ids → Booked H (script.foldl (fun w op => (op w).next H (fun _ => .calm) w) w)
      (ids ++ owedFrom H w script) := by
    induction script with
    | nil =>
      intro w ids h
      rw [owedFrom, List.append_nil]
      exact h
    | cons op script ih =>
      intro w ids h
      rw [owedFrom, ← List.append_assoc]
      exact ih _ _ (.step (op w) _ h fun _ => rfl)
  exact hfrom _ _ .start

/-- The client's channel is opened, and an HTLC of it is committed and failed. -/
def bookedScript : List (World → Op) := openScript ++ [
  clientAdds openKey 1 1000 (ByteVec.fill 32 3) 77, clientCommits .transparent openKey,
  fun _ => .paymentResult 77 1 (.failed []), clientCommits .transparent openKey]

theorem ledger_records_each_event_once_failed :
    ((calmRun .transparent bookedScript).eventsOf openPeer).length = 3 := by
  have hfits : (owedFrom .transparent World.empty bookedScript).length < 2 ^ 64 := by decide +kernel
  have hcount := (ledger_records_each_event_once .transparent _ _ openPeer (calmRun_booked _ bookedScript) hfits).1
  rw [hcount.mpr (by decide +kernel)]
  decide +kernel

/-- The client's channel is removed and opened again. -/
def reopenedScript : List (World → Op) := openScript ++ [fun _ => .removeChannel openPeer false] ++ openScript

theorem ledger_misses_reopening : ¬ ∀ (H : Host) (w : World) (ids : List EventId) (p : PublicKey), Booked H w ids →
    (w.eventsOf p).length = (owedTo ids p).length := by
  intro hall
  have hcount := hall .transparent _ _ openPeer (calmRun_booked _ reopenedScript)
  revert hcount
  decide +kernel

end Canopus
