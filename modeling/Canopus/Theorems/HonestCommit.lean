import Canopus.Lib.Calls
import Canopus.Theorems.CrossSigned
import Canopus.Theorems.Fold
import Canopus.Theorems.Redemption

/-! Commits. A client that holds the host's last cross-signed state in its own view, and has seen the same
    updates, computes the next state that the host computes; its `state_update` is taken, whatever the order in
    which the two have seen the updates of the other. A `state_update` that does not match changes nothing. -/

namespace Canopus
open Effect Fallible
open Buffer (bind_eq_ok)

variable {E : Choice → Prop} {H : Host} {w w' : World} {peer : PublicKey} {d : ChannelData} {n : Nat}

/-! ### The ledger -/

/-- The number of the next entry of the ledger. -/
def World.nextLedgerSeq (w : World) : UInt64 := (((w.store .metadata).value? ()).map (·.nextLedgerSeq)).getD 0

/-- The next `n` numbers of the ledger are free. -/
structure World.LedgerRoom (w : World) (n : Nat) : Prop where
  fits : n ≤ 2 ^ 64
  free : ∀ i < n, (w.store .ledger).lookup (w.nextLedgerSeq + UInt64.ofNat i) = none

/-- Only the ledger has changed. -/
structure Ledgered (w w' : World) : Prop where
  channels : w'.store .channels = w.store .channels
  sent : w'.sent = w.sent

theorem Ledgered.refl (w : World) : Ledgered w w := ⟨rfl, rfl⟩

theorem Ledgered.trans {w'' : World} (h : Ledgered w w') (h' : Ledgered w' w'') : Ledgered w w'' :=
  ⟨h'.channels.trans h.channels, h'.sent.trans h.sent⟩

theorem ledgered_put {n : Ns} {k : n.Key} {v : n.Val} (h : Ns.channels ≠ n) : Ledgered w (w.put n k v) :=
  ⟨by simp [World.put, World.settle, Function.update_of_ne h], rfl⟩

theorem World.LedgerRoom.mono {m : Nat} (h : w.LedgerRoom n) (hm : m ≤ n) : w.LedgerRoom m :=
  ⟨Nat.le_trans hm h.fits, fun i hi => h.free i (Nat.lt_of_lt_of_le hi hm)⟩

theorem World.store_put_ne {n m : Ns} {k : n.Key} {v : n.Val} (h : m ≠ n) : (w.put n k v).store m = w.store m := by
  simp [World.put, World.settle, Function.update_of_ne h]

theorem World.store_put {n : Ns} {k : n.Key} {v : n.Val} : (w.put n k v).store n = (w.store n).put k v := by
  simp [World.put, World.settle]

/-- Room does not depend on the rest of the store. -/
theorem World.LedgerRoom.of_store (h : w.LedgerRoom n) (hm : w'.store .metadata = w.store .metadata)
    (hl : w'.store .ledger = w.store .ledger) : w'.LedgerRoom n := by
  refine ⟨h.fits, fun i hi => ?_⟩
  rw [World.nextLedgerSeq, hm, hl]
  exact h.free i hi

/-- An entry takes one number. -/
theorem World.LedgerRoom.taken {m : Meta} {e : Ns.Val .ledger} (h : w.LedgerRoom (n + 1))
    (hm : m.nextLedgerSeq = w.nextLedgerSeq + 1) :
    ((w.put .metadata () m).put .ledger w.nextLedgerSeq e).LedgerRoom n := by
  have hseq : ((w.put .metadata () m).put .ledger w.nextLedgerSeq e).nextLedgerSeq = w.nextLedgerSeq + 1 := by
    rw [World.nextLedgerSeq, World.store_put_ne (by decide), World.store_put, Table.value?_put]
    exact hm
  have hfits : n + 1 ≤ 2 ^ 64 := h.fits
  refine ⟨by omega, fun i hi => ?_⟩
  have hnext : w.nextLedgerSeq + 1 + UInt64.ofNat i = w.nextLedgerSeq + UInt64.ofNat (i + 1) := by
    rw [UInt64.add_assoc, UInt64.ofNat_add, UInt64.add_comm 1]
    rfl
  have hne : w.nextLedgerSeq + UInt64.ofNat (i + 1) ≠ w.nextLedgerSeq := by
    intro heq
    have hzero : UInt64.ofNat (i + 1) = 0 := by simpa using heq
    have := congrArg UInt64.toNat hzero
    rw [UInt64.toNat_ofNat_of_lt' (by simp only [UInt64.size]; omega)] at this
    simp at this
  rw [hseq, hnext, World.store_put, World.store_put_ne (by decide)]
  have hfree := h.free (i + 1) (by omega)
  rw [← hfree]
  exact AList.lookup_insert_ne hne

/-- The ledger, its numbers and its event ids say the same. -/
structure SameEntries (w w' : World) : Prop where
  seq : w'.nextLedgerSeq = w.nextLedgerSeq
  entries : w'.store .ledger = w.store .ledger
  ids : w'.store .ledgerEventIds = w.store .ledgerEventIds

/-- The type of the event of an id. -/
def EventTag.eventType : EventTag → LedgerEventType
  | .channelOpen => .channelOpen
  | .override => .override
  | .resize _ => .resize
  | .localAdd _ | .remoteAdd _ => .htlcForwarded
  | .localFulfill _ | .remoteFulfill _ => .htlcFulfilled
  | .localFail _ | .remoteFail _ => .htlcFailed

/-- What is to be recorded in an event. -/
structure Due where
  id : EventId
  amountMsat : UInt64
  deriving DecidableEq

structure Due.RecordedBy (x : Due) (e : LedgerEvent) : Prop where
  name : e.eventId = some x.id
  peer : e.peerPubkey = x.id.peer
  type : e.eventType = x.id.tag.eventType
  amount : e.amountMsat = x.amountMsat

/-- An event has been entered under the next number. -/
structure Entered (w : World) (e : LedgerEvent) (w' : World) : Prop where
  number : e.seq = w.nextLedgerSeq
  entry : w'.store .ledger = (w.store .ledger).put w.nextLedgerSeq e
  seq : w'.nextLedgerSeq = w.nextLedgerSeq + 1
  ids : w'.store .ledgerEventIds = w.store .ledgerEventIds

/-- The id is known already, or the event has been entered and its id noted. -/
inductive EnteredOnce (w : World) (x : Due) : World → Prop
  | known (hk : ((w.store .ledgerEventIds).lookup x.id).isSome) : EnteredOnce w x w
  | entered {v : World} {e : LedgerEvent} (hn : (w.store .ledgerEventIds).lookup x.id = none) (hx : x.RecordedBy e)
    (he : Entered w e v) : EnteredOnce w x (v.put .ledgerEventIds x.id true)

section Ledger
variable (hE : Unfailing E)
include hE

theorem yields_createJson {n : Ns} {k : n.Key} {v : n.Val} (h : (w.store n).lookup k = none) :
    Yields exec E (createJson n k v) w (.ok (.ok ())) (w.put n k v) := by
  refine Yields.ask fun x hx => ?_
  simp [exec, hE x hx, h]

theorem yields_updateJson {n : Ns} {k : n.Key} {v v₀ : n.Val} {g : Nat} (h : (w.store n).lookup k = some (g, v₀)) :
    Yields exec E (updateJson n k v g) w (.ok (.ok ())) (w.put n k v) := by
  refine Yields.ask fun x hx => ?_
  simp [exec, hE x hx, h]

/-- The metadata are there, or are made. -/
theorem surely_loadMeta (h : w.LedgerRoom n) : Surely exec E loadMeta (fun r w' => ∃ m g, r = .ok (m, g) ∧
    (w'.store .metadata).lookup () = some (g, m) ∧ m.nextLedgerSeq = w'.nextLedgerSeq ∧ w'.LedgerRoom n ∧
      Ledgered w w' ∧ SameEntries w w') w := by
  unfold loadMeta
  cases hl : (w.store .metadata).lookup () with
  | some e =>
    obtain ⟨g, m⟩ := e
    refine (yields_getJson hE hl).bind (Surely.pure ⟨m, g, rfl, hl, ?_, h, Ledgered.refl w, rfl, rfl, rfl⟩)
    rw [World.nextLedgerSeq, Table.value?_of_entry hl]
    rfl
  | none =>
    refine (yields_notFound hE hl).bind ?_
    refine (yields_createJson hE hl).bind (Yields.pure.bind (Surely.pure ⟨⟨0, 0⟩, 0, rfl, ?_, ?_, ?_, ?_, ?_⟩))
    · rw [World.store_put, Table.put, hl]
      exact AList.lookup_insert _
    · rw [World.nextLedgerSeq, World.store_put, Table.value?_put]
      rfl
    · refine ⟨h.fits, fun i hi => ?_⟩
      have hfree := h.free i hi
      rw [World.nextLedgerSeq, Table.value?_eq_none_of_entry hl] at hfree
      rw [World.nextLedgerSeq, World.store_put, Table.value?_put, World.store_put_ne (by decide)]
      exact hfree
    · exact ledgered_put (by decide)
    · refine ⟨?_, World.store_put_ne (by decide), World.store_put_ne (by decide)⟩
      rw [World.nextLedgerSeq, World.store_put, Table.value?_put, World.nextLedgerSeq, Table.value?_eq_none_of_entry hl]
      rfl

theorem surely_recordInner {t : LedgerEventType} {amount fee : UInt64} {hash : Option Hash} {id : Option EventId}
    (h : w.LedgerRoom (n + 1)) : Surely exec E (recordInner peer t amount fee hash id)
      (fun r w' => r = .ok () ∧ w'.LedgerRoom n ∧ Ledgered w w' ∧
        ∃ time, Entered w ⟨w.nextLedgerSeq, id, peer, t, amount, fee, hash, time⟩ w') w := by
  refine Surely.andThen (surely_loadMeta hE h) ?_ ?_
  · rintro r w₁ ⟨m, g, hr, hl, hseq, hroom, h₁, hsame⟩
    obtain rfl := Except.ok.inj hr
    refine (yields_updateJson hE hl).bind (Yields.pure.bind ?_)
    refine Surely.andThen (S := fun r v => ∃ time, r = .ok time ∧ v = w₁.put .metadata ()
      { m with nextLedgerSeq := m.nextLedgerSeq + 1 }) (Surely.ask fun x hx => ⟨_, rfl, rfl⟩) ?_ ?_
    · rintro time _ ⟨_, -, rfl⟩
      have hfree : ((w₁.put .metadata () { m with nextLedgerSeq := m.nextLedgerSeq + 1 }).store .ledger).lookup
          m.nextLedgerSeq = none := by
        rw [World.store_put_ne (by decide), hseq]
        simpa using hroom.free 0 (by omega)
      refine (yields_createJson hE hfree).bind (Surely.pure ⟨rfl, ?_, ?_, time.getD 0, rfl, ?_, ?_, ?_⟩)
      · rw [hseq]
        exact hroom.taken rfl
      · exact h₁.trans ((ledgered_put (by decide)).trans (ledgered_put (by decide)))
      · rw [World.store_put, World.store_put_ne (by decide), hsame.entries, hseq, hsame.seq]
      · rw [World.nextLedgerSeq, World.store_put_ne (by decide), World.store_put, Table.value?_put]
        exact congrArg (· + 1) (hseq.trans hsame.seq)
      · rw [World.store_put_ne (by decide), World.store_put_ne (by decide), hsame.ids]
    · rintro e v ⟨_, he, -⟩
      cases he
  · rintro e v ⟨m, g, he, -⟩
    cases he

theorem surely_recordLedgerOnce {lcss : LastCrossSignedState} {tag : EventTag} {t : LedgerEventType} {amount : UInt64}
    {hash : Option Hash} (h : w.LedgerRoom (n + 1)) : Surely exec E (recordLedgerOnce peer lcss tag t amount hash)
      (fun r w' => r = .ok () ∧ w'.LedgerRoom n ∧ Ledgered w w' ∧
        (t = tag.eventType → EnteredOnce w ⟨⟨peer, lcss.localUpdates, lcss.remoteUpdates, tag⟩, amount⟩ w')) w := by
  unfold recordLedgerOnce recordOnce
  refine Yields.bind (v := w)
    (b := .ok ((w.store .ledgerEventIds).lookup ⟨peer, lcss.localUpdates, lcss.remoteUpdates, tag⟩).isSome)
    (Yields.ask fun x hx => ?_) (Yields.pure.bind ?_)
  · simp only [exec, hE x hx, Bool.false_eq_true, if_false]
  split
  · exact Surely.pure ⟨rfl, h.mono (Nat.le_succ n), Ledgered.refl w, fun _ => .known ‹_›⟩
  · rename_i hnew
    have hnone : (w.store .ledgerEventIds).lookup ⟨peer, lcss.localUpdates, lcss.remoteUpdates, tag⟩ = none := by
      simpa using hnew
    refine Surely.andThen (surely_recordInner hE h) ?_ ?_
    · rintro _ w₁ ⟨-, hroom, h₁, time, hentered⟩
      refine (yields_createJson hE (hentered.ids ▸ hnone)).bind (Surely.pure ⟨rfl, ?_, ?_, ?_⟩)
      · exact hroom.of_store (World.store_put_ne (by decide)) (World.store_put_ne (by decide))
      · exact h₁.trans (ledgered_put (by decide))
      · exact fun ht => .entered hnone ⟨rfl, rfl, ht, rfl⟩ hentered
    · rintro e v ⟨he, -⟩
      cases he

/-- Each committed update takes at most one number of the ledger. -/
theorem surely_recordCommittedUpdateEvents {old new : LastCrossSignedState} (us : List UncommittedUpdate) :
    ∀ {w : World}, w.LedgerRoom us.length → Surely exec E (recordCommittedUpdateEvents peer us old new)
      (fun r w' => r = .ok () ∧ Ledgered w w') w := by
  have resolution : ∀ {w : World} {n : Nat} {htlcs : List UpdateAddHtlc} {id : UInt64} {tag : EventTag} {t : LedgerEventType},
      w.LedgerRoom (n + 1) → Surely exec E (recordResolution peer new htlcs id tag t)
        (fun r w' => r = .ok () ∧ w'.LedgerRoom n ∧ Ledgered w w') w := by
    intro w n htlcs id tag t h
    unfold recordResolution
    split
    · exact (surely_recordLedgerOnce hE h).mono fun _ _ h' => ⟨h'.1, h'.2.1, h'.2.2.1⟩
    · exact Surely.pure ⟨rfl, h.mono (Nat.le_succ n), Ledgered.refl w⟩
  unfold recordCommittedUpdateEvents
  induction us with
  | nil => exact fun {w} _ => Surely.pure ⟨rfl, Ledgered.refl w⟩
  | cons u us ih =>
    intro w h
    refine Surely.andThen (S := fun r w' => r = .ok () ∧ w'.LedgerRoom us.length ∧ Ledgered w w') ?_ ?_ ?_
    · dsimp only
      split
      · exact (surely_recordLedgerOnce hE h).mono fun _ _ h' => ⟨h'.1, h'.2.1, h'.2.2.1⟩
      · exact (surely_recordLedgerOnce hE h).mono fun _ _ h' => ⟨h'.1, h'.2.1, h'.2.2.1⟩
      all_goals exact resolution h
    · rintro _ w₁ ⟨-, hroom, h₁⟩
      exact Surely.mono (ih hroom) fun r w₂ h₂ => ⟨h₂.1, h₁.trans h₂.2⟩
    · rintro e v ⟨he, -⟩
      cases he

end Ledger

/-! ### The client's next state -/

section Client
variable {C : Crypto} {s next signed : LastCrossSignedState} {secret : SecretKey} {day : UInt32}

/-- Both views of a state can be encoded, or neither. -/
theorem hostedSigHash_reverse {hash : Hash} (h : s.hostedSigHash C = .ok hash) : ∃ hash', s.reverse.hostedSigHash C = .ok hash' := by
  obtain ⟨b, hb, -⟩ := bind_eq_ok.mp h
  unfold LastCrossSignedState.sigMaterial at hb
  simp only [bind_eq_ok] at hb
  obtain ⟨capacity, hcap, initial, hinit, own, hown, other, hother, incoming, hin, outgoing, hout, -⟩ := hb
  have hmaterial : ∃ b', s.reverse.sigMaterial = .ok b' := by
    unfold LastCrossSignedState.sigMaterial LastCrossSignedState.reverse
    simp only [hcap, hinit, hown, hother, hin, hout]
    exact ⟨_, rfl⟩
  obtain ⟨b', hb'⟩ := hmaterial
  exact ⟨_, bind_eq_ok.mpr ⟨b', hb', rfl⟩⟩

/-- The client's next state, dated and signed, is the state that its `state_update` makes the host propose. -/
theorem signed_reverse (hs : { next.reverse with blockDay := day }.sign C secret = .ok signed) :
    signed.reverse = proposedNext next signed.stateUpdate := by
  obtain ⟨hash, -, rfl⟩ := sign_eq_ok hs
  simp [LastCrossSignedState.reverse, proposedNext, LastCrossSignedState.stateUpdate]

/-- It carries the client's signature, -/
theorem verify_proposedNext (hkey : ∀ hash, C.verifyEcdsa hash (C.signEcdsa hash secret) peer = true)
    (hs : { next.reverse with blockDay := day }.sign C secret = .ok signed) :
    (proposedNext next signed.stateUpdate).verifyRemoteSig C peer = true := by
  rw [← signed_reverse hs]
  obtain ⟨hash, hh, rfl⟩ := sign_eq_ok hs
  have halike : SignedAlike { { next.reverse with blockDay := day } with
      localSigOfRemote := C.signEcdsa hash secret }.reverse { next.reverse with blockDay := day }.reverse := by
    constructor <;> rfl
  unfold LastCrossSignedState.verifyRemoteSig
  rw [halike.hash, hh]
  exact hkey hash

/-- and the host can sign it too. -/
theorem sign_proposedNext (key : SecretKey) (hs : { next.reverse with blockDay := day }.sign C secret = .ok signed) :
    ∃ lcss, (proposedNext next signed.stateUpdate).sign C key = .ok lcss := by
  rw [← signed_reverse hs]
  obtain ⟨hash, hh, rfl⟩ := sign_eq_ok hs
  obtain ⟨hash', hh'⟩ := hostedSigHash_reverse hh
  have halike : SignedAlike { { next.reverse with blockDay := day } with
      localSigOfRemote := C.signEcdsa hash secret }.reverse.reverse { next.reverse with blockDay := day }.reverse.reverse := by
    constructor <;> rfl
  refine ⟨_, bind_eq_ok.mpr ⟨hash', ?_, rfl⟩⟩
  rw [halike.hash, hh']

/-- Its counters are those that the host expects. -/
theorem countersMatch_client (hn : d.next H = .ok next)
    (hs : { next.reverse with blockDay := day }.sign C secret = .ok signed) :
    countersMatch d signed.stateUpdate = true ∧ signed.stateUpdate.blockDay = day := by
  obtain ⟨hash, -, rfl⟩ := sign_eq_ok hs
  obtain ⟨r, -, rfl⟩ := lcssNext_eq_ok hn
  simp [countersMatch, LastCrossSignedState.stateUpdate, LastCrossSignedState.reverse]

end Client

/-! ### A commit -/

section Commit
variable {m : StateUpdate} {next lcss : LastCrossSignedState} {height : UInt32}

/-- The record after a commit. -/
def ChannelData.committed (d : ChannelData) (lcss : LastCrossSignedState) : ChannelData :=
  { d with lcss := lcss, uncommitted := [] }

/-- A `state_update` can always be encoded. -/
theorem sendable_stateUpdate (w : World) (peer : PublicKey) (m : StateUpdate) :
    w.sendable peer (.stateUpdate m) = true := by
  unfold World.sendable
  cases (w.peerWireEncodings.lookup peer).getD .strict with
  | strict => rfl
  | legacy =>
    have hlen : ¬ (writeU32 m.blockDay ++ writeU32 m.localUpdates ++ writeU32 m.remoteUpdates ++
        m.localSigOfRemote.toList).length > 65535 := by
      simp [writeU32, beBytes]
    simp only [HostedMessage.encodeWithEncoding, HostedMessage.encodeBody, writeVarsize]
    simp only [Except.bind, bind, hlen, if_false]
    rfl

theorem yields_repair (hn : (d.uncommitted.filterMap resolutionKey).Nodup) :
    Yields exec E (repairDuplicateUncommittedResolutions peer d) w (.ok d) w := by
  rw [repair_eq_pure hn]
  exact Yields.pure

/-- What is dispatched after a commit. -/
theorem surely_dispatched {v : World} {old new : ChannelData} {us : List UncommittedUpdate}
    (hd : (v.channel peer).isSome) : Surely exec E (dispatchCommittedEffects H peer old new us)
      (fun _ v' => (Ctx.free H v (.connect peer)).Trace (Act.spares peer) v v') v := by
  -- Of the operation only its peer matters.
  let K : Ctx := Ctx.free H v (.connect peer)
  have hdoes : K.Does (Act.spares peer) (dispatchCommittedEffects H peer old new us) v fun _ _ => True :=
    does_dispatchCommittedEffects (K := K) (Or.inr ⟨peer, hd, rfl⟩) (fun q hq => (Option.some.inj hq).symm)
      (fun _ hq _ => hq) fun _ hq _ => hq
  unfold Ctx.Does Does at hdoes
  unfold Surely
  refine Wp.mono (Wp.anti hdoes ?_) fun _ v' h => h.1
  intro x v c _
  exact ⟨fun _ => by rw [show K.guard = Guard.ofOp fun _ _ => True from rfl, Guard.ofOp_call]; trivial, trivial⟩

/-- It leaves the record as it is, apart from failing HTLCs. -/
theorem surely_dispatchCommitted {v : World} {old new : ChannelData} {us : List UncommittedUpdate}
    (hv : v.channel peer = some new) : Surely exec E (dispatchCommittedEffects H peer old new us)
      (fun _ v' => Extended v' peer new) v := by
  have hext : Extended v peer new := ⟨[], by simp, by simpa using hv⟩
  refine (surely_dispatched ?_).mono fun _ v' h => hext.trace h
  rw [hv]
  rfl

/-- A matching `state_update`: the new state is stored with nothing pending and acknowledged, and what is dispatched
    after that only adds resolutions of the host to the record. -/
theorem passes_handleStateUpdate (hd : w.channel peer = some d) (hs : deriveStatus d = .active)
    (hne : d.uncommitted ≠ []) (hrep : (d.uncommitted.filterMap resolutionKey).Nodup)
    (hc : countersMatch d m = true) (hday : m.blockDay = height / 144) (hn : d.next H = .ok next)
    (hv : (proposedNext next m).verifyRemoteSig H.crypto peer = true)
    (hl : (proposedNext next m).sign H.crypto H.nodeSecret = .ok lcss) (hroom : w.LedgerRoom d.uncommitted.length) :
    Passes exec (CalmAt height) (handleStateUpdate H peer m)
      (fun v => v.channel peer = some (d.committed lcss) ∧ v.sent = w.sent ++ [(peer, .stateUpdate lcss.stateUpdate)])
      (fun v => Extended v peer (d.committed lcss)) w := by
  have hE : Unfailing (CalmAt height) := CalmAt.unfailing
  refine Passes.bind (yields_loadExisting hE hd) ?_
  rw [hs]
  refine Passes.bind (yields_repair hrep) ?_
  rw [if_neg (by simpa using hne), if_neg (by simp [hc])]
  refine Passes.bind (yields_currentBlockDay hE fun _ hx => hx.2) ?_
  rw [if_neg (by simpa using hday)]
  unfold commitUpdates
  rw [show StateManager.lcssNext H.crypto ⟨d.lcss, d.uncommitted⟩ = .ok next from hn]
  refine Passes.bind Yields.pure ?_
  rw [if_neg (by simp [hv])]
  refine Passes.bind (yields_signFor hl) (Passes.bind (yields_saveChannel hE) ?_)
  refine Passes.andThen (Surely.mono (surely_recordCommittedUpdateEvents hE d.uncommitted ?_) ?_)
  · exact hroom.of_store (World.store_put_ne (by decide)) (World.store_put_ne (by decide))
  rintro _ v ⟨rfl, hledger⟩
  refine ⟨(), rfl, Surely.passes (Surely.mono (yields_sendMessage hE (sendable_stateUpdate v peer _)) ?_)⟩
  rintro _ _ ⟨rfl, rfl⟩
  have hstored : v.channel peer = some (d.committed lcss) := by
    unfold World.channel
    rw [hledger.channels]
    exact World.channel_put
  refine ⟨(), rfl, ⟨hstored, ?_⟩, surely_dispatchCommitted hstored⟩
  show v.sent ++ _ = _
  rw [hledger.sent]
  rfl

end Commit

/-! ### A `state_update` that does not match -/

section Unmatched
variable {m : StateUpdate}

/-- The record of `peer` is the same, apart from repeated resolutions, and so is everything else that is stored for a
    peer; and nothing was sent. -/
structure Ignored (w : World) (peer : PublicKey) (d : ChannelData) (v : World) : Prop where
  record : v.channel peer = some d ∨ v.channel peer = some d.deduplicated
  others : ∀ q ≠ peer, v.channel q = w.channel q
  sent : v.sent = w.sent

theorem surely_repair (hd : w.channel peer = some d) :
    Surely exec E (repairDuplicateUncommittedResolutions peer d)
      (fun r v => Ignored w peer d v ∧ ∀ d', r = .ok d' → d' = d.deduplicated) w := by
  unfold repairDuplicateUncommittedResolutions
  dsimp only
  split
  · refine Surely.andThen (S := fun r v => Ignored w peer d v) ?_ ?_ ?_
    · unfold Surely
      refine Wp.mono wp_saveChannel fun r v hsaved => ?_
      have hput : Ignored w peer d (w.put .channels peer d.deduplicated) :=
        ⟨Or.inr World.channel_put, fun q hq => World.channel_put_ne hq, rfl⟩
      cases hsaved with
      | created hx => exact hput
      | updated hx => exact hput
      | failed hx hc hf => exact ⟨Or.inl hd, fun _ _ => rfl, rfl⟩
    · exact fun _ v hv => Surely.pure ⟨hv, fun d' hr => (Except.ok.inj hr).symm⟩
    · exact fun e v hv => ⟨hv, fun d' hr => by cases hr⟩
  · rename_i hlen
    refine Surely.pure ⟨⟨Or.inl hd, fun _ _ => rfl, rfl⟩, fun d' hr => ?_⟩
    obtain rfl := Except.ok.inj hr
    have hlist := (dedupFrom_sublist [] d.uncommitted).eq_of_length (by
      simpa [deduplicateUncommittedResolutions] using hlen)
    show d = { d with uncommitted := dedupFrom [] d.uncommitted }
    rw [hlist]

theorem surely_currentBlockDay :
    Surely exec E currentBlockDay (fun r v => w = v ∧ ∀ day, r = .ok day → ∃ x, E x ∧ day = x.height / 144) w := by
  unfold currentBlockDay getBlockHeight
  refine Surely.andThen (S := fun r v => w = v ∧ ∀ height, r = .ok height → ∃ x, E x ∧ height = x.height) ?_ ?_ ?_
  · refine Surely.andThen (S := fun r v => w = v ∧ ∀ height, r = .ok (.ok height) → ∃ x, E x ∧ height = x.height)
      (Surely.ask fun x hx => ?_) ?_ ?_
    · simp only [exec, rpcError]
      split
      · exact ⟨rfl, fun height hr => by cases hr⟩
      · refine ⟨rfl, fun height hr => ⟨x, hx, ?_⟩⟩
        exact (Except.ok.inj (Except.ok.inj hr)).symm
    · rintro r v ⟨hv, hr⟩
      cases r with
      | error e => exact Surely.throw ⟨hv, fun _ h => by cases h⟩
      | ok height => exact Surely.pure ⟨hv, fun _ h => hr _ (by cases h; rfl)⟩
    · exact fun e v hv => ⟨hv.1, fun _ h => by cases h⟩
  · rintro height v ⟨hv, hr⟩
    refine Surely.pure ⟨hv, fun day h => ?_⟩
    obtain ⟨x, hx, rfl⟩ := hr height rfl
    exact ⟨x, hx, (Except.ok.inj h).symm⟩
  · exact fun e v hv => ⟨hv.1, fun _ h => by cases h⟩

/-- What is done on the current day, or not at all. -/
theorem surely_onDay {Q : World → Prop} {f : UInt32 → Ctl Unit} (hw : Q w)
    (hf : ∀ day, Surely exec E (f day) (fun _ v => Q v) w) :
    Surely exec E (currentBlockDay >>= f) (fun _ v => Q v) w := by
  refine Surely.andThen surely_currentBlockDay ?_ ?_
  · rintro day _ ⟨rfl, -⟩
    exact hf day
  · rintro e _ ⟨rfl, -⟩
    exact hw

/-- The counters, the day or the signature of the message are not those of the next state. -/
def Unmatched (H : Host) (peer : PublicKey) (d : ChannelData) (m : StateUpdate) (E : Choice → Prop) : Prop :=
  countersMatch d.deduplicated m = false ∨ (∀ x, E x → m.blockDay ≠ x.height / 144) ∨
    ∀ next, d.deduplicated.next H = .ok next → (proposedNext next m).verifyRemoteSig H.crypto peer = false

theorem surely_ignores (hd : w.channel peer = some d) (hs : deriveStatus d = .active) (hm : Unmatched H peer d m E) :
    Surely exec E (handleStateUpdate H peer m) (fun _ v => Ignored w peer d v) w := by
  have hsame : Ignored w peer d w := ⟨Or.inl hd, fun _ _ => rfl, rfl⟩
  refine Surely.andThen surely_loadExisting ?_ ?_
  · rintro d' _ ⟨rfl, hd'⟩
    obtain rfl := Option.some.inj ((hd' d' rfl).symm.trans hd)
    rw [hs]
    refine Surely.andThen (surely_repair hd) ?_ fun e v hv => hv.1
    rintro d₁ v ⟨hv, hd₁⟩
    obtain rfl := hd₁ d₁ rfl
    split
    · exact Surely.pure hv
    split
    · exact Surely.pure hv
    rename_i hcount
    have hcount : countersMatch d'.deduplicated m = true := by simpa using hcount
    refine Surely.andThen surely_currentBlockDay ?_ ?_
    · rintro day _ ⟨rfl, hday⟩
      obtain ⟨x, hx, rfl⟩ := hday day rfl
      split
      · exact Surely.pure hv
      rename_i hday
      unfold commitUpdates
      cases hn : StateManager.lcssNext H.crypto ⟨d'.deduplicated.lcss, d'.deduplicated.uncommitted⟩ with
      | error e => exact Yields.fail Yields.throw hv
      | ok next =>
        refine Yields.pure.bind ?_
        rcases hm with hm | hm | hm
        · rw [hm] at hcount
          cases hcount
        · exact absurd (hm x hx) hday
        · rw [if_pos (by rw [hm next hn]; rfl)]
          exact Surely.pure hv
    · exact fun e v' hv' => hv'.1 ▸ hv
  · rintro e _ ⟨rfl, -⟩
    exact hsame

end Unmatched

/-! ### The result -/

/-- Commits succeed for an honest client and fail without effect for any other. Let a channel be active, with updates
    pending of which none is resolved twice. A client that holds the reverse of the stored state and the same updates
    `L` of the host and `R` of its own, in whatever order, and whose fold of them succeeds, signs its next state with
    the current block day. Its `state_update` makes the host store that state in its own view, with both signatures
    valid and nothing pending, and send a `state_update` whose signature the client can verify; the HTLCs that are
    dispatched after that leave this state and only add resolutions of the host. On the other hand a `state_update`
    whose counters, block day or signature do not match leaves the record, apart from repeated resolutions, and sends
    nothing, whichever calls fail. -/
theorem honest_commit_accepted (H : Host) (w : World) (peer : PublicKey) (d : ChannelData) (hkey : H.SignsSoundly)
    (hd : w.channel peer = some d) (hs : deriveStatus d = .active) :
    (∀ (L R : List PendingUpdate) (vs : List UncommittedUpdate) (next client signed : LastCrossSignedState)
      (secret : SecretKey) (height : UInt32) (o : Nat → Choice),
      d.uncommitted ≠ [] → (d.uncommitted.filterMap resolutionKey).Nodup →
      (d.lcss.incomingHtlcs.map (·.id) ++ (addsOf R).map (·.id)).Nodup →
      (d.lcss.outgoingHtlcs.map (·.id) ++ (addsOf L).map (·.id)).Nodup →
      Interleaves L R d.uncommitted → Interleaves L R vs → d.next H = .ok next →
      StateManager.lcssNext H.crypto ⟨d.lcss.reverse, vs.map UncommittedUpdate.swap⟩ = .ok client →
      (∀ hash, H.crypto.verifyEcdsa hash (H.crypto.signEcdsa hash secret) peer = true) →
      { client with blockDay := height / 144 }.sign H.crypto secret = .ok signed →
      w.LedgerRoom d.uncommitted.length → (∀ n, (o n).fails = false ∧ (o n).height = height) →
      ∃ lcss, lcss = { signed.reverse with localSigOfRemote := lcss.localSigOfRemote } ∧ CrossSigned H peer lcss ∧
        { signed with remoteSigOfLocal := lcss.localSigOfRemote }.verifyRemoteSig H.crypto H.nodePublic = true ∧
        (∃ n, (Prog.after exec o n (handleStateUpdate H peer signed.stateUpdate).run w).channel peer =
            some (d.committed lcss) ∧
          (Prog.after exec o n (handleStateUpdate H peer signed.stateUpdate).run w).sent =
            w.sent ++ [(peer, .stateUpdate lcss.stateUpdate)]) ∧
        Extended (Prog.run exec o (handleStateUpdate H peer signed.stateUpdate).run w).2 peer (d.committed lcss)) ∧
    ∀ (m : StateUpdate) (o : Nat → Choice), Unmatched H peer d m (fun x => ∃ n, x = o n) →
      Ignored w peer d (Prog.run exec o (handleStateUpdate H peer m).run w).2 := by
  constructor
  · intro L R vs next client signed secret height o hne hrep hin hout hu hv hn hclient hsecret hsigned hroom ho
    obtain rfl : client = next.reverse := (client_next_is_reverse H.crypto d.lcss L R hin hout).1 _ _ _ _ hu hv hn hclient
    obtain ⟨hcount, hday⟩ := countersMatch_client hn hsigned
    have hverify := verify_proposedNext hsecret hsigned
    obtain ⟨lcss, hlcss⟩ := sign_proposedNext H.nodeSecret hsigned
    have hcross : CrossSigned H peer lcss := .sign hkey hverify hlcss
    have hview : lcss = { signed.reverse with localSigOfRemote := lcss.localSigOfRemote } := by
      rw [signed_reverse hsigned]
      obtain ⟨hash, -, rfl⟩ := sign_eq_ok hlcss
      rfl
    refine ⟨lcss, hview, hcross, ?_, ?_⟩
    · have hrev : { signed with remoteSigOfLocal := lcss.localSigOfRemote } = lcss.reverse := by
        rw [hview]
        simp [LastCrossSignedState.reverse]
      rw [hrev]
      exact hcross.host
    · exact passes_handleStateUpdate hd hs hne hrep hcount hday hn hverify hlcss hroom o ho
  · intro m o hm
    exact (surely_ignores (E := fun x => ∃ n, x = o n) hd hs hm).run fun n => ⟨n, rfl⟩

/-- The client adds an HTLC, and the host pays an invoice of the client. -/
def crossedScript : List (World → Op) := addedScript ++ [hostPays 5]

/-- The two updates as each party has seen them, if these are all there are. -/
def crossedUpdates (d : ChannelData) : Option (UpdateAddHtlc × UpdateAddHtlc) :=
  match d.uncommitted with
  | [.ofRemote (.add a), .ofLocal (.add b)] => some (a, b)
  | _ => none

theorem crossedUpdates_eq {a b : UpdateAddHtlc} (h : crossedUpdates d = some (a, b)) :
    d.uncommitted = [.ofRemote (.add a), .ofLocal (.add b)] := by
  unfold crossedUpdates at h
  split at h
  · rename_i hu
    cases h
    exact hu
  · cases h

/-- The client commits to both, having seen the host's first. -/
theorem honest_commit_accepted_crossed : ∃ d signed lcss, (calmRun .transparent crossedScript).channel openPeer = some d ∧
    d.uncommitted ≠ [] ∧ CrossSigned .transparent openPeer lcss ∧ Extended (Prog.run exec (fun _ => .calm)
      (handleStateUpdate .transparent openPeer (LastCrossSignedState.stateUpdate signed)).run
      (calmRun .transparent crossedScript)).2 openPeer (d.committed lcss) := by
  have hrun : ((calmRun .transparent crossedScript).channel openPeer).any (fun d => (crossedUpdates d).any fun r =>
      decide (deriveStatus d = .active ∧ d.lcss.incomingHtlcs = [] ∧ d.lcss.outgoingHtlcs = []) &&
      (((calmRun .transparent crossedScript).store .ledger).lookup (calmRun .transparent crossedScript).nextLedgerSeq).isNone &&
      (((calmRun .transparent crossedScript).store .ledger).lookup
        ((calmRun .transparent crossedScript).nextLedgerSeq + 1)).isNone &&
      (d.next .transparent).toBool &&
      (StateManager.lcssNext .transparent ⟨d.lcss.reverse,
        [UncommittedUpdate.ofLocal (.add r.2), .ofRemote (.add r.1)].map UncommittedUpdate.swap⟩).toOption.any fun client =>
          ({ client with blockDay := 6 }.sign .transparent openKey).toBool) = true := by
    decide +kernel
  obtain ⟨d, hd, hrun⟩ := exists_of_any hrun
  obtain ⟨⟨a, b⟩, hu, hrun⟩ := exists_of_any hrun
  have hu := crossedUpdates_eq hu
  simp only [Bool.and_eq_true, decide_eq_true_eq, Option.isNone_iff_eq_none] at hrun
  obtain ⟨⟨⟨⟨⟨hs, hin, hout⟩, hfree₀⟩, hfree₁⟩, hnext⟩, hrun⟩ := hrun
  generalize calmRun .transparent crossedScript = w at hd hfree₀ hfree₁ ⊢
  obtain ⟨next, hnext⟩ := exists_eq_ok hnext
  obtain ⟨client, hclient, hsigned⟩ := exists_of_any hrun
  obtain ⟨signed, hsigned⟩ := exists_eq_ok hsigned
  have hroom : w.LedgerRoom d.uncommitted.length := by
    rw [hu]
    refine ⟨(by simp), fun i hi => ?_⟩
    rcases (show i = 0 ∨ i = 1 by simp at hi; omega) with rfl | rfl
    · simpa using hfree₀
    · simpa using hfree₁
  have hclient : StateManager.lcssNext Crypto.transparent ⟨d.lcss.reverse,
      [UncommittedUpdate.ofLocal (.add b), .ofRemote (.add a)].map UncommittedUpdate.swap⟩ = .ok client := by
    cases hc : StateManager.lcssNext Crypto.transparent ⟨d.lcss.reverse,
      [UncommittedUpdate.ofLocal (.add b), .ofRemote (.add a)].map UncommittedUpdate.swap⟩ with
    | error e =>
      rw [hc] at hclient
      cases hclient
    | ok c =>
      rw [hc] at hclient
      rw [Option.some.inj hclient]
  obtain ⟨lcss, -, hcross, -, -, hend⟩ := (honest_commit_accepted .transparent w openPeer d transparent_signsSoundly hd hs).1
    [.add b] [.add a] [.ofLocal (.add b), .ofRemote (.add a)] next client signed openKey 1000 (fun _ => .calm)
    (by simp [hu]) (by rw [hu]; exact List.nodup_nil) (by simp [hin, addsOf]) (by simp [hout, addsOf])
    (by rw [hu]; exact .ofRemote _ (.ofLocal _ .nil)) (.ofLocal _ (.ofRemote _ .nil)) hnext hclient
    (fun hash => (transparent_verify hash _ _).mpr rfl) hsigned hroom fun _ => ⟨rfl, rfl⟩
  exact ⟨d, signed, lcss, hd, by simp [hu], hcross, hend⟩

end Canopus
