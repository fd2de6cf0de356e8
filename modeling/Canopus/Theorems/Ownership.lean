import Canopus.Theorems.Records
import Canopus.Transparent

/-! Ownership of forward links. An HTLC that leaves by the node is recorded under the outgoing channel and
    the id that it has in its source channel, so HTLCs of two clients can fall on one key; the second of
    them then goes out under the link of the first. Where a key is never taken already, and hosted short
    channel ids stay apart, each HTLC on its way has a link of its own, and the result of its payment
    touches no other. -/

namespace Canopus
open Effect Fallible

variable {H : Host} {G : Guard} {K : Ctx} {w w' : World} {p q : PublicKey} {d : ChannelData} {act : Act} {k : HtlcKey}
  {l : ForwardLink} {e e' : Outstanding} {id : UInt64}

/-- The key of the link of a forwarded HTLC, which is also the label of its payment. -/
def Outstanding.label (e : Outstanding) : HtlcKey := (e.outgoingScid, e.htlc.id)

/-- The link records the HTLC `htlc` of `p`'s channel. -/
structure ForwardLink.RecordsHtlc (l : ForwardLink) (H : Host) (p : PublicKey) (htlc : UpdateAddHtlc) : Prop where
  scid : l.incomingScid = H.scid p
  id : l.incomingHtlcId = htlc.id
  hash : l.paymentHash = htlc.paymentHash

/-- The links record the same HTLC. -/
def ForwardLink.SameSource (l l' : ForwardLink) : Prop :=
  l.incomingScid = l'.incomingScid ∧ l.incomingHtlcId = l'.incomingHtlcId ∧ l.paymentHash = l'.paymentHash

instance (l l' : ForwardLink) : Decidable (l.SameSource l') := inferInstanceAs (Decidable (_ ∧ _))

/-- Runs in which the key of an HTLC that leaves by the node is free or holds a link of the same HTLC, and
    a new channel has a short channel id that neither another channel nor a stored link has. -/
def Guard.owning (H : Host) : Guard where
  op _ _ := True
  record w p _ := w.channel p = none → (∀ q ∈ w.peers, H.scid q ≠ H.scid p) ∧ ∀ k ∈ w.linkKeys, k.1 ≠ H.scid p
  link w k l := l.hostedCommitDeadlineUnix = none → ∀ l' ∈ w.link k, l'.SameSource l

/-- The invariant of the runs. -/
structure Owning (H : Host) (w : World) : Prop where
  scids : ∀ p q, (w.channel p).isSome → (w.channel q).isSome → H.scid p = H.scid q → p = q
  keyed : ∀ k l, w.link k = some l → k = (l.outgoingScid, l.outgoingHtlcId)
  pending : ∀ e ∈ w.outstanding, w.unresolved e = true
  away : ∀ e ∈ w.outstanding, ∀ q, (w.channel q).isSome → H.scid q ≠ e.outgoingScid
  own : ∀ e ∈ w.outstanding, ∃ l, w.link e.label = some l ∧ l.RecordsHtlc H e.source e.htlc

/-! ### HTLCs on their way -/

theorem unresolved_iff : w.unresolved e = true ↔
    ∃ d, w.channel e.source = some d ∧ e.htlc ∈ d.lcss.incomingHtlcs ∧ hasUncommittedLocalResolution d e.htlc.id = false := by
  unfold World.unresolved
  cases hd : w.channel e.source with
  | none => simp
  | some d => simp

/-- An HTLC that is on its way is not settled. -/
theorem not_settled_of_unresolved (h : w.unresolved e = true) : ¬ Settled w e.source e.htlc.id := by
  intro hs
  obtain ⟨d, hd, hmem, hno⟩ := unresolved_iff.mp h
  obtain ⟨d', hd', hs⟩ := hs
  obtain rfl := Option.some.inj (hd'.symm.trans hd)
  rcases hs with hs | hs
  · have hany : d'.lcss.incomingHtlcs.any (·.id == e.htlc.id) = true :=
      List.any_eq_true.mpr ⟨e.htlc, hmem, by simp⟩
    cases hs.symm.trans hany
  · cases hs.symm.trans hno

theorem unresolved_of_channels (h : ∀ q, w'.channel q = w.channel q) : w'.unresolved e = w.unresolved e := by
  unfold World.unresolved
  rw [h]

/-- The HTLCs on their way after a step: those of before, or one that has just been sent under its link. -/
theorem Step.outstanding (hs : Step K act w w') (he : e ∈ w'.outstanding) :
    e ∈ w.outstanding ∨
    (∃ l, LinkAt K.guard w e.label l ∧ l.hostedCommitDeadlineUnix = none ∧ l.RecordsHtlc K.host e.source e.htlc) ∧
      (∀ q, (w.channel q).isSome → K.host.scid q ≠ e.outgoingScid) ∧
      (∀ q, w'.channel q = w.channel q) ∧ ∀ k, w'.link k = w.link k := by
  cases hs with
  | @forwarded _ p htlc params l hl hd hscid hid hhash _ hq =>
    have hmem := (List.mem_filter.mp he).1
    rcases List.mem_append.mp hmem with hmem | hmem
    · exact Or.inl hmem
    · rw [List.mem_singleton] at hmem
      subst hmem
      exact Or.inr ⟨⟨l, hl, hd, ⟨hscid, hid, hhash⟩⟩, hq, fun _ => rfl, fun _ => rfl⟩
  | signed | answered | sent | stored => exact Or.inl he
  | offered => exact Or.inl (List.mem_filter.mp (List.mem_filter.mp he).1).1
  | quiet h => exact Or.inl (h.outstanding e he)
  | _ => exact Or.inl (List.mem_filter.mp he).1

/-- Whatever has been resolved is taken off the list. -/
theorem Step.pending (hs : Step K act w w') (h : ∀ e ∈ w.outstanding, w.unresolved e = true) (he : e ∈ w'.outstanding) :
    w'.unresolved e = true := by
  cases hs with
  | signed | answered | sent | stored => exact h e he
  | quiet hq =>
    rw [unresolved_of_channels hq.channel]
    exact h e (hq.outstanding e he)
  | _ => exact (List.mem_filter.mp he).2

/-- A channel with the short channel id of the source is the source, and it has not settled the HTLC. -/
theorem Owning.not_settled (h : Owning H w) (he : e ∈ w.outstanding) (hq : H.scid q = H.scid e.source) :
    ¬ Settled w q e.htlc.id := by
  intro hs
  have hopen := h.pending e he
  obtain ⟨d, hd, -⟩ := unresolved_iff.mp hopen
  have hsome : (w.channel e.source).isSome := by
    rw [hd]
    rfl
  obtain ⟨d', hd', -⟩ := id hs
  obtain rfl := h.scids q e.source (by rw [hd']; rfl) hsome hq
  exact not_settled_of_unresolved hopen hs

/-- The link at a key, as the guard leaves it when another one is asked for. -/
theorem LinkAt.same (h : LinkAt (Guard.owning H) w k l) (hd : l.hostedCommitDeadlineUnix = none) :
    ∃ l', w.link k = some l' ∧ l'.SameSource l := by
  rcases h with h | ⟨w₀, hg, heq, hsome⟩
  · exact ⟨l, h, rfl, rfl, rfl⟩
  · obtain ⟨l', hl'⟩ := Option.isSome_iff_exists.mp hsome
    exact ⟨l', hl', hg hd l' (heq.trans hl')⟩

/-- The link of an HTLC that is on its way is not deleted. -/
theorem Owning.not_dropped (h : Owning H w) (he : e ∈ w.outstanding) : ¬ Drops H (Guard.owning H) w e.label := by
  obtain ⟨l, hl, hrec⟩ := h.own e he
  intro hdrop
  cases hdrop with
  | @answered l' hl' ha =>
    obtain rfl := Option.some.inj (hl'.symm.trans hl)
    rcases ha with hnone | ⟨q, hq, hs⟩
    · obtain ⟨d, hd, -⟩ := unresolved_iff.mp (h.pending e he)
      exact hnone e.source (by rw [hd]; rfl) hrec.scid.symm
    · rw [hrec.id] at hs
      exact h.not_settled he (hq.trans hrec.scid) hs
  | @undone k₀ l' q hl' hk hq hs =>
    rw [← h.keyed k₀ l' hl'] at hk
    subst hk
    obtain rfl := Option.some.inj (hl'.symm.trans hl)
    rw [hrec.id] at hs
    exact h.not_settled he (hq.trans hrec.scid) hs
  | @refused l' q hl' hd hq hs =>
    obtain ⟨l'', hl'', hscid, hid, -⟩ := hl'.same hd
    obtain rfl := Option.some.inj (hl''.symm.trans hl)
    rw [← hid, hrec.id] at hs
    exact h.not_settled he ((hq.trans hscid.symm).trans hrec.scid) hs
  | closing hq hk => exact h.away e he _ hq hk.symm

/-! ### Runs -/

theorem owning_empty (H : Host) : Owning H World.empty where
  scids p q hp := by cases hp
  keyed k l hl := by cases hl
  pending e he := by cases he
  away e he := by cases he
  own e he := by cases he

theorem Owning.step (hG : K.guard = Guard.owning K.host) (hs : Step K act w w') (h : Owning K.host w) :
    Owning K.host w' := by
  -- A channel that the step creates keeps off the others and off the links.
  have hnew : (∀ q, (w'.channel q).isSome → (w.channel q).isSome) ∨
      ∃ p, (∀ q, (w'.channel q).isSome → q = p ∨ (w.channel q).isSome) ∧
        (∀ q, (w.channel q).isSome → K.host.scid q ≠ K.host.scid p) ∧
        ∀ k, (w.link k).isSome → k.1 ≠ K.host.scid p := by
    rcases hs.newcomer with hold | ⟨p, d, hg, hp⟩
    · exact Or.inl hold
    · cases hd : w.channel p with
      | some d₀ =>
        left
        intro q hq
        rcases hp q hq with rfl | hq
        · rw [hd]
          rfl
        · exact hq
      | none =>
        rw [hG] at hg
        obtain ⟨hpeers, hkeys⟩ := hg hd
        exact Or.inr ⟨p, hp, fun q hq => hpeers q (World.mem_peers.mpr hq), fun k hk => hkeys k (World.mem_linkKeys.mpr hk)⟩
  constructor
  case scids =>
    intro p q hp hq he
    rcases hnew with hold | ⟨r, hr, hpeers, -⟩
    · exact h.scids p q (hold p hp) (hold q hq) he
    · rcases hr p hp with rfl | hp₀
      · rcases hr q hq with rfl | hq₀
        · rfl
        · exact absurd he.symm (hpeers q hq₀)
      · rcases hr q hq with rfl | hq₀
        · exact absurd he (hpeers p hp₀)
        · exact h.scids p q hp₀ hq₀ he
  case keyed =>
    intro k l hl
    cases hs.link with
    | same he => exact h.keyed k l (he k ▸ hl)
    | linked _ _ _ _ he =>
      rw [he] at hl
      split at hl
      · rename_i hk
        obtain rfl := Option.some.inj hl
        exact hk
      · exact h.keyed k l hl
    | unlinked _ he =>
      rw [he] at hl
      split at hl
      · cases hl
      · exact h.keyed k l hl
  case pending =>
    intro e he
    exact hs.pending h.pending he
  case away =>
    intro e he q hq
    rcases hs.outstanding he with he₀ | ⟨-, haway, hsame, -⟩
    · rcases hnew with hold | ⟨r, hr, -, hkeys⟩
      · exact h.away e he₀ q (hold q hq)
      · rcases hr q hq with rfl | hq₀
        · obtain ⟨l, hl, -⟩ := h.own e he₀
          exact fun heq => hkeys e.label (by rw [hl]; rfl) heq.symm
        · exact h.away e he₀ q hq₀
    · exact haway q (hsame q ▸ hq)
  case own =>
    intro e he
    rcases hs.outstanding he with he₀ | ⟨⟨l, hl, hd, hrec⟩, -, -, hsame⟩
    · obtain ⟨l, hl, hrec⟩ := h.own e he₀
      refine ⟨l, ?_, hrec⟩
      cases hs.link with
      | same hk => exact (hk _).trans hl
      | @linked new _ _ hn _ hk =>
        have hne : e.label ≠ (new.outgoingScid, new.outgoingHtlcId) := by
          intro heq
          rw [heq, hn] at hl
          cases hl
        rw [hk, if_neg hne]
        exact hl
      | @unlinked k₀ hdrop hk =>
        have hne : e.label ≠ k₀ := by
          intro heq
          rw [hG, ← heq] at hdrop
          exact h.not_dropped he₀ hdrop
        rw [hk, if_neg hne]
        exact hl
    · rw [hG] at hl
      obtain ⟨l', hl', hscid, hid, hhash⟩ := hl.same hd
      exact ⟨l', (hsame _).trans hl', hscid.trans hrec.scid, hid.trans hrec.id, hhash.trans hrec.hash⟩

theorem Reachable.owning (hw : Reachable H (Guard.owning H) w) : Owning H w := by
  refine hw.keeps (owning_empty H) ?_
  intro K act w w' hK hG _ _ _ hs h
  subst hK
  exact Owning.step hG hs h

/-! ### Payment results -/

/-- No record has changed. -/
def SameChannels (w w' : World) : Prop := ∀ q, w'.channel q = w.channel q

instance : IsPreorder World SameChannels where
  refl _ _ := rfl
  trans _ _ _ h h' q := (h' q).trans (h q)

variable {α : Type} {x : Ctl α} {P : ChannelData → Prop} {A : Choice → World → Call → Prop}

theorem Bookless.sameChannels (h : Bookless x) : Stays exec SameChannels x := Stays.weaken h fun _ _ hq => hq.channel

theorem SameChannels.does (h : Stays exec SameChannels x) :
    Does exec A (RecordStep q P) (fun _ => True) x w fun _ w' => SameChannels w w' :=
  Stays.does h fun _ hs => RecordStep.same (hs q)

theorem sameChannels_stateUpdate (H : Host) (p : PublicKey) (d : ChannelData) :
    Stays exec SameChannels (stateUpdateForUncommitted H p d) := by
  have hsign : ∀ s, Stays exec SameChannels (signFor H p s) := by
    intro s
    refine (Reading.liftEncode _).silent.bookless.sameChannels.bind fun t => ?_
    exact (Stays.ask fun _ _ _ => rfl).bind fun _ => Stays.pure _
  refine Stays.bind ?_ fun _ => Stays.pure _
  refine (Reading.liftState _).silent.bookless.sameChannels.bind fun next => ?_
  exact Reading.currentBlockDay.silent.bookless.sameChannels.bind fun _ => hsign _

theorem sameChannels_dropForwardLink (k : HtlcKey) : Stays exec SameChannels (dropForwardLink k) := by
  refine (Stays.ask fun x w q => ?_).bind fun _ => Stays.pure _
  simp only [exec, backendError]
  split
  · rfl
  · exact World.channel_erase_link

/-- Resolving an HTLC of `p` leaves the record of `q` as it is, or it adds the resolution to it. -/
theorem does_sendLocalResolution_record {u : PendingUpdate} {msg : HostedMessage} (hd : w.channel q = some d)
    (hP : p = q → P (d.push (.ofLocal u))) :
    Does exec A (RecordStep q P) (fun _ => True) (sendLocalResolution H p id u msg) w fun _ _ => True := by
  unfold sendLocalResolution
  refine Does.bind does_loadExisting ?_
  intro d₀ w₀ h₀
  obtain ⟨rfl, hd₀⟩ := h₀
  split
  · exact Does.pure trivial
  · dsimp only
    refine Does.bind (SameChannels.does (sameChannels_stateUpdate H p _)) fun _ w₁ h₁ => ?_
    have hpushed : p = q → P (d₀.push (.ofLocal u)) := by
      rintro rfl
      obtain rfl := Option.some.inj (hd₀.symm.trans hd)
      exact hP rfl
    refine Does.bind (does_saveChannel_record hpushed) fun _ _ _ => ?_
    refine Does.bind (Bookless.sendMessage p msg).does_record fun _ _ _ => ?_
    exact (Bookless.sendMessage p _).does_record.post fun _ _ _ => trivial

/-- What a payment result may do to the record `d` of `q`: resolve the HTLC that the link names, if it
    names one of `q`. -/
def ResolvedBy (H : Host) (l : ForwardLink) (q : PublicKey) (d d' : ChannelData) : Prop :=
  H.scid q = l.incomingScid ∧
    ∃ u, d' = d.push (.ofLocal u) ∧ resolutionKey (.ofLocal u) = some (true, l.incomingHtlcId)

theorem does_paymentResult_record {scid : UInt64} {status : PaymentStatus} (hl : w.link (scid, id) = some l)
    (hd : w.channel q = some d) :
    Does exec A (RecordStep q (ResolvedBy H l q d)) (fun _ => True) (handleOutgoingPaymentResult H scid id status) w
      fun _ _ => True := by
  unfold handleOutgoingPaymentResult withForwardLink
  refine Does.bind does_getJson ?_
  intro r w₀ hr
  obtain ⟨rfl, hok, -⟩ := hr
  rcases r with e | ⟨l', g⟩
  · cases e with
    | notFound => exact Does.pure trivial
    | _ => exact Does.throw
  · obtain rfl := Option.some.inj ((Table.value?_of_entry (hok l' g rfl)).symm.trans hl)
    refine Does.bind does_peerForHostedScid ?_
    intro found w₁ hfound
    obtain ⟨rfl, hsome, -⟩ := hfound
    rcases found with - | p
    · exact Does.pure trivial
    · have hscid := (hsome p rfl).2
      have hresolved : ∀ u, resolutionKey (.ofLocal u) = some (true, l'.incomingHtlcId) → p = q →
          ResolvedBy H l' q d (d.push (.ofLocal u)) := by
        intro u hu hpq
        subst hpq
        exact ⟨hscid, u, rfl, hu⟩
      have hdrop : ∀ v, Does exec A (RecordStep q (ResolvedBy H l' q d)) (fun _ => True) (dropForwardLink (scid, id)) v
          fun _ _ => True := fun v => (SameChannels.does (sameChannels_dropForwardLink _)).post fun _ _ _ => trivial
      cases status with
      | succeeded preimage =>
        refine Does.bind (Bookless.storePreimage _ preimage).does_record fun _ w₂ h₂ => ?_
        refine Does.bind (Reading.liftNode _).does ?_
        intro _ w₃ h₃
        subst h₃
        refine Does.bind (does_sendLocalResolution_record (h₂.trans hd) (hresolved _ rfl)) fun _ w₄ _ => hdrop w₄
      | failed onion =>
        exact Does.bind (does_sendLocalResolution_record hd (hresolved _ rfl)) fun _ w₂ _ => hdrop w₂
      | pending => exact Does.pure trivial
      | unknown => exact Does.pure trivial

/-- The result of the payment of one HTLC leaves the others unresolved. -/
theorem Owning.paymentResult (h : Owning H w) (he : e ∈ w.outstanding) (he' : e' ∈ w.outstanding)
    (hne : e.source ≠ e'.source ∨ e.htlc.id ≠ e'.htlc.id) (status : PaymentStatus) (o : Nat → Choice) :
    ((Op.paymentResult e.outgoingScid e.htlc.id status).next H o w).unresolved e' = true := by
  obtain ⟨l, hl, hrec⟩ := h.own e he
  obtain ⟨d, hd, hmem, hno⟩ := unresolved_iff.mp (h.pending e' he')
  have hdoes : Does exec (fun _ _ _ => True) (RecordStep e'.source (ResolvedBy H l e'.source d)) (fun _ => True)
      (handleOutgoingPaymentResult H e.outgoingScid e.htlc.id status) w fun _ _ => True :=
    does_paymentResult_record hl hd
  rcases RecordStep.trace (Does.run (o := o) hdoes (Prog.kept_of_forall fun _ _ _ => trivial)) with hsame | ⟨d', hd', hscid, u, rfl, hu⟩
  · exact unresolved_iff.mpr ⟨d, hsame.trans hd, hmem, hno⟩
  · -- The link is that of `e`, so it names another HTLC of the same channel.
    obtain ⟨d₀, hd₀, -⟩ := unresolved_iff.mp (h.pending e he)
    have hsource : e.source = e'.source :=
      h.scids e.source e'.source (by rw [hd₀]; rfl) (by rw [hd]; rfl) (hrec.scid.symm.trans hscid.symm)
    have hids : l.incomingHtlcId ≠ e'.htlc.id := by
      rw [hrec.id]
      exact hne.resolve_left fun hn => hn hsource
    refine unresolved_iff.mpr ⟨_, hd', hmem, ?_⟩
    rw [hasUncommittedLocalResolution_push_ne hu hids]
    exact hno

/-- In every such run, each HTLC on its way has a link under its label that records it, two of them have
    two links, and the result of the payment of one resolves no other. -/
theorem forwarded_htlcs_own_links (H : Host) (w : World) (hw : Reachable H (Guard.owning H) w) :
    (∀ e ∈ w.outstanding, ∃ l, w.link e.label = some l ∧ l.RecordsHtlc H e.source e.htlc) ∧
    ∀ e ∈ w.outstanding, ∀ e' ∈ w.outstanding, (e.source ≠ e'.source ∨ e.htlc.id ≠ e'.htlc.id) →
      e.label ≠ e'.label ∧ w.link e.label ≠ w.link e'.label ∧
      ∀ status o, ((Op.paymentResult e.outgoingScid e.htlc.id status).next H o w).unresolved e' = true := by
  have h := hw.owning
  refine ⟨h.own, ?_⟩
  intro e he e' he' hne
  have hlinks : w.link e.label ≠ w.link e'.label := by
    intro heq
    obtain ⟨l, hl, hrec⟩ := h.own e he
    obtain ⟨l', hl', hrec'⟩ := h.own e' he'
    obtain rfl := Option.some.inj ((hl.symm.trans heq).trans hl')
    obtain ⟨d, hd, -⟩ := unresolved_iff.mp (h.pending e he)
    obtain ⟨d', hd', -⟩ := unresolved_iff.mp (h.pending e' he')
    have hsource : e.source = e'.source :=
      h.scids e.source e'.source (by rw [hd]; rfl) (by rw [hd']; rfl) (hrec.scid.symm.trans hrec'.scid)
    rcases hne with hne | hne
    · exact hne hsource
    · exact hne (hrec.id.symm.trans hrec'.id)
  exact ⟨fun heq => hlinks (by rw [heq]), hlinks, h.paymentResult he he' hne⟩

/-! ### Two HTLCs on one key -/

instance (w : World) (op : Op) : Decidable ((Guard.owning H).op w op) := inferInstanceAs (Decidable True)

instance (w : World) (p : PublicKey) (d : ChannelData) : Decidable ((Guard.owning H).record w p d) :=
  have : Decidable (∀ q ∈ w.peers, H.scid q ≠ H.scid p) := List.decidableBAll _ _
  have : Decidable (∀ k ∈ w.linkKeys, k.1 ≠ H.scid p) := List.decidableBAll _ _
  inferInstanceAs (Decidable (w.channel p = none → _))

instance (w : World) (k : HtlcKey) (l : ForwardLink) : Decidable ((Guard.owning H).link w k l) :=
  inferInstanceAs (Decidable (_ → ∀ l' ∈ w.link k, _))

/-- Two clients each send an HTLC out by the channel 77; the second one has the given id. -/
def forwardScript (id : UInt64) : List (World → Op) := openScript ++ [
  clientInvokes .transparent otherKey, clientCommits .transparent otherKey,
  clientAdds openKey 1 1000 (ByteVec.fill 32 3) 77, clientCommits .transparent openKey,
  clientAdds otherKey id 2000 (ByteVec.fill 32 4) 77, clientCommits .transparent otherKey]

theorem forwarded_htlcs_own_links_apart : ∃ e ∈ (calmRun .transparent (forwardScript 2)).outstanding,
    ∃ e' ∈ (calmRun .transparent (forwardScript 2)).outstanding, e.source ≠ e'.source ∧
      (calmRun .transparent (forwardScript 2)).link e.label ≠ (calmRun .transparent (forwardScript 2)).link e'.label := by
  have hrun : ∃ e ∈ (calmRun .transparent (forwardScript 2)).outstanding,
      ∃ e' ∈ (calmRun .transparent (forwardScript 2)).outstanding, e.source ≠ e'.source := by
    decide +kernel
  have hfollows : (Guard.owning .transparent).follows .transparent World.empty (forwardScript 2) = true := by
    decide +kernel
  obtain ⟨e, he, e', he', hne⟩ := hrun
  refine ⟨e, he, e', he', hne, ?_⟩
  exact ((forwarded_htlcs_own_links .transparent _ (calmRun_follows (Guard.follows_sound hfollows))).2 e he e' he' (Or.inl hne)).2.1

/-- With the same id the second HTLC goes out although its key holds the link of the first. -/
theorem forwarded_htlcs_share_link : ¬ ∀ (H : Host) (w : World), Reachable H Guard.free w →
    ∀ e ∈ w.outstanding, ∃ l, w.link e.label = some l ∧ l.RecordsHtlc H e.source e.htlc := by
  intro hall
  have hrun : ∃ e ∈ (calmRun .transparent (forwardScript 1)).outstanding,
      ((calmRun .transparent (forwardScript 1)).link e.label).any
        (fun l => decide (l.incomingScid ≠ Host.transparent.scid e.source)) = true := by
    decide +kernel
  obtain ⟨e, he, hlink⟩ := hrun
  obtain ⟨l, hl, hne⟩ := exists_of_any hlink
  obtain ⟨l', hl', hrec⟩ := hall .transparent _ (calmRun_reachable _ (forwardScript 1)) e he
  obtain rfl := Option.some.inj (hl.symm.trans hl')
  exact of_decide_eq_true hne hrec.scid

end Canopus
