import Canopus.Theorems.HandlerSteps
import Canopus.Transparent

/-! How much a forwarded HTLC may carry. Dispatching a committed HTLC of a client compares what the onion
    asks for with what came in; the `htlc_accepted` hook does not, so there the sender of the onion can
    have the host offer more than it receives. -/

namespace Canopus
open Effect Fallible

variable {H : Host} {K : Ctx} {w w' : World} {peer q : PublicKey} {d : ChannelData} {a : HtlcAccepted} {amount : UInt64}
  {α : Type} {A : Choice → World → Call → Prop} {L : Type} {step : L → World → World → Prop} {S : L → Prop}

/-! ### Dispatching -/

/-- What dispatching does, with every HTLC it offers to a client of at most `amount`. -/
def Act.covered (amount : UInt64) : Act → Prop
  | .wrote _ (.added htlc) => htlc.amountMsat ≤ amount
  | .wrote _ (.errored _) | .wrote _ (.resolved _) => True
  | .linked | .unlinked | .forwarded | .signed | .answered | .sent | .stored | .quiet => True
  | _ => False

instance : Mild (Act.covered amount) := ⟨trivial, trivial, trivial, trivial, trivial⟩

instance : Steady (Act.covered amount) := ⟨trivial, trivial, trivial, fun _ _ => trivial⟩

/-- The updates are some of the first of `old`, followed by others whose additions are of at most `amount`. -/
def Within (amount : UInt64) (old new : List UncommittedUpdate) : Prop :=
  ∃ kept more, kept <+: old ∧ new = kept ++ more ∧ ∀ htlc, .ofLocal (.add htlc) ∈ more → htlc.amountMsat ≤ amount

theorem Within.refl (us : List UncommittedUpdate) : Within amount us us :=
  ⟨us, [], List.prefix_refl us, by simp, by simp⟩

theorem Within.push {us vs : List UncommittedUpdate} {u : UncommittedUpdate} (h : Within amount us vs)
    (hu : ∀ htlc, u = .ofLocal (.add htlc) → htlc.amountMsat ≤ amount) : Within amount us (vs ++ [u]) := by
  obtain ⟨kept, more, hk, rfl, hm⟩ := h
  refine ⟨kept, more ++ [u], hk, by simp, ?_⟩
  intro htlc hmem
  rcases List.mem_append.mp hmem with hmem | hmem
  · exact hm htlc hmem
  · exact hu htlc (List.mem_singleton.mp hmem).symm

theorem Within.of_prefix {us vs vs' : List UncommittedUpdate} (h : Within amount us vs) (hp : vs' <+: vs) :
    Within amount us vs' := by
  obtain ⟨kept, more, hk, rfl, hm⟩ := h
  rcases List.prefix_or_prefix_of_prefix hp (List.prefix_append kept more) with hp' | ⟨t, rfl⟩
  · exact ⟨vs', [], hp'.trans hk, by simp, by simp⟩
  · have ht : t <+: more := (List.prefix_append_right_inj kept).mp hp
    exact ⟨kept, t, hk, rfl, fun htlc hmem => hm htlc (ht.subset hmem)⟩

/-- Every addition and every onion that is new since `w` is covered: an addition by `amount`, an onion by
    the HTLC that it forwards. -/
structure Covered (amount : UInt64) (w w' : World) : Prop where
  additions : ∀ q d', w'.channel q = some d' → ∃ d, w.channel q = some d ∧ Within amount d.uncommitted d'.uncommitted
  onions : ∀ x ∈ w'.onions, x ∈ w.onions ∨ x.params.firstAmountMsat ≤ x.htlc.amountMsat

theorem Covered.refl (w : World) : Covered amount w w where
  additions _ d' hd' := ⟨d', hd', .refl _⟩
  onions _ hx := Or.inl hx

theorem Covered.of_channels {v v' : World} (h : Covered amount w v) (hc : ∀ q, v'.channel q = v.channel q)
    (ho : v'.onions = v.onions) : Covered amount w v' where
  additions q d' hd' := h.additions q d' (hc q ▸ hd')
  onions x hx := h.onions x (ho ▸ hx)

theorem Covered.put {v : World} {d d' : ChannelData} (h : Covered amount w v) (hd : v.channel q = some d)
    (hw : ∀ us, Within amount us d.uncommitted → Within amount us d'.uncommitted) :
    Covered amount w (v.put .channels q d') where
  additions p e he := by
    by_cases hp : p = q
    · subst hp
      obtain rfl : d' = e := Option.some.inj (World.channel_put.symm.trans he)
      obtain ⟨d₀, hd₀, hus⟩ := h.additions p d hd
      exact ⟨d₀, hd₀, hw _ hus⟩
    · rw [World.channel_put_ne hp] at he
      exact h.additions p e he
  onions := h.onions

theorem Covered.of_step {act : Act} {v v' : World} (hs : Step K act v v') (ha : act.covered amount)
    (h : Covered amount w v) : Covered amount w v' := by
  cases hs with
  | created | removed | secretAdded | secretConsumed | secretRemoved | policyChanged => exact ha.elim
  | wrote hd hc =>
    cases hc with
    | added => exact h.put hd fun us hus => hus.push (by rintro _ ⟨⟩; exact ha)
    | resolved _ hk => exact h.put hd fun us hus => hus.push (by rintro _ ⟨⟩; cases hk)
    | errored _ hx => exact h.put hd fun us hus => hus.of_prefix (by rw [hx]; exact List.prefix_append _ _)
    | _ => exact ha.elim
  | @offered _ _ _ _ _ l hd hc =>
    have hlinked : Covered amount w (v.put .htlcForwards (l.outgoingScid, l.outgoingHtlcId) l) :=
      h.of_channels (fun _ => World.channel_put_link) rfl
    cases hc with
    | added => exact hlinked.put (World.channel_put_link.trans hd) fun us hus => hus.push (by rintro _ ⟨⟩; exact ha)
  | linked => exact h.of_channels (fun _ => World.channel_put_link) rfl
  | unlinked => exact h.of_channels (fun _ => World.channel_erase_link) rfl
  | forwarded _ _ _ _ _ hamt =>
    refine ⟨h.additions, fun x hx => ?_⟩
    rcases List.mem_append.mp hx with hx | hx
    · exact h.onions x hx
    · rw [List.mem_singleton.mp hx]
      exact Or.inr hamt
  | signed | answered | sent | stored => exact h.of_channels (fun _ => rfl) rfl
  | quiet hq => exact h.of_channels hq.channel hq.onions

/-- Whatever dispatching a committed HTLC forwards, to a client or to the network, the HTLC covers. -/
theorem dispatch_covered (H : Host) (w : World) (peer : PublicKey) (committed : ChannelData) (htlc : UpdateAddHtlc)
    (o : Nat → Choice) :
    Covered htlc.amountMsat w (Prog.run exec o (dispatchCommittedIncomingHtlc H peer committed htlc).run w).2 := by
  let K : Ctx := ⟨H, Guard.free, w, .htlcAccepted ⟨none, none, none, none, none, none, none, none, none, none⟩, fun _ _ _ => True⟩
  have hdoes : K.Does (Act.covered htlc.amountMsat) (dispatchCommittedIncomingHtlc H peer committed htlc) w fun _ _ => True :=
    does_dispatchCommittedIncomingHtlc (Or.inl ⟨_, rfl⟩) (fun _ h => by cases h) (fun _ _ _ hle => hle) fun _ _ _ => trivial
  refine (Does.run hdoes ?_).keeps (fun _ _ _ ha hs => Covered.of_step hs ha) (.refl w)
  exact Ctx.kept_assumes Guard.ofOp_allowed (Prog.kept_of_forall fun _ _ _ => trivial)

/-! ### The hook -/

/-- The channel of `peer` takes an HTLC that comes from the channel `scid`: it is active and not known to be away, the
    expiry of an HTLC from a normal channel leaves its CLTV delta, and the amount is within its limits. -/
structure Admits (H : Host) (w : World) (peer : PublicKey) (htlc : UpdateAddHtlc) (scid : UInt64)
    (expiry : Option UInt32) (d : ChannelData) : Prop where
  channel : w.channel peer = some d
  active : deriveStatus d = .active
  connected : w.peerConnections.lookup peer ≠ some false
  cltv : ∀ upstream, expiry = some upstream → (w.peers.find? (H.scid · == scid)).isNone = true → ∃ required,
    checkedAdd32 htlc.cltvExpiry (w.routing H d).cltvExpiryDelta.toUInt32 = some required ∧ required ≤ upstream
  minimum : d.lcss.initHostedChannel.htlcMinimumMsat ≤ htlc.amountMsat
  maximum : htlc.amountMsat ≤ (w.routing H d).htlcMaximumMsat
  room : ∃ next, d.next H = .ok next ∧ hasNoRoom d.lcss.initHostedChannel next htlc.amountMsat = false

/-- The channel of `peer` takes the HTLC of a request: it is active and not known to be away, the expiry of
    an HTLC from a normal channel leaves its CLTV delta, and the amount is within its limits. -/
structure Acceptable (H : Host) (w : World) (peer : PublicKey) (a : HtlcAccepted) (d : ChannelData) : Prop where
  channel : w.channel peer = some d
  active : deriveStatus d = .active
  connected : w.peerConnections.lookup peer ≠ some false
  cltv : (w.peers.find? (H.scid · == a.incomingScid)).isNone = true → ∃ required,
    checkedAdd32 a.htlc.cltvExpiry (w.routing H d).cltvExpiryDelta.toUInt32 = some required ∧
      required ≤ a.incomingCltvExpiry
  minimum : d.lcss.initHostedChannel.htlcMinimumMsat ≤ a.htlc.amountMsat
  maximum : a.htlc.amountMsat ≤ (w.routing H d).htlcMaximumMsat
  room : ∃ next, d.next H = .ok next ∧ hasNoRoom d.lcss.initHostedChannel next a.htlc.amountMsat = false

theorem acceptable_iff : Acceptable H w peer a d ↔
    Admits H w peer a.htlc a.incomingScid (some a.incomingCltvExpiry) d := by
  constructor
  · rintro ⟨hd, hs, hc, hcltv, hmin, hmax, hroom⟩
    exact ⟨hd, hs, hc, by rintro _ ⟨⟩; exact hcltv, hmin, hmax, hroom⟩
  · rintro ⟨hd, hs, hc, hcltv, hmin, hmax, hroom⟩
    exact ⟨hd, hs, hc, hcltv _ rfl, hmin, hmax, hroom⟩

/-- The record of `peer` has gained an HTLC of the given amount that the host offers. -/
def Offers (w w' : World) (peer : PublicKey) (amount : UInt64) : Prop :=
  ∃ d d' htlc, w.channel peer = some d ∧ w'.channel peer = some d' ∧
    d'.uncommitted = d.uncommitted ++ [.ofLocal (.add htlc)] ∧ htlc.amountMsat = amount

theorem does_cltvTooClose {normal : Bool} {expiry : Option UInt32} {cltv : UInt32} {delta : UInt16} :
    Does exec A step S (cltvTooClose normal expiry cltv delta) w fun close w' => w' = w ∧
      (close = false → ∀ upstream, expiry = some upstream → normal = true → ∃ required,
        checkedAdd32 cltv delta.toUInt32 = some required ∧ required ≤ upstream) := by
  unfold cltvTooClose
  split
  · split
    · refine Does.bind does_okOr ?_
      intro required _ hpost
      obtain ⟨rfl, hr⟩ := hpost
      refine Does.pure ⟨rfl, ?_⟩
      rintro hc _ ⟨⟩ -
      exact ⟨required, hr, UInt32.not_lt.mp (of_decide_eq_false hc)⟩
    · refine Does.pure ⟨rfl, ?_⟩
      rintro - _ ⟨⟩ hn
      exact absurd hn ‹_›
  · refine Does.pure ⟨rfl, ?_⟩
    rintro - _ ⟨⟩

section Record
variable {P : ChannelData → Prop}

theorem does_signNext_record {sm : StateManager} :
    Does exec A (RecordStep q P) (fun _ => True) (signNext H peer sm) w fun _ _ => True := by
  unfold signNext signFor
  refine Does.bind does_liftState fun next _ _ => ?_
  refine Does.bind Reading.currentBlockDay.does fun day _ _ => ?_
  refine Does.bind does_liftEncode fun t _ _ => ?_
  refine Does.bind (Does.ask (R := fun _ _ => True) fun _ _ => ⟨RecordStep.same rfl, trivial⟩) fun _ _ _ => ?_
  exact Does.pure trivial

/-- A message that cannot be delivered leaves the updates as they are. -/
theorem does_deliver_record {d' : ChannelData} {msg : HostedMessage}
    (hP : peer = q → ∀ e, e.uncommitted = d'.uncommitted → P e) :
    Does exec A (RecordStep q P) (fun _ => True) (deliver peer d' msg) w fun _ _ => True := by
  unfold deliver
  refine Does.bind (Stays.does (Stays.attempt (Bookless.sendMessage peer msg)) fun _ hq => RecordStep.same (hq.channel q)) ?_
  rintro r w' -
  rcases r with e | u
  · exact Does.bind (does_saveChannel_record fun hq => hP hq _ rfl) fun _ _ _ => Does.throw
  · exact Does.pure trivial

/-- Once the HTLC is persisted, it stays, whether or not it can be delivered. -/
theorem does_offerHtlc_record {htlc : UpdateAddHtlc} {scid id : UInt64} {secret : Option (ByteVec 32)}
    {expiry : Option UInt32} (hP : peer = q → ∀ e add, e.uncommitted = d.uncommitted ++ [.ofLocal (.add add)] →
      add.amountMsat = htlc.amountMsat → P e) :
    Does exec A (RecordStep q P) (fun _ => True) (offerHtlc H peer d htlc scid id secret expiry) w fun _ _ => True := by
  unfold offerHtlc
  dsimp only
  refine Does.bind Reading.hostedCommitDeadline.does fun deadline _ _ => ?_
  refine Does.bind does_createForwardLink_record fun _ _ _ => ?_
  refine Does.bind (does_saveChannel_record fun hq => hP hq _ _ rfl rfl) fun _ _ _ => ?_
  refine Does.bind (does_deliver_record fun hq e he => hP hq e _ he rfl) fun _ _ _ => ?_
  exact Does.bind does_signNext_record fun _ _ _ => does_deliver_record fun hq e he => hP hq e _ he rfl

/-- An HTLC leaves every record as it is, but for that of a channel that takes it. -/
theorem does_handleHtlcAdd_record {htlc : UpdateAddHtlc} {key : HtlcKey} {scid id : UInt64} {secret : Option (ByteVec 32)}
    {expiry : Option UInt32} (hP : peer = q → ∀ d, Admits H w peer htlc scid expiry d → ∀ e add,
      e.uncommitted = d.uncommitted ++ [.ofLocal (.add add)] → add.amountMsat = htlc.amountMsat → P e) :
    Does exec A (RecordStep q P) (fun _ => True) (channelHandleHtlcAddWithUpstreamExpiry H peer htlc key scid id secret
      expiry) w fun _ _ => True := by
  unfold channelHandleHtlcAddWithUpstreamExpiry
  refine Does.bind does_loadExisting ?_
  intro d _ hpost
  obtain ⟨rfl, hd⟩ := hpost
  split
  · exact Does.throw
  rename_i hactive
  refine Does.bind (does_read rfl) ?_
  intro connected _ hpost
  obtain ⟨rfl, x, hx⟩ := hpost
  split
  · exact (Bookless.resolveUpstream _ _).does_record.post fun _ _ _ => trivial
  rename_i hconnected
  refine Does.bind (reading_ask rfl).does ?_
  intro r _ hpost
  subst hpost
  split
  · exact (Bookless.resolveUpstream _ _).does_record.post fun _ _ _ => trivial
  unfold checkAndOffer
  dsimp only
  refine Does.bind does_routingPolicyForData ?_
  intro routing _ hpost
  obtain ⟨rfl, rfl⟩ := hpost
  refine Does.bind does_findPeer ?_
  intro source _ hpost
  obtain ⟨rfl, rfl⟩ := hpost
  refine Does.bind does_cltvTooClose ?_
  intro close _ hpost
  obtain ⟨rfl, hclose⟩ := hpost
  split
  · exact (Bookless.resolveUpstream _ _).does_record.post fun _ _ _ => trivial
  rename_i hfits
  split
  · exact (Bookless.resolveUpstream _ _).does_record.post fun _ _ _ => trivial
  rename_i hmin
  split
  · exact (Bookless.resolveUpstream _ _).does_record.post fun _ _ _ => trivial
  rename_i hmax
  refine Does.bind does_liftState ?_
  intro next _ hpost
  obtain ⟨rfl, hnext⟩ := hpost
  split
  · exact (Bookless.resolveUpstream _ _).does_record.post fun _ _ _ => trivial
  rename_i hroom
  -- Every check has passed, so the channel takes the HTLC.
  refine does_offerHtlc_record fun hq => hP hq d ⟨hd, not_not.mp hactive, ?_, hclose (by simpa using hfits), ?_, ?_, next,
    hnext, ?_⟩
  · rw [hx] at hconnected
    exact hconnected
  · exact UInt64.not_lt.mp hmin
  · exact UInt64.not_lt.mp hmax
  · exact Bool.eq_false_iff.mpr hroom

theorem does_channelHandleHtlcAdd_record {key : HtlcKey} (hP : peer = q → ∀ d, Acceptable H w peer a d → ∀ e add,
      e.uncommitted = d.uncommitted ++ [.ofLocal (.add add)] → add.amountMsat = a.htlc.amountMsat → P e) :
    Does exec A (RecordStep q P) (fun _ => True) (channelHandleHtlcAddWithUpstreamExpiry H peer a.htlc key
      a.incomingScid a.incomingHtlcId a.sharedSecret (some a.incomingCltvExpiry)) w fun _ _ => True :=
  does_handleHtlcAdd_record fun hq d ha => hP hq d (acceptable_iff.mpr ha)

end Record

/-- The acts on the record of `peer` in a request that it does not take: none. -/
abbrev Untouched (peer : PublicKey) : Unit → World → World → Prop := RecordStep peer fun _ => False

theorem does_refuse (hn : ¬ ∃ d, Acceptable H w peer a d) {key : HtlcKey} :
    Does exec A (Untouched peer) (fun _ => True) (channelHandleHtlcAddWithUpstreamExpiry H peer a.htlc key
      a.incomingScid a.incomingHtlcId a.sharedSecret (some a.incomingCltvExpiry)) w fun _ _ => True :=
  does_channelHandleHtlcAdd_record fun _ d ha => absurd ⟨d, ha⟩ hn

/-! ### What the environment can bring about -/

/-- The program can return `b` and leave the world as it is. -/
abbrev Returns (x : Ctl α) (b : α) (w : World) : Prop := Can exec x (fun r w' => r = .ok b ∧ w' = w) w

theorem returns_pure {b : α} : Returns (pure b) b w := Can.pure ⟨rfl, rfl⟩

theorem returns_okOr {e : ChannelError} {r : Option α} {b : α} (h : r = some b) : Returns (okOr e r) b w := by
  subst h
  exact returns_pure

theorem returns_getJson {n : Ns} {k : n.Key} {v : n.Val} {g : Nat} (h : (w.store n).lookup k = some (g, v)) :
    Returns (getJson n k) (.ok (v, g)) w := by
  refine Can.ask .calm ?_
  simp [exec, Choice.calm, h]

theorem returns_notFound {n : Ns} {k : n.Key} (h : (w.store n).lookup k = none) :
    Returns (getJson n k) (.error .notFound) w := by
  refine Can.ask .calm ?_
  simp [exec, Choice.calm, h]

theorem returns_loadExisting (hd : w.channel peer = some d) : Returns (loadExisting peer) d w := by
  obtain ⟨g, hl⟩ := Table.exists_entry hd
  have hload : Returns (loadChannel peer) (some d) w := (returns_getJson hl).bind returns_pure
  exact hload.bind returns_pure

theorem returns_effectivePolicy : Returns (effectivePolicy H) (w.effectivePolicy H) w := by
  unfold effectivePolicy World.effectivePolicy
  cases h : (w.store .policy).value? () with
  | none => exact (returns_notFound (Table.lookup_of_value?_none h)).bind returns_pure
  | some policy =>
    obtain ⟨g, hl⟩ := Table.exists_entry h
    exact (returns_getJson hl).bind returns_pure

theorem returns_routingPolicyForData : Returns (routingPolicyForData H d) (w.routing H d) w := by
  unfold routingPolicyForData World.routing
  cases d.routingPolicy with
  | some r => exact returns_pure
  | none => exact returns_effectivePolicy.bind returns_pure

theorem returns_peerForHostedScid {scid : UInt64} :
    Returns (peerForHostedScid H scid) (w.peers.find? (H.scid · == scid)) w := by
  have hlist : Returns listChannels w.peers w := by
    refine Can.bind (b := .ok w.peers) (v := w) (Can.ask .calm ?_) returns_pure
    simp [exec, Choice.calm]
  exact hlist.bind returns_pure

theorem returns_cltvTooClose {normal : Bool} {expiry : Option UInt32} {cltv : UInt32} {delta : UInt16}
    (h : ∀ upstream, expiry = some upstream → normal = true → ∃ required,
      checkedAdd32 cltv delta.toUInt32 = some required ∧ required ≤ upstream) :
    Returns (cltvTooClose normal expiry cltv delta) false w := by
  unfold cltvTooClose
  split
  · split
    · obtain ⟨required, hr, hle⟩ := h _ rfl ‹_›
      refine (returns_okOr hr).bind (Can.pure ⟨?_, rfl⟩)
      simp [UInt32.not_lt.mpr hle]
    · exact returns_pure
  · exact returns_pure

theorem returns_hostedCommitDeadline : Returns hostedCommitDeadline 130 w := by
  refine Can.bind (b := some 100) (v := w) (Can.ask .calm ?_) ?_
  · simp [exec, Choice.calm]
  · exact (returns_okOr rfl).bind (returns_okOr (by decide))

/-- A link can be created, or is there already. -/
theorem can_createForwardLink {k : HtlcKey} {l : ForwardLink} : ∃ w', (∀ q, w'.channel q = w.channel q) ∧
    Can exec (createForwardLink k l) (fun r v => r = .ok () ∧ v = w') w := by
  unfold createForwardLink createJson
  cases h : (w.store .htlcForwards).lookup k with
  | none =>
    refine ⟨w.put .htlcForwards k l, fun _ => World.channel_put_link, ?_⟩
    refine Can.bind (b := .ok ()) (v := w.put .htlcForwards k l) (Can.ask .calm ?_) (Can.pure ⟨rfl, rfl⟩)
    simp [exec, Choice.calm, h]
  | some e =>
    refine ⟨w, fun _ => rfl, ?_⟩
    refine Can.bind (b := .error .alreadyExists) (v := w) (Can.ask .calm ?_) (Can.pure ⟨rfl, rfl⟩)
    simp [exec, Choice.calm, h]

theorem can_saveChannel {d' : ChannelData} (hd : w.channel peer = some d) :
    Can exec (saveChannel peer d' none) (fun r v => r = .ok () ∧ v = w.put .channels peer d') w := by
  obtain ⟨g, hl⟩ := Table.exists_entry hd
  unfold saveChannel createJson updateJson
  dsimp only
  refine Can.bind (b := .error .alreadyExists) (v := w) (Can.ask .calm ?_) ?_
  · simp [exec, Choice.calm, hl]
  · refine (returns_getJson hl).bind (returns_pure.bind ?_)
    refine Can.bind (b := .ok ()) (v := w.put .channels peer d') (Can.ask .calm ?_) returns_pure
    simp [exec, Choice.calm, hl]

/-! ### Offering -/

instance : Nonempty Choice := ⟨.calm⟩

/-- The environment can let the HTLC be persisted. -/
theorem can_offerHtlc (hd : w.channel peer = some d) {htlc : UpdateAddHtlc} {scid id : UInt64}
    {secret : Option (ByteVec 32)} {expiry : Option UInt32} :
    Can exec (offerHtlc H peer d htlc scid id secret expiry) (fun _ w' => Offers w w' peer htlc.amountMsat) w := by
  unfold offerHtlc
  dsimp only
  refine returns_hostedCommitDeadline.bind ?_
  obtain ⟨w₁, hc₁, hlink⟩ := can_createForwardLink (w := w)
  refine hlink.bind ((can_saveChannel ((hc₁ peer).trans hd)).bind ?_)
  set new := d.push (.ofLocal (.add { htlc with channelId := H.channelId peer, id := nextHtlcId d })) with hnew
  have htail : Does exec (fun _ _ _ => True) (RecordStep peer fun e => e.uncommitted = new.uncommitted) (fun _ => True)
      (do
        deliver peer new (.updateAddHtlc { htlc with channelId := H.channelId peer, id := nextHtlcId d })
        let next ← signNext H peer ⟨new.lcss, new.uncommitted⟩
        deliver peer new (.stateUpdate next.stateUpdate))
      (w₁.put .channels peer new) fun _ _ => True := by
    refine Does.bind (does_deliver_record fun _ _ he => he) fun _ _ _ => ?_
    exact Does.bind does_signNext_record fun _ _ _ => does_deliver_record fun _ _ he => he
  refine htail.can.mono ?_
  intro _ w' ht
  refine ⟨d, ?_⟩
  rcases RecordStep.trace ht with hsame | ⟨e, he, hus⟩
  · exact ⟨new, _, hd, hsame.trans World.channel_put, rfl, rfl⟩
  · exact ⟨e, _, hd, he, hus, rfl⟩

/-- A channel that takes the HTLC can be brought to offer it. A lookup of the preimage that fails counts as
    no preimage. -/
theorem can_offer {htlc : UpdateAddHtlc} {scid id : UInt64} {secret : Option (ByteVec 32)} {expiry : Option UInt32}
    (ha : Admits H w peer htlc scid expiry d) {key : HtlcKey} :
    Can exec (channelHandleHtlcAddWithUpstreamExpiry H peer htlc key scid id secret expiry)
      (fun _ w' => Offers w w' peer htlc.amountMsat) w := by
  obtain ⟨next, hnext, hroom⟩ := ha.room
  unfold channelHandleHtlcAddWithUpstreamExpiry
  refine (returns_loadExisting ha.channel).bind ?_
  rw [if_neg (not_not.mpr ha.active)]
  refine Can.bind (b := w.peerConnections.lookup peer) (v := w) (Can.ask .calm ⟨rfl, rfl⟩) ?_
  rw [if_neg ha.connected]
  refine Can.bind (b := rpcError) (v := w) (Can.ask { Choice.calm with fails := true } ⟨rfl, rfl⟩) ?_
  unfold checkAndOffer
  refine returns_routingPolicyForData.bind (returns_peerForHostedScid.bind ?_)
  refine (returns_cltvTooClose ha.cltv).bind ?_
  rw [if_neg (by simp), if_neg (UInt64.not_lt.mpr ha.minimum), if_neg (UInt64.not_lt.mpr ha.maximum)]
  have hfold : Returns (liftState (StateManager.lcssNext H.crypto ⟨d.lcss, d.uncommitted⟩)) next w := by
    rw [show StateManager.lcssNext H.crypto ⟨d.lcss, d.uncommitted⟩ = .ok next from hnext]
    exact returns_pure
  refine hfold.bind ?_
  rw [if_neg (by simp [hroom])]
  exact can_offerHtlc ha.channel

/-! ### The amounts of the hook -/

section Hook
variable {r : HtlcAcceptedRequest} {scid : UInt64} (hscid : r.targetScid = some scid)
  (hpeer : w.peers.find? (H.scid · == scid) = some peer) (hparse : r.parse scid = some a)
include hscid hpeer hparse

/-- A request that the channel does not take leaves its record as it is. -/
theorem channel_after_refusal (hn : ¬ ∃ d, Acceptable H w peer a d) (o : Nat → Choice) :
    ((Op.htlcAccepted r).next H o w).channel peer = w.channel peer := by
  have hdoes : Does exec (fun _ _ _ => True) (Untouched peer) (fun _ => True) ((Op.htlcAccepted r).program H) w
      fun _ _ => True := by
    simp only [Op.program, handleHtlcAccepted, hscid, acceptHtlc]
    refine Does.bind (R := fun _ _ => True) ?_ fun _ _ _ => Does.pure trivial
    refine Does.bind (Does.attempt does_findPeer) ?_
    intro found w₁ hpost
    obtain ⟨-, hfound⟩ := hpost
    rcases found with e | found
    · exact Does.pure trivial
    obtain ⟨rfl, rfl⟩ := hfound found rfl
    rw [hpeer]
    simp only [hparse]
    refine Does.bind (Does.attempt (does_refuse hn)) ?_
    rintro outcome _ -
    rcases outcome with e | u
    · exact Does.pure trivial
    · exact Does.pure trivial
  rcases RecordStep.trace (Does.run (o := o) hdoes (Prog.kept_of_forall fun _ _ _ => trivial)) with hsame | ⟨_, _, hfalse⟩
  · exact hsame
  · exact hfalse.elim

/-- A request that the channel takes can make it offer the HTLC. -/
theorem exists_offer (ha : Acceptable H w peer a d) :
    ∃ o, Offers w ((Op.htlcAccepted r).next H o w) peer a.htlc.amountMsat := by
  have hcan : Can exec ((Op.htlcAccepted r).program H) (fun _ w' => Offers w w' peer a.htlc.amountMsat) w := by
    simp only [Op.program, handleHtlcAccepted, hscid, acceptHtlc]
    refine Can.andThen (R := fun _ w' => Offers w w' peer a.htlc.amountMsat) ?_ (fun _ _ h => Can.pure h) fun _ _ h => h
    refine Can.attempt (returns_peerForHostedScid.mono ?_)
    intro _ _ hpost
    obtain ⟨rfl, rfl⟩ := hpost
    rw [hpeer]
    simp only [hparse]
    refine Can.attempt ((can_offer (acceptable_iff.mp ha)).mono ?_)
    intro outcome w' hoffer
    rcases outcome with e | u
    · exact Can.pure hoffer
    · exact Can.pure hoffer
  exact hcan.run

end Hook

/-- The `htlc_accepted` hook makes the host offer no more than it receives exactly if the onion asks for
    no more, or the channel does not take the HTLC anyway; dispatching always stays within the incoming
    HTLC. -/
theorem forward_amount_covered_iff (H : Host) (w : World) :
    (∀ (r : HtlcAcceptedRequest) (scid : UInt64) (peer : PublicKey) (a : HtlcAccepted), r.targetScid = some scid →
      w.peers.find? (H.scid · == scid) = some peer → r.parse scid = some a →
      ((∀ o, Offers w ((Op.htlcAccepted r).next H o w) peer a.htlc.amountMsat →
          a.htlc.amountMsat ≤ a.incomingAmountMsat) ↔
        a.htlc.amountMsat ≤ a.incomingAmountMsat ∨ ¬ ∃ d, Acceptable H w peer a d)) ∧
    ∀ (peer : PublicKey) (committed : ChannelData) (htlc : UpdateAddHtlc) (o : Nat → Choice),
      Covered htlc.amountMsat w (Prog.run exec o (dispatchCommittedIncomingHtlc H peer committed htlc).run w).2 := by
  refine ⟨?_, dispatch_covered H w⟩
  intro r scid peer a hscid hpeer hparse
  constructor
  · intro hall
    by_contra hnot
    obtain ⟨hlt, hacc⟩ := not_or.mp hnot
    obtain ⟨d, ha⟩ := not_not.mp hacc
    obtain ⟨o, hoffer⟩ := exists_offer hscid hpeer hparse ha
    exact hlt (hall o hoffer)
  · rintro (hle | hn) o hoffer
    · exact hle
    · obtain ⟨d, d', htlc, hd, hd', hus, -⟩ := hoffer
      rw [channel_after_refusal hscid hpeer hparse hn o, hd] at hd'
      obtain rfl := Option.some.inj hd'
      exact absurd hus (by simp)

/-! ### An underpaid forward -/

def openWorld : World := calmRun .transparent openScript

/-- An incoming HTLC of 1000 msat whose onion asks to forward 200000. -/
def underpaid : HtlcAcceptedRequest where
  targetScid := some (Host.transparent.scid openPeer)
  amountMsat := some 1000
  forwardAmount := some 200000
  paymentHash := some (ByteVec.fill 32 3)
  cltvExpiry := some 1200
  outgoingCltvValue := some 1100
  nextOnion := some (List.replicate 1366 0)
  htlcId := some 7
  shortChannelId := some 55
  sharedSecret := some none

def underpaidHtlc : HtlcAccepted where
  incomingAmountMsat := 1000
  htlc := ⟨ByteVec.fill 32 0, 0, 200000, ByteVec.fill 32 3, 1100, List.replicate 1366 0, []⟩
  incomingScid := 55
  incomingHtlcId := 7
  sharedSecret := none
  incomingCltvExpiry := 1200

theorem underpaid_parse : underpaid.parse (Host.transparent.scid openPeer) = some underpaidHtlc := rfl

theorem openWorld_finds :
    openWorld.peers.find? (Host.transparent.scid · == Host.transparent.scid openPeer) = some openPeer := by
  decide +kernel

theorem forward_amount_uncovered_open : ¬ ∀ o,
    Offers openWorld ((Op.htlcAccepted underpaid).next .transparent o openWorld) openPeer underpaidHtlc.htlc.amountMsat →
      underpaidHtlc.htlc.amountMsat ≤ underpaidHtlc.incomingAmountMsat := by
  rw [(forward_amount_covered_iff .transparent openWorld).1 underpaid _ openPeer underpaidHtlc rfl openWorld_finds
    underpaid_parse]
  have hopen : (openWorld.channel openPeer).any (fun d => decide (deriveStatus d = .active ∧
      openWorld.peerConnections.lookup openPeer ≠ some false ∧
      checkedAdd32 1100 (openWorld.routing .transparent d).cltvExpiryDelta.toUInt32 = some 1110 ∧
      d.lcss.initHostedChannel.htlcMinimumMsat ≤ 200000 ∧ 200000 ≤ (openWorld.routing .transparent d).htlcMaximumMsat ∧
      (d.next .transparent).toOption.any (fun next => !hasNoRoom d.lcss.initHostedChannel next 200000) = true)) = true := by
    decide +kernel
  obtain ⟨d, hd, hopen⟩ := exists_of_any hopen
  obtain ⟨hactive, hconnected, hcltv, hmin, hmax, hroom⟩ := of_decide_eq_true hopen
  obtain ⟨next, hnext, hroom⟩ := exists_of_any hroom
  have hok : d.next .transparent = .ok next := by
    cases h : d.next .transparent with
    | error e => simp [h, Except.toOption] at hnext
    | ok n => simpa [h, Except.toOption] using hnext
  have hfree : hasNoRoom d.lcss.initHostedChannel next 200000 = false := by simpa using hroom
  refine not_or.mpr ⟨by decide, not_not.mpr ⟨d, hd, hactive, hconnected, ?_, hmin, hmax, next, hok, hfree⟩⟩
  exact fun _ => ⟨1110, hcltv, by decide⟩

theorem hook_offers_more_than_received : ¬ ∀ (H : Host) (w : World) (r : HtlcAcceptedRequest) (scid : UInt64)
    (peer : PublicKey) (a : HtlcAccepted) (o : Nat → Choice), Reachable H Guard.free w → r.targetScid = some scid →
    w.peers.find? (H.scid · == scid) = some peer → r.parse scid = some a →
    Offers w ((Op.htlcAccepted r).next H o w) peer a.htlc.amountMsat → a.htlc.amountMsat ≤ a.incomingAmountMsat := by
  intro hall
  have hrun : (openWorld.channel openPeer).any (fun d =>
      (((Op.htlcAccepted underpaid).next .transparent (fun _ => .calm) openWorld).channel openPeer).any fun d' =>
        decide (d'.uncommitted = d.uncommitted ++ [.ofLocal (.add { underpaidHtlc.htlc with
          channelId := Host.transparent.channelId openPeer, id := nextHtlcId d })])) = true := by
    decide +kernel
  obtain ⟨d, hd, hrun⟩ := exists_of_any hrun
  obtain ⟨d', hd', hus⟩ := exists_of_any hrun
  have hle := hall .transparent openWorld underpaid _ openPeer underpaidHtlc (fun _ => .calm) (calmRun_reachable _ _) rfl
    openWorld_finds underpaid_parse ⟨d, d', _, hd, hd', of_decide_eq_true hus, rfl⟩
  exact absurd hle (by decide)

end Canopus
