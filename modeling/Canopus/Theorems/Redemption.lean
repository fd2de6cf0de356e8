import Canopus.Theorems.Outcomes
import Canopus.Theorems.Settlement

/-! Honouring a preimage. A client that fulfils an HTLC in time is to be paid: the preimage is kept, the
    fulfil waits for the next commit, and the upstream HTLC is settled with it. After a forward to the
    channel has failed the channel is fenced: the handler ignores every fulfil from then on, also that of an
    HTLC whose upstream is still waiting. -/

namespace Canopus
open Effect Fallible

variable {H : Host} {w : World} {p : PublicKey} {d : ChannelData} {h : UpdateAddHtlc} {height : UInt32}
  {key : HtlcKey} {m : UpdateFulfillHtlc} {l : ForwardLink} {expiry : UInt32}

/-- No call fails, and the block height stays what it is. -/
def CalmAt (height : UInt32) (x : Choice) : Prop := x.fails = false ∧ x.height = height

theorem CalmAt.unfailing : Unfailing (CalmAt height) := fun _ h => h.1

/-- The record says that a forward to the channel has failed. -/
def ChannelData.fenced (d : ChannelData) : Bool :=
  d.localErrors.any fun e => e == .hostedDeliveryFailed || e == .hostedHtlcExpired

/-- Between the worlds `w` and `w'` the fulfil `m` of the peer has been honoured: its preimage is stored under
    `hash`, it is pending as an update of the peer, and it has settled the upstream HTLC `key`. -/
structure Honoured (p : PublicKey) (m : UpdateFulfillHtlc) (hash : Hash) (key : HtlcKey) (w w' : World) : Prop where
  stored : w'.preimages.lookup hash = some m.paymentPreimage
  pending : ∃ d' c, w'.channel p = some d' ∧ .ofRemote (.fulfill c m.id m.paymentPreimage) ∈ d'.uncommitted
  settled : (key, .resolve m.paymentPreimage) ∈ w'.resolutions.drop w.resolutions.length

/-! ### The check -/

/-- For an HTLC that came from a normal channel, the check says whether there is still time. -/
theorem surely_settlementIsSafe (hd : w.channel p = some d)
    (hl : w.link (H.scid p, h.id) = some l) (hnormal : w.Normal H l.incomingScid)
    (he : l.upstreamCltvExpiry = some expiry) :
    Surely exec (CalmAt height) (hostedSettlementIsSafe H p h) (fun r w' => w' = w ∧ (r = .ok true ↔
      height < h.cltvExpiry ∧ h.cltvExpiry.toNat + (w.routing H d).cltvExpiryDelta.toNat ≤ expiry.toNat)) w := by
  obtain ⟨g, hg⟩ := Table.exists_entry hl
  unfold hostedSettlementIsSafe
  refine (yields_getJson CalmAt.unfailing hg).bind ?_
  refine (yields_peerForHostedScid CalmAt.unfailing).bind ?_
  rw [hnormal.find_peer, he]
  refine (yields_loadExisting CalmAt.unfailing hd).bind ?_
  refine (yields_routingPolicyForData CalmAt.unfailing).bind ?_
  have hadd : checkedAdd32 h.cltvExpiry (w.routing H d).cltvExpiryDelta.toUInt32 =
      if h.cltvExpiry.toNat + (w.routing H d).cltvExpiryDelta.toNat < 2 ^ 32 then
        some (h.cltvExpiry + (w.routing H d).cltvExpiryDelta.toUInt32) else none := rfl
  by_cases hover : h.cltvExpiry.toNat + (w.routing H d).cltvExpiryDelta.toNat < 2 ^ 32
  · rw [hadd, if_pos hover]
    refine Yields.bind Yields.pure ((yields_getBlockHeight CalmAt.unfailing fun _ hx => hx.2).bind (Surely.pure ⟨rfl, ?_⟩))
    have hsum := checkedAdd32_eq_some (hadd.trans (if_pos hover))
    rw [UInt16.toNat_toUInt32] at hsum
    rw [Except.ok.injEq, Bool.and_eq_true, decide_eq_true_eq, decide_eq_true_eq, UInt32.le_iff_toNat_le, hsum]
  · rw [hadd, if_neg hover]
    refine Yields.fail Yields.throw ⟨rfl, ?_⟩
    have hlt := expiry.toNat_lt
    constructor
    · intro hr
      cases hr
    · rintro ⟨-, hle⟩
      omega

/-! ### The handler -/

/-- An accepted fulfil is honoured. -/
theorem surely_acceptFulfill {g : UpdateAddHtlc} (hl : w.link (H.scid p, m.id) = some l)
    (hnormal : w.Normal H l.incomingScid) (hd : w.channel p = some d) :
    Surely exec (CalmAt height) (acceptFulfill H p d g m)
      (fun _ w' => Honoured p m g.paymentHash (l.incomingScid, l.incomingHtlcId) w w') w := by
  unfold acceptFulfill
  refine (yields_storePreimage CalmAt.unfailing).bind (Yields.pure.bind ?_)
  refine (yields_saveChannel CalmAt.unfailing).bind ?_
  let u := d.push (.ofRemote (.fulfill m.channelId m.id m.paymentPreimage))
  let v := { w with preimages := w.preimages.insert g.paymentHash m.paymentPreimage }.put .channels p u
  have hl' : v.link (H.scid p, m.id) = some l := World.link_put_channel.trans hl
  have hnormal' : v.Normal H l.incomingScid := World.Normal.put (w := { w with preimages := _ }) hnormal hd
  refine Surely.mono (yields_withForwardLink CalmAt.unfailing hl'
    ((yields_answerIncoming CalmAt.unfailing hnormal').bind (yields_dropForwardLink CalmAt.unfailing))) ?_
  rintro _ _ ⟨-, rfl⟩
  refine ⟨AList.lookup_insert _, ⟨u, m.channelId, World.channel_erase_link.trans World.channel_put, ?_⟩, ?_⟩
  · exact List.mem_append_right _ (List.mem_singleton_self _)
  · show _ ∈ (w.resolutions ++ [_]).drop w.resolutions.length
    rw [List.drop_left]
    exact List.mem_singleton_self _

/-- The fulfil of a listed HTLC is honoured where there is no fence and still time. -/
theorem surely_honoured {g : UpdateAddHtlc} (hd : w.channel p = some d) (hopen : takesResolutions d = true)
    (hfence : d.fenced = false) (hfresh : hasUncommittedRemoteResolution d m.id = false)
    (hg : d.lcss.outgoingHtlcs.find? (·.id == m.id) = some g) (hid : m.id = g.id)
    (hsha : g.paymentHash = H.crypto.sha256 m.paymentPreimage.toList)
    (hnormal : w.Normal H key.1) (hin : SettlesInTime H w height key p g) :
    Surely exec (CalmAt height) (handleUpdateFulfill H p m) (fun _ w' => Honoured p m g.paymentHash key w w') w := by
  obtain ⟨d₁, l, expiry, hd₁, -, hl, hkey, he, htime, hmargin⟩ := hin
  obtain rfl := Option.some.inj (hd₁.symm.trans hd)
  obtain ⟨gen, hgen⟩ := Table.exists_entry hl
  subst hkey
  unfold handleUpdateFulfill
  refine (yields_loadExisting CalmAt.unfailing hd).bind ?_
  have hfence' : ¬ (d₁.localErrors.any fun e => e == .hostedDeliveryFailed || e == .hostedHtlcExpired) = true := by
    rw [Bool.not_eq_true]
    exact hfence
  rw [if_neg (by simp [hopen]), if_neg hfence', if_neg (by simp [hfresh]), hg]
  dsimp only
  rw [if_neg (not_not_intro hsha)]
  refine Surely.andThen (surely_settlementIsSafe hd hl hnormal he) ?_ ?_
  · rintro safe _ ⟨rfl, hsafe⟩
    obtain rfl : safe = true := Except.ok.inj (hsafe.mpr ⟨htime, hmargin⟩)
    rw [if_pos rfl]
    exact surely_acceptFulfill (hid ▸ hl) hnormal hd
  · rintro e _ ⟨rfl, hsafe⟩
    cases hsafe.mpr ⟨htime, hmargin⟩

/-- Where the fulfil is not to be honoured, it is not pending afterwards. -/
theorem surely_unhonoured (hd : w.channel p = some d)
    (hl : w.link (H.scid p, m.id) = some l) (hnormal : w.Normal H l.incomingScid) (he : l.upstreamCltvExpiry = some expiry)
    (hno : d.fenced = false → ∀ g, d.lcss.outgoingHtlcs.find? (·.id == m.id) = some g →
      g.paymentHash = H.crypto.sha256 m.paymentPreimage.toList →
      ¬ (height < g.cltvExpiry ∧ g.cltvExpiry.toNat + (w.routing H d).cltvExpiryDelta.toNat ≤ expiry.toNat)) :
    Surely exec (CalmAt height) (handleUpdateFulfill H p m)
      (fun _ w' => ∃ d', w'.channel p = some d' ∧ d'.uncommitted = d.uncommitted) w := by
  have hsame : Surely exec (CalmAt height) (pure () : Ctl Unit)
      (fun _ w' => ∃ d', w'.channel p = some d' ∧ d'.uncommitted = d.uncommitted) w := Surely.pure ⟨d, hd, rfl⟩
  unfold handleUpdateFulfill
  refine (yields_loadExisting CalmAt.unfailing hd).bind ?_
  split
  · exact hsame
  split
  · exact hsame
  rename_i hfence
  split
  · exact hsame
  split
  · exact hsame
  rename_i g hg
  split
  · exact hsame
  rename_i hsha
  have hgid : g.id = m.id := by simpa using List.find?_some hg
  refine Surely.andThen (surely_settlementIsSafe hd (hgid ▸ hl) hnormal he) ?_ ?_
  · rintro safe _ ⟨rfl, hsafe⟩
    have hsafe' : safe = false := by
      rw [← Bool.not_eq_true]
      intro htrue
      exact hno (Bool.not_eq_true _ ▸ hfence) g hg (not_not.mp hsha) (hsafe.mp (congrArg _ htrue))
    rw [if_neg (by simp [hsafe'])]
    refine (yields_saveChannel CalmAt.unfailing).bind ?_
    refine (Stays.surely (Bookless.sendMessage p _)).mono ?_
    intro _ w' hq
    exact ⟨_, (hq.channel p).trans World.channel_put, rfl⟩
  · rintro e _ ⟨rfl, -⟩
    exact ⟨d, hd, rfl⟩

/-! ### Which fulfils are honoured -/

/-- Where no call fails, the right preimage for an HTLC that can still be settled upstream is honoured exactly
    if the channel is not fenced, and if the HTLC that the channel lists first under the id has that hash
    and can be settled too. -/
theorem fulfill_honoured_iff (H : Host) (w : World) (p : PublicKey) (d : ChannelData) (h : UpdateAddHtlc)
    (key : HtlcKey) (height : UInt32) (e : WireEncoding) (m : UpdateFulfillHtlc) (o : Nat → Choice)
    (hd : w.channel p = some d) (hopen : takesResolutions d = true) (hin : SettlesInTime H w height key p h)
    (hnormal : w.Normal H key.1) (hfresh : hasUncommittedRemoteResolution d h.id = false) (hid : m.id = h.id)
    (hsha : H.crypto.sha256 m.paymentPreimage.toList = h.paymentHash)
    (ho : ∀ n, (o n).fails = false ∧ (o n).height = height) :
    Honoured p m h.paymentHash key w ((Op.message p e (.updateFulfillHtlc m)).next H o w) ↔
      d.fenced = false ∧ ∃ g, d.lcss.outgoingHtlcs.find? (·.id == h.id) = some g ∧ g.paymentHash = h.paymentHash ∧
        SettlesInTime H w height key p g := by
  obtain ⟨d₁, l, expiry, hd₁, -, hl, hkey, he, -, -⟩ := hin
  obtain rfl := Option.some.inj (hd₁.symm.trans hd)
  subst hkey
  constructor
  · intro hhon
    by_contra hno
    have hsure : Surely exec (CalmAt height) ((Op.message p e (.updateFulfillHtlc m)).program H)
        (fun _ w' => ∃ d', w'.channel p = some d' ∧ d'.uncommitted = d₁.uncommitted) w := by
      refine surely_message (surely_unhonoured (w := { w with peerWireEncodings := _ }) hd (hid ▸ hl) hnormal he ?_)
      rintro hfence g hg hgsha ⟨htime, hmargin⟩
      rw [hid] at hg
      have hgid : g.id = h.id := by simpa using List.find?_some hg
      exact hno ⟨hfence, g, hg, hgsha.trans hsha, d₁, l, expiry, hd, List.mem_of_find?_eq_some hg, hgid ▸ hl, rfl, he,
        htime, hmargin⟩
    obtain ⟨d', hd', hsame⟩ := hsure.run ho
    obtain ⟨d'', c, hd'', hmem⟩ := hhon.pending
    obtain rfl := Option.some.inj (hd'.symm.trans hd'')
    rw [hsame, hid] at hmem
    rw [hasUncommittedRemoteResolution, List.any_eq_false] at hfresh
    exact hfresh _ hmem (beq_self_eq_true _)
  · rintro ⟨hfence, g, hg, hgsha, hgin⟩
    have hgid : g.id = h.id := by simpa using List.find?_some hg
    rw [← hid] at hg hfresh hgid
    have hsure : Surely exec (CalmAt height) ((Op.message p e (.updateFulfillHtlc m)).program H)
        (fun _ w' => Honoured p m g.paymentHash (l.incomingScid, l.incomingHtlcId) w w') w := by
      refine surely_message (Surely.mono (surely_honoured (w := { w with peerWireEncodings := _ }) hd hopen hfence hfresh
        hg hgid.symm (hgsha.trans hsha.symm) hnormal hgin) ?_)
      exact fun _ _ hhon => ⟨hhon.stored, hhon.pending, hhon.settled⟩
    rw [← hgsha]
    exact hsure.run ho

/-- The client has committed to two HTLCs that the node handed to it, the first of which expires at the
    height `cltv`. -/
def twoHtlcsScript (cltv : UInt64) : List (World → Op) := openScript ++ [
  hookOffers (digest (List.replicate 32 5)) 1 cltv, hookOffers (digest (List.replicate 32 6)) 2 1100,
  clientCommits .transparent openKey, fun _ => .enforceForwardDeadlines]

/-- The second HTLC waits: it is listed and linked to an HTLC of a normal channel that has not been answered,
    it has no resolution of the client, and there is time. -/
def secondWaits (w : World) (d : ChannelData) : Bool :=
  takesResolutions d && !hasUncommittedRemoteResolution d 2 && w.peers.all (Host.transparent.scid · != 55) &&
    w.resolutions.all (·.1 != (55, 2)) &&
    (d.lcss.outgoingHtlcs.find? (·.id == 2)).any fun h => (w.link (Host.transparent.scid openPeer, h.id)).any fun l =>
      l.upstreamCltvExpiry.any fun expiry => h.id == 2 && (l.incomingScid, l.incomingHtlcId) == (55, 2) &&
        decide (1000 < h.cltvExpiry ∧
          h.cltvExpiry.toNat + (w.routing .transparent d).cltvExpiryDelta.toNat ≤ expiry.toNat) &&
        h.paymentHash == digest (ByteVec.fill 32 6).toList

theorem settles_of_waits (hd : w.channel openPeer = some d) (hs : secondWaits w d = true) :
    takesResolutions d = true ∧ hasUncommittedRemoteResolution d 2 = false ∧ w.Normal .transparent 55 ∧
      (∀ r ∈ w.resolutions, r.1 ≠ (55, 2)) ∧ ∃ h, d.lcss.outgoingHtlcs.find? (·.id == 2) = some h ∧ h.id = 2 ∧
      h.paymentHash = digest (ByteVec.fill 32 6).toList ∧ SettlesInTime .transparent w 1000 (55, 2) openPeer h := by
  obtain ⟨hs, hsecond⟩ := Bool.and_eq_true_iff.mp hs
  simp only [Bool.and_eq_true, Bool.not_eq_true', List.all_eq_true, bne_iff_ne] at hs
  obtain ⟨⟨⟨hopen, hfresh⟩, hnormal⟩, hwaits⟩ := hs
  obtain ⟨h, hh, hs⟩ := exists_of_any hsecond
  obtain ⟨l, hl, hs⟩ := exists_of_any hs
  obtain ⟨expiry, he, hs⟩ := exists_of_any hs
  simp only [Bool.and_eq_true, beq_iff_eq, decide_eq_true_eq] at hs
  obtain ⟨⟨⟨hid, hkey⟩, htime, hmargin⟩, hsha⟩ := hs
  refine ⟨hopen, hfresh, fun q hq => hnormal q (World.mem_peers.mpr hq), hwaits, h, hh, hid, hsha, ?_⟩
  exact ⟨d, l, expiry, hd, List.mem_of_find?_eq_some hh, hl, hkey, he, htime, hmargin⟩

/-- The client's fulfil of the second HTLC. -/
def secondFulfill : UpdateFulfillHtlc := ⟨ByteVec.fill 32 0, 2, ByteVec.fill 32 6, []⟩

/-- Both HTLCs are in time, and the second one is fulfilled. -/
theorem fulfill_honoured_second : ∃ hash, Honoured openPeer secondFulfill hash (55, 2)
    (calmRun .transparent (twoHtlcsScript 1050))
    ((Op.message openPeer .strict (.updateFulfillHtlc secondFulfill)).next .transparent (fun _ => .calm)
      (calmRun .transparent (twoHtlcsScript 1050))) := by
  have hrun : ((calmRun .transparent (twoHtlcsScript 1050)).channel openPeer).any (fun d =>
      secondWaits (calmRun .transparent (twoHtlcsScript 1050)) d && !d.fenced) = true := by
    decide +kernel
  obtain ⟨d, hd, hrun⟩ := exists_of_any hrun
  obtain ⟨hsecond, hfence⟩ := Bool.and_eq_true_iff.mp hrun
  obtain ⟨hopen, hfresh, hnormal, -, h, hh, hid, hsha, hin⟩ := settles_of_waits hd hsecond
  rw [Bool.not_eq_true'] at hfence
  rw [← hid] at hh hfresh
  exact ⟨h.paymentHash, (fulfill_honoured_iff .transparent (calmRun .transparent (twoHtlcsScript 1050)) openPeer d h (55, 2)
    1000 .strict secondFulfill (fun _ => .calm) hd hopen hin hnormal hfresh hid.symm hsha.symm fun _ => ⟨rfl, rfl⟩).mpr
    ⟨hfence, h, hh, rfl, hin⟩⟩

/-- The first HTLC expires, its upstream is failed, and the fulfil of the second one is ignored, although its
    own upstream still waits and there is time. -/
theorem fulfill_fenced_ignored : ¬ ∀ (H : Host) (w : World) (p : PublicKey) (d : ChannelData) (h : UpdateAddHtlc)
    (key : HtlcKey) (height : UInt32) (e : WireEncoding) (m : UpdateFulfillHtlc) (o : Nat → Choice),
    Reachable H Guard.free w → w.channel p = some d → takesResolutions d = true → SettlesInTime H w height key p h →
    w.Normal H key.1 → (∀ r ∈ w.resolutions, r.1 ≠ key) → hasUncommittedRemoteResolution d h.id = false → m.id = h.id →
    H.crypto.sha256 m.paymentPreimage.toList = h.paymentHash → (∀ n, (o n).fails = false ∧ (o n).height = height) →
    Honoured p m h.paymentHash key w ((Op.message p e (.updateFulfillHtlc m)).next H o w) := by
  intro hall
  have hrun : ((calmRun .transparent (twoHtlcsScript 900)).channel openPeer).any (fun d =>
      secondWaits (calmRun .transparent (twoHtlcsScript 900)) d &&
        ((Op.message openPeer .strict (.updateFulfillHtlc secondFulfill)).next .transparent (fun _ => .calm)
          (calmRun .transparent (twoHtlcsScript 900))).preimages.entries.isEmpty) = true := by
    decide +kernel
  obtain ⟨d, hd, hrun⟩ := exists_of_any hrun
  obtain ⟨hsecond, hstored⟩ := Bool.and_eq_true_iff.mp hrun
  obtain ⟨hopen, hfresh, hnormal, hwaits, h, -, hid, hsha, hin⟩ := settles_of_waits hd hsecond
  rw [← hid] at hfresh
  have hhon := hall .transparent (calmRun .transparent (twoHtlcsScript 900)) openPeer d h (55, 2) 1000 .strict
    secondFulfill (fun _ => .calm) (calmRun_reachable _ _) hd hopen hin hnormal hwaits hfresh hid.symm hsha.symm
    fun _ => ⟨rfl, rfl⟩
  have hlookup := hhon.stored
  rw [AList.lookup, List.isEmpty_iff.mp hstored] at hlookup
  cases hlookup

end Canopus
