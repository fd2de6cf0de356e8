import Canopus.Theorems.BaseSteps
import Canopus.Transparent

/-! Adopting the state that a peer presents (`handle_lcss`). The host signs a new state for each of its
    updates, so the peer may hold a state that has only the first of the pending updates in it. Adopting
    such a state clears the list of uncommitted updates as a whole, the later ones included. -/

namespace Canopus
open Effect Fallible

variable {H : Host} {p : PublicKey} {w : World} {d d' : ChannelData} {m : LastCrossSignedState}

/-- `handle_lcss` adopts `m`: both signatures are valid, and its counters are ahead of the record's. -/
def Adopts (H : Host) (p : PublicKey) (d : ChannelData) (m : LastCrossSignedState) : Prop :=
  m.verifyRemoteSig H.crypto H.nodePublic = true ∧ m.reverse.verifyRemoteSig H.crypto p = true ∧
    d.lcss.localUpdates ≤ m.reverse.localUpdates ∧ d.lcss.remoteUpdates ≤ m.reverse.remoteUpdates ∧
    ¬ (m.reverse.localUpdates = d.lcss.localUpdates ∧ m.reverse.remoteUpdates = d.lcss.remoteUpdates)

instance : Decidable (Adopts H p d m) := inferInstanceAs (Decidable (_ ∧ _))

/-- An update of the host is part of a state: the HTLC it adds is listed, the one it resolves is not. -/
def Reflected (s : LastCrossSignedState) : PendingUpdate → Prop
  | .add htlc => htlc ∈ s.outgoingHtlcs
  | .fulfill _ id _ | .fail _ id _ | .failMalformed _ id _ _ => ∀ h ∈ s.incomingHtlcs, h.id ≠ id

instance (s : LastCrossSignedState) (u : PendingUpdate) : Decidable (Reflected s u) :=
  match u with
  | .add htlc => inferInstanceAs (Decidable (htlc ∈ s.outgoingHtlcs))
  | .fulfill _ id _ | .fail _ id _ | .failMalformed _ id _ _ =>
    inferInstanceAs (Decidable (∀ h ∈ s.incomingHtlcs, h.id ≠ id))

/-- The record of a channel that has adopted `m`. -/
def adoptedData (d : ChannelData) (m : LastCrossSignedState) : ChannelData :=
  { d with lcss := m.reverse, uncommitted := [] }

/-- A message that is adopted leaves the record as it was, if the store fails, or with no pending updates. -/
theorem does_handleLcss_adopts (hd : w.channel p = some d) (hm : Adopts H p d m) {A : Choice → World → Call → Prop} :
    Does exec A (RecordStep p (· = adoptedData d m)) (fun _ => True) (handleLcss H p m) w fun _ _ => True := by
  obtain ⟨ho, hv, hl, hr, hne⟩ := hm
  unfold handleLcss
  refine Does.bind does_loadExisting ?_
  intro e w' hpost
  obtain ⟨rfl, he⟩ := hpost
  obtain rfl : e = d := by simpa [hd] using he.symm
  have hbehind : ¬ (m.reverse.localUpdates < e.lcss.localUpdates || m.reverse.remoteUpdates < e.lcss.remoteUpdates) = true := by
    simp only [Bool.or_eq_true, decide_eq_true_eq, not_or, UInt32.not_lt]
    exact ⟨hl, hr⟩
  rw [if_neg (by simp [ho]), if_neg (by simp [hv]), if_neg hbehind, if_neg hne]
  have hsave : Trace (RecordStep p (· = adoptedData e m)) (fun _ => True) w' (w'.put .channels p (adoptedData e m)) :=
    Trace.single (l := ()) trivial (Or.inr ⟨_, World.channel_put, rfl⟩)
  refine Does.bind (does_saveChannel (fun _ _ _ => hsave) fun _ _ _ _ => hsave) fun _ _ _ => ?_
  exact (Bookless.sendMessage p _).does_record.post fun _ _ _ => trivial

theorem channel_after_adoption (hd : w.channel p = some d) (hm : Adopts H p d m) (e : WireEncoding) (o : Nat → Choice) :
    ((Op.message p e (.lastCrossSignedState m)).next H o w).channel p = some d ∨
      ((Op.message p e (.lastCrossSignedState m)).next H o w).channel p = some (adoptedData d m) := by
  have hdoes : Does exec (fun _ _ _ => True) (RecordStep p (· = adoptedData d m)) (fun _ => True)
      (handleCustommsg H p e (.lastCrossSignedState m)) w fun _ _ => True := by
    unfold handleCustommsg
    refine Does.bind (Does.ask (R := fun _ w' => w'.channel p = some d) fun _ _ => ⟨?_, hd⟩) ?_
    · exact RecordStep.same rfl
    · intro _ w' hd'
      exact Does.bind (does_handleLcss_adopts hd' hm).attempt fun _ _ _ => Does.pure trivial
  rcases RecordStep.trace (Does.run (o := o) hdoes (Prog.kept_of_forall fun _ _ _ => trivial)) with h | ⟨a, h, rfl⟩
  · exact Or.inl (h.trans hd)
  · exact Or.inr h

/-- Adopting a state keeps the host's pending updates that the state does not reflect exactly if there
    are none: it is only safe when the peer presents a state with all of them in it. -/
theorem adoption_keeps_local_updates_iff (H : Host) (w : World) (p : PublicKey) (e : WireEncoding)
    (m : LastCrossSignedState) (d d' : ChannelData) (o : Nat → Choice) (hd : w.channel p = some d) (hm : Adopts H p d m)
    (hd' : ((Op.message p e (.lastCrossSignedState m)).next H o w).channel p = some d') (hl : d'.lcss = m.reverse) :
    (∀ u, .ofLocal u ∈ d.uncommitted → ¬ Reflected m.reverse u → .ofLocal u ∈ d'.uncommitted) ↔
      ∀ u, .ofLocal u ∈ d.uncommitted → Reflected m.reverse u := by
  have hempty : d'.uncommitted = [] := by
    rcases channel_after_adoption hd hm e o with h | h
    · -- The old record is not the adopted one: the counters differ.
      obtain rfl : d = d' := Option.some.inj (h.symm.trans hd')
      exact absurd ⟨by rw [hl], by rw [hl]⟩ hm.2.2.2.2
    · obtain rfl : adoptedData d m = d' := Option.some.inj (h.symm.trans hd')
      rfl
  constructor
  · intro hkeeps u hu
    by_contra hr
    simpa [hempty] using hkeeps u hu hr
  · intro hall u hu hr
    exact absurd (hall u hu) hr

/-! ### A lost fulfil -/

/-- The preimage of the HTLC that the client sends. -/
def lostPreimage : ByteVec 32 := ByteVec.fill 32 5

/-- The client sends an HTLC out to the network, the host adds one to the client, and then the payment
    of the first succeeds: an addition and a fulfil of the host are pending. -/
def lostWorld : World := calmRun .transparent (openScript ++ [
  clientAdds openKey 1 1000 (digest lostPreimage.toList) 77, clientCommits .transparent openKey,
  fun _ => .pay ⟨[Host.transparent.scid openPeer], 500, ByteVec.fill 32 3, 20, ByteVec.fill 32 4⟩,
  fun _ => .paymentResult 77 1 (.succeeded lostPreimage)])

/-- The states that the host has signed with the addition alone, and with the fulfil on top. -/
def lostState (n : Nat) : LastCrossSignedState :=
  clientView .transparent openKey
    ((lostWorld.signed[n]?.map (·.2)).getD (initialLcss Host.transparent.config.policy []))

/-- The pending updates of the host. -/
def ChannelData.ours (d : ChannelData) : List PendingUpdate :=
  d.uncommitted.filterMap fun
    | .ofLocal u => some u
    | .ofRemote _ => none

theorem ChannelData.mem_ours {u : PendingUpdate} : u ∈ d.ours ↔ .ofLocal u ∈ d.uncommitted := by
  simp only [ChannelData.ours, List.mem_filterMap]
  constructor
  · rintro ⟨v, hv, hu⟩
    cases v with
    | ofLocal v =>
      obtain rfl : v = u := Option.some.inj hu
      exact hv
    | ofRemote v => cases hu
  · intro hu
    exact ⟨_, hu, rfl⟩

/-- What becomes of the record when the client presents a state. -/
def lostNext (n : Nat) : World :=
  (Op.message openPeer .strict (.lastCrossSignedState (lostState n))).next .transparent (fun _ => .calm) lostWorld

theorem adoption_keeps_local_updates_latest : ∃ d d', lostWorld.channel openPeer = some d ∧
    Adopts .transparent openPeer d (lostState 3) ∧ (lostNext 3).channel openPeer = some d' ∧
    d'.lcss = (lostState 3).reverse ∧ d.ours.length = 2 ∧
    ∀ u, .ofLocal u ∈ d.uncommitted → ¬ Reflected (lostState 3).reverse u → .ofLocal u ∈ d'.uncommitted := by
  have hrun : (lostWorld.channel openPeer).any (fun d => ((lostNext 3).channel openPeer).any fun d' =>
      decide (Adopts .transparent openPeer d (lostState 3) ∧ d'.lcss = (lostState 3).reverse ∧
        d.ours.length = 2 ∧ ∀ u ∈ d.ours, Reflected (lostState 3).reverse u)) = true := by
    decide +kernel
  obtain ⟨d, hd, hrun⟩ := exists_of_any hrun
  obtain ⟨d', hd', hrun⟩ := exists_of_any hrun
  obtain ⟨hm, hl, hlen, hall⟩ := of_decide_eq_true hrun
  refine ⟨d, d', hd, hm, hd', hl, hlen, ?_⟩
  refine (adoption_keeps_local_updates_iff .transparent lostWorld openPeer .strict (lostState 3) d d'
    (fun _ => .calm) hd hm hd' hl).mpr ?_
  intro u hu
  exact hall u (ChannelData.mem_ours.mpr hu)

/-- The client presents the state without the fulfil: the HTLC is still listed in it, but the fulfil
    is no longer pending. -/
theorem adoption_drops_pending_fulfill : ¬ ∀ (H : Host) (w : World) (p : PublicKey) (e : WireEncoding)
    (m : LastCrossSignedState) (d d' : ChannelData) (o : Nat → Choice), Reachable H Guard.free w →
    w.channel p = some d → Adopts H p d m →
    ((Op.message p e (.lastCrossSignedState m)).next H o w).channel p = some d' → d'.lcss = m.reverse →
    ∀ u, .ofLocal u ∈ d.uncommitted → ¬ Reflected m.reverse u → .ofLocal u ∈ d'.uncommitted := by
  intro hall
  have hrun : (lostWorld.channel openPeer).any (fun d => ((lostNext 2).channel openPeer).any fun d' =>
      decide (Adopts .transparent openPeer d (lostState 2) ∧ d'.lcss = (lostState 2).reverse ∧
        d'.uncommitted = [] ∧ ∃ u ∈ d.ours, ¬ Reflected (lostState 2).reverse u)) = true := by
    decide +kernel
  obtain ⟨d, hd, hrun⟩ := exists_of_any hrun
  obtain ⟨d', hd', hrun⟩ := exists_of_any hrun
  obtain ⟨hm, hl, hempty, u, hu, hr⟩ := of_decide_eq_true hrun
  have hkept := hall .transparent lostWorld openPeer .strict (lostState 2) d d' (fun _ => .calm)
    (calmRun_reachable _ _) hd hm hd' hl u (ChannelData.mem_ours.mp hu) hr
  rw [hempty] at hkept
  cases hkept

end Canopus
