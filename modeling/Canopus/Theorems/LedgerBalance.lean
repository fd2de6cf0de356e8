import Canopus.Theorems.Adoption
import Canopus.Theorems.ForwardFee
import Canopus.Theorems.LedgerEvents
import Canopus.Theorems.Overrides

/-! The balance that the ledger computes. `channel_balance` goes through the events of a peer, of which the types do not
    say who has added an HTLC and who has resolved it. It adds what either party fulfils, subtracts what either adds, and
    does nothing where an HTLC fails, while the client gains what it fulfils and its own HTLCs that fail, and pays for
    its own only. This module computes both from what was to be recorded in a run, and compares them. -/

namespace Canopus
open Effect Fallible StateManager
open Buffer (bind_eq_ok)

variable {H : Host} {K : Ctx} {B : Act → Prop} {E : Choice → Prop} {w w' v : World} {p peer : PublicKey}
  {d d' : ChannelData} {s t r : LastCrossSignedState} {us : List UncommittedUpdate} {u : UncommittedUpdate}
  {dues xs : List Due} {x : Due} {e : LedgerEvent} {seen : List EventId} {b : UInt64}

/-! ### The balance of the ledger -/

/-- What an event adds to the balance of the ledger. -/
def Due.change (x : Due) : Int :=
  match x.id.tag.eventType with
  | .channelOpen | .htlcFulfilled => x.amountMsat.toNat
  | .htlcForwarded => -x.amountMsat.toNat
  | .feeEarned | .htlcFailed | .override | .resize => 0

/-- The balance of the ledger after an event. -/
def Due.addTo (balance : UInt64) (x : Due) : UInt64 :=
  match x.id.tag.eventType with
  | .channelOpen | .htlcFulfilled => saturatingAdd balance x.amountMsat
  | .htlcForwarded => saturatingSub balance x.amountMsat
  | .feeEarned | .htlcFailed | .override | .resize => balance

/-- What the ledger leaves out of the changes of `dues`, where the events with the ids `seen` have led to the balance: the
    changes with a known id, and what saturation cuts off. A debit that is cut off counts as negative. -/
def leftOut (seen : List EventId) (balance : UInt64) : List Due → Int
  | [] => 0
  | x :: xs =>
    if x.id ∈ seen then x.change + leftOut seen balance xs
    else balance.toNat + x.change - (x.addTo balance).toNat + leftOut (x.id :: seen) (x.addTo balance) xs

/-- The ledger's balance stays between zero and what fits. -/
def InRange (dues : List Due) : Prop :=
  ∀ xs, xs <+: dues → 0 ≤ (xs.map Due.change).sum ∧ (xs.map Due.change).sum < 2 ^ 64

theorem saturatingSub_toNat (a b : UInt64) : (saturatingSub a b).toNat = a.toNat - b.toNat := by
  have := a.toNat_lt
  rw [saturatingSub, UInt64.toNat_ofNat', Nat.mod_eq_of_lt (by omega)]

/-- The event of a due changes the balance as the due does. -/
theorem Due.RecordedBy.addTo (h : x.RecordedBy e) (balance : UInt64) : e.addTo balance = x.addTo balance := by
  unfold LedgerEvent.addTo Due.addTo
  rw [h.type, h.amount]
  cases x.id.tag <;> rfl

theorem foldl_recorded {events : List LedgerEvent} (h : List.Forall₂ Due.RecordedBy xs events) :
    events.foldl LedgerEvent.addTo b = xs.foldl Due.addTo b := by
  induction h generalizing b with
  | nil => rfl
  | cons hx _ ih => rw [List.foldl_cons, List.foldl_cons, hx.addTo, ih]

theorem foldl_unseen (seen : List EventId) (b : UInt64) (xs : List Due) :
    (((unseen seen xs).foldl Due.addTo b).toNat : Int) + leftOut seen b xs =
      b.toNat + (xs.map Due.change).sum := by
  induction xs generalizing seen b with
  | nil => simp [unseen, leftOut]
  | cons x xs ih =>
    rw [unseen, leftOut, List.map_cons, List.sum_cons]
    by_cases hx : x.id ∈ seen
    · rw [if_pos hx, if_pos hx]
      have hrest := ih seen b
      omega
    · rw [if_neg hx, if_neg hx, List.foldl_cons]
      have hrest := ih (x.id :: seen) (x.addTo b)
      omega

/-- The balance of the ledger is the sum of the changes, apart from what it leaves out. -/
theorem LedgerHolds.channelBalance (h : LedgerHolds w dues) (p : PublicKey) :
    ((w.channelBalance p).toNat : Int) + leftOut [] 0 (duesTo dues p) = ((duesTo dues p).map Due.change).sum := by
  have hsum := foldl_unseen [] 0 (duesTo dues p)
  rw [← foldl_recorded (h.recorded p)] at hsum
  exact hsum.trans (Int.zero_add _)

/-- A change that fits is made as a whole. -/
theorem addTo_toNat (h : 0 ≤ (b.toNat : Int) + x.change) (hfits : (b.toNat : Int) + x.change < 2 ^ 64) :
    ((x.addTo b).toNat : Int) = b.toNat + x.change := by
  unfold Due.change at h hfits ⊢
  unfold Due.addTo
  cases htype : x.id.tag.eventType with
  | channelOpen | htlcFulfilled =>
    simp only [htype] at hfits ⊢
    rw [saturatingAdd_toNat]
    omega
  | htlcForwarded =>
    simp only [htype] at h ⊢
    rw [saturatingSub_toNat]
    omega
  | _ => simp

theorem leftOut_eq_zero (hn : (xs.map (·.id)).Nodup) (hseen : ∀ x ∈ xs, x.id ∉ seen)
    (hc : ∀ ys, ys <+: xs → 0 ≤ (b.toNat : Int) + (ys.map Due.change).sum ∧
      (b.toNat : Int) + (ys.map Due.change).sum < 2 ^ 64) : leftOut seen b xs = 0 := by
  induction xs generalizing seen b with
  | nil => rfl
  | cons x xs ih =>
    obtain ⟨hx, hn⟩ := List.nodup_cons.mp hn
    have hone := hc [x] ⟨xs, rfl⟩
    rw [List.map_singleton, List.sum_singleton] at hone
    have hadd := addTo_toNat hone.1 hone.2
    have hrest : leftOut (x.id :: seen) (x.addTo b) xs = 0 := by
      refine ih hn ?_ ?_
      · intro y hy hmem
        rcases List.mem_cons.mp hmem with hid | hmem
        · exact hx (List.mem_map.mpr ⟨y, hy, hid⟩)
        · exact hseen y (List.mem_cons_of_mem _ hy) hmem
      · intro ys hys
        have hmore := hc (x :: ys) ((List.prefix_cons_inj x).mpr hys)
        rw [List.map_cons, List.sum_cons] at hmore
        omega
    rw [leftOut, if_neg (hseen x (List.mem_cons_self ..)), hrest]
    omega

/-- Where no id is repeated and the sums are in range, nothing is left out. -/
theorem InRange.leftOut (hc : InRange xs) (hn : (xs.map (·.id)).Nodup) : leftOut [] 0 xs = 0 := by
  refine leftOut_eq_zero hn (fun _ _ hmem => by cases hmem) fun ys hys => ?_
  simpa using hc ys hys

/-! ### What the client gains -/

/-- What the client gains by what is recorded. -/
def Due.gain (x : Due) : Int :=
  match x.id.tag with
  | .channelOpen | .remoteFulfill _ | .localFail _ => x.amountMsat.toNat
  | .remoteAdd _ => -x.amountMsat.toNat
  | .localAdd _ | .localFulfill _ | .remoteFail _ | .override | .resize _ => 0

/-- The sum of the amounts of the dues with such a tag. -/
def sumOf (kind : EventTag → Bool) (dues : List Due) : Nat :=
  ((dues.filter fun x => kind x.id.tag).map (·.amountMsat.toNat)).sum

/-- The HTLCs of the client that the host has fulfilled. -/
def paid : List Due → Nat := sumOf fun | .localFulfill _ => true | _ => false

/-- The HTLCs that the host has added for the client. -/
def offered : List Due → Nat := sumOf fun | .localAdd _ => true | _ => false

/-- The HTLCs of the client that the host has failed. -/
def returned : List Due → Nat := sumOf fun | .localFail _ => true | _ => false

theorem sumOf_cons (kind : EventTag → Bool) :
    sumOf kind (x :: xs) = (if kind x.id.tag then x.amountMsat.toNat else 0) + sumOf kind xs := by
  unfold sumOf
  rw [List.filter_cons]
  split
  · rw [List.map_cons, List.sum_cons]
  · rw [Nat.zero_add]

/-- The ledger and the client's balance differ by what the host fulfils, on the one hand, and by what it adds and what it
    fails, on the other. -/
theorem change_sub_gain (xs : List Due) : (xs.map Due.change).sum + offered xs + returned xs =
    (xs.map Due.gain).sum + paid xs := by
  induction xs with
  | nil => rfl
  | cons x xs ih =>
    unfold paid offered returned at ih ⊢
    simp only [sumOf_cons, List.map_cons, List.sum_cons, Due.change, Due.gain]
    cases x.id.tag <;> simp only [EventTag.eventType, Bool.false_eq_true, if_true, if_false] <;> omega

/-! #### In a commit -/

/-- The amount of the HTLC that an update takes out, where its party fulfils it. -/
theorem totalAmount_fulfilledBy (isLocal : Bool) (u : UncommittedUpdate) (htlc? : Option UpdateAddHtlc) :
    totalAmount (fulfilledBy isLocal (htlc?.map (u, ·)).toList) =
      if u.isLocal = isLocal ∧ u.preimage?.isSome then ((htlc?.map fun h : UpdateAddHtlc => h.amountMsat).getD 0).toNat else 0 := by
  cases htlc? with
  | none => simp [fulfilledBy, takenBy, totalAmount]
  | some htlc =>
    cases hside : u.isLocal == isLocal <;> cases hp : u.preimage? <;>
      simp_all [fulfilledBy, takenBy, totalAmount]

/-- And where it fails it. -/
theorem totalAmount_failedBy (isLocal : Bool) (u : UncommittedUpdate) (htlc? : Option UpdateAddHtlc) :
    totalAmount (failedBy isLocal (htlc?.map (u, ·)).toList) =
      if u.isLocal = isLocal ∧ u.preimage?.isNone then ((htlc?.map fun h : UpdateAddHtlc => h.amountMsat).getD 0).toNat else 0 := by
  cases htlc? with
  | none => simp [failedBy, takenBy, totalAmount]
  | some htlc =>
    cases hside : u.isLocal == isLocal <;> cases hp : u.preimage? <;>
      simp_all [failedBy, takenBy, totalAmount]

/-- One update changes the client's balance by what it gains. -/
theorem applyUpdate_gain {C : Crypto} (peer : PublicKey) (m n : UInt32) (ha : applyUpdate C s u = .ok t) :
    (t.remoteBalanceMsat.toNat : Int) = s.remoteBalanceMsat.toNat + Due.gain ⟨⟨peer, m, n, u.eventTag⟩, s.amountOf u⟩ := by
  have hremote := (applyUpdate_accounts ha).remote
  rw [totalAmount_fulfilledBy, totalAmount_failedBy] at hremote
  unfold Due.gain LastCrossSignedState.amountOf
  rcases u with (u | u) <;> cases u <;>
    simp [remoteAdds, totalAmount, UncommittedUpdate.eventTag, UncommittedUpdate.isLocal, UncommittedUpdate.preimage?,
      PendingUpdate.preimage?, LastCrossSignedState.htlcTaken, resolutionKey] at hremote ⊢ <;> omega

/-- An HTLC stays where a resolution finds it, until it is resolved. -/
theorem htlcTaken_applied {C : Crypto} {u' : UncommittedUpdate} {htlc : UpdateAddHtlc} (ha : applyUpdate C s u = .ok t)
    (hk : resolutionKey u ≠ resolutionKey u') (htaken : s.htlcTaken u' = some htlc) : t.htlcTaken u' = some htlc := by
  have hone : applyUpdates C s [u] = .ok t := bind_eq_ok.mpr ⟨t, ha, rfl⟩
  have hother : ∀ v ∈ [u], resolutionKey v ≠ resolutionKey u' := by
    intro v hv
    rw [List.mem_singleton.mp hv]
    exact hk
  unfold LastCrossSignedState.htlcTaken at htaken ⊢
  split at htaken
  · rename_i id hkey
    exact applyUpdates_find_incoming hone (hkey ▸ hother) htaken
  · rename_i id hkey
    exact applyUpdates_find_outgoing hone (hkey ▸ hother) htaken
  · cases htaken

theorem exists_htlcTaken {key : Bool × UInt64} (hk : resolutionKey u = some key) (hl : s.Lists key) :
    ∃ htlc, s.htlcTaken u = some htlc := by
  rcases key with ⟨_ | _, id⟩
  · obtain ⟨htlc, hfind⟩ := exists_find_of_any hl
    exact ⟨htlc, by simp only [LastCrossSignedState.htlcTaken, hk, hfind]⟩
  · obtain ⟨htlc, hfind⟩ := exists_find_of_any hl
    exact ⟨htlc, by simp only [LastCrossSignedState.htlcTaken, hk, hfind]⟩

theorem amountOf_congr (h : (resolutionKey u).isSome → s.htlcTaken u = t.htlcTaken u) : s.amountOf u = t.amountOf u := by
  unfold LastCrossSignedState.amountOf
  split
  · rfl
  · rfl
  · rename_i hl hr
    rw [h]
    rcases u with (u | u) <;> cases u with
    | add htlc => first | exact absurd rfl (hl htlc) | exact absurd rfl (hr htlc)
    | _ => rfl

/-- Updates that resolve what `r` lists, each HTLC once, change the client's balance by what it gains, with the amounts
    that `r` has. -/
theorem applyUpdates_gain {C : Crypto} (peer : PublicKey) (m n : UInt32) (hn : (us.filterMap resolutionKey).Nodup)
    (hsame : ∀ u ∈ us, ∀ key, resolutionKey u = some key →
      ∃ htlc, s.htlcTaken u = some htlc ∧ r.htlcTaken u = some htlc) (ha : applyUpdates C s us = .ok t) :
    (t.remoteBalanceMsat.toNat : Int) = s.remoteBalanceMsat.toNat +
      ((us.map fun u => (⟨⟨peer, m, n, u.eventTag⟩, r.amountOf u⟩ : Due)).map Due.gain).sum := by
  induction us generalizing s with
  | nil =>
    cases ha
    simp
  | cons u us ih =>
    obtain ⟨s', hs', ha⟩ := bind_eq_ok.mp ha
    have hamount : s.amountOf u = r.amountOf u := by
      refine amountOf_congr fun hk => ?_
      obtain ⟨key, hk⟩ := Option.isSome_iff_exists.mp hk
      obtain ⟨htlc, hs, hr⟩ := hsame u (List.mem_cons_self ..) key hk
      rw [hs, hr]
    have hone := applyUpdate_gain peer m n hs'
    have hrest := ih ?_ ?_ ha
    · rw [List.map_cons, List.map_cons, List.sum_cons, ← hamount]
      omega
    · rw [List.filterMap_cons] at hn
      split at hn
      · exact hn
      · exact (List.nodup_cons.mp hn).2
    · intro v hv key hk
      obtain ⟨htlc, hs, hr⟩ := hsame v (List.mem_cons_of_mem _ hv) key hk
      refine ⟨htlc, htlcTaken_applied hs' ?_ hs, hr⟩
      intro heq
      rw [List.filterMap_cons_some (heq.trans hk)] at hn
      exact (List.nodup_cons.mp hn).1 (List.mem_filterMap.mpr ⟨v, hv, hk⟩)

/-- What the client gains by a commit is what is to be recorded of it. -/
theorem ResolvesCommitted.gain {next : LastCrossSignedState} (h : ResolvesCommitted d)
    (hn : (d.uncommitted.filterMap resolutionKey).Nodup) (hnext : d.next H = .ok next) :
    (next.remoteBalanceMsat.toNat : Int) = d.lcss.remoteBalanceMsat.toNat +
      ((StateManager.dues peer ⟨d.lcss, d.uncommitted⟩).map Due.gain).sum := by
  obtain ⟨t, ht, rfl⟩ := lcssNext_eq_ok hnext
  refine (applyUpdates_gain (r := d.lcss) peer _ _ hn ?_ ht :)
  intro u hu key hk
  obtain ⟨htlc, htaken⟩ := exists_htlcTaken hk (h.lists hnext u hu key hk)
  exact ⟨htlc, htaken, htaken⟩

/-! ### The client's balance -/

/-- The client's balance in an established channel. -/
def ChannelData.clientBalance (d : ChannelData) : UInt64 := if d.established then d.lcss.remoteBalanceMsat else 0

def World.clientBalance (w : World) (p : PublicKey) : UInt64 := ((w.channel p).map (·.clientBalance)).getD 0

/-- The operation neither removes `p`'s channel nor replaces its state: it is not the acceptance of an override, and no
    state that `p` presents is adopted. -/
structure Undisturbed (H : Host) (p : PublicKey) (w : World) (op : Op) : Prop where
  kept : ∀ force, op ≠ .removeChannel p force
  overridden : ∀ e m d, op = .message p e (.stateUpdate m) → w.channel p = some d → ¬ Accepts H p d m
  adopted : ∀ e m d, op = .message p e (.lastCrossSignedState m) → w.channel p = some d → ¬ Adopts H p d m

/-- The operation is no `state_update` that opens `p`'s channel or commits its updates. -/
def Idle (p : PublicKey) (w : World) (op : Op) : Prop :=
  ∀ e m d, op = .message p e (.stateUpdate m) → w.channel p = some d →
    deriveStatus d ≠ .opening ∧ deriveStatus d ≠ .active

theorem World.clientBalance_of_channel (hd : w.channel p = some d) : w.clientBalance p = d.clientBalance := by
  rw [World.clientBalance, hd]
  rfl

theorem clientBalance_eq_zero (h : d.established = false) : d.clientBalance = 0 := by
  rw [ChannelData.clientBalance, h]
  rfl

/-- Only opening the channel, a commit, an override and an adoption change the client's balance. -/
theorem Changes.clientBalance {c : Change} (hc : Changes K.host p c d d') (ho : c.Cause K w p d)
    (hop : Undisturbed K.host p K.start K.op) (hidle : Idle p K.start K.op) : d'.clientBalance = d.clientBalance := by
  cases hc with
  | established hs =>
    obtain ⟨⟨e, hmsg⟩, hstart⟩ := ho
    exact absurd hs (hidle e _ d hmsg hstart).1
  | committed hs =>
    obtain ⟨⟨e, hmsg⟩, d₀, hstart, rfl | rfl⟩ := ho
    · exact absurd hs (hidle e _ _ hmsg hstart).2
    · exact absurd hs (hidle e _ _ hmsg hstart).2
  | overridden hs hp hv _ hcount =>
    obtain ⟨⟨e, hmsg⟩, hstart⟩ := ho
    exact absurd ⟨hs, _, hp, hcount.1, hcount.2, hv⟩ (hop.overridden e _ d hmsg hstart)
  | adopted hown hv hl hr hne =>
    obtain ⟨⟨e, hmsg⟩, hstart⟩ := ho
    exact absurd ⟨hown, hv, hl, hr, hne⟩ (hop.adopted e _ d hmsg hstart)
  | errored _ hd =>
    subst hd
    rfl
  | resized _ _ _ _ _ _ _ hl =>
    unfold ChannelData.clientBalance
    rw [(SignedAlike.sign hl).remoteBalance]
    rfl
  | proposed hd =>
    subst hd
    rfl
  | _ => rfl

/-- A channel that is not suspended stays so, and keeps the client's balance. -/
theorem Step.clientBalance {act : Act} (hs : Step K act w w') (hop : Undisturbed K.host p K.start K.op)
    (hidle : Idle p K.start K.op) (hsus : ∀ d, w.channel p = some d → d.suspended = false) :
    w'.clientBalance p = w.clientBalance p ∧ ∀ d, w'.channel p = some d → d.suspended = false := by
  cases hs.record p with
  | same h =>
    unfold World.clientBalance
    rw [h]
    exact ⟨rfl, hsus⟩
  | created hn _ _ _ h =>
    rw [World.clientBalance_of_channel h, clientBalance_eq_zero rfl]
    refine ⟨?_, fun d hd => ?_⟩
    · cases hd : w.channel p with
      | none =>
        rw [World.clientBalance, hd]
        rfl
      | some d =>
        rcases hn d hd with hn | hn
        · rw [World.clientBalance_of_channel hd, clientBalance_eq_zero (not_established_of_notOpened hn)]
        · cases (suspended_of_status hn).symm.trans (hsus d hd)
    · obtain rfl := Option.some.inj (h.symm.trans hd)
      rfl
  | @wrote _ d d' hd hc ho _ _ _ h =>
    rw [World.clientBalance_of_channel h, World.clientBalance_of_channel hd]
    refine ⟨hc.clientBalance ho hop hidle, fun d₁ hd₁ => ?_⟩
    obtain rfl := Option.some.inj (h.symm.trans hd₁)
    exact hc.suspended (hsus d hd)
  | removed ho =>
    obtain ⟨force, ho⟩ := ho
    exact absurd ho (hop.kept force)

theorem clientBalance_of_trace (ht : K.Trace B w w') (hop : Undisturbed K.host p K.start K.op)
    (hidle : Idle p K.start K.op) (hsus : ∀ d, w.channel p = some d → d.suspended = false) :
    w'.clientBalance p = w.clientBalance p := by
  refine (ht.keeps (P := fun v => v.clientBalance p = w.clientBalance p ∧ ∀ d, v.channel p = some d →
    d.suspended = false) ?_ ⟨rfl, hsus⟩).1
  intro _ u v _ hs ⟨hu, husus⟩
  have hv := hs.clientBalance hop hidle husus
  exact ⟨hv.1.trans hu, hv.2⟩

/-! ### Opening and committing -/

/-- Nothing was signed and the client's balance is the same, or something was signed and it has changed by what the client
    gains by `xs`. -/
def Gains (p : PublicKey) (w : World) (xs : List Due) (v : World) : Prop :=
  v.signed.length = w.signed.length ∧ v.clientBalance p = w.clientBalance p ∨
    w.signed.length < v.signed.length ∧
      ((v.clientBalance p).toNat : Int) = (w.clientBalance p).toNat + (xs.map Due.gain).sum

theorem Gains.of_eq (h : w = v) : Gains p w xs v := by
  subst h
  exact Or.inl ⟨rfl, rfl⟩

theorem Quiet.clientBalance (h : Quiet w w') : w'.clientBalance p = w.clientBalance p := by
  unfold World.clientBalance
  rw [h.channel p]

section Messages
variable {m : StateUpdate} (hE : Unfailing E)
include hE

/-- A state is signed and saved, and what follows keeps its balance. -/
theorem surely_gains {record rest : LastCrossSignedState → Ctl Unit} {saved : LastCrossSignedState → ChannelData}
    (hgain : ∀ lcss, s.sign H.crypto H.nodeSecret = .ok lcss →
      ((saved lcss).clientBalance.toNat : Int) = (w.clientBalance p).toNat + (xs.map Due.gain).sum)
    (hrecord : ∀ lcss, Recording (record lcss))
    (hrest : ∀ lcss v, v.channel p = some (saved lcss) → Surely exec E (rest lcss)
      (fun _ v' => v.signed.length ≤ v'.signed.length ∧ v'.clientBalance p = v.clientBalance p) v) :
    Surely exec E (do
      let lcss ← signFor H p s
      saveChannel p (saved lcss) none
      record lcss
      rest lcss) (fun _ v => Gains p w xs v) w := by
  refine surely_signs hE (Gains.of_eq rfl) fun lcss hsign => ?_
  have hstored : ∀ {v : World}, Recorded ((w.noteSigned p lcss).put .channels p (saved lcss)) v →
      v.channel p = some (saved lcss) ∧ v.signed.length = w.signed.length + 1 := by
    intro v hv
    refine ⟨(hv.channel p).trans World.channel_put, ?_⟩
    rw [hv.signed]
    exact List.length_append
  refine Surely.andThen (Stays.surely (hrecord lcss)) ?_ ?_
  · intro _ v hv
    obtain ⟨hchannel, hgrown⟩ := hstored hv
    refine (hrest lcss v hchannel).mono fun _ v' hv' => Or.inr ⟨?_, ?_⟩
    · have := hv'.1
      omega
    · rw [hv'.2, World.clientBalance_of_channel hchannel]
      exact hgain lcss hsign
  · intro e v hv
    obtain ⟨hchannel, hgrown⟩ := hstored hv
    refine Or.inr ⟨by omega, ?_⟩
    rw [World.clientBalance_of_channel hchannel]
    exact hgain lcss hsign

/-- Opening the channel gives the client the balance of the record. -/
theorem surely_opens (hd : w.channel p = some d) (hs : deriveStatus d = .opening) :
    Surely exec E (handleOpeningStateUpdate H p d m)
      (fun _ v => Gains p w [⟨⟨p, 0, 0, .channelOpen⟩, d.lcss.remoteBalanceMsat⟩] v) w := by
  unfold handleOpeningStateUpdate
  refine surely_onDay (Gains.of_eq rfl) fun day => ?_
  split
  · exact Surely.pure (Gains.of_eq rfl)
  split
  · exact Surely.pure (Gains.of_eq rfl)
  refine surely_gains hE ?_ (fun lcss => Recording.recordLedgerOnce _ _ _ _ _ _) ?_
  · intro lcss hsign
    rw [World.clientBalance_of_channel hd, clientBalance_eq_zero (not_established_of_opening hs)]
    show (lcss.remoteBalanceMsat.toNat : Int) = _
    rw [(SignedAlike.sign hsign).remoteBalance]
    simp [Due.gain, openedLcss]
  · intro lcss v _
    have hsend := Silent.sendMessage p (.stateUpdate lcss.stateUpdate) rfl
    refine (Stays.surely (hsend.bind fun _ => Silent.sendChannelUpdate H p)).mono fun _ v' hq => ?_
    exact ⟨by rw [hq.signed], hq.clientBalance⟩

/-- A commit gives it what it gains by the updates. -/
theorem surely_commits (hb : w.clientBalance p = d.clientBalance) (he : d.established = true) (hsus : d.suspended = false)
    (hr : ResolvesCommitted d) (hn : (d.uncommitted.filterMap resolutionKey).Nodup) :
    Surely exec E (commitUpdates H p d m)
      (fun _ v => Gains p w (StateManager.dues p ⟨d.lcss, d.uncommitted⟩) v) w := by
  unfold commitUpdates
  cases hnext : lcssNext H.crypto ⟨d.lcss, d.uncommitted⟩ with
  | error e => exact Yields.fail Yields.throw (Gains.of_eq rfl)
  | ok next =>
    refine Yields.pure.bind ?_
    split
    · exact Surely.pure (Gains.of_eq rfl)
    have hbalance : ∀ lcss, ({ d with lcss := lcss, uncommitted := [] } : ChannelData).clientBalance =
        lcss.remoteBalanceMsat := fun _ => if_pos he
    refine surely_gains hE ?_ (fun lcss => Recording.recordCommittedUpdateEvents _ _ _ _) ?_
    · intro lcss hsign
      rw [hbalance, (SignedAlike.sign hsign).remoteBalance, hb, ChannelData.clientBalance, if_pos he]
      exact (hr.gain hn hnext :)
    · intro lcss v hv
      have hsend := Silent.sendMessage p (.stateUpdate lcss.stateUpdate) rfl
      refine Surely.andThen (Stays.surely hsend) ?_ ?_
      · intro _ v₁ hq
        have hchannel : v₁.channel p = some { d with lcss := lcss, uncommitted := [] } := (hq.channel p).trans hv
        have hconnect : Undisturbed H p v₁ (.connect p) := by
          refine ⟨fun _ h => ?_, fun _ _ _ h => ?_, fun _ _ _ h => ?_⟩ <;> cases h
        refine (surely_dispatched (by rw [hchannel]; rfl)).mono fun _ v₂ ht => ⟨?_, ?_⟩
        · rw [← hq.signed]
          exact (unbooked_of_trace rfl ht).signed
        · rw [clientBalance_of_trace ht hconnect (fun _ _ _ h => by cases h) ?_]
          · exact hq.clientBalance
          · intro d₁ hd₁
            obtain rfl := Option.some.inj (hchannel.symm.trans hd₁)
            exact hsus
      · exact fun _ v₁ hq => ⟨by rw [hq.signed], hq.clientBalance⟩

theorem surely_gainsActive (hd : w.channel p = some d) (hs : deriveStatus d = .active) (hsus : d.suspended = false)
    (hr : ResolvesCommitted d) : Surely exec E (handleActiveStateUpdate H p d m)
      (fun _ v => Gains p w (d.dues p (.stateUpdate m)) v) w := by
  rw [d.dues_active p m hs]
  have hrepaired : ∀ v, Ignored w p d v → v.clientBalance p = d.deduplicated.clientBalance := by
    intro v hv
    rcases hv.record with hv | hv
    · exact (World.clientBalance_of_channel hv :)
    · exact World.clientBalance_of_channel hv
  have hbalance : w.clientBalance p = d.deduplicated.clientBalance := (World.clientBalance_of_channel hd :)
  refine Surely.andThen ((surely_repair hd).and (Stays.surely unsigned_repair)) ?_ ?_
  · rintro d' v ⟨⟨hv, hd'⟩, hu⟩
    obtain rfl := hd' d' rfl
    have hsame := hrepaired v hv
    refine Surely.mono (Q := fun _ v' => Gains p v (StateManager.dues p ⟨d.lcss, d.deduplicated.uncommitted⟩) v') ?_ ?_
    · split
      · exact Surely.pure (Gains.of_eq rfl)
      split
      · exact Surely.pure (Gains.of_eq rfl)
      refine surely_onDay (Gains.of_eq rfl) fun day => ?_
      split
      · exact Surely.pure (Gains.of_eq rfl)
      · refine surely_commits hE hsame (established_of_active hs) hsus ?_ (dedupFrom_nodup [] d.uncommitted).1
        exact hr.fewer (dedupFrom_sublist [] d.uncommitted) rfl rfl rfl
    · intro _ v' hv'
      unfold Gains at hv' ⊢
      rw [hu.signed, hsame.trans hbalance.symm] at hv'
      exact hv'
  · rintro _ v ⟨⟨hv, -⟩, hu⟩
    exact Or.inl ⟨by rw [hu.signed], (hrepaired v hv).trans hbalance.symm⟩

/-- What the client gains by a `state_update` in a channel that is opening or active. -/
theorem surely_gainsStateUpdate (hd : w.channel p = some d) (hs : deriveStatus d = .opening ∨ deriveStatus d = .active)
    (hsus : d.suspended = false) (hr : ResolvesCommitted d) : Surely exec E (handleStateUpdate H p m)
      (fun _ v => Gains p w (d.dues p (.stateUpdate m)) v) w := by
  refine Surely.andThen surely_loadExisting ?_ ?_
  · rintro d' _ ⟨rfl, hd'⟩
    obtain rfl := Option.some.inj (hd.symm.trans (hd' d' rfl))
    rcases hs with hs | hs
    · rw [d.dues_opening p m hs, hs]
      exact surely_opens hE hd hs
    · rw [hs]
      exact surely_gainsActive hE hd hs hsus hr
  · rintro e _ ⟨rfl, -⟩
    exact Gains.of_eq rfl

end Messages

/-! ### Runs -/

theorem ChannelData.dues_peer {msg : HostedMessage} (hx : x ∈ d.dues peer msg) : x.id.peer = peer := by
  cases msg with
  | stateUpdate m =>
    unfold ChannelData.dues at hx
    dsimp only at hx
    split at hx
    · rw [List.mem_singleton.mp hx]
    · obtain ⟨s, -, rfl⟩ := List.mem_map.mp hx
      rfl
    · obtain ⟨u, -, rfl⟩ := List.mem_map.mp hx
      rfl
    all_goals cases hx
  | resizeChannel m =>
    obtain ⟨capacity, -, rfl⟩ := List.mem_map.mp hx
    rfl
  | _ => cases hx

/-- What an operation has to record is due to the peer of its message. -/
theorem Op.dues_message {op : Op} (hx : x ∈ op.dues w v) : ∃ e msg d, op = .message x.id.peer e msg ∧
    w.channel x.id.peer = some d ∧ x ∈ d.dues x.id.peer msg := by
  cases op with
  | message q e msg =>
    simp only [Op.dues] at hx
    split at hx
    · cases hd : w.channel q with
      | none =>
        rw [hd] at hx
        cases hx
      | some d =>
        rw [hd, Option.map_some, Option.getD_some] at hx
        have hq := d.dues_peer hx
        rw [hq]
        exact ⟨e, msg, d, rfl, hd, hx⟩
    · cases hx
  | _ => cases hx

/-- An event that is recorded for a message of `p` without opening or committing gives nothing. -/
theorem gain_of_idle {op : Op} (hidle : Idle p w op) (hx : x ∈ duesTo (op.dues w v) p) : x.gain = 0 := by
  obtain ⟨hx, hp⟩ := List.mem_filter.mp hx
  obtain ⟨e, msg, d, hop, hd, hx⟩ := Op.dues_message hx
  rw [beq_iff_eq.mp hp] at hop hd hx
  cases msg with
  | stateUpdate m =>
    have hs := hidle e m d hop hd
    unfold ChannelData.dues at hx
    dsimp only at hx
    split at hx
    · exact absurd ‹_› hs.1
    · obtain ⟨s, -, rfl⟩ := List.mem_map.mp hx
      rfl
    · exact absurd ‹_› hs.2
    all_goals cases hx
  | resizeChannel m =>
    obtain ⟨capacity, -, rfl⟩ := List.mem_map.mp hx
    rfl
  | _ => cases hx

/-- What is due to `p` for its own message. -/
theorem duesTo_message {encoding : WireEncoding} {msg : HostedMessage} (hd : w.channel p = some d) :
    duesTo ((Op.message p encoding msg).dues w v) p =
      if w.signed.length < v.signed.length then d.dues p msg else [] := by
  simp only [Op.dues, hd, Option.map_some, Option.getD_some]
  split
  · exact List.filter_eq_self.mpr fun x hx => beq_iff_eq.mpr (d.dues_peer hx)
  · rfl

/-- An operation changes the client's balance by what the client gains. -/
theorem gain_next {op : Op} {o : Nat → Choice} (hw : Reachable H .free w) (ho : ∀ n, (o n).fails = false)
    (hop : Undisturbed H p w op) : ((op.next H o w).clientBalance p).toNat =
      (w.clientBalance p).toNat + ((duesTo (op.dues w (op.next H o w)) p).map Due.gain).sum := by
  by_cases hidle : Idle p w op
  · have hzero : ((duesTo (op.dues w (op.next H o w)) p).map Due.gain).sum = 0 := by
      refine List.sum_eq_zero fun g hg => ?_
      obtain ⟨x, hx, rfl⟩ := List.mem_map.mp hg
      exact gain_of_idle hidle hx
    rw [hzero, clientBalance_of_trace (trace_free H w op o) hop hidle (hw.not_suspended p), Int.add_zero]
  · simp only [Idle, not_forall, not_and_or, not_not] at hidle
    obtain ⟨e, m, d, rfl, hd, hs⟩ := hidle
    have hgains : Gains p w (d.dues p (.stateUpdate m)) ((Op.message p e (.stateUpdate m)).next H o w) := by
      refine Surely.run (E := fun x => x.fails = false) (surely_message ?_) ho
      exact surely_gainsStateUpdate (w := { w with peerWireEncodings := w.peerWireEncodings.insert p e })
        (fun _ hx => hx) hd hs (hw.not_suspended p d hd) (hw.resolvesCommitted hd)
    rw [duesTo_message hd]
    rcases hgains with ⟨hsigned, hsame⟩ | ⟨hgrown, hgain⟩
    · rw [if_neg (by omega), hsame]
      rfl
    · rw [if_pos hgrown]
      exact hgain

/-- Where the channel's state is never replaced, the client has what it has gained. -/
theorem Billed.clientBalance (h : Billed H (Undisturbed H p) w dues) :
    ((w.clientBalance p).toNat : Int) = ((duesTo dues p).map Due.gain).sum := by
  induction h with
  | start => rfl
  | step op o hw ho hop ih =>
    rw [gain_next hw.reachable ho hop, ih, duesTo_append, List.map_append, List.sum_append]

/-! ### The result -/

/-- In a run in which no call fails, which neither removes `p`'s channel nor replaces its state, and which has not used up
    the numbers of the ledger, `channel_balance` is the client's balance exactly if the amounts of the client's HTLCs
    that the host has fulfilled are those of the HTLCs that the host has added and of the client's HTLCs that it has
    failed, as far as no two events have the same id and the sums are in range. In any case what the ledger leaves out is
    to be added. -/
theorem ledger_balance_is_client_balance (H : Host) (p : PublicKey) (w : World) (dues : List Due) (d : ChannelData)
    (hrun : Billed H (Undisturbed H p) w dues) (hfits : dues.length < 2 ^ 64) (hd : w.channel p = some d)
    (he : d.established = true) :
    (((duesTo dues p).map (·.id)).Nodup → InRange (duesTo dues p) →
      (w.channelBalance p = d.lcss.remoteBalanceMsat ↔
        paid (duesTo dues p) = offered (duesTo dues p) + returned (duesTo dues p))) ∧
    (w.channelBalance p = d.lcss.remoteBalanceMsat ↔
      (paid (duesTo dues p) : Int) = offered (duesTo dues p) + returned (duesTo dues p) + leftOut [] 0 (duesTo dues p)) := by
  have hledger := (hrun.ledgerHolds hfits).channelBalance p
  have hclient := hrun.clientBalance
  rw [World.clientBalance_of_channel hd, ChannelData.clientBalance, if_pos he] at hclient
  have hdiff := change_sub_gain (duesTo dues p)
  have hexact : w.channelBalance p = d.lcss.remoteBalanceMsat ↔ (paid (duesTo dues p) : Int) =
      offered (duesTo dues p) + returned (duesTo dues p) + leftOut [] 0 (duesTo dues p) := by
    rw [← UInt64.toNat_inj]
    omega
  refine ⟨fun hn hc => ?_, hexact⟩
  rw [hexact, hc.leftOut hn]
  omega

/-- What a script has to record, when nothing fails, with the amounts. -/
def duesFrom (H : Host) : World → List (World → Op) → List Due
  | _, [] => []
  | w, op :: script => (op w).dues w ((op w).next H (fun _ => .calm) w) ++
    duesFrom H ((op w).next H (fun _ => .calm) w) script

theorem calmRun_billed {G : World → Op → Prop} {script : List (World → Op)}
    (h : (Guard.ofOp G).Follows H World.empty script) :
    Billed H G (calmRun H script) (duesFrom H World.empty script) := by
  have hfrom : ∀ w dues, Billed H G w dues → (Guard.ofOp G).Follows H w script →
      Billed H G (script.foldl (fun w op => (op w).next H (fun _ => .calm) w) w) (dues ++ duesFrom H w script) := by
    clear h
    induction script with
    | nil =>
      intro w dues h _
      rw [duesFrom, List.append_nil]
      exact h
    | cons op script ih =>
      intro w dues h ⟨hop, hrest⟩
      rw [duesFrom, ← List.append_assoc]
      exact ih _ _ (.step (op w) _ h (fun _ => rfl) hop.1) hrest
  exact hfrom _ _ .start h

/-- The operation is nothing that could remove or resize `p`'s channel, or replace its state. -/
def undisturbed (p : PublicKey) (w : World) : Op → Bool
  | .removeChannel q _ | .message q _ (.lastCrossSignedState _) | .message q _ (.resizeChannel _) => q ≠ p
  | .message q _ (.stateUpdate _) => q ≠ p || (w.channel p).all fun d => deriveStatus d ≠ .overriding
  | _ => true

theorem undisturbed_sound {op : Op} (h : undisturbed p w op = true) :
    Undisturbed H p w op ∧ ∀ e m, op ≠ .message p e (.resizeChannel m) := by
  refine ⟨⟨?_, ?_, ?_⟩, ?_⟩
  · rintro force rfl
    simp [undisturbed] at h
  · rintro e m d rfl hd haccepts
    simp only [undisturbed, hd, Option.all_some, ne_eq, not_true_eq_false, decide_false, Bool.false_or,
      decide_eq_true_eq] at h
    exact h haccepts.status
  · rintro e m d rfl
    simp [undisturbed] at h
  · rintro e m rfl
    simp [undisturbed] at h

/-- The host fulfils an HTLC of the client, and the client one of the host with the same amount. -/
def evenScript : List (World → Op) := openScript ++ [
  clientAdds openKey 1 500 (digest lostPreimage.toList) 77, clientCommits .transparent openKey,
  fun _ => .paymentResult 77 1 (.succeeded lostPreimage), clientCommits .transparent openKey,
  fun _ => .pay ⟨[Host.transparent.scid openPeer], 500, digest (ByteVec.fill 32 6 : ByteVec 32).toList, 20,
    ByteVec.fill 32 4⟩, clientCommits .transparent openKey,
  clientFulfills openKey 2 (ByteVec.fill 32 6), clientCommits .transparent openKey]

/-- One HTLC in each direction makes up for the other. -/
theorem ledger_balance_is_client_balance_even : ∃ d, (calmRun .transparent evenScript).channel openPeer = some d ∧
    HtlcFree d.lcss ∧ d.uncommitted = [] ∧
    (calmRun .transparent evenScript).channelBalance openPeer = d.lcss.remoteBalanceMsat := by
  have hrun : (followsOps (undisturbed openPeer) .transparent World.empty evenScript &&
      decide ((duesFrom .transparent World.empty evenScript).length < 2 ^ 64 ∧
        (paid (duesTo (duesFrom .transparent World.empty evenScript) openPeer) : Int) =
          offered (duesTo (duesFrom .transparent World.empty evenScript) openPeer) +
          returned (duesTo (duesFrom .transparent World.empty evenScript) openPeer) +
          leftOut [] 0 (duesTo (duesFrom .transparent World.empty evenScript) openPeer)) &&
      ((calmRun .transparent evenScript).channel openPeer).any (fun d => d.established &&
        decide (d.lcss.incomingHtlcs = [] ∧ d.lcss.outgoingHtlcs = [] ∧ d.uncommitted = []))) = true := by
    decide +kernel
  simp only [Bool.and_eq_true, decide_eq_true_eq] at hrun
  obtain ⟨⟨hfollows, hfits, heven⟩, hend⟩ := hrun
  obtain ⟨d, hd, hend⟩ := exists_of_any hend
  rw [Bool.and_eq_true, decide_eq_true_eq] at hend
  obtain ⟨he, hin, hout, hempty⟩ := hend
  have hbilled : Billed .transparent (Undisturbed .transparent openPeer) (calmRun .transparent evenScript)
      (duesFrom .transparent World.empty evenScript) :=
    calmRun_billed (followsOps_sound (fun _ _ h => (undisturbed_sound h).1) hfollows)
  have hresult := (ledger_balance_is_client_balance .transparent openPeer _ _ d hbilled hfits hd he).2
  exact ⟨d, hd, ⟨hin, hout⟩, hempty, hresult.mpr heven⟩

/-- An HTLC of the client that has failed is missing in the ledger. -/
theorem ledger_balance_misses_failed : ¬ ∀ (H : Host) (p : PublicKey) (w : World) (dues : List Due) (d : ChannelData),
    Billed H (fun w op => Undisturbed H p w op ∧ ∀ e m, op ≠ .message p e (.resizeChannel m)) w dues →
    dues.length < 2 ^ 64 → w.channel p = some d → d.established = true → HtlcFree d.lcss → d.uncommitted = [] →
    w.channelBalance p = d.lcss.remoteBalanceMsat := by
  intro hall
  have hrun : (followsOps (undisturbed openPeer) .transparent World.empty bookedScript &&
      decide ((duesFrom .transparent World.empty bookedScript).length < 2 ^ 64) &&
      ((calmRun .transparent bookedScript).channel openPeer).any (fun d => d.established &&
        decide (d.lcss.incomingHtlcs = [] ∧ d.lcss.outgoingHtlcs = [] ∧ d.uncommitted = [] ∧
          (calmRun .transparent bookedScript).channelBalance openPeer ≠ d.lcss.remoteBalanceMsat))) = true := by
    decide +kernel
  simp only [Bool.and_eq_true, decide_eq_true_eq] at hrun
  obtain ⟨⟨hfollows, hfits⟩, hend⟩ := hrun
  obtain ⟨d, hd, hend⟩ := exists_of_any hend
  rw [Bool.and_eq_true, decide_eq_true_eq] at hend
  obtain ⟨he, hin, hout, hempty, hne⟩ := hend
  have hbilled : Billed .transparent (fun w op => Undisturbed .transparent openPeer w op ∧
      ∀ e m, op ≠ .message openPeer e (.resizeChannel m)) (calmRun .transparent bookedScript)
      (duesFrom .transparent World.empty bookedScript) :=
    calmRun_billed (followsOps_sound (fun _ _ h => undisturbed_sound h) hfollows)
  exact hne (hall .transparent openPeer _ _ d hbilled hfits hd he ⟨hin, hout⟩ hempty)

end Canopus
