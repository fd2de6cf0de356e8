import Canopus.Theorems.Foldable
import Canopus.Theorems.ForwardFee

/-! No overflow. The amounts of the HTLCs are added up without a check where the limits of a channel are enforced. The
    fold conserves the funds of a state, so as long as these fit into 64 bits, no credit overflows on the way and the
    sums over the HTLCs of the result are exact. -/

namespace Canopus
open StateManager Buffer

variable {C : Crypto} {s t next : LastCrossSignedState} {us : List UncommittedUpdate} {htlcs : List UpdateAddHtlc}

/-! ### The fold -/

theorem takeHtlc_no_overflow {id : UInt64} : takeHtlc htlcs id ≠ .error .overflow := by
  unfold takeHtlc
  split <;> simp

theorem debit_no_overflow {a b : UInt64} : debit a b ≠ .error .overflow := by
  unfold debit
  split <;> simp

/-- A credit of an HTLC that the state accounts for does not overflow. -/
theorem applyUpdate_local_no_overflow {u : PendingUpdate} (hs : s.funds < 2 ^ 64) :
    applyUpdate C s (.ofLocal u) ≠ .error .overflow := by
  have hown (id : UInt64) (h : UpdateAddHtlc) (rest : List UpdateAddHtlc) (ht : takeHtlc s.incomingHtlcs id = .ok (h, rest)) :
      credit s.localBalanceMsat h.amountMsat = .ok (s.localBalanceMsat + h.amountMsat) ∧
        credit s.remoteBalanceMsat h.amountMsat = .ok (s.remoteBalanceMsat + h.amountMsat) := by
    have hle := amount_le_totalAmount (takeHtlc_eq_ok ht).1
    unfold LastCrossSignedState.funds at hs
    exact ⟨credit_ok (by omega), credit_ok (by omega)⟩
  cases u with
  | add htlc =>
    simp only [applyUpdate]
    cases hd : debit s.localBalanceMsat htlc.amountMsat with
    | error e =>
      rintro ⟨⟩
      exact debit_no_overflow hd
    | ok b => rintro ⟨⟩
  | fulfill cid id preimage =>
    simp only [applyUpdate]
    cases ht : takeHtlc s.incomingHtlcs id with
    | error e =>
      rintro ⟨⟩
      exact takeHtlc_no_overflow ht
    | ok r =>
      simp only [bind, Except.bind, (hown id r.1 r.2 ht).1]
      split <;> rintro ⟨⟩
  | fail cid id reason =>
    simp only [applyUpdate]
    cases ht : takeHtlc s.incomingHtlcs id with
    | error e =>
      rintro ⟨⟩
      exact takeHtlc_no_overflow ht
    | ok r =>
      simp only [bind, Except.bind, (hown id r.1 r.2 ht).2]
      rintro ⟨⟩
  | failMalformed cid id sha code =>
    simp only [applyUpdate]
    cases ht : takeHtlc s.incomingHtlcs id with
    | error e =>
      rintro ⟨⟩
      exact takeHtlc_no_overflow ht
    | ok r =>
      simp only [bind, Except.bind, (hown id r.1 r.2 ht).2]
      rintro ⟨⟩

theorem applyUpdate_no_overflow {u : UncommittedUpdate} (hs : s.funds < 2 ^ 64) : applyUpdate C s u ≠ .error .overflow := by
  cases u with
  | ofLocal u => exact applyUpdate_local_no_overflow hs
  | ofRemote u =>
    intro ho
    have hswap := applyUpdate_swap (C := C) s (.ofRemote u)
    rw [ho] at hswap
    exact applyUpdate_local_no_overflow (s := s.reverse) ((funds_reverse s).symm ▸ hs) hswap

theorem applyUpdates_no_overflow (hs : s.funds < 2 ^ 64) : applyUpdates C s us ≠ .error .overflow := by
  induction us generalizing s with
  | nil => rintro ⟨⟩
  | cons u us ih =>
    simp only [applyUpdates]
    cases hu : applyUpdate C s u with
    | error e =>
      rintro ⟨⟩
      exact applyUpdate_no_overflow hs hu
    | ok t => exact ih ((applyUpdate_keeps hu).1 ▸ hs)

theorem lcssNext_no_overflow (hs : s.funds < 2 ^ 64) : lcssNext C ⟨s, us⟩ ≠ .error .overflow := by
  unfold lcssNext
  cases hr : applyUpdates C { s with localUpdates := 0, remoteUpdates := 0 } us with
  | error e =>
    rintro ⟨⟩
    exact applyUpdates_no_overflow (s := { s with localUpdates := 0, remoteUpdates := 0 }) hs hr
  | ok r => rintro ⟨⟩

/-! ### The sums -/

theorem foldl_amounts (htlcs : List UpdateAddHtlc) : ∀ sum : UInt64, sum.toNat + totalAmount htlcs < 2 ^ 64 →
    (htlcs.foldl (fun sum h => sum + h.amountMsat) sum).toNat = sum.toNat + totalAmount htlcs := by
  induction htlcs with
  | nil => exact fun _ _ => rfl
  | cons h htlcs ih =>
    intro sum hlt
    have hcons : totalAmount (h :: htlcs) = h.amountMsat.toNat + totalAmount htlcs := rfl
    rw [hcons] at hlt ⊢
    have hadd : (sum + h.amountMsat).toNat = sum.toNat + h.amountMsat.toNat := by
      rw [UInt64.toNat_add]
      exact Nat.mod_eq_of_lt (by omega)
    rw [List.foldl_cons, ih _ (by omega), hadd, Nat.add_assoc]

/-- The sum is exact where the total fits. -/
theorem sumAmounts_exact (h : totalAmount htlcs < 2 ^ 64) : (sumAmounts htlcs).toNat = totalAmount htlcs := by
  have hzero : (0 : UInt64).toNat + totalAmount htlcs < 2 ^ 64 := by simpa using h
  simpa [sumAmounts] using foldl_amounts htlcs 0 hzero

theorem totalAmount_prefix {part : List UpdateAddHtlc} (h : part <+: htlcs) : totalAmount part ≤ totalAmount htlcs := by
  obtain ⟨rest, rfl⟩ := h
  rw [totalAmount_append]
  exact Nat.le_add_right _ _

/-- The amounts of all HTLCs, of both directions. -/
def LastCrossSignedState.inFlight (s : LastCrossSignedState) : Nat := totalAmount s.incomingHtlcs + totalAmount s.outgoingHtlcs

def LastCrossSignedState.htlcCount (s : LastCrossSignedState) : Nat := s.incomingHtlcs.length + s.outgoingHtlcs.length

theorem funds_eq_inFlight (s : LastCrossSignedState) :
    s.localBalanceMsat.toNat + s.remoteBalanceMsat.toNat + s.inFlight = s.funds :=
  (Nat.add_assoc ..).symm

theorem sumAmounts_inFlight (hs : s.inFlight < 2 ^ 64) :
    (sumAmounts (s.incomingHtlcs ++ s.outgoingHtlcs)).toNat = s.inFlight := by
  unfold LastCrossSignedState.inFlight at hs ⊢
  rw [← totalAmount_append] at hs ⊢
  exact sumAmounts_exact hs

/-- What dispatching checks, over the naturals. -/
theorem exceedsLimits_iff (hs : s.inFlight < 2 ^ 64) (htlc : UpdateAddHtlc) : exceedsLimits s htlc = true ↔
    htlc.amountMsat < s.initHostedChannel.htlcMinimumMsat ∨
      s.initHostedChannel.maxAcceptedHtlcs.toNat < s.htlcCount ∨
      s.initHostedChannel.maxHtlcValueInFlightMsat.toNat < s.inFlight := by
  simp only [exceedsLimits, Bool.or_eq_true, decide_eq_true_eq, gt_iff_lt, UInt64.lt_iff_toNat_lt, sumAmounts_inFlight hs,
    LastCrossSignedState.htlcCount, or_assoc]

/-- What an offer checks, over the naturals: the sum is never cut off. -/
theorem hasNoRoom_iff (hs : s.funds < 2 ^ 64) (policy : InitHostedChannel) (amount : UInt64) :
    hasNoRoom policy s amount = false ↔ amount ≤ s.localBalanceMsat ∧ s.htlcCount + 1 ≤ policy.maxAcceptedHtlcs.toNat ∧
      s.inFlight + amount.toNat ≤ policy.maxHtlcValueInFlightMsat.toNat := by
  have hfunds := funds_eq_inFlight s
  have hcap := policy.maxHtlcValueInFlightMsat.toNat_lt
  have hsum := sumAmounts_inFlight (s := s) (by omega)
  simp only [hasNoRoom, Bool.or_eq_false_iff, decide_eq_false_iff_not, gt_iff_lt, UInt64.lt_iff_toNat_lt,
    saturatingAdd_toNat, hsum, LastCrossSignedState.htlcCount, UInt64.le_iff_toNat_le, and_assoc]
  omega

/-- Neither the fold of the updates nor a sum over the HTLCs of its result overflows. -/
structure NoOverflow (C : Crypto) (s : LastCrossSignedState) (us : List UncommittedUpdate) : Prop where
  fold : lcssNext C ⟨s, us⟩ ≠ .error .overflow
  /-- After any of the first updates, balances and HTLCs together fit into 64 bits. -/
  between : ∀ pre r, pre <+: us → applyUpdates C { s with localUpdates := 0, remoteUpdates := 0 } pre = .ok r →
    r.localBalanceMsat.toNat + r.remoteBalanceMsat.toNat + r.inFlight < 2 ^ 64
  /-- On the result, under any stamp and signature, each partial sum is exact, -/
  sums : ∀ next t part, lcssNext C ⟨s, us⟩ = .ok next → SameHtlcs next t → part <+: t.incomingHtlcs ++ t.outgoingHtlcs →
    (sumAmounts part).toNat = totalAmount part
  /-- so that dispatching a committed HTLC checks the amounts themselves, -/
  dispatch : ∀ next t htlc, lcssNext C ⟨s, us⟩ = .ok next → SameHtlcs next t → (exceedsLimits t htlc = true ↔
    htlc.amountMsat < t.initHostedChannel.htlcMinimumMsat ∨
      t.initHostedChannel.maxAcceptedHtlcs.toNat < t.htlcCount ∨
      t.initHostedChannel.maxHtlcValueInFlightMsat.toNat < t.inFlight)
  /-- and so does offering one. -/
  offer : ∀ next policy amount, lcssNext C ⟨s, us⟩ = .ok next → (hasNoRoom policy next amount = false ↔
    amount ≤ next.localBalanceMsat ∧ next.htlcCount + 1 ≤ policy.maxAcceptedHtlcs.toNat ∧
      next.inFlight + amount.toNat ≤ policy.maxHtlcValueInFlightMsat.toNat)

/-- Where the funds of a state fit into 64 bits, nothing overflows, whatever the pending updates are. -/
theorem overflow_unreachable (C : Crypto) (s : LastCrossSignedState) (us : List UncommittedUpdate)
    (hs : s.funds ≤ 2 ^ 64 - 1) : NoOverflow C s us := by
  have hlt : s.funds < 2 ^ 64 := by omega
  have hinFlight (next t : LastCrossSignedState) (hn : lcssNext C ⟨s, us⟩ = .ok next) (ht : SameHtlcs next t) :
      t.inFlight < 2 ^ 64 := by
    have hfunds := funds_eq_inFlight next
    rw [(lcssNext_keeps hn).1] at hfunds
    unfold LastCrossSignedState.inFlight at hfunds ⊢
    rw [ht.1, ht.2]
    omega
  refine ⟨lcssNext_no_overflow hlt, ?_, ?_, ?_, ?_⟩
  · intro pre r _ hr
    rw [funds_eq_inFlight, (applyUpdates_keeps hr).1]
    exact hlt
  · intro next t part hn ht hpart
    have hle := totalAmount_prefix hpart
    have hfit := hinFlight next t hn ht
    rw [totalAmount_append] at hle
    exact sumAmounts_exact (Nat.lt_of_le_of_lt hle hfit)
  · intro next t htlc hn ht
    exact exceedsLimits_iff (hinFlight next t hn ht) htlc
  · intro next policy amount hn
    exact hasNoRoom_iff ((lcssNext_keeps hn).1 ▸ hlt) policy amount

/-- A fulfil and an addition, each of one party, on the held state. -/
theorem overflow_unreachable_held :
    heldState.funds ≤ 2 ^ 64 - 1 ∧ NoOverflow .transparent heldState [.ofLocal heldFulfill, .ofRemote lateAdd] :=
  ⟨by decide, overflow_unreachable _ _ _ (by decide)⟩

end Canopus
