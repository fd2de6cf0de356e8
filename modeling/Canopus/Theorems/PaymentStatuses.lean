import Canopus.ClnNode

/-! The status of a payment with several attempts under one label. The code reports the first attempt of the answer,
    so that a failed attempt hides what comes after it. -/

namespace Canopus

variable {hexError : String → String} {label : String} {payment first : Json} {pays : List Json}

/-! ### Attempts -/

inductive Attempt where
  | complete
  | failed
  | pending
  deriving DecidableEq

def Attempt.parse : String → Option Attempt
  | "complete" => some .complete
  | "failed" => some .failed
  | "pending" => some .pending
  | _ => none

/-- The status of a payment that is an attempt under the label. -/
def attemptOf (label : String) (payment : Json) : Option Attempt :=
  if payment.getStr "label" = some label then (payment.getStr "status").bind Attempt.parse else none

/-- The payment carries a preimage of 32 bytes. -/
def HasPreimage (payment : Json) (preimage : ByteVec 32) : Prop :=
  ∃ text, payment.getStr "payment_preimage" = some text ∧ hexDecode text.toList = some preimage.toList

/-- The payments of a response. -/
def paymentsOf (response : Json) : List Json := ((response.get "payments").bind Json.asArray).getD []

/-- The first attempt under the label. -/
def firstAttempt (label : String) (pays : List Json) : Option Json :=
  pays.find? fun payment => (attemptOf label payment).isSome

/-- What the code reports of an attempt. -/
def Attempt.report (hexError : String → String) (payment : Json) : Attempt → Except NodeError PaymentStatus
  | complete => completeStatus hexError payment
  | failed => .ok (.failed (failureOnionOf payment))
  | pending => .ok .pending

theorem statusOfPayment_eq (hexError : String → String) (label : String) (payment : Json) :
    statusOfPayment hexError label payment = (attemptOf label payment).map (Attempt.report hexError payment) := by
  unfold statusOfPayment attemptOf
  by_cases hlabel : payment.getStr "label" = some label
  · rw [if_neg (not_not.mpr hlabel), if_pos hlabel]
    cases payment.getStr "status" with
    | none => rfl
    | some status =>
      rw [Option.bind_some]
      unfold Attempt.parse
      split <;> simp_all [Attempt.report]
  · rw [if_pos hlabel, if_neg hlabel]
    rfl

theorem completeStatus_eq_succeeded_iff {preimage : ByteVec 32} :
    completeStatus hexError payment = .ok (.succeeded preimage) ↔ HasPreimage payment preimage := by
  unfold completeStatus HasPreimage
  cases payment.getStr "payment_preimage" with
  | none => simp
  | some text =>
    simp only [Option.some.injEq, exists_eq_left']
    cases hexDecode text.toList with
    | none => simp
    | some bytes =>
      simp only [Option.some.injEq]
      constructor
      · intro h
        split_ifs at h with hlen
        cases h
        rfl
      · rintro rfl
        exact dif_pos preimage.2

/-- The status of the attempt that a result reports: an error is one of a complete attempt. -/
def reportedAttempt : Except NodeError PaymentStatus → Option Attempt
  | .error _ => some .complete
  | .ok (.succeeded _) => some .complete
  | .ok (.failed _) => some .failed
  | .ok .pending => some .pending
  | .ok .unknown => none

@[simp] theorem reportedAttempt_report (a : Attempt) : reportedAttempt (a.report hexError payment) = some a := by
  cases a with
  | complete =>
    rw [Attempt.report]
    unfold completeStatus
    split
    · rfl
    · split
      · rfl
      · split_ifs <;> rfl
  | failed => rfl
  | pending => rfl

/-- The answer is a report of the first attempt. -/
theorem status_eq (hexError : String → String) (label : String) (response : Json) :
    (firstAttempt label (paymentsOf response) = none ∧
      paymentStatusFromListsendpaysResponse hexError label response = .ok .unknown) ∨
    ∃ first a, firstAttempt label (paymentsOf response) = some first ∧ attemptOf label first = some a ∧
      paymentStatusFromListsendpaysResponse hexError label response = a.report hexError first := by
  have hloop : ∀ pays : List Json,
      (firstAttempt label pays = none ∧ pays.findSome? (statusOfPayment hexError label) = none) ∨
      ∃ first a, firstAttempt label pays = some first ∧ attemptOf label first = some a ∧
        pays.findSome? (statusOfPayment hexError label) = some (a.report hexError first) := by
    intro pays
    unfold firstAttempt
    induction pays with
    | nil => exact Or.inl ⟨rfl, rfl⟩
    | cons payment pays ih =>
      rw [List.findSome?_cons, statusOfPayment_eq]
      cases h : attemptOf label payment with
      | none =>
        rw [List.find?_cons_of_neg (by simp [h])]
        exact ih
      | some a =>
        rw [List.find?_cons_of_pos (by simp [h])]
        exact Or.inr ⟨payment, a, rfl, h, rfl⟩
  unfold paymentStatusFromListsendpaysResponse paymentsOf
  cases (response.get "payments").bind Json.asArray with
  | none => exact Or.inl ⟨rfl, rfl⟩
  | some pays =>
    rcases hloop pays with ⟨hfirst, hnone⟩ | ⟨first, a, hfirst, ha, hsome⟩
    · exact Or.inl ⟨hfirst, by simp [hnone]⟩
    · exact Or.inr ⟨first, a, hfirst, ha, by simp [hsome]⟩

/-! ### Nothing is hidden -/

/-- The result reports an attempt of the response with this status. -/
def Reports (hexError : String → String) (label : String) (response : Json) (a : Attempt)
    (result : Except NodeError PaymentStatus) : Prop :=
  ∃ payment ∈ paymentsOf response, attemptOf label payment = some a ∧ result = a.report hexError payment

/-- The answer to a response hides no live or successful attempt, and does not depend on the order of the payments
    except for which of several of one status it reports. -/
structure HidesNothing (hexError : String → String) (label : String) (response : Json) : Prop where
  succeeded : ∀ payment ∈ paymentsOf response, ∀ preimage, attemptOf label payment = some .complete →
    HasPreimage payment preimage → ∃ payment' ∈ paymentsOf response, ∃ preimage',
      attemptOf label payment' = some .complete ∧ HasPreimage payment' preimage' ∧
      paymentStatusFromListsendpaysResponse hexError label response = .ok (.succeeded preimage')
  failed : ∀ onion, paymentStatusFromListsendpaysResponse hexError label response = .ok (.failed onion) →
    ∀ payment ∈ paymentsOf response, attemptOf label payment ≠ some .complete ∧ attemptOf label payment ≠ some .pending
  unknown : paymentStatusFromListsendpaysResponse hexError label response = .ok .unknown →
    ∀ payment ∈ paymentsOf response, attemptOf label payment = none
  order : ∀ response', (paymentsOf response').Perm (paymentsOf response) →
    paymentStatusFromListsendpaysResponse hexError label response' =
      paymentStatusFromListsendpaysResponse hexError label response ∨
    ∃ a, Reports hexError label response a (paymentStatusFromListsendpaysResponse hexError label response') ∧
      Reports hexError label response a (paymentStatusFromListsendpaysResponse hexError label response)

/-- All attempts under the label have one status. -/
def OneStatus (label : String) (pays : List Json) : Prop :=
  ∃ a, ∀ payment ∈ pays, ∀ a', attemptOf label payment = some a' → a' = a

/-- When a complete attempt has a valid preimage, so has the first attempt. -/
def FirstHasPreimage (label : String) (pays : List Json) : Prop :=
  ∀ payment ∈ pays, attemptOf label payment = some .complete → (∃ preimage, HasPreimage payment preimage) →
    ∀ first, firstAttempt label pays = some first → ∃ preimage, HasPreimage first preimage

theorem firstAttempt_mem (h : firstAttempt label pays = some first) : first ∈ pays := List.mem_of_find?_eq_some h

theorem firstAttempt_none (h : firstAttempt label pays = none) : ∀ payment ∈ pays, attemptOf label payment = none := by
  intro payment hmem
  have hnone := List.find?_eq_none.mp h payment hmem
  simpa using hnone

/-- The answer to a response with the same payments, of which this attempt comes first. -/
theorem reordered {response : Json} {a : Attempt} (hexError : String → String) (hmem : payment ∈ paymentsOf response)
    (ha : attemptOf label payment = some a) : ∃ response', (paymentsOf response').Perm (paymentsOf response) ∧
      paymentStatusFromListsendpaysResponse hexError label response' = a.report hexError payment := by
  obtain ⟨before, after, hsplit⟩ := List.append_of_mem hmem
  refine ⟨.object [("payments", .array (payment :: (before ++ after)))], ?_, ?_⟩
  · rw [hsplit]
    exact List.perm_middle.symm
  · have hfirst : (payment :: (before ++ after)).findSome? (statusOfPayment hexError label) =
        some (a.report hexError payment) := by
      rw [List.findSome?_cons, statusOfPayment_eq, ha]
      rfl
    change ((payment :: (before ++ after)).findSome? (statusOfPayment hexError label)).getD (.ok .unknown) = _
    rw [hfirst]
    rfl

theorem HidesNothing.oneStatus {response : Json} (h : HidesNothing hexError label response) :
    OneStatus label (paymentsOf response) := by
  rcases status_eq hexError label response with ⟨hnone, -⟩ | ⟨first, a, hfirst, ha, hanswer⟩
  · refine ⟨.pending, fun payment hmem a' ha' => ?_⟩
    rw [firstAttempt_none hnone payment hmem] at ha'
    cases ha'
  · refine ⟨a, fun payment hmem a' ha' => ?_⟩
    obtain ⟨response', hperm, hanswer'⟩ := reordered hexError hmem ha'
    rcases h.order response' hperm with hsame | ⟨b, ⟨p, -, -, hp⟩, ⟨q, -, -, hq⟩⟩
    · rw [hanswer, hanswer'] at hsame
      have hrep := congrArg reportedAttempt hsame
      simpa using hrep
    · rw [hanswer'] at hp
      rw [hanswer] at hq
      have hrep := congrArg reportedAttempt hp
      have hrep' := congrArg reportedAttempt hq
      simp only [reportedAttempt_report, Option.some.injEq] at hrep hrep'
      exact hrep.trans hrep'.symm

theorem HidesNothing.firstHasPreimage {response : Json} (h : HidesNothing hexError label response) :
    FirstHasPreimage label (paymentsOf response) := by
  rintro payment hmem ha ⟨preimage, hpreimage⟩ first hfirst
  obtain ⟨-, -, preimage', -, -, hsucceeded⟩ := h.succeeded payment hmem preimage ha hpreimage
  rcases status_eq hexError label response with ⟨hnone, -⟩ | ⟨first', a, hfirst', -, hanswer⟩
  · rw [hnone] at hfirst
    cases hfirst
  · rw [hfirst] at hfirst'
    cases hfirst'
    rw [hanswer] at hsucceeded
    have hrep := congrArg reportedAttempt hsucceeded
    rw [reportedAttempt_report] at hrep
    cases hrep
    exact ⟨preimage', completeStatus_eq_succeeded_iff.mp hsucceeded⟩

theorem hidesNothing_of {response : Json} (hone : OneStatus label (paymentsOf response))
    (hpreimage : FirstHasPreimage label (paymentsOf response)) : HidesNothing hexError label response := by
  obtain ⟨a, hone⟩ := hone
  rcases status_eq hexError label response with ⟨hnone, hanswer⟩ | ⟨first, b, hfirst, hb, hanswer⟩
  · have hlive := firstAttempt_none hnone
    refine ⟨fun payment hmem _ ha => ?_, fun onion h => ?_, fun _ => hlive, fun response' hperm => ?_⟩
    · rw [hlive payment hmem] at ha
      cases ha
    · rw [hanswer] at h
      cases h
    · left
      rcases status_eq hexError label response' with ⟨-, h⟩ | ⟨first', b, hfirst', hb, -⟩
      · rw [hanswer, h]
      · rw [hlive first' (hperm.mem_iff.mp (firstAttempt_mem hfirst'))] at hb
        cases hb
  · obtain rfl := hone first (firstAttempt_mem hfirst) b hb
    have hrep : reportedAttempt (paymentStatusFromListsendpaysResponse hexError label response) = some b := by
      rw [hanswer, reportedAttempt_report]
    refine ⟨fun payment hmem preimage ha hhas => ?_, fun onion h payment hmem => ?_, fun h => ?_, fun response' hperm => ?_⟩
    · obtain rfl := hone payment hmem _ ha
      obtain ⟨preimage', hfirsthas⟩ := hpreimage payment hmem ha ⟨preimage, hhas⟩ first hfirst
      refine ⟨first, firstAttempt_mem hfirst, preimage', hb, hfirsthas, ?_⟩
      rw [hanswer]
      exact completeStatus_eq_succeeded_iff.mpr hfirsthas
    · rw [h] at hrep
      cases hrep
      refine ⟨fun hc => ?_, fun hp => ?_⟩
      · cases hone payment hmem _ hc
      · cases hone payment hmem _ hp
    · rw [h] at hrep
      cases hrep
    · right
      rcases status_eq hexError label response' with ⟨hnone, -⟩ | ⟨first', b', hfirst', hb', hanswer'⟩
      · rw [firstAttempt_none hnone first (hperm.mem_iff.mpr (firstAttempt_mem hfirst))] at hb
        cases hb
      · have hmem' := hperm.mem_iff.mp (firstAttempt_mem hfirst')
        obtain rfl := hone first' hmem' b' hb'
        exact ⟨b', ⟨first', hmem', hb', hanswer'⟩, ⟨first, firstAttempt_mem hfirst, hb, hanswer⟩⟩

/-- The answer is right exactly when the attempts agree and the first of them is as good as any. -/
theorem payment_status_iff (hexError : String → String) (label : String) (response : Json) :
    HidesNothing hexError label response ↔
      OneStatus label (paymentsOf response) ∧ FirstHasPreimage label (paymentsOf response) := by
  constructor
  · intro h
    exact ⟨h.oneStatus, h.firstHasPreimage⟩
  · rintro ⟨hone, hpreimage⟩
    exact hidesNothing_of hone hpreimage

/-- An attempt that failed, and one after it that is complete. -/
def retriedPayment : Json :=
  .object [("payments", .array [
    .object [("label", .string "2/2"), ("status", .string "failed")],
    .object [("label", .string "2/2"), ("status", .string "complete"),
      ("payment_preimage", .string "4242424242424242424242424242424242424242424242424242424242424242")]])]

theorem payment_status_hides_retry :
    paymentStatusFromListsendpaysResponse (fun _ => "") "2/2" retriedPayment = .ok (.failed []) ∧
    (∃ payment ∈ paymentsOf retriedPayment, attemptOf "2/2" payment = some .complete ∧
      HasPreimage payment (ByteVec.fill 32 0x42)) ∧
    ¬ HidesNothing (fun _ => "") "2/2" retriedPayment := by
  have hanswer : paymentStatusFromListsendpaysResponse (fun _ => "") "2/2" retriedPayment = .ok (.failed []) := rfl
  refine ⟨hanswer, ⟨_, List.mem_cons_of_mem _ List.mem_cons_self, rfl, _, rfl, by decide +kernel⟩, fun h => ?_⟩
  have hcomplete := (h.failed [] hanswer _ (List.mem_cons_of_mem _ List.mem_cons_self)).1
  exact hcomplete rfl

end Canopus
