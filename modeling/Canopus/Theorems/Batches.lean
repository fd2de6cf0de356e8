import Canopus.Theorems.Fold

/-! Committing in batches. `lcss_next` counts the updates only at the end, and starts the fold with its counters at
    zero, so it is no fold of single commits. But an update looks neither at the counters nor at the date of a state:
    however a sequence of updates is cut into commits, the state after the last one is the same, and so is the error
    where an update does not apply. -/

namespace Canopus
open StateManager

variable {C : Crypto} {s t : LastCrossSignedState} {us vs : List UncommittedUpdate}

/-! ### Date and counters -/

/-- The state under another date and other counters. -/
def LastCrossSignedState.stamp (s : LastCrossSignedState) (blockDay localUpdates remoteUpdates : UInt32) :
    LastCrossSignedState :=
  { s with blockDay := blockDay, localUpdates := localUpdates, remoteUpdates := remoteUpdates }

/-- The counter `n` after the updates `us`, of which it counts those of one party. -/
def countOn (isOf : UncommittedUpdate → Bool) (n : UInt32) (us : List UncommittedUpdate) : UInt32 :=
  n + UInt32.ofNat (us.countP isOf)

@[simp] theorem countOn_nil (isOf : UncommittedUpdate → Bool) (n : UInt32) : countOn isOf n [] = n := UInt32.add_zero n

@[simp] theorem countOn_local (u : PendingUpdate) (n : UInt32) :
    countOn (·.isLocal) n [.ofLocal u] = n + 1 ∧ countOn (·.isRemote) n [.ofLocal u] = n :=
  ⟨rfl, UInt32.add_zero n⟩

@[simp] theorem countOn_remote (u : PendingUpdate) (n : UInt32) :
    countOn (·.isLocal) n [.ofRemote u] = n ∧ countOn (·.isRemote) n [.ofRemote u] = n + 1 :=
  ⟨UInt32.add_zero n, rfl⟩

theorem countOn_append (isOf : UncommittedUpdate → Bool) (n : UInt32) (us vs : List UncommittedUpdate) :
    countOn isOf (countOn isOf n us) vs = countOn isOf n (us ++ vs) := by
  rw [countOn, countOn, countOn, List.countP_append, UInt32.ofNat_add, UInt32.add_assoc]

/-- What an update does, and whether it applies, does not depend on the stamp. -/
theorem applyUpdate_stamp (s : LastCrossSignedState) (u : UncommittedUpdate) (day l r : UInt32) :
    applyUpdate C (s.stamp day l r) u =
      (applyUpdate C s u).map (·.stamp day (countOn (·.isLocal) l [u]) (countOn (·.isRemote) r [u])) := by
  rcases u with (u | u) <;> cases u with
  | add htlc =>
    simp only [applyUpdate, LastCrossSignedState.stamp, countOn_local, countOn_remote]
    cases debit _ _ <;> rfl
  | fulfill cid id preimage =>
    simp only [applyUpdate, LastCrossSignedState.stamp, countOn_local, countOn_remote]
    cases takeHtlc _ _ with
    | error e => rfl
    | ok r =>
      simp only [bind, Except.bind]
      split
      · rfl
      · cases credit _ _ <;> rfl
  | fail cid id reason =>
    simp only [applyUpdate, LastCrossSignedState.stamp, countOn_local, countOn_remote]
    cases takeHtlc _ _ with
    | error e => rfl
    | ok r =>
      simp only [bind, Except.bind]
      cases credit _ _ <;> rfl
  | failMalformed cid id sha code =>
    simp only [applyUpdate, LastCrossSignedState.stamp, countOn_local, countOn_remote]
    cases takeHtlc _ _ with
    | error e => rfl
    | ok r =>
      simp only [bind, Except.bind]
      cases credit _ _ <;> rfl

/-- The same for a list of updates. -/
theorem applyUpdates_stamp (us : List UncommittedUpdate) : ∀ (s : LastCrossSignedState) (day l r : UInt32),
    applyUpdates C (s.stamp day l r) us =
      (applyUpdates C s us).map (·.stamp day (countOn (·.isLocal) l us) (countOn (·.isRemote) r us)) := by
  induction us with
  | nil =>
    intro s day l r
    simp [applyUpdates, Except.map]
  | cons u us ih =>
    intro s day l r
    simp only [applyUpdates, applyUpdate_stamp]
    cases applyUpdate C s u with
    | error e => rfl
    | ok t =>
      refine (ih t day _ _).trans ?_
      simp only [countOn_append, List.singleton_append]
      rfl

/-! ### The next state -/

/-- The state `t` under the stamp of the next state of `s`: the date of `s`, and its counters with the updates. -/
def LastCrossSignedState.counting (s : LastCrossSignedState) (us : List UncommittedUpdate) (t : LastCrossSignedState) :
    LastCrossSignedState :=
  t.stamp s.blockDay (countOn (·.isLocal) s.localUpdates us) (countOn (·.isRemote) s.remoteUpdates us)

/-- The next state is the fold from the committed state itself, under its stamp. -/
theorem lcssNext_eq_map (s : LastCrossSignedState) (us : List UncommittedUpdate) :
    lcssNext C ⟨s, us⟩ = (applyUpdates C s us).map (s.counting us) := by
  have hzero : applyUpdates C { s with localUpdates := 0, remoteUpdates := 0 } us =
      applyUpdates C (s.stamp s.blockDay 0 0) us := rfl
  unfold lcssNext
  dsimp only
  rw [hzero, applyUpdates_stamp]
  cases applyUpdates C s us <;> rfl

/-- The stamps of two commits in a row are the stamp of one. -/
theorem counting_append (s r t : LastCrossSignedState) (us vs : List UncommittedUpdate) :
    (s.counting us r).counting vs t = s.counting (us ++ vs) t := by
  simp only [LastCrossSignedState.counting, LastCrossSignedState.stamp, countOn_append]

/-- After the commit of the updates `us`, those of `vs` lead to the state that all of them lead to at once. -/
theorem lcssNext_append (hn : lcssNext C ⟨s, us⟩ = .ok t) : lcssNext C ⟨t, vs⟩ = lcssNext C ⟨s, us ++ vs⟩ := by
  rw [lcssNext_eq_map] at hn
  rw [lcssNext_eq_map, lcssNext_eq_map, applyUpdates_append]
  cases hr : applyUpdates C s us with
  | error e =>
    rw [hr] at hn
    cases hn
  | ok r =>
    rw [hr] at hn
    obtain rfl := Except.ok.inj hn
    show (applyUpdates C (s.counting us r) vs).map ((s.counting us r).counting vs) =
      (applyUpdates C r vs).map (s.counting (us ++ vs))
    rw [show s.counting us r = r.stamp _ _ _ from rfl, applyUpdates_stamp]
    cases applyUpdates C r vs with
    | error e => rfl
    | ok t => exact congrArg Except.ok (counting_append s r t us vs)

theorem lcssNext_append_error {e : StateError} (hn : lcssNext C ⟨s, us⟩ = .error e) : lcssNext C ⟨s, us ++ vs⟩ = .error e := by
  rw [lcssNext_eq_map] at hn
  rw [lcssNext_eq_map, applyUpdates_append]
  cases hr : applyUpdates C s us with
  | error e' =>
    rw [hr] at hn
    obtain rfl := Except.error.inj hn
    rfl
  | ok r =>
    rw [hr] at hn
    cases hn

/-! ### Batches -/

theorem foldl_add (us : List UncommittedUpdate) : ∀ sm : StateManager,
    us.foldl add sm = { sm with uncommitted := sm.uncommitted ++ us } := by
  induction us with
  | nil =>
    intro sm
    simp
  | cons u us ih =>
    intro sm
    rw [List.foldl_cons, ih]
    cases u <;> simp [add, addLocal, addRemote]

/-- The committed state after each list of updates has been added and committed in turn. -/
def commitBatches (C : Crypto) : StateManager → List (List UncommittedUpdate) → Except StateError StateManager
  | sm, [] => .ok sm
  | sm, us :: batches => do
    let sm := us.foldl add sm
    commitBatches C (sm.commit (← lcssNext C sm)) batches

theorem lcssNext_nil (s : LastCrossSignedState) : lcssNext C ⟨s, []⟩ = .ok s := by
  simp [lcssNext_eq_map, applyUpdates, Except.map, LastCrossSignedState.counting, LastCrossSignedState.stamp]

/-- However the updates are cut into batches, the committed state is that of a single commit. -/
theorem commitBatches_eq (batches : List (List UncommittedUpdate)) : ∀ s : LastCrossSignedState,
    commitBatches C (new s) batches = (lcssNext C ⟨s, batches.flatten⟩).map new := by
  induction batches with
  | nil =>
    intro s
    simp [commitBatches, lcssNext_nil, Except.map]
  | cons us batches ih =>
    intro s
    rw [commitBatches, foldl_add, List.flatten_cons]
    simp only [new, List.nil_append]
    cases hn : lcssNext C ⟨s, us⟩ with
    | error e =>
      rw [lcssNext_append_error hn]
      rfl
    | ok t =>
      rw [← lcssNext_append hn]
      exact ih t

end Canopus
