import Canopus.Lib.Calls

/-! Runs that are cut short. Where the environment has a choice with which no call has an effect, a run that stops
    after `n` calls cannot be told from one in which this choice is made from there on. And states that answer
    every call alike cannot be told apart by any run. -/

namespace Effect.Prog
variable {I : Iface} {α W X : Type} {exec : X → (c : I.Call) → W → I.Ans c × W} {R : W → W → Prop}

/-- The choices `o` up to the `n`-th call, and `y` from there on. -/
def cutAfter (n : Nat) (o : Nat → X) (y : X) : Nat → X :=
  match n with
  | 0 => fun _ => y
  | n + 1 => fun i => match i with
    | 0 => o 0
    | i + 1 => cutAfter n (fun j => o (j + 1)) y i

section Inert
variable {y : X} [IsPreorder W R] (hy : ∀ c w, R w (exec y c w).2)
include hy

/-- A run in which no call has an effect. -/
theorem run_inert (x : Prog I α) : ∀ w, R w (run exec (fun _ => y) x w).2 := by
  induction x with
  | pure a => exact refl_of R
  | call c k ih => exact fun w => trans_of R (hy c w) (ih _ _)

/-- What a run has done when it is cut short, it has done when nothing else has an effect. -/
theorem after_run (x : Prog I α) : ∀ (n : Nat) (o : Nat → X) (w : W),
    R (after exec o n x w) (run exec (cutAfter n o y) x w).2 := by
  induction x with
  | pure a =>
    intro n o w
    cases n with
    | zero => exact refl_of R w
    | succ n => exact refl_of R w
  | call c k ih =>
    intro n o w
    cases n with
    | zero => exact run_inert hy (.call c k) w
    | succ n => exact ih _ n (fun i => o (i + 1)) _

end Inert

/-- States that answer every call alike, and stay so. -/
structure Bisimulation (exec : X → (c : I.Call) → W → I.Ans c × W) (R : W → W → Prop) : Prop where
  answer : ∀ x c v w, R v w → (exec x c v).1 = (exec x c w).1
  state : ∀ x c v w, R v w → R (exec x c v).2 (exec x c w).2

/-- No run can tell them apart. -/
theorem Bisimulation.run (h : Bisimulation exec R) (x : Prog I α) : ∀ {v w : W} (o : Nat → X), R v w →
    (Prog.run exec o x v).1 = (Prog.run exec o x w).1 ∧ R (Prog.run exec o x v).2 (Prog.run exec o x w).2 := by
  induction x with
  | pure a => exact fun _ hr => ⟨rfl, hr⟩
  | call c k ih =>
    intro v w o hr
    have hnext := ih (exec (o 0) c v).1 (fun i => o (i + 1)) (h.state (o 0) c v w hr)
    simp only [Prog.run]
    rw [← h.answer (o 0) c v w hr]
    exact hnext

/-- Nor where it is cut short. -/
theorem Bisimulation.after (h : Bisimulation exec R) (x : Prog I α) : ∀ {v w : W} (n : Nat) (o : Nat → X), R v w →
    R (Prog.after exec o n x v) (Prog.after exec o n x w) := by
  induction x with
  | pure a =>
    intro v w n o hr
    cases n with
    | zero => exact hr
    | succ n => exact hr
  | call c k ih =>
    intro v w n o hr
    cases n with
    | zero => exact hr
    | succ n =>
      have hnext := ih (exec (o 0) c v).1 n (fun i => o (i + 1)) (h.state (o 0) c v w hr)
      simp only [Prog.after]
      rw [← h.answer (o 0) c v w hr]
      exact hnext

end Effect.Prog
