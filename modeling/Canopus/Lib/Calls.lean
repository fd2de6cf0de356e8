import Canopus.Lib.Restrict

/-! What a program calls. `Makes` says that every call of a program meets a condition in the world in
    which it is made, whatever the environment does. It is the counterpart of the weakest precondition,
    which speaks of the end of the program: to know that a later call meets its condition, one needs the
    weakest precondition of what comes before. `Passes` speaks of the states that a run passes through. -/

namespace Effect

namespace Prog
variable {I : Iface} {α β W X : Type} {exec : X → (c : I.Call) → W → I.Ans c × W} {R : W → I.Call → Prop}

/-- Every call of the program meets `R` when it is made. -/
def makes (exec : X → (c : I.Call) → W → I.Ans c × W) (R : W → I.Call → Prop) : Prog I α → W → Prop
  | .pure _, _ => True
  | .call c k, w => R w c ∧ ∀ x, makes exec R (k (exec x c w).1) (exec x c w).2

theorem makes_bind {x : Prog I α} {f : α → Prog I β} : ∀ {w}, makes exec R x w →
    wp exec (fun _ _ _ => True) x (fun a w' => makes exec R (f a) w') w → makes exec R (x >>= f) w := by
  induction x with
  | pure a => exact fun _ h => h
  | call c k ih => exact fun h h' => ⟨h.1, fun y => ih _ (h.2 y) (h' y trivial)⟩

theorem wp_true {A : X → W → I.Call → Prop} (x : Prog I α) : ∀ w, wp exec A x (fun _ _ => True) w := by
  induction x with
  | pure a => exact fun _ => trivial
  | call c k ih => exact fun _ y _ => ih _ _

/-- The state that a run has reached after `n` calls, where it may be cut short. -/
def after (exec : X → (c : I.Call) → W → I.Ans c × W) (o : Nat → X) : Nat → Prog I α → W → W
  | 0, _, w => w
  | _ + 1, .pure _, w => w
  | n + 1, .call c k, w => after exec (fun i => o (i + 1)) n (k (exec (o 0) c w).1) (exec (o 0) c w).2

/-- One more call of a run: nothing is left to do, or the call meets the condition. -/
theorem after_succ {x : Prog I α} : ∀ {w} {o : Nat → X} (n : Nat), Allowed exec R o x w →
    after exec o (n + 1) x w = after exec o n x w ∨
      ∃ y c, R (after exec o n x w) c ∧ after exec o (n + 1) x w = (exec y c (after exec o n x w)).2 := by
  induction x with
  | pure a =>
    intro w o n _
    cases n with
    | zero => exact Or.inl rfl
    | succ n => exact Or.inl rfl
  | call c k ih =>
    intro w o n h
    cases n with
    | zero => exact Or.inr ⟨o 0, c, h.1, rfl⟩
    | succ n => exact ih _ n h.2

/-- After the first program the second one goes on where it has ended, with the choices that are left. -/
theorem run_bind_shift {x : Prog I α} {f : α → Prog I β} : ∀ {w} {o : Nat → X}, ∃ m,
    (∀ n, after exec o (m + n) (x >>= f) w =
      after exec (fun i => o (m + i)) n (f (run exec o x w).1) (run exec o x w).2) ∧
    run exec o (x >>= f) w = run exec (fun i => o (m + i)) (f (run exec o x w).1) (run exec o x w).2 := by
  induction x with
  | pure a =>
    intro w o
    refine ⟨0, fun n => ?_, ?_⟩
    · simp only [Nat.zero_add]
      rfl
    · simp only [Nat.zero_add]
      rfl
  | call c k ih =>
    intro w o
    obtain ⟨m, hm, hr⟩ := ih (exec (o 0) c w).1 (w := (exec (o 0) c w).2) (o := fun i => o (i + 1))
    refine ⟨m + 1, fun n => ?_, ?_⟩
    · have h := hm n
      rw [Nat.add_right_comm m 1 n]
      simp only [Nat.add_right_comm m _ 1] at h
      exact h
    · simp only [Nat.add_right_comm m _ 1] at hr
      exact hr

/-- The condition is met in every run. -/
theorem allowed_of_makes {x : Prog I α} : ∀ {w} {o : Nat → X}, makes exec R x w → Allowed exec R o x w := by
  induction x with
  | pure a => exact fun _ => trivial
  | call c k ih => exact fun h => ⟨h.1, ih _ (h.2 _)⟩

section
variable {A : X → W → I.Call → Prop} {Q : W → Prop} (lost : ∀ w c, ¬ Q w → ∃ y, A y w c ∧ ¬ Q (exec y c w).2)
include lost

/-- What is lost can stay lost to the end. -/
theorem not_wp_of_lost {x : Prog I α} : ∀ {w}, ¬ Q w → ¬ wp exec A x (fun _ w' => Q w') w := by
  induction x with
  | pure a => exact fun hw h => hw h
  | call c k ih =>
    intro w hw h
    obtain ⟨y, ha, hy⟩ := lost w c hw
    exact ih _ hy (h y ha)

/-- Where `Q` holds at the end of every run, no run makes a call that may end `Q`. -/
theorem allowed_of_wp {x : Prog I α} (ends : ∀ w c, ¬ R w c → ∃ y, A y w c ∧ ¬ Q (exec y c w).2) :
    ∀ {w} {o : Nat → X}, wp exec A x (fun _ w' => Q w') w → Kept exec A o x w → Allowed exec R o x w := by
  induction x with
  | pure a => exact fun _ _ => trivial
  | call c k ih =>
    intro w o h hk
    refine ⟨?_, ih _ (h _ hk.1) hk.2⟩
    by_contra hr
    obtain ⟨y, ha, hy⟩ := ends w c hr
    exact not_wp_of_lost lost hy (h y ha)

end

end Prog

namespace Fallible
variable {I : Iface} {ε α β W X : Type} {exec : X → (c : I.Call) → W → I.Ans c × W} {R : W → I.Call → Prop} {w : W}

def Makes (exec : X → (c : I.Call) → W → I.Ans c × W) (R : W → I.Call → Prop) (x : Fallible I ε α) (w : W) : Prop :=
  Prog.makes exec R x.run w

theorem Makes.pure {a : α} : Makes exec R (pure a : Fallible I ε α) w := trivial

theorem Makes.throw {e : ε} : Makes exec R (throw e : Fallible I ε α) w := trivial

theorem Makes.ask {c : I.Call} (h : R w c) : Makes exec R (ask c : Fallible I ε (I.Ans c)) w := ⟨h, fun _ => trivial⟩

/-- What the first program leads to is known when the second one starts. -/
theorem Makes.bind {x : Fallible I ε β} {f : β → Fallible I ε α} {P : β → W → Prop} (hx : Makes exec R x w)
    (hp : Leads exec (fun _ _ _ => True) x w P) (hf : ∀ b w', P b w' → Makes exec R (f b) w') :
    Makes exec R (x >>= f) w := by
  unfold Leads Does Wp at hp
  show Prog.makes exec R (ExceptT.run (x >>= f)) w
  rw [ExceptT.run_bind]
  refine Prog.makes_bind hx (Prog.wp_mono ?_ hp)
  rintro (e | b) w' ⟨-, hr⟩
  · exact trivial
  · exact hf b w' (hr b rfl)

theorem Makes.attempt {x : Fallible I ε β} (hx : Makes exec R x w) : Makes exec R (attempt x : Fallible I ε _) w := by
  show Prog.makes exec R (x.run >>= fun r => Prog.pure (Except.ok r)) w
  exact Prog.makes_bind hx (Prog.wp_mono (fun _ _ _ => trivial) (Prog.wp_true x.run w))

theorem Makes.allowed {x : Fallible I ε α} {o : Nat → X} (h : Makes exec R x w) : Prog.Allowed exec R o x.run w :=
  Prog.allowed_of_makes h

/-! ### What a program passes through -/

/-- Every run that keeps to `E` passes through a state with `P` and ends in one with `Q`. -/
def Passes (exec : X → (c : I.Call) → W → I.Ans c × W) (E : X → Prop) (x : Fallible I ε α) (P Q : W → Prop) (w : W) : Prop :=
  ∀ o : Nat → X, (∀ n, E (o n)) →
    (∃ n, P (Prog.after exec o n x.run w)) ∧ Q (Prog.run exec o x.run w).2

variable {E : X → Prop} {P Q : W → Prop} {v : W}

/-- The state in which a program ends is one that it passes through, whatever follows. -/
theorem Surely.passes {x : Fallible I ε β} {f : β → Fallible I ε α}
    (hx : Surely exec E x (fun r w' => ∃ b, r = .ok b ∧ P w' ∧ Surely exec E (f b) (fun _ w'' => Q w'') w') w) :
    Passes exec E (x >>= f) P Q w := by
  intro o ho
  obtain ⟨b, hr, hP, hQ⟩ := hx.run ho
  obtain ⟨m, hm, hrun⟩ := Prog.run_bind_shift (x := x.run) (f := ExceptT.bindCont f) (w := w) (o := o)
  rw [hr] at hrun
  refine ⟨⟨m + 0, (hm 0).symm ▸ hP⟩, ?_⟩
  have hend := hQ.run fun i => ho (m + i)
  exact (congrArg Prod.snd hrun).symm ▸ hend

theorem Passes.andThen {x : Fallible I ε β} {f : β → Fallible I ε α}
    (hx : Surely exec E x (fun r w' => ∃ b, r = .ok b ∧ Passes exec E (f b) P Q w') w) :
    Passes exec E (x >>= f) P Q w := by
  intro o ho
  obtain ⟨b, hr, hf⟩ := hx.run ho
  obtain ⟨m, hm, hrun⟩ := Prog.run_bind_shift (x := x.run) (f := ExceptT.bindCont f) (w := w) (o := o)
  rw [hr] at hrun
  obtain ⟨⟨n, hn⟩, hend⟩ := hf (fun i => o (m + i)) fun i => ho (m + i)
  refine ⟨⟨m + n, ?_⟩, (congrArg Prod.snd hrun).symm ▸ hend⟩
  have h := hm n
  rw [hr] at h
  exact h.symm ▸ hn

theorem Passes.bind {x : Fallible I ε β} {f : β → Fallible I ε α} {b : β} (hx : Yields exec E x w (.ok b) v)
    (hf : Passes exec E (f b) P Q v) : Passes exec E (x >>= f) P Q w := by
  refine Passes.andThen (Surely.mono hx ?_)
  rintro r w' ⟨rfl, rfl⟩
  exact ⟨b, rfl, hf⟩

/-! ### Programs whose calls are right in every world -/

/-- In whatever world the program starts, its calls meet `R`. -/
def Always (exec : X → (c : I.Call) → W → I.Ans c × W) (R : W → I.Call → Prop) (x : Fallible I ε α) : Prop :=
  ∀ w, Makes exec R x w

theorem Always.pure (a : α) : Always exec R (pure a : Fallible I ε α) := fun _ => Makes.pure

theorem Always.throw (e : ε) : Always exec R (throw e : Fallible I ε α) := fun _ => Makes.throw

theorem Always.ask {c : I.Call} (h : ∀ w, R w c) : Always exec R (ask c : Fallible I ε (I.Ans c)) :=
  fun w => Makes.ask (h w)

/-- Every program leads somewhere. -/
theorem leads_true {A : X → W → I.Call → Prop} {x : Fallible I ε α} : Leads exec A x w fun _ _ => True := by
  refine Does.of_wp (Wp.mono (Q := fun _ _ => True) ?_ fun _ _ _ => ⟨trace_any, fun _ _ => trivial⟩)
  unfold Wp
  exact Prog.wp_true x.run w

theorem Always.bind {x : Fallible I ε β} {f : β → Fallible I ε α} (hx : Always exec R x) (hf : ∀ b, Always exec R (f b)) :
    Always exec R (x >>= f) :=
  fun w => (hx w).bind leads_true fun b w' _ => hf b w'

theorem Always.attempt {x : Fallible I ε β} (hx : Always exec R x) : Always exec R (attempt x : Fallible I ε _) :=
  fun w => (hx w).attempt

theorem Always.forEach {f : β → Fallible I ε Unit} {bs : List β} (hf : ∀ b ∈ bs, Always exec R (f b)) :
    Always exec R (forEach f bs) := by
  induction bs with
  | nil => exact Always.pure ()
  | cons b bs ih => exact (hf b (by simp)).bind fun _ => ih fun b' hb' => hf b' (by simp [hb'])

end Fallible

attribute [irreducible] Fallible.Makes

end Effect
