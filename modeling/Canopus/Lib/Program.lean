import Mathlib.Logic.Relation
import Mathlib.Tactic.Common

/-! Programs that reach the outside only through calls. A program is a tree of calls, each with a
    continuation for every answer, so one text has both a sequential meaning (`run`, with a choice of
    the environment at each call) and a meaning under interleaving (`Lib/Pool.lean`). The weakest precondition
    `wp` ranges over every choice; its parameter `A` is what may be assumed of a call when it is
    made. -/

namespace Effect

/-- The calls a program may make and the type of the answer to each. -/
structure Iface where
  Call : Type
  Ans : Call → Type

inductive Prog (I : Iface) (α : Type) where
  | pure (a : α)
  | call (c : I.Call) (k : I.Ans c → Prog I α)

namespace Prog
variable {I : Iface} {α β γ : Type}

def bind : Prog I α → (α → Prog I β) → Prog I β
  | .pure a, f => f a
  | .call c k, f => .call c fun r => (k r).bind f

instance : Monad (Prog I) where
  pure := .pure
  bind := .bind

/-- The program that makes one call and returns its answer. -/
def request (c : I.Call) : Prog I (I.Ans c) := .call c .pure

section Run
variable {W X : Type} (exec : X → (c : I.Call) → W → I.Ans c × W)

/-- The run of a program in which the environment makes the `n`-th choice at the `n`-th call. -/
def run (o : Nat → X) : Prog I α → W → α × W
  | .pure a, w => (a, w)
  | .call c k, w => run (fun n => o (n + 1)) (k (exec (o 0) c w).1) (exec (o 0) c w).2

/-- Every call of the run meets `A` in the state in which it is made. -/
def Allowed (A : W → I.Call → Prop) (o : Nat → X) : Prog I α → W → Prop
  | .pure _, _ => True
  | .call c k, w => A w c ∧ Allowed A (fun n => o (n + 1)) (k (exec (o 0) c w).1) (exec (o 0) c w).2

/-- Whether a run is allowed can be found out by running it. -/
def Allowed.check (A : W → I.Call → Prop) [∀ w c, Decidable (A w c)] (o : Nat → X) : Prog I α → W → Bool
  | .pure _, _ => true
  | .call c k, w => decide (A w c) && check A (fun n => o (n + 1)) (k (exec (o 0) c w).1) (exec (o 0) c w).2

/-- Every choice of the environment, in the state and for the call that it is made for, meets `A`. -/
def Kept (A : X → W → I.Call → Prop) (o : Nat → X) : Prog I α → W → Prop
  | .pure _, _ => True
  | .call c k, w => A (o 0) w c ∧ Kept A (fun n => o (n + 1)) (k (exec (o 0) c w).1) (exec (o 0) c w).2

/-- Whatever the environment chooses, `Q` holds at the end, provided each choice meets `A`. -/
def wp (A : X → W → I.Call → Prop) : Prog I α → (α → W → Prop) → W → Prop
  | .pure a, Q, w => Q a w
  | .call c k, Q, w => ∀ x, A x w c → wp A (k (exec x c w).1) Q (exec x c w).2

/-- For some choices of the environment, `Q` holds at the end. -/
def can : Prog I α → (α → W → Prop) → W → Prop
  | .pure a, Q, w => Q a w
  | .call c k, Q, w => ∃ x, can (k (exec x c w).1) Q (exec x c w).2

variable {exec} {A B : X → W → I.Call → Prop}

theorem wp_mono {x : Prog I α} {Q R : α → W → Prop} (hQ : ∀ a w, Q a w → R a w) :
    ∀ {w}, wp exec A x Q w → wp exec A x R w := by
  induction x with
  | pure a => exact hQ a _
  | call c k ih => exact fun h y ha => ih _ (h y ha)

/-- What holds for more choices holds for fewer. -/
theorem wp_anti {x : Prog I α} {Q : α → W → Prop} (hAB : ∀ y w c, B y w c → A y w c) :
    ∀ {w}, wp exec A x Q w → wp exec B x Q w := by
  induction x with
  | pure a => exact fun h => h
  | call c k ih => exact fun h y hb => ih _ (h y (hAB y _ c hb))

theorem wp_and {x : Prog I α} {Q R : α → W → Prop} :
    ∀ {w}, wp exec A x Q w → wp exec A x R w → wp exec A x (fun a w => Q a w ∧ R a w) w := by
  induction x with
  | pure a => exact fun hQ hR => ⟨hQ, hR⟩
  | call c k ih => exact fun hQ hR y ha => ih _ (hQ y ha) (hR y ha)

theorem wp_bind {x : Prog I α} {f : α → Prog I β} {Q : β → W → Prop} :
    ∀ {w}, wp exec A (x >>= f) Q w ↔ wp exec A x (fun a w' => wp exec A (f a) Q w') w := by
  induction x with
  | pure a => exact Iff.rfl
  | call c k ih => exact forall_congr' fun y => forall_congr' fun _ => ih (exec y c _).1

theorem wp_run {x : Prog I α} {Q : α → W → Prop} : ∀ {w} {o : Nat → X}, wp exec A x Q w →
    Kept exec A o x w → Q (run exec o x w).1 (run exec o x w).2 := by
  induction x with
  | pure a => exact fun h _ => h
  | call c k ih => exact fun h ha => ih _ (h _ ha.1) ha.2

theorem kept_of_forall {x : Prog I α} : ∀ {w} {o : Nat → X}, (∀ n w c, A (o n) w c) → Kept exec A o x w := by
  induction x with
  | pure a => exact fun _ => trivial
  | call c k ih => exact fun h => ⟨h 0 _ _, ih _ fun n => h (n + 1)⟩

theorem kept_and {x : Prog I α} : ∀ {w} {o : Nat → X}, Kept exec A o x w → Kept exec B o x w →
    Kept exec (fun y w c => A y w c ∧ B y w c) o x w := by
  induction x with
  | pure a => exact fun _ _ => trivial
  | call c k ih => exact fun hA hB => ⟨⟨hA.1, hB.1⟩, ih _ hA.2 hB.2⟩

theorem kept_mono {x : Prog I α} (hAB : ∀ y w c, A y w c → B y w c) : ∀ {w} {o : Nat → X}, Kept exec A o x w →
    Kept exec B o x w := by
  induction x with
  | pure a => exact fun _ => trivial
  | call c k ih => exact fun h => ⟨hAB _ _ _ h.1, ih _ h.2⟩

theorem kept_of_allowed {P : W → I.Call → Prop} {x : Prog I α} : ∀ {w} {o : Nat → X}, Allowed exec P o x w →
    Kept exec (fun _ => P) o x w := by
  induction x with
  | pure a => exact fun _ => trivial
  | call c k ih => exact fun h => ⟨h.1, ih _ h.2⟩

/-- What is done with the result at the end changes nothing else of a run. -/
theorem run_map (f : α → β) {x : Prog I α} : ∀ {w} {o : Nat → X},
    run exec o (x >>= fun a => .pure (f a)) w = (f (run exec o x w).1, (run exec o x w).2) := by
  induction x with
  | pure a => exact rfl
  | call c k ih => exact ih _

theorem kept_of_map {f : α → β} {x : Prog I α} : ∀ {w} {o : Nat → X}, Kept exec A o (x >>= fun a => .pure (f a)) w →
    Kept exec A o x w := by
  induction x with
  | pure a => exact fun _ => trivial
  | call c k ih => exact fun h => ⟨h.1, ih _ h.2⟩

theorem allowed_true {x : Prog I α} : ∀ {w} {o : Nat → X}, Allowed exec (fun _ _ => True) o x w := by
  induction x with
  | pure a => exact trivial
  | call c k ih => exact ⟨trivial, ih _⟩

theorem allowed_mono {P R : W → I.Call → Prop} {x : Prog I α} (hPR : ∀ w c, P w c → R w c) :
    ∀ {w} {o : Nat → X}, Allowed exec P o x w → Allowed exec R o x w := by
  induction x with
  | pure a => exact fun _ => trivial
  | call c k ih => exact fun h => ⟨hPR _ _ h.1, ih _ h.2⟩

theorem allowed_of_check {P : W → I.Call → Prop} [∀ w c, Decidable (P w c)] {x : Prog I α} : ∀ {w} {o : Nat → X},
    Allowed.check exec P o x w = true → Allowed exec P o x w := by
  induction x with
  | pure a => exact fun _ => trivial
  | call c k ih =>
    intro w o h
    obtain ⟨ha, hk⟩ := Bool.and_eq_true_iff.mp h
    exact ⟨of_decide_eq_true ha, ih _ hk⟩

theorem can_mono {x : Prog I α} {Q R : α → W → Prop} (hQ : ∀ a w, Q a w → R a w) :
    ∀ {w}, can exec x Q w → can exec x R w := by
  induction x with
  | pure a => exact hQ a _
  | call c k ih => exact fun ⟨y, h⟩ => ⟨y, ih _ h⟩

theorem can_bind {x : Prog I α} {f : α → Prog I β} {Q : β → W → Prop} :
    ∀ {w}, can exec (x >>= f) Q w ↔ can exec x (fun a w' => can exec (f a) Q w') w := by
  induction x with
  | pure a => exact Iff.rfl
  | call c k ih => exact exists_congr fun y => ih (exec y c _).1

/-- What the environment can bring about, some run does. -/
theorem can_run [Nonempty X] {x : Prog I α} {Q : α → W → Prop} :
    ∀ {w}, can exec x Q w → ∃ o : Nat → X, Q (run exec o x w).1 (run exec o x w).2 := by
  induction x with
  | pure a => exact fun h => ⟨fun _ => Classical.arbitrary X, h⟩
  | call c k ih =>
    rintro w ⟨y, h⟩
    obtain ⟨o, ho⟩ := ih _ h
    -- The choice `y` comes first, then those of the rest.
    refine ⟨fun n => match n with | 0 => y | n + 1 => o n, ?_⟩
    simpa only [run] using ho

/-- What holds whatever the environment does can be brought about, if it always has a choice. -/
theorem can_of_wp (hA : ∀ w c, ∃ y, A y w c) {x : Prog I α} {Q : α → W → Prop} :
    ∀ {w}, wp exec A x Q w → can exec x Q w := by
  induction x with
  | pure a => exact fun h => h
  | call c k ih =>
    intro w h
    obtain ⟨y, hy⟩ := hA w c
    exact ⟨y, ih _ (h y hy)⟩

end Run
end Prog

/-! ### Programs that may stop with an error -/

/-- Programs over `I` that return a result or an error of type `ε`. -/
abbrev Fallible (I : Iface) (ε α : Type) := ExceptT ε (Prog I) α

namespace Fallible
variable {I : Iface} {ε α β : Type}

def ask (c : I.Call) : Fallible I ε (I.Ans c) := ExceptT.lift (Prog.request c)

/-- Runs `x` and hands its outcome, success or error, to the rest of the program. -/
def attempt (x : Fallible I ε α) : Fallible I ε (Except ε α) := ExceptT.lift x.run

/-- Runs `f` on each element in turn and stops at the first error. -/
def forEach (f : β → Fallible I ε Unit) : List β → Fallible I ε Unit
  | [] => pure ()
  | b :: bs => do f b; forEach f bs

section Wp
variable {W X : Type} {exec : X → (c : I.Call) → W → I.Ans c × W} {A B : X → W → I.Call → Prop}

/-- The weakest precondition of a fallible program, over both kinds of outcome. -/
def Wp (exec : X → (c : I.Call) → W → I.Ans c × W) (A : X → W → I.Call → Prop) (x : Fallible I ε α)
    (Q : Except ε α → W → Prop) (w : W) : Prop :=
  Prog.wp exec A x.run Q w

variable {Q R : Except ε α → W → Prop} {w : W}

theorem Wp.mono {x : Fallible I ε α} (h : Wp exec A x Q w) (hQ : ∀ r w', Q r w' → R r w') : Wp exec A x R w :=
  Prog.wp_mono hQ h

theorem Wp.anti {x : Fallible I ε α} (h : Wp exec A x Q w) (hAB : ∀ y w c, B y w c → A y w c) : Wp exec B x Q w :=
  Prog.wp_anti hAB h

theorem Wp.and {x : Fallible I ε α} (h : Wp exec A x Q w) (h' : Wp exec A x R w) :
    Wp exec A x (fun r w' => Q r w' ∧ R r w') w :=
  Prog.wp_and h h'

theorem Wp.pure {a : α} (h : Q (.ok a) w) : Wp exec A (pure a) Q w := h

theorem Wp.throw {e : ε} (h : Q (.error e) w) : Wp exec A (throw e) Q w := h

theorem Wp.bind {x : Fallible I ε β} {f : β → Fallible I ε α}
    (h : Wp exec A x (fun r w' => match r with
      | .ok b => Wp exec A (f b) Q w'
      | .error e => Q (.error e) w') w) : Wp exec A (x >>= f) Q w := by
  show Prog.wp exec A (ExceptT.run (x >>= f)) Q w
  rw [ExceptT.run_bind, Prog.wp_bind]
  refine Prog.wp_mono ?_ h
  rintro (e | b) w' hr
  · exact hr
  · exact hr

theorem Wp.ask {c : I.Call} {Q : Except ε (I.Ans c) → W → Prop}
    (h : ∀ x, A x w c → Q (.ok (exec x c w).1) (exec x c w).2) : Wp exec A (ask c) Q w := h

theorem Wp.attempt {x : Fallible I ε β} {Q : Except ε (Except ε β) → W → Prop}
    (h : Wp exec A x (fun r w' => Q (.ok r) w') w) : Wp exec A (attempt x) Q w := by
  show Prog.wp exec A (x.run >>= fun r => Prog.pure (Except.ok r)) Q w
  rw [Prog.wp_bind]
  exact h

/-- A relation that holds before the loop and that each round keeps, whatever its outcome, holds
    after the loop. -/
theorem Wp.forEach {f : β → Fallible I ε Unit} {P : W → Prop} {bs : List β} {w : W}
    (step : ∀ b ∈ bs, ∀ w, P w → Wp exec A (f b) (fun _ w' => P w') w) (h : P w) :
    Wp exec A (forEach f bs) (fun _ w' => P w') w := by
  induction bs generalizing w with
  | nil => exact Wp.pure h
  | cons b bs ih =>
    refine Wp.bind ((step b (by simp) w h).mono ?_)
    rintro (e | u) w' hw'
    · exact hw'
    · exact ih (fun b' hb' => step b' (by simp [hb'])) hw'

/-- The weakest precondition speaks of every run whose choices meet `A`. -/
theorem Wp.run {x : Fallible I ε α} {o : Nat → X} (h : Wp exec A x Q w) (ha : Prog.Kept exec A o x.run w) :
    Q (Prog.run exec o x.run w).1 (Prog.run exec o x.run w).2 :=
  Prog.wp_run h ha

end Wp

section Can
variable {W X : Type} {exec : X → (c : I.Call) → W → I.Ans c × W} {w : W} {Q R : Except ε α → W → Prop}

/-- For some choices of the environment, `Q` holds of the outcome. -/
def Can (exec : X → (c : I.Call) → W → I.Ans c × W) (x : Fallible I ε α) (Q : Except ε α → W → Prop) (w : W) : Prop :=
  Prog.can exec x.run Q w

theorem Can.mono {x : Fallible I ε α} (h : Can exec x Q w) (hQ : ∀ r w', Q r w' → R r w') : Can exec x R w :=
  Prog.can_mono hQ h

theorem Can.pure {a : α} (h : Q (.ok a) w) : Can exec (pure a) Q w := h

theorem Can.andThen {x : Fallible I ε β} {f : β → Fallible I ε α} {R : Except ε β → W → Prop} (hx : Can exec x R w)
    (hf : ∀ b w', R (.ok b) w' → Can exec (f b) Q w') (he : ∀ e w', R (.error e) w' → Q (.error e) w') :
    Can exec (x >>= f) Q w := by
  show Prog.can exec (ExceptT.run (x >>= f)) Q w
  rw [ExceptT.run_bind, Prog.can_bind]
  refine Prog.can_mono ?_ hx
  rintro (e | b) w' hr
  · exact he e w' hr
  · exact hf b w' hr

/-- The program can return `b` in the world `v`, and the rest can go on from there. -/
theorem Can.bind {x : Fallible I ε β} {f : β → Fallible I ε α} {b : β} {v : W}
    (hx : Can exec x (fun r w' => r = .ok b ∧ w' = v) w) (hf : Can exec (f b) Q v) : Can exec (x >>= f) Q w := by
  refine hx.andThen ?_ ?_
  · rintro _ _ ⟨⟨⟩, rfl⟩
    exact hf
  · rintro _ _ ⟨⟨⟩, -⟩

theorem Can.ask {c : I.Call} {Q : Except ε (I.Ans c) → W → Prop} (x : X)
    (h : Q (.ok (exec x c w).1) (exec x c w).2) : Can exec (ask c) Q w := ⟨x, h⟩

theorem Can.attempt {x : Fallible I ε β} {f : Except ε β → Fallible I ε α}
    (h : Can exec x (fun r w' => Can exec (f r) Q w') w) : Can exec (attempt x >>= f) Q w := by
  show Prog.can exec (ExceptT.run (Fallible.attempt x >>= f)) Q w
  rw [ExceptT.run_bind]
  show Prog.can exec ((x.run >>= fun r => Prog.pure (Except.ok r)) >>= _) Q w
  rw [Prog.can_bind, Prog.can_bind]
  exact h

theorem Can.of_wp [Nonempty X] {x : Fallible I ε α} (h : Wp exec (fun _ _ _ => True) x Q w) : Can exec x Q w :=
  Prog.can_of_wp (fun _ _ => ⟨Classical.arbitrary X, trivial⟩) h

theorem Can.run [Nonempty X] {x : Fallible I ε α} (h : Can exec x Q w) :
    ∃ o : Nat → X, Q (Prog.run exec o x.run w).1 (Prog.run exec o x.run w).2 :=
  Prog.can_run h

end Can
end Fallible

-- A goal about a program is taken apart by the rules above, never by running the program.
attribute [irreducible] Fallible.Wp
attribute [irreducible] Fallible.Can

end Effect
