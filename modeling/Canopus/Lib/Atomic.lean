import Canopus.Lib.Trace

/-! Programs that fail without an effect. A program is `Atomic` if an error leaves the world as it was. It is made of
    checks, which change nothing, and of a rest that succeeds whatever happens: once something has been changed there is
    no way back. -/

namespace Effect

namespace Fallible
variable {I : Iface} {ε α β L W X : Type} {exec : X → (c : I.Call) → W → I.Ans c × W} {A : X → W → I.Call → Prop} {w : W}

/-- An error leaves the world as it was, and `P` holds if the program returns. -/
def Atomic (exec : X → (c : I.Call) → W → I.Ans c × W) (A : X → W → I.Call → Prop) (x : Fallible I ε α) (w : W)
    (P : α → W → Prop) : Prop :=
  Wp exec A x (fun r w' => (∀ e, r = .error e → w' = w) ∧ ∀ a, r = .ok a → P a w') w

/-- The program returns, and `P` holds when it does. -/
def Succeeds (exec : X → (c : I.Call) → W → I.Ans c × W) (A : X → W → I.Call → Prop) (x : Fallible I ε α) (w : W)
    (P : α → W → Prop) : Prop :=
  Wp exec A x (fun r w' => ∃ a, r = .ok a ∧ P a w') w

variable {P Q : α → W → Prop} {R : β → W → Prop}

/-! ### Succeeding -/

theorem Succeeds.pure {a : α} (h : P a w) : Succeeds exec A (pure a : Fallible I ε α) w P := Wp.pure ⟨a, rfl, h⟩

theorem Succeeds.post {x : Fallible I ε α} (h : Succeeds exec A x w P) (hPQ : ∀ a w', P a w' → Q a w') :
    Succeeds exec A x w Q := by
  refine Wp.mono h ?_
  rintro _ w' ⟨a, rfl, ha⟩
  exact ⟨a, rfl, hPQ a w' ha⟩

theorem Succeeds.bind {x : Fallible I ε β} {f : β → Fallible I ε α} (hx : Succeeds exec A x w R)
    (hf : ∀ b w', R b w' → Succeeds exec A (f b) w' P) : Succeeds exec A (x >>= f) w P := by
  refine Wp.bind (Wp.mono hx ?_)
  rintro _ w' ⟨b, rfl, hb⟩
  exact hf b w' hb

theorem Succeeds.ask {c : I.Call} {R : I.Ans c → W → Prop} (h : ∀ x, A x w c → R (exec x c w).1 (exec x c w).2) :
    Succeeds exec A (ask c : Fallible I ε (I.Ans c)) w R :=
  Wp.ask fun x hx => ⟨_, rfl, h x hx⟩

/-- An attempt succeeds, and has done what the program has done up to where it stopped. -/
theorem Does.attempted {step : L → W → W → Prop} {S : L → Prop} {x : Fallible I ε β} (h : Does exec A step S x w R) :
    Succeeds exec A (Fallible.attempt x) w fun _ w' => Trace step S w w' := by
  unfold Does at h
  exact Wp.attempt (Wp.mono h fun r _ hr => ⟨r, rfl, hr.1⟩)

theorem Stays.attempted {S : W → W → Prop} {x : Fallible I ε β} (h : Stays exec S x) :
    Succeeds exec A (Fallible.attempt x) w fun _ w' => S w w' := by
  unfold Stays at h
  exact Wp.attempt (Wp.mono (h A w) fun r _ hr => ⟨r, rfl, hr⟩)

/-! ### All or nothing -/

theorem Atomic.throw {e : ε} : Atomic exec A (throw e : Fallible I ε α) w P :=
  Wp.throw ⟨fun _ _ => rfl, fun _ ha => by cases ha⟩

theorem Succeeds.atomic {x : Fallible I ε α} (h : Succeeds exec A x w P) : Atomic exec A x w P := by
  refine Wp.mono h ?_
  rintro _ w' ⟨a, rfl, ha⟩
  refine ⟨fun _ he => (by cases he), ?_⟩
  rintro _ ⟨⟩
  exact ha

theorem Atomic.pure {a : α} (h : P a w) : Atomic exec A (pure a : Fallible I ε α) w P :=
  (Succeeds.pure h).atomic

/-- What only looks at the world fails without an effect. -/
theorem Does.checks {step : L → W → W → Prop} {S : L → Prop} {x : Fallible I ε α} (h : Does exec A step S x w P)
    (hx : Stays exec Eq x) : Atomic exec A x w fun a w' => w' = w ∧ P a w := by
  unfold Does at h
  unfold Stays at hx
  refine Wp.mono (Wp.and h (hx A w)) ?_
  rintro r w' ⟨⟨-, hp⟩, rfl⟩
  exact ⟨fun _ _ => rfl, fun a ha => ⟨rfl, hp a ha⟩⟩

/-- Checks come first. -/
theorem Atomic.bind {R : β → Prop} {x : Fallible I ε β} {f : β → Fallible I ε α}
    (hx : Atomic exec A x w fun b w' => w' = w ∧ R b) (hf : ∀ b, R b → Atomic exec A (f b) w P) :
    Atomic exec A (x >>= f) w P := by
  refine Wp.bind (Wp.mono hx ?_)
  rintro (e | b) w' ⟨herr, hok⟩
  · exact ⟨fun _ _ => herr e rfl, fun _ ha => by cases ha⟩
  · obtain ⟨rfl, hb⟩ := hok b rfl
    exact hf b hb

/-- After a change nothing may fail any more. -/
theorem Atomic.commit {x : Fallible I ε β} {f : β → Fallible I ε α} (hx : Atomic exec A x w R)
    (hf : ∀ b w', R b w' → Succeeds exec A (f b) w' P) : Atomic exec A (x >>= f) w P := by
  refine Wp.bind (Wp.mono hx ?_)
  rintro (e | b) w' ⟨herr, hok⟩
  · exact ⟨fun _ _ => herr e rfl, fun _ ha => by cases ha⟩
  · refine Wp.mono (hf b w' (hok b rfl)) ?_
    rintro _ w'' ⟨a, rfl, ha⟩
    refine ⟨fun _ he => (by cases he), ?_⟩
    rintro _ ⟨⟩
    exact ha

/-- Every run whose choices meet `A` has an effect or an error, not both. -/
theorem Atomic.run {x : Fallible I ε α} {o : Nat → X} (h : Atomic exec A x w P) (ha : Prog.Kept exec A o x.run w) :
    (∀ e, (Prog.run exec o x.run w).1 = .error e → (Prog.run exec o x.run w).2 = w) ∧
      ∀ a, (Prog.run exec o x.run w).1 = .ok a → P a (Prog.run exec o x.run w).2 :=
  Wp.run h ha

end Fallible

attribute [irreducible] Fallible.Atomic
attribute [irreducible] Fallible.Succeeds

end Effect
