import Canopus.Lib.Program

/-! Programs as sequences of labelled steps. `Does` says of a program that, whatever its environment
    does, it only takes steps whose labels are in a given set, and what holds when it returns. A
    property that every such step keeps then holds wherever the program stops, also after an error. -/

namespace Effect

section Trace
variable {L W : Type} {step : L → W → W → Prop} {S T : L → Prop} {u v w : W}

/-- A sequence of steps with labels in `S`. -/
def Trace (step : L → W → W → Prop) (S : L → Prop) : W → W → Prop :=
  Relation.ReflTransGen fun w w' => ∃ l, S l ∧ step l w w'

theorem Trace.refl : Trace step S w w := Relation.ReflTransGen.refl

theorem Trace.trans (h : Trace step S u v) (h' : Trace step S v w) : Trace step S u w :=
  Relation.ReflTransGen.trans h h'

theorem Trace.single {l : L} (hl : S l) (h : step l v w) : Trace step S v w :=
  Relation.ReflTransGen.single ⟨l, hl, h⟩

theorem Trace.mono (hST : ∀ l, S l → T l) (h : Trace step S v w) : Trace step T v w :=
  Relation.ReflTransGen.mono (fun _ _ ⟨l, hl, hs⟩ => ⟨l, hST l hl, hs⟩) _ _ h

/-- What every step that extends the trace keeps, the trace keeps. -/
theorem Trace.extends {P : W → Prop} (h : Trace step S v w)
    (hs : ∀ l w w', S l → Trace step S v w → step l w w' → P w → P w') (hP : P v) : P w := by
  induction h with
  | refl => exact hP
  | tail ht hst ih =>
    obtain ⟨l, hl, hst⟩ := hst
    exact hs l _ _ hl ht hst ih

/-- What every step of the trace keeps, the trace keeps. -/
theorem Trace.keeps {P : W → Prop} (h : Trace step S v w) (hs : ∀ l w w', S l → step l w w' → P w → P w') (hP : P v) :
    P w :=
  h.extends (fun l w w' hl _ => hs l w w' hl) hP

end Trace

namespace Fallible
variable {I : Iface} {ε α β L W X : Type} {exec : X → (c : I.Call) → W → I.Ans c × W} {A : X → W → I.Call → Prop}
  {step : L → W → W → Prop} {S T : L → Prop} {w : W}

/-- The program takes steps with labels in `S` only, and `P` holds if it returns. -/
def Does (exec : X → (c : I.Call) → W → I.Ans c × W) (A : X → W → I.Call → Prop) (step : L → W → W → Prop)
    (S : L → Prop) (x : Fallible I ε α) (w : W) (P : α → W → Prop) : Prop :=
  Wp exec A x (fun r w' => Trace step S w w' ∧ ∀ a, r = .ok a → P a w') w

variable {P Q : α → W → Prop}

theorem Does.of_wp {x : Fallible I ε α} (h : Wp exec A x (fun r w' => Trace step S w w' ∧ ∀ a, r = .ok a → P a w') w) :
    Does exec A step S x w P := h

theorem Does.pure {a : α} (h : P a w) : Does exec A step S (pure a : Fallible I ε α) w P :=
  Wp.pure ⟨.refl, fun _ e => by cases e; exact h⟩

theorem Does.throw {e : ε} : Does exec A step S (throw e : Fallible I ε α) w P :=
  Wp.throw ⟨.refl, fun _ h => by cases h⟩

theorem Does.post {x : Fallible I ε α} (h : Does exec A step S x w P) (hPQ : ∀ a w', P a w' → Q a w') :
    Does exec A step S x w Q :=
  Wp.mono h fun _ _ ⟨ht, hp⟩ => ⟨ht, fun a ha => hPQ a _ (hp a ha)⟩

theorem Does.mono {x : Fallible I ε α} (h : Does exec A step S x w P) (hST : ∀ l, S l → T l) :
    Does exec A step T x w P :=
  Wp.mono h fun _ _ ⟨ht, hp⟩ => ⟨ht.mono hST, hp⟩

/-- A trace that amounts to one of other steps. -/
theorem Does.retrace {L' : Type} {step' : L' → W → W → Prop} {T' : L' → Prop} {x : Fallible I ε α}
    (h : Does exec A step S x w P) (hs : ∀ w', Trace step S w w' → Trace step' T' w w') : Does exec A step' T' x w P :=
  Wp.mono h fun _ w' ⟨ht, hp⟩ => ⟨hs w' ht, hp⟩

/-- The trace itself is known at the end. -/
theorem Does.traced {x : Fallible I ε α} (h : Does exec A step S x w P) :
    Does exec A step S x w fun a w' => P a w' ∧ Trace step S w w' :=
  Wp.mono h fun _ _ ⟨ht, hp⟩ => ⟨ht, fun a ha => ⟨hp a ha, ht⟩⟩

theorem Does.bind {x : Fallible I ε β} {f : β → Fallible I ε α} {R : β → W → Prop} (hx : Does exec A step S x w R)
    (hf : ∀ b w', R b w' → Does exec A step S (f b) w' P) : Does exec A step S (x >>= f) w P := by
  refine Wp.bind (Wp.mono hx ?_)
  rintro (e | b) w' ⟨ht, hr⟩
  · exact ⟨ht, fun _ h => by cases h⟩
  · exact Wp.mono (hf b w' (hr b rfl)) fun _ _ ⟨ht', hp⟩ => ⟨ht.trans ht', hp⟩

/-- Two programs that together make what the steps are about. -/
theorem Does.joined {γ : Type} {x : Fallible I ε β} {y : β → Fallible I ε γ} {f : β → γ → Fallible I ε α}
    {R : β → γ → W → Prop}
    (hxy : Wp exec A x (fun r v => match r with
      | .ok b => Wp exec A (y b) (fun r w' => Trace step S w w' ∧ ∀ c, r = .ok c → R b c w') v
      | .error _ => Trace step S w v) w)
    (hf : ∀ b c w', R b c w' → Does exec A step S (f b c) w' P) :
    Does exec A step S (x >>= fun b => y b >>= fun c => f b c) w P := by
  refine Wp.bind (Wp.mono hxy ?_)
  rintro (e | b) v hv
  · exact ⟨hv, fun _ h => by cases h⟩
  · refine Wp.bind (Wp.mono hv ?_)
    rintro (e | c) w' ⟨ht, hr⟩
    · exact ⟨ht, fun _ h => by cases h⟩
    · exact Wp.mono (hf b c w' (hr c rfl)) fun _ _ ⟨ht', hp⟩ => ⟨ht.trans ht', hp⟩

/-- A program whose calls change nothing that the steps are about. -/
theorem Does.ask {c : I.Call} {R : I.Ans c → W → Prop}
    (h : ∀ x, A x w c → Trace step S w (exec x c w).2 ∧ R (exec x c w).1 (exec x c w).2) :
    Does exec A step S (ask c : Fallible I ε (I.Ans c)) w R :=
  Wp.ask fun x ha => ⟨(h x ha).1, fun _ e => by cases e; exact (h x ha).2⟩

theorem Does.attempt {x : Fallible I ε β} {R : β → W → Prop} (h : Does exec A step S x w R) :
    Does exec A step S (attempt x) w fun r w' => Trace step S w w' ∧ ∀ b, r = .ok b → R b w' :=
  Wp.attempt (Wp.mono h fun _ _ ⟨ht, hr⟩ => ⟨ht, fun _ e => by cases e; exact ⟨ht, hr⟩⟩)

/-- A loop keeps what each of its rounds keeps. -/
theorem Does.forEach {f : β → Fallible I ε Unit} {J : W → Prop} {bs : List β}
    (hf : ∀ b ∈ bs, ∀ w, J w → Does exec A step S (f b) w fun _ w' => J w') (h : J w) :
    Does exec A step S (forEach f bs) w fun _ w' => J w' := by
  induction bs generalizing w with
  | nil => exact Does.pure h
  | cons b bs ih =>
    refine Does.bind (hf b (by simp) w h) fun _ w' hw' => ?_
    exact ih (fun b' hb' => hf b' (by simp [hb'])) hw'

/-- The environment cannot bring about anything else. -/
theorem Does.can [Nonempty X] {x : Fallible I ε α} (h : Does exec (fun _ _ _ => True) step S x w P) :
    Can exec x (fun _ w' => Trace step S w w') w :=
  Can.of_wp (Wp.mono h fun _ _ ⟨ht, _⟩ => ht)

/-- Every run whose choices meet `A` is a trace. -/
theorem Does.run {x : Fallible I ε α} {o : Nat → X} (h : Does exec A step S x w P)
    (ha : Prog.Kept exec A o x.run w) : Trace step S w (Prog.run exec o x.run w).2 :=
  (Wp.run h ha).1

/-- A run that returns ends in a state of which `P` holds. -/
theorem Does.returns {x : Fallible I ε α} {o : Nat → X} {a : α} (h : Does exec A step S x w P)
    (ha : Prog.Kept exec A o x.run w) (hr : (Prog.run exec o x.run w).1 = .ok a) : P a (Prog.run exec o x.run w).2 :=
  (Wp.run h ha).2 a hr

/-! ### Programs whose steps do not matter -/

/-- `P` holds if the program returns. -/
abbrev Leads (exec : X → (c : I.Call) → W → I.Ans c × W) (A : X → W → I.Call → Prop) (x : Fallible I ε α) (w : W)
    (P : α → W → Prop) : Prop :=
  Does exec A (fun (_ : Unit) _ _ => True) (fun _ => True) x w P

theorem trace_any {v w : W} : Trace (fun (_ : Unit) (_ _ : W) => True) (fun _ => True) v w :=
  Trace.single (l := ()) trivial trivial

/-! ### Programs that stay within a relation -/

section Stays
variable {R : W → W → Prop} [IsPreorder W R]

/-- Wherever the program stops, `R` relates the world before to the world then. -/
def Stays (exec : X → (c : I.Call) → W → I.Ans c × W) (R : W → W → Prop) (x : Fallible I ε α) : Prop :=
  ∀ A w, Wp exec A x (fun _ w' => R w w') w

theorem Stays.pure (a : α) : Stays exec R (pure a : Fallible I ε α) := fun _ w => Wp.pure (refl_of R w)

theorem Stays.throw (e : ε) : Stays exec R (throw e : Fallible I ε α) := fun _ w => Wp.throw (refl_of R w)

theorem Stays.bind {x : Fallible I ε β} {f : β → Fallible I ε α} (hx : Stays exec R x) (hf : ∀ b, Stays exec R (f b)) :
    Stays exec R (x >>= f) := by
  intro A w
  refine Wp.bind (Wp.mono (hx A w) ?_)
  rintro (e | b) w' h
  · exact h
  · exact Wp.mono (hf b A w') fun _ _ h' => trans_of R h h'

omit [IsPreorder W R] in
theorem Stays.attempt {x : Fallible I ε β} (hx : Stays exec R x) : Stays exec R (attempt x) :=
  fun A w => Wp.attempt (hx A w)

theorem Stays.forEach {f : β → Fallible I ε Unit} (hf : ∀ b, Stays exec R (f b)) (bs : List β) :
    Stays exec R (forEach f bs) := by
  induction bs with
  | nil => exact Stays.pure ()
  | cons b bs ih => exact (hf b).bind fun _ => ih

omit [IsPreorder W R] in
theorem Stays.ask {c : I.Call} (h : ∀ x w, R w (exec x c w).2) : Stays exec R (ask c : Fallible I ε (I.Ans c)) :=
  fun _ w => Wp.ask fun x _ => h x w

omit [IsPreorder W R] in
theorem Stays.weaken {R' : W → W → Prop} {x : Fallible I ε α} (hx : Stays exec R x) (h : ∀ w w', R w w' → R' w w') :
    Stays exec R' x :=
  fun A w => Wp.mono (hx A w) fun _ w' => h w w'

omit [IsPreorder W R] in
/-- Whatever its outcome, an attempted program has stayed within `R`. -/
theorem Does.attempt_stays {x : Fallible I ε β} {Q : β → W → Prop} (h : Does exec A step S x w Q) (hx : Stays exec R x) :
    Does exec A step S (Fallible.attempt x) w fun _ w' => R w w' :=
  Wp.attempt (Wp.mono (Wp.and h (hx A w)) fun _ _ ⟨⟨ht, _⟩, hr⟩ => ⟨ht, fun _ e => by cases e; exact hr⟩)

omit [IsPreorder W R] in
/-- A program that stays within `R` does nothing but the steps that `R` stands for. -/
theorem Stays.does {x : Fallible I ε α} (hx : Stays exec R x) (h : ∀ w', R w w' → Trace step S w w') :
    Does exec A step S x w fun _ w' => R w w' :=
  Wp.mono (hx A w) fun _ w' hr => ⟨h w' hr, fun _ _ => hr⟩

end Stays
end Fallible

attribute [irreducible] Fallible.Does
attribute [irreducible] Fallible.Stays

end Effect
