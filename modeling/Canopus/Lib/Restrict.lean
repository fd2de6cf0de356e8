import Canopus.Lib.Trace

/-! Runs in which the environment keeps to some of its choices. Where no call fails, most programs have
    one outcome: `Yields` says which, and its bind rule evaluates a program call by call. -/

namespace Effect

namespace Fallible
variable {I : Iface} {ε α β W X : Type} {exec : X → (c : I.Call) → W → I.Ans c × W} {E : X → Prop} {w v : W}
  {Q R : Except ε α → W → Prop}

/-- `Q` holds at the end of every run in which the environment keeps to `E`. -/
def Surely (exec : X → (c : I.Call) → W → I.Ans c × W) (E : X → Prop) (x : Fallible I ε α)
    (Q : Except ε α → W → Prop) (w : W) : Prop :=
  Wp exec (fun y _ _ => E y) x Q w

theorem Surely.mono {x : Fallible I ε α} (h : Surely exec E x Q w) (hQ : ∀ r w', Q r w' → R r w') :
    Surely exec E x R w :=
  Wp.mono h hQ

theorem Surely.and {x : Fallible I ε α} (h : Surely exec E x Q w) (h' : Surely exec E x R w) :
    Surely exec E x (fun r w' => Q r w' ∧ R r w') w :=
  Wp.and h h'

theorem Surely.pure {a : α} (h : Q (.ok a) w) : Surely exec E (pure a) Q w := Wp.pure h

theorem Surely.throw {e : ε} (h : Q (.error e) w) : Surely exec E (throw e) Q w := Wp.throw h

theorem Surely.andThen {x : Fallible I ε β} {f : β → Fallible I ε α} {S : Except ε β → W → Prop}
    (hx : Surely exec E x S w) (hf : ∀ b w', S (.ok b) w' → Surely exec E (f b) Q w')
    (he : ∀ e w', S (.error e) w' → Q (.error e) w') : Surely exec E (x >>= f) Q w := by
  refine Wp.bind (Wp.mono hx ?_)
  intro r w' hr
  cases r with
  | error e => exact he e w' hr
  | ok b => exact hf b w' hr

theorem Surely.ask {c : I.Call} {Q : Except ε (I.Ans c) → W → Prop}
    (h : ∀ x, E x → Q (.ok (exec x c w).1) (exec x c w).2) : Surely exec E (ask c) Q w :=
  Wp.ask h

theorem Surely.attempt {x : Fallible I ε β} {Q : Except ε (Except ε β) → W → Prop}
    (h : Surely exec E x (fun r w' => Q (.ok r) w') w) : Surely exec E (attempt x) Q w :=
  Wp.attempt h

/-- What holds whatever the environment does, surely holds. -/
theorem Surely.of_wp {x : Fallible I ε α} (h : Wp exec (fun _ _ _ => True) x Q w) : Surely exec E x Q w :=
  Wp.anti h fun _ _ _ _ => trivial

theorem Stays.surely {P : W → W → Prop} {x : Fallible I ε α} (h : Stays exec P x) :
    Surely exec E x (fun _ w' => P w w') w := by
  unfold Stays at h
  exact Surely.of_wp (h _ w)

/-- What surely holds, holds at the end of each such run. -/
theorem Surely.run {x : Fallible I ε α} {o : Nat → X} (h : Surely exec E x Q w) (ho : ∀ n, E (o n)) :
    Q (Prog.run exec o x.run w).1 (Prog.run exec o x.run w).2 :=
  Wp.run h (Prog.kept_of_forall fun n _ _ => ho n)

/-- It can be brought about, if the environment can keep to `E`. -/
theorem Surely.can {x : Fallible I ε α} (h : Surely exec E x Q w) (hE : ∃ y, E y) : Can exec x Q w := by
  unfold Surely Wp at h
  unfold Can
  exact Prog.can_of_wp (fun _ _ => hE) h

/-- Every run that keeps to `E` has the outcome `r` and ends in the world `v`. -/
def Yields (exec : X → (c : I.Call) → W → I.Ans c × W) (E : X → Prop) (x : Fallible I ε α) (w : W)
    (r : Except ε α) (v : W) : Prop :=
  Surely exec E x (fun r' v' => r' = r ∧ v' = v) w

theorem Yields.pure {a : α} : Yields exec E (pure a : Fallible I ε α) w (.ok a) w := Surely.pure ⟨rfl, rfl⟩

theorem Yields.throw {e : ε} : Yields exec E (throw e : Fallible I ε α) w (.error e) w := Surely.throw ⟨rfl, rfl⟩

theorem Yields.bind {x : Fallible I ε β} {f : β → Fallible I ε α} {b : β} (hx : Yields exec E x w (.ok b) v)
    (hf : Surely exec E (f b) Q v) : Surely exec E (x >>= f) Q w := by
  refine Surely.andThen hx ?_ ?_
  · intro b' w' hr
    obtain ⟨hb, rfl⟩ := hr
    cases hb
    exact hf
  · intro e w' hr
    cases hr.1

/-- After an error nothing else happens. -/
theorem Yields.fail {x : Fallible I ε β} {f : β → Fallible I ε α} {e : ε} (hx : Yields exec E x w (.error e) v)
    (hQ : Q (.error e) v) : Surely exec E (x >>= f) Q w := by
  refine Surely.andThen hx ?_ ?_
  · intro b' w' hr
    cases hr.1
  · intro e' w' hr
    obtain ⟨he, rfl⟩ := hr
    cases he
    exact hQ

theorem Yields.ask {c : I.Call} {a : I.Ans c} (h : ∀ x, E x → exec x c w = (a, v)) :
    Yields exec E (ask c : Fallible I ε (I.Ans c)) w (.ok a) v := by
  refine Surely.ask ?_
  intro x hx
  rw [h x hx]
  exact ⟨rfl, rfl⟩

theorem Yields.attempt {x : Fallible I ε β} {r : Except ε β} (h : Yields exec E x w r v) :
    Yields exec E (attempt x) w (.ok r) v := by
  refine Surely.attempt (Surely.mono h ?_)
  intro r' v' hr
  exact ⟨congrArg Except.ok hr.1, hr.2⟩

end Fallible

attribute [irreducible] Fallible.Surely

end Effect
