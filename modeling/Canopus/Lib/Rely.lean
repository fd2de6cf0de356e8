import Canopus.Lib.Calls
import Canopus.Lib.Crowd

/-! Programs that rely on their answers. `Heeds` says that every call a program makes meets a condition, as long as
    each answer it has been given met another one. It does not speak of the state, so it does not matter what
    happens between two calls. Where the state vouches for the answers, and the calls keep the state in order, any
    number of such programs keep it in order, whenever they start, move and stop. -/

namespace Effect

/-- What programs rely on of the answers they get, and what they guarantee of the calls they make. -/
structure Contract (I : Iface) where
  rely : (c : I.Call) → I.Ans c → Prop
  guar : I.Call → Prop

namespace Prog
variable {I : Iface} {α β : Type} {C : Contract I}

/-- The program makes only calls that the contract guarantees, and `Q` holds of its result. -/
def heeds (C : Contract I) : Prog I α → (α → Prop) → Prop
  | .pure a, Q => Q a
  | .call c k, Q => C.guar c ∧ ∀ r, C.rely c r → heeds C (k r) Q

theorem heeds_mono {x : Prog I α} {Q R : α → Prop} (hQ : ∀ a, Q a → R a) : heeds C x Q → heeds C x R := by
  induction x with
  | pure a => exact hQ a
  | call c k ih => exact fun h => ⟨h.1, fun r hr => ih r (h.2 r hr)⟩

theorem heeds_bind {x : Prog I α} {f : α → Prog I β} {Q : β → Prop} :
    heeds C x (fun a => heeds C (f a) Q) → heeds C (x >>= f) Q := by
  induction x with
  | pure a => exact fun h => h
  | call c k ih => exact fun h => ⟨h.1, fun r hr => ih r (h.2 r hr)⟩

end Prog

namespace Fallible
variable {I : Iface} {ε α β : Type} {C : Contract I} {P : β → Prop} {Q R : α → Prop}

/-- `Q` is said of a result only, not of an error. -/
def Heeds (C : Contract I) (x : Fallible I ε α) (Q : α → Prop) : Prop :=
  Prog.heeds C x.run fun r => ∀ a, r = .ok a → Q a

theorem Heeds.post {x : Fallible I ε α} (h : Heeds C x Q) (hQ : ∀ a, Q a → R a) : Heeds C x R :=
  Prog.heeds_mono (fun _ hr a ha => hQ a (hr a ha)) h

/-- Of the result nothing need be said. -/
theorem Heeds.plain {x : Fallible I ε α} (h : Heeds C x Q) : Heeds C x fun _ => True := h.post fun _ _ => trivial

theorem Heeds.pure {a : α} (h : Q a) : Heeds C (pure a : Fallible I ε α) Q := by
  intro b hb
  obtain rfl := Except.ok.inj hb
  exact h

theorem Heeds.throw {e : ε} : Heeds C (throw e : Fallible I ε α) Q := by
  intro b hb
  cases hb

theorem Heeds.bind {x : Fallible I ε β} {f : β → Fallible I ε α} (hx : Heeds C x P) (hf : ∀ b, P b → Heeds C (f b) Q) :
    Heeds C (x >>= f) Q := by
  show Prog.heeds C (ExceptT.run (x >>= f)) _
  rw [ExceptT.run_bind]
  refine Prog.heeds_bind (Prog.heeds_mono ?_ hx)
  rintro (e | b) hr
  · intro a ha
    cases ha
  · exact hf b (hr b rfl)

/-- The answer is relied on. -/
theorem Heeds.ask {c : I.Call} (h : C.guar c) : Heeds C (ask c : Fallible I ε (I.Ans c)) (C.rely c) := by
  refine ⟨h, fun r hr a ha => ?_⟩
  obtain rfl := Except.ok.inj ha
  exact hr

theorem Heeds.attempt {x : Fallible I ε β} (hx : Heeds C x P) :
    Heeds C (attempt x : Fallible I ε (Except ε β)) fun r => ∀ b, r = .ok b → P b := by
  show Prog.heeds C (x.run >>= fun r => Prog.pure (Except.ok r)) _
  refine Prog.heeds_bind (Prog.heeds_mono ?_ hx)
  intro r hr a ha
  obtain rfl := Except.ok.inj ha
  exact hr

theorem Heeds.forEach {f : β → Fallible I ε Unit} {bs : List β} (hf : ∀ b ∈ bs, Heeds C (f b) fun _ => True) :
    Heeds C (forEach f bs) fun _ => True := by
  induction bs with
  | nil => exact Heeds.pure trivial
  | cons b bs ih => exact (hf b (by simp)).bind fun _ _ => ih fun b' hb' => hf b' (by simp [hb'])

theorem Heeds.run {x : Fallible I ε α} (h : Heeds C x Q) : Prog.heeds C x.run fun _ => True :=
  Prog.heeds_mono (fun _ _ => trivial) h

end Fallible

/-! ### Many programs -/

namespace Crowd
variable {I : Iface} {α W X : Type} {exec : X → (c : I.Call) → W → I.Ans c × W} {C : Contract I} {Good Inv : W → Prop}
  {s : Crowd I α W} {start : W → Prog I α → Prop} {stop : W → W} {w₀ : W}

/-- In a state with the invariant, answers may be relied on, and what is guaranteed keeps the invariant, as long as the
    state that follows is one of those under consideration. Those that come before it are then as well. -/
structure Upholds (exec : X → (c : I.Call) → W → I.Ans c × W) (C : Contract I) (Good Inv : W → Prop) : Prop where
  before : ∀ x c w, Good (exec x c w).2 → Good w
  answers : ∀ x c w, Good (exec x c w).2 → Inv w → C.rely c (exec x c w).1
  keeps : ∀ x c w, Good (exec x c w).2 → Inv w → C.guar c → Inv (exec x c w).2

/-- The state has the invariant, and all programs keep to the contract from where they are. -/
structure InOrder (C : Contract I) (Inv : W → Prop) (s : Crowd I α W) : Prop where
  world : Inv s.world
  progs : ∀ p ∈ s.progs, Prog.heeds C p fun _ => True

theorem step_of_call {i : Nat} {x : X} {c : I.Call} {k : I.Ans c → Prog I α} (h : s.progs[i]? = some (.call c k)) :
    step exec i x s = ⟨s.progs.set i (k (exec x c s.world).1), (exec x c s.world).2⟩ := by
  simp [step, h]

theorem step_cases (i : Nat) (x : X) (s : Crowd I α W) : step exec i x s = s ∨
    ∃ c k, s.progs[i]? = some (.call c k) ∧
      step exec i x s = ⟨s.progs.set i (k (exec x c s.world).1), (exec x c s.world).2⟩ := by
  cases hp : s.progs[i]? with
  | none => exact Or.inl (by simp [step, hp])
  | some p =>
    cases p with
    | pure a => exact Or.inl (by simp [step, hp])
    | call c k => exact Or.inr ⟨c, k, rfl, step_of_call hp⟩

theorem InOrder.step (hu : Upholds exec C Good Inv) (h : InOrder C Inv s) {i : Nat} {x : X}
    (hg : Good (step exec i x s).world) : InOrder C Inv (step exec i x s) := by
  rcases (step_cases i x s : Crowd.step exec i x s = s ∨ _) with he | ⟨c, k, hp, he⟩
  · rw [he]
    exact h
  · obtain ⟨hguar, hk⟩ := h.progs _ (List.mem_of_getElem? hp)
    rw [he] at hg ⊢
    refine ⟨hu.keeps x c s.world hg h.world hguar, ?_⟩
    intro p hmem
    rcases List.mem_or_eq_of_mem_set hmem with hmem | rfl
    · exact h.progs p hmem
    · exact hk _ (hu.answers x c s.world hg h.world)

theorem Upholds.before_step (hu : Upholds exec C Good Inv) {i : Nat} {x : X} (hg : Good (step exec i x s).world) :
    Good s.world := by
  rcases (step_cases i x s : Crowd.step exec i x s = s ∨ _) with he | ⟨c, k, -, he⟩
  · rwa [he] at hg
  · rw [he] at hg
    exact hu.before x c s.world hg

/-- The life of a process: it starts programs, which run at the same time, and it may stop at any time and begin anew,
    which loses them. -/
inductive Lives (exec : X → (c : I.Call) → W → I.Ans c × W) (start : W → Prog I α → Prop) (stop : W → W) (w₀ : W) :
    Crowd I α W → Prop
  | boot : Lives exec start stop w₀ ⟨[], w₀⟩
  | launch {s : Crowd I α W} {p : Prog I α} (hs : Lives exec start stop w₀ s) (hp : start s.world p) :
    Lives exec start stop w₀ ⟨s.progs ++ [p], s.world⟩
  | move {s : Crowd I α W} (hs : Lives exec start stop w₀ s) (i : Nat) (x : X) :
    Lives exec start stop w₀ (step exec i x s)
  | halt {s : Crowd I α W} (hs : Lives exec start stop w₀ s) : Lives exec start stop w₀ ⟨[], stop s.world⟩

theorem Lives.inOrder (hs : Lives exec start stop w₀ s) (hu : Upholds exec C Good Inv) (h₀ : Inv w₀)
    (hstart : ∀ w p, Inv w → start w p → Prog.heeds C p fun _ => True) (hbefore : ∀ w, Good (stop w) → Good w)
    (hstop : ∀ w, Inv w → Inv (stop w)) (hg : Good s.world) : InOrder C Inv s := by
  induction hs with
  | boot => exact ⟨h₀, fun p hp => by cases hp⟩
  | @launch s p _ hp ih =>
    have ih := ih hg
    refine ⟨ih.world, ?_⟩
    intro q hq
    rcases List.mem_append.mp hq with hq | hq
    · exact ih.progs q hq
    · obtain rfl := List.mem_singleton.mp hq
      exact hstart s.world q ih.world hp
  | move _ i x ih => exact (ih (hu.before_step hg)).step hu hg
  | halt _ ih => exact ⟨hstop _ (ih (hbefore _ hg)).world, fun p hp => by cases hp⟩

/-- A life in which more is written down than the programs can see. -/
theorem Lives.noting {V : Type} {exec' : X → (c : I.Call) → V → I.Ans c × V} {stop' : V → V} {v₀ : V} (seen : V → W)
    (hs : Lives exec start stop w₀ s) (h₀ : seen v₀ = w₀) (hstop : ∀ v, seen (stop' v) = stop (seen v))
    (hexec : ∀ x c v, (exec' x c v).1 = (exec x c (seen v)).1 ∧ seen (exec' x c v).2 = (exec x c (seen v)).2) :
    ∃ v, seen v = s.world ∧ Lives exec' (fun v => start (seen v)) stop' v₀ ⟨s.progs, v⟩ := by
  induction hs with
  | boot => exact ⟨v₀, h₀, .boot⟩
  | launch _ hp ih =>
    obtain ⟨v, hv, hs⟩ := ih
    exact ⟨v, hv, hs.launch (by rwa [hv])⟩
  | @move s _ i x ih =>
    obtain ⟨v, hv, hs⟩ := ih
    have hmove := hs.move i x
    rcases (step_cases i x s : Crowd.step exec i x s = s ∨ _) with he | ⟨c, k, hp, he⟩
    · exact ⟨v, by rw [he, hv], by rwa [he]⟩
    · have hstep : step exec' i x ⟨s.progs, v⟩ = _ := step_of_call (s := ⟨s.progs, v⟩) hp
      rw [hstep, (hexec x c v).1, hv] at hmove
      rw [he]
      exact ⟨(exec' x c v).2, by rw [(hexec x c v).2, hv], hmove⟩
  | @halt s _ ih =>
    obtain ⟨v, hv, hs⟩ := ih
    exact ⟨stop' v, by rw [hstop, hv], hs.halt⟩

theorem Lives.moves (schedule : List (Nat × X)) (hs : Lives exec start stop w₀ s) :
    Lives exec start stop w₀ (Crowd.run exec schedule s) := by
  induction schedule generalizing s with
  | nil => exact hs
  | cons move rest ih => exact ih (hs.move move.1 move.2)

/-! ### One program after the other -/

/-- The last program of a crowd may make some calls of its run while the others wait. -/
theorem Lives.after {p : Prog I α} : ∀ (n : Nat) (o : Nat → X) {others : List (Prog I α)} {w : W},
    Lives exec start stop w₀ ⟨others ++ [p], w⟩ →
      ∃ progs, Lives exec start stop w₀ ⟨progs, Prog.after exec o n p w⟩ := by
  induction p with
  | pure a =>
    intro n o others w h
    cases n with
    | zero => exact ⟨_, h⟩
    | succ n => exact ⟨_, h⟩
  | call c k ih =>
    intro n o others w h
    cases n with
    | zero => exact ⟨_, h⟩
    | succ n =>
      have hmove := h.move others.length (o 0)
      rw [step_of_call (c := c) (k := k) (by simp)] at hmove
      simp only [List.set_append_right _ _ (Nat.le_refl _), Nat.sub_self, List.set_cons_zero] at hmove
      exact ih _ n (fun i => o (i + 1)) hmove

/-- A run ends after some number of calls. -/
theorem exists_after_eq_run {p : Prog I α} : ∀ (o : Nat → X) (w : W),
    ∃ n, Prog.after exec o n p w = (Prog.run exec o p w).2 := by
  induction p with
  | pure a => exact fun _ _ => ⟨0, rfl⟩
  | call c k ih =>
    intro o w
    obtain ⟨n, hn⟩ := ih _ (fun i => o (i + 1)) (exec (o 0) c w).2
    exact ⟨n + 1, hn⟩

/-- Programs may run one after the other. -/
theorem Lives.run {p : Prog I α} (hs : Lives exec start stop w₀ s) (hp : start s.world p) (o : Nat → X) :
    ∃ progs, Lives exec start stop w₀ ⟨progs, (Prog.run exec o p s.world).2⟩ := by
  obtain ⟨n, hn⟩ : ∃ n, Prog.after exec o n p s.world = _ := exists_after_eq_run o s.world
  rw [← hn]
  exact (hs.launch hp).after n o

end Crowd

attribute [irreducible] Fallible.Heeds

end Effect
