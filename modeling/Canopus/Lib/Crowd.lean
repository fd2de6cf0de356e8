import Canopus.Lib.Program
import Mathlib.Data.List.Forall2

/-! Any number of programs that run at the same time on one state, call by call in the order of a schedule. A protocol
    says by phases which calls a program may make and to which phase an answer takes it. What each step of the protocol
    keeps of the state and of the phases of all programs, every run of every schedule keeps. -/

namespace Effect

/-- A program in a phase may make a call whose answer takes it to another phase. -/
abbrev Protocol (I : Iface) (Ph : Type) := Ph → (c : I.Call) → I.Ans c → Ph → Prop

namespace Prog
variable {I : Iface} {α β Ph : Type} {δ : Protocol I Ph}

/-- Every call of the program is one that the protocol allows in its phase, and `Q` holds at the end, whatever the
    answers. -/
def Follows (δ : Protocol I Ph) : Prog I α → (Ph → α → Prop) → Ph → Prop
  | .pure a, Q, ph => Q ph a
  | .call c k, Q, ph => ∀ r, ∃ ph', δ ph c r ph' ∧ Follows δ (k r) Q ph'

theorem Follows.mono {x : Prog I α} {Q R : Ph → α → Prop} (hQ : ∀ ph a, Q ph a → R ph a) :
    ∀ {ph}, Follows δ x Q ph → Follows δ x R ph := by
  induction x with
  | pure a => exact hQ _ a
  | call c k ih =>
    intro ph h r
    obtain ⟨ph', hstep, hrest⟩ := h r
    exact ⟨ph', hstep, ih r hrest⟩

theorem Follows.bind {x : Prog I α} {f : α → Prog I β} {Q : Ph → β → Prop} :
    ∀ {ph}, Follows δ x (fun ph' a => Follows δ (f a) Q ph') ph → Follows δ (x >>= f) Q ph := by
  induction x with
  | pure a => exact fun h => h
  | call c k ih =>
    intro ph h r
    obtain ⟨ph', hstep, hrest⟩ := h r
    exact ⟨ph', hstep, ih r hrest⟩

end Prog

namespace Fallible
variable {I : Iface} {ε α β Ph : Type} {δ : Protocol I Ph} {Q R : Ph → Except ε α → Prop} {ph : Ph}

def Follows (δ : Protocol I Ph) (x : Fallible I ε α) (Q : Ph → Except ε α → Prop) (ph : Ph) : Prop :=
  Prog.Follows δ x.run Q ph

theorem Follows.mono {x : Fallible I ε α} (h : Follows δ x Q ph) (hQ : ∀ ph r, Q ph r → R ph r) : Follows δ x R ph :=
  Prog.Follows.mono hQ h

theorem Follows.pure {a : α} (h : Q ph (.ok a)) : Follows δ (pure a) Q ph := h

theorem Follows.throw {e : ε} (h : Q ph (.error e)) : Follows δ (throw e) Q ph := h

theorem Follows.bind {x : Fallible I ε β} {f : β → Fallible I ε α}
    (h : Follows δ x (fun ph' r => match r with
      | .ok b => Follows δ (f b) Q ph'
      | .error e => Q ph' (.error e)) ph) : Follows δ (x >>= f) Q ph := by
  show Prog.Follows δ (ExceptT.run (x >>= f)) Q ph
  rw [ExceptT.run_bind]
  refine Prog.Follows.bind (Prog.Follows.mono ?_ h)
  rintro ph' (e | b) hr
  · exact hr
  · exact hr

theorem Follows.ask {c : I.Call} {Q : Ph → Except ε (I.Ans c) → Prop} (h : ∀ r, ∃ ph', δ ph c r ph' ∧ Q ph' (.ok r)) :
    Follows δ (ask c) Q ph := h

end Fallible

/-! ### Crowds -/

/-- Programs that share one state, each at the point it has reached. -/
structure Crowd (I : Iface) (α W : Type) where
  progs : List (Prog I α)
  world : W

namespace Crowd
variable {I : Iface} {α W X : Type} (exec : X → (c : I.Call) → W → I.Ans c × W)

/-- One call of the `i`-th program; a program that has returned makes none. -/
def step (i : Nat) (x : X) (s : Crowd I α W) : Crowd I α W :=
  match s.progs[i]? with
  | some (.call c k) => ⟨s.progs.set i (k (exec x c s.world).1), (exec x c s.world).2⟩
  | _ => s

/-- The run of a schedule: which program moves, and the environment's choice for its call. -/
def run : List (Nat × X) → Crowd I α W → Crowd I α W
  | [], s => s
  | (i, x) :: rest, s => run rest (step exec i x s)

/-- A call of the `prog`-th program, with its answer. -/
structure Event (I : Iface) where
  prog : Nat
  call : I.Call
  ans : I.Ans call

/-- The call that the `i`-th program makes next, if it makes one. -/
def moved (i : Nat) (x : X) (s : Crowd I α W) : List (Event I) :=
  match s.progs[i]? with
  | some (.call c _) => [⟨i, c, (exec x c s.world).1⟩]
  | _ => []

/-- The calls of a run, in the order in which they are made. -/
def history : List (Nat × X) → Crowd I α W → List (Event I)
  | [], _ => []
  | (i, x) :: rest, s => moved exec i x s ++ history rest (step exec i x s)

/-- The `i`-th program has returned. -/
def Returned (s : Crowd I α W) (i : Nat) (a : α) : Prop := s.progs[i]? = some (.pure a)

/-- The programs that have returned a value of the given kind. -/
def returned (kind : α → Bool) (s : Crowd I α W) : Nat :=
  s.progs.countP fun
    | .pure a => kind a
    | .call _ _ => false

variable {exec} {Ph : Type} {δ : Protocol I Ph} {Q : Ph → α → Prop} {Inv : List Ph → W → Prop} {s : Crowd I α W}
  {phs : List Ph}

theorem run_cons {i : Nat} {x : X} {rest : List (Nat × X)} :
    run exec ((i, x) :: rest) s = run exec rest (step exec i x s) := rfl

theorem history_cons {i : Nat} {x : X} {rest : List (Nat × X)} :
    history exec ((i, x) :: rest) s = moved exec i x s ++ history exec rest (step exec i x s) := rfl

theorem run_append {before after : List (Nat × X)} : run exec (before ++ after) s = run exec after (run exec before s) := by
  induction before generalizing s with
  | nil => rfl
  | cons move rest ih => exact ih

/-- Each program follows the protocol from its phase. -/
def Follows (δ : Protocol I Ph) (Q : Ph → α → Prop) (s : Crowd I α W) (phs : List Ph) : Prop :=
  List.Forall₂ (fun p ph => Prog.Follows δ p Q ph) s.progs phs

theorem forall₂_set {α β : Type} {R : α → β → Prop} {as : List α} {bs : List β} {i : Nat} {a : α} {b : β}
    (h : List.Forall₂ R as bs) (hab : R a b) : List.Forall₂ R (as.set i a) (bs.set i b) := by
  induction h generalizing i with
  | nil => exact .nil
  | cons hhead htail ih =>
    cases i with
    | zero => exact .cons hab htail
    | succ i => exact .cons hhead ih

theorem forall₂_getElem? {α β : Type} {R : α → β → Prop} {as : List α} {bs : List β} {i : Nat} {a : α}
    (h : List.Forall₂ R as bs) (ha : as[i]? = some a) : ∃ b, bs[i]? = some b ∧ R a b := by
  induction h generalizing i with
  | nil => cases ha
  | cons hhead htail ih =>
    cases i with
    | zero =>
      cases ha
      exact ⟨_, rfl, hhead⟩
    | succ i => exact ih ha

theorem phase_set {i j : Nat} {ph ph' : Ph} (hph : phs[i]? = some ph) :
    (phs.set i ph')[j]? = if i = j then some ph' else phs[j]? := by
  rw [List.getElem?_set]
  by_cases hij : i = j
  · rw [if_pos hij, if_pos hij, if_pos (List.getElem?_eq_some_iff.mp hph).1]
  · rw [if_neg hij, if_neg hij]

/-- What a move does not change of the phase of its program, it changes of none. -/
theorem map_phase_set {β : Type} {f : Ph → β} {i : Nat} {ph ph' : Ph} (hph : phs[i]? = some ph) (hf : f ph' = f ph)
    (j : Nat) : (phs.set i ph')[j]?.map f = phs[j]?.map f := by
  rw [phase_set hph]
  by_cases hij : i = j
  · subst hij
    rw [if_pos rfl, hph, Option.map_some, Option.map_some, hf]
  · rw [if_neg hij]

/-- The phase of a program after a move is the new one, if it has moved itself. -/
theorem of_phase_set {i j : Nat} {ph ph' a : Ph} (hph : phs[i]? = some ph) (hj : (phs.set i ph')[j]? = some a) :
    (i = j ∧ ph' = a) ∨ (i ≠ j ∧ phs[j]? = some a) := by
  rw [phase_set hph] at hj
  by_cases hij : i = j
  · rw [if_pos hij] at hj
    exact Or.inl ⟨hij, Option.some.inj hj⟩
  · rw [if_neg hij] at hj
    exact Or.inr ⟨hij, hj⟩

/-- Every call of the run meets `P`, given the calls made before it and the crowd that makes it. -/
def Guarded (exec : X → (c : I.Call) → W → I.Ans c × W) (P : List (Event I) → Crowd I α W → Event I → Prop) :
    List (Nat × X) → List (Event I) → Crowd I α W → Prop
  | [], _, _ => True
  | (i, x) :: rest, h, s =>
    (∀ e ∈ moved exec i x s, P h s e) ∧ Guarded exec P rest (h ++ moved exec i x s) (step exec i x s)

/-- What every guarded step of the protocol keeps of the phases, the state and the calls made so far, a guarded run
    keeps. -/
theorem run_guarded {P : List (Event I) → Crowd I α W → Event I → Prop} {Inv : List (Event I) → List Ph → W → Prop}
    (hstep : ∀ h s phs i ph c x ph', Follows δ Q s phs → phs[i]? = some ph → Inv h phs s.world →
      P h s ⟨i, c, (exec x c s.world).1⟩ → δ ph c (exec x c s.world).1 ph' →
      Inv (h ++ [⟨i, c, (exec x c s.world).1⟩]) (phs.set i ph') (exec x c s.world).2)
    (schedule : List (Nat × X)) {h : List (Event I)} (hf : Follows δ Q s phs) (hi : Inv h phs s.world)
    (hg : Guarded exec P schedule h s) :
    ∃ phs', Follows δ Q (run exec schedule s) phs' ∧
      Inv (h ++ history exec schedule s) phs' (run exec schedule s).world := by
  induction schedule generalizing s phs h with
  | nil => exact ⟨phs, hf, (List.append_nil h).symm ▸ hi⟩
  | cons move rest ih =>
    obtain ⟨i, x⟩ := move
    obtain ⟨hP, hg⟩ := hg
    rw [run_cons, history_cons]
    have stays (hstay : step exec i x s = s) (hmoved : moved exec i x s = []) :
        ∃ phs', Follows δ Q (run exec rest (step exec i x s)) phs' ∧
          Inv (h ++ (moved exec i x s ++ history exec rest (step exec i x s))) phs'
            (run exec rest (step exec i x s)).world := by
      rw [hstay, hmoved, List.append_nil] at hg
      rw [hstay, hmoved]
      exact ih hf hi hg
    cases hp : s.progs[i]? with
    | none => exact stays (by simp [step, hp]) (by simp [moved, hp])
    | some p =>
      cases p with
      | pure a => exact stays (by simp [step, hp]) (by simp [moved, hp])
      | call c k =>
        have hmove : step exec i x s = ⟨s.progs.set i (k (exec x c s.world).1), (exec x c s.world).2⟩ := by
          simp [step, hp]
        have hmoved : moved exec i x s = [⟨i, c, (exec x c s.world).1⟩] := by
          simp [moved, hp]
        rw [hmove, hmoved] at hg
        rw [hmoved] at hP
        rw [hmove, hmoved, ← List.append_assoc]
        obtain ⟨ph, hph, hfollows⟩ := forall₂_getElem? hf hp
        obtain ⟨ph', hδ, hrest⟩ := hfollows (exec x c s.world).1
        exact ih (s := ⟨_, _⟩) (forall₂_set hf hrest)
          (hstep h s phs i ph c x ph' hf hph hi (hP _ (List.mem_singleton_self _)) hδ) hg

theorem guarded_true {schedule : List (Nat × X)} {h : List (Event I)} :
    Guarded exec (fun _ _ _ => True) schedule h s := by
  induction schedule generalizing h s with
  | nil => trivial
  | cons move rest ih => exact ⟨fun _ _ => trivial, ih⟩

/-- A guard that only some calls have to meet. -/
theorem guarded_of_history {P : List (Event I) → Crowd I α W → Event I → Prop} {free : Event I → Prop}
    (hfree : ∀ h s e, free e → P h s e) {schedule : List (Nat × X)} {h : List (Event I)}
    (hall : ∀ e ∈ history exec schedule s, free e) : Guarded exec P schedule h s := by
  induction schedule generalizing h s with
  | nil => trivial
  | cons move rest ih =>
    obtain ⟨i, x⟩ := move
    rw [history_cons] at hall
    exact ⟨fun e he => hfree h s e (hall e (List.mem_append_left _ he)),
      ih fun e he => hall e (List.mem_append_right _ he)⟩

/-- What every step of the protocol keeps of the phases, the state and the calls made so far, a run keeps. -/
theorem run_history {Inv : List (Event I) → List Ph → W → Prop}
    (hstep : ∀ h phs w i ph c x ph', phs[i]? = some ph → Inv h phs w → δ ph c (exec x c w).1 ph' →
      Inv (h ++ [⟨i, c, (exec x c w).1⟩]) (phs.set i ph') (exec x c w).2)
    (schedule : List (Nat × X)) {h : List (Event I)} (hf : Follows δ Q s phs) (hi : Inv h phs s.world) :
    ∃ phs', Follows δ Q (run exec schedule s) phs' ∧
      Inv (h ++ history exec schedule s) phs' (run exec schedule s).world :=
  run_guarded (fun h s phs i ph c x ph' _ hph hi _ hδ => hstep h phs s.world i ph c x ph' hph hi hδ) schedule hf hi
    guarded_true

/-- What every step of the protocol keeps, a run keeps. -/
theorem run_keeps (hstep : ∀ phs w i ph c x ph', phs[i]? = some ph → Inv phs w → δ ph c (exec x c w).1 ph' →
      Inv (phs.set i ph') (exec x c w).2) (schedule : List (Nat × X)) (hf : Follows δ Q s phs) (hi : Inv phs s.world) :
    ∃ phs', Follows δ Q (run exec schedule s) phs' ∧ Inv phs' (run exec schedule s).world :=
  run_history (fun _ => hstep) schedule (h := []) hf hi

theorem run_follows (schedule : List (Nat × X)) (hf : Follows δ Q s phs) :
    ∃ phs', Follows δ Q (run exec schedule s) phs' := by
  have hstep (phs : List Ph) (w : W) (i : Nat) (ph : Ph) (c : I.Call) (x : X) (ph' : Ph) (_ : phs[i]? = some ph)
      (_ : True) (_ : δ ph c (exec x c w).1 ph') : True := trivial
  obtain ⟨phs', hfollows, -⟩ := run_keeps hstep schedule hf trivial
  exact ⟨phs', hfollows⟩

/-- A program that has returned is in a phase in which it may return its value. -/
theorem Follows.of_returned (hf : Follows δ Q s phs) {i : Nat} {a : α} (hp : s.Returned i a) :
    ∃ ph, phs[i]? = some ph ∧ Q ph a :=
  forall₂_getElem? hf hp

/-- A program in a phase that allows no call has returned. -/
theorem Follows.returned (hf : Follows δ Q s phs) {i : Nat} {ph : Ph} (hph : phs[i]? = some ph)
    (hend : ∀ c r ph', ¬ δ ph c r ph') (hans : ∀ c : I.Call, Nonempty (I.Ans c)) :
    ∃ a, s.Returned i a ∧ Q ph a := by
  obtain ⟨p, hp, hfollows⟩ := forall₂_getElem? (List.Forall₂.flip hf) hph
  cases p with
  | pure a => exact ⟨a, hp, hfollows⟩
  | call c k =>
    obtain ⟨r⟩ := hans c
    obtain ⟨ph', hδ, -⟩ := hfollows r
    exact absurd hδ (hend c r ph')

/-- A kind of value that only one phase returns is returned at most as often as there are programs in that phase. -/
theorem returned_le {kind : α → Bool} {phase : Ph → Bool} (hf : Follows δ Q s phs)
    (hQ : ∀ ph a, Q ph a → kind a = true → phase ph = true) : s.returned kind ≤ phs.countP phase := by
  obtain ⟨progs, w⟩ := s
  unfold Follows at hf
  dsimp only at hf
  unfold returned
  dsimp only
  induction hf with
  | nil => exact Nat.le_refl _
  | @cons p ph progs phs hhead _ ih =>
    rw [List.countP_cons, List.countP_cons]
    cases p with
    | call c k =>
      simp only [Bool.false_eq_true, if_false]
      omega
    | pure a =>
      have hle : (if kind a = true then 1 else 0) ≤ if phase ph = true then 1 else 0 := by
        by_cases ha : kind a = true
        · exact Nat.le_of_eq ((if_pos ha).trans (if_pos (hQ ph a hhead ha)).symm)
        · rw [if_neg ha]
          exact Nat.zero_le _
      exact Nat.add_le_add ih hle

/-- A phase that a program reaches only with its result is reached at most as often as that result is returned. -/
theorem count_le_returned {kind : α → Bool} {phase : Ph → Bool} (hf : Follows δ Q s phs)
    (hend : ∀ ph c r ph', phase ph = true → ¬ δ ph c r ph') (hans : ∀ c : I.Call, Nonempty (I.Ans c))
    (hQ : ∀ ph a, Q ph a → phase ph = true → kind a = true) : phs.countP phase ≤ s.returned kind := by
  obtain ⟨progs, w⟩ := s
  unfold Follows at hf
  dsimp only at hf
  unfold returned
  dsimp only
  induction hf with
  | nil => exact Nat.le_refl _
  | @cons p ph progs phs hhead _ ih =>
    rw [List.countP_cons, List.countP_cons]
    cases p with
    | call c k =>
      have hph : ¬ phase ph = true := by
        intro hph
        obtain ⟨r⟩ := hans c
        obtain ⟨ph', hδ, -⟩ := hhead r
        exact hend ph c r ph' hph hδ
      rw [if_neg hph]
      simp only [Bool.false_eq_true, if_false]
      omega
    | pure a =>
      have hle : (if phase ph = true then 1 else 0) ≤ if kind a = true then 1 else 0 := by
        by_cases hph : phase ph = true
        · exact Nat.le_of_eq ((if_pos hph).trans (if_pos (hQ ph a hhead hph)).symm)
        · rw [if_neg hph]
          exact Nat.zero_le _
      exact Nat.add_le_add ih hle

end Crowd
end Effect
