import Canopus.Lib.Program
import Mathlib.Logic.Function.Basic

/-! Two programs that run at the same time on one state, call by call in the order of a schedule, and the
    calls that a program may make, whatever the answers. -/

namespace Effect

/-! ### The calls of a program -/

namespace Prog
variable {I : Iface} {α β : Type} {P : I.Call → Prop}

/-- Every call that the program may make meets `P`. -/
inductive Calls (P : I.Call → Prop) : Prog I α → Prop
  | pure (a : α) : Calls P (.pure a)
  | call {c : I.Call} {k : I.Ans c → Prog I α} (hc : P c) (hk : ∀ r, Calls P (k r)) : Calls P (.call c k)

theorem Calls.bind {x : Prog I α} {f : α → Prog I β} (hx : Calls P x) (hf : ∀ a, Calls P (f a)) : Calls P (x >>= f) := by
  induction hx with
  | pure a => exact hf a
  | call hc _ ih => exact .call hc ih

end Prog

namespace Fallible
variable {I : Iface} {ε α β : Type} {P : I.Call → Prop}

/-- Every call that the program may make meets `P`. -/
def Calls (P : I.Call → Prop) (x : Fallible I ε α) : Prop := Prog.Calls P x.run

theorem Calls.pure (a : α) : Calls P (pure a : Fallible I ε α) := Prog.Calls.pure _

theorem Calls.throw (e : ε) : Calls P (throw e : Fallible I ε α) := Prog.Calls.pure _

theorem Calls.bind {x : Fallible I ε β} {f : β → Fallible I ε α} (hx : Calls P x) (hf : ∀ b, Calls P (f b)) :
    Calls P (x >>= f) := by
  show Prog.Calls P (ExceptT.run (x >>= f))
  rw [ExceptT.run_bind]
  refine Prog.Calls.bind hx ?_
  rintro (e | b)
  · exact Prog.Calls.pure _
  · exact hf b

theorem Calls.ask {c : I.Call} (h : P c) : Calls P (ask c : Fallible I ε (I.Ans c)) := .call h fun _ => .pure _

theorem Calls.attempt {x : Fallible I ε β} (hx : Calls P x) : Calls P (attempt x) := Prog.Calls.bind hx fun _ => .pure _

end Fallible

/-! ### Interleaving -/

/-- Two programs that share one state, each at the point it has reached. -/
structure Pool (I : Iface) (α W : Type) where
  prog : Bool → Prog I α
  world : W

namespace Pool
variable {I : Iface} {α W X : Type} (exec : X → (c : I.Call) → W → I.Ans c × W)

/-- One call of one of the programs; a program that has returned makes none. -/
def step (side : Bool) (x : X) (s : Pool I α W) : Pool I α W :=
  match s.prog side with
  | .pure _ => s
  | .call c k => ⟨Function.update s.prog side (k (exec x c s.world).1), (exec x c s.world).2⟩

/-- The run of a schedule: which program moves, and the environment's choice for its call. -/
def run : List (Bool × X) → Pool I α W → Pool I α W
  | [], s => s
  | (side, x) :: rest, s => run rest (step exec side x s)

/-- The call that the given program makes next, with its answer, meets `P`. -/
def meets (P : (c : I.Call) → I.Ans c → Bool) (side : Bool) (x : X) (s : Pool I α W) : Bool :=
  match s.prog side with
  | .pure _ => false
  | .call c _ => P c (exec x c s.world).1

/-- In the run, the given program makes a call that, with its answer, meets `P`. -/
def saw (P : (c : I.Call) → I.Ans c → Bool) (side : Bool) : List (Bool × X) → Pool I α W → Bool
  | [], _ => false
  | (b, x) :: rest, s => (b == side && meets exec P b x s) || saw P side rest (step exec b x s)

variable {exec} {s : Pool I α W} {side b : Bool} {x : X}

theorem run_cons {rest : List (Bool × X)} : run exec ((side, x) :: rest) s = run exec rest (step exec side x s) := rfl

theorem step_pure {a : α} (h : s.prog side = .pure a) : step exec side x s = s := by
  simp [step, h]

theorem step_call {c : I.Call} {k : I.Ans c → Prog I α} (h : s.prog side = .call c k) :
    step exec side x s = ⟨Function.update s.prog side (k (exec x c s.world).1), (exec x c s.world).2⟩ := by
  simp [step, h]

theorem prog_step_other (h : b ≠ side) : (step exec side x s).prog b = s.prog b := by
  cases hp : s.prog side with
  | pure a => rw [step_pure hp]
  | call c k =>
    rw [step_call hp]
    exact Function.update_of_ne h _ _

theorem prog_step_self {c : I.Call} {k : I.Ans c → Prog I α} (h : s.prog side = .call c k) :
    (step exec side x s).prog side = k (exec x c s.world).1 := by
  rw [step_call h]
  exact Function.update_self _ _ _

theorem world_step {c : I.Call} {k : I.Ans c → Prog I α} (h : s.prog side = .call c k) :
    (step exec side x s).world = (exec x c s.world).2 := by
  rw [step_call h]

variable {P : (c : I.Call) → I.Ans c → Bool} {rest : List (Bool × X)}

theorem meets_pure {a : α} (h : s.prog side = .pure a) : meets exec P side x s = false := by
  simp [meets, h]

theorem meets_call {c : I.Call} {k : I.Ans c → Prog I α} (h : s.prog side = .call c k) :
    meets exec P side x s = P c (exec x c s.world).1 := by
  simp [meets, h]

theorem saw_other (hb : side ≠ b) (h : saw exec P b ((side, x) :: rest) s = true) :
    saw exec P b rest (step exec side x s) = true := by
  simpa [saw, hb] using h

theorem saw_rest (hn : meets exec P side x s = false) (h : saw exec P side ((side, x) :: rest) s = true) :
    saw exec P side rest (step exec side x s) = true := by
  simpa [saw, hn] using h

end Pool
end Effect
