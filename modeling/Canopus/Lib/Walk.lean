import Mathlib.Tactic.Common

/-! Walks over a tree with an explicit stack. A node is taken from the stack twice: the first time its children are
    pushed above it, the second time it is visited. `Descends` is the recursion that the loop stands for. The tree may
    change while it is walked. -/

namespace Walk
variable {κ σ : Type} (children : σ → κ → List κ) (visit : κ → σ → σ)

/-- The nodes on top of the stack, the last one uppermost. -/
def push (nodes : List κ) (pending : List (κ × Bool)) : List (κ × Bool) :=
  nodes.foldl (fun pending node => (node, false) :: pending) pending

/-- The loop, with the top of the stack at the head. -/
def walk : Nat → List (κ × Bool) → σ → Option σ
  | 0, _, _ => none
  | _ + 1, [], s => some s
  | fuel + 1, (node, true) :: pending, s => walk fuel pending (visit node s)
  | fuel + 1, (node, false) :: pending, s => walk fuel (push (children s node) ((node, true) :: pending)) s

/-- Walking the nodes one after the other takes one state to the other: the children of a node come before it, the
    last one first. -/
inductive Descends : List κ → σ → σ → Prop
  | nil (s : σ) : Descends [] s s
  | cons {node : κ} {nodes : List κ} {s u s' : σ} : Descends (children s node).reverse s u →
      Descends nodes (visit node u) s' → Descends (node :: nodes) s s'

variable {children visit}

theorem push_eq (nodes : List κ) (pending : List (κ × Bool)) :
    push nodes pending = nodes.reverse.map (·, false) ++ pending := by
  unfold push
  induction nodes generalizing pending with
  | nil => rfl
  | cons node nodes ih =>
    rw [List.foldl_cons, ih, List.reverse_cons, List.map_append, List.append_assoc]
    rfl

theorem Descends.append {nodes nodes' : List κ} {s u s' : σ} (h : Descends children visit nodes s u)
    (h' : Descends children visit nodes' u s') : Descends children visit (nodes ++ nodes') s s' := by
  induction h with
  | nil => exact h'
  | cons hc _ _ ih => exact Descends.cons hc (ih h')

/-- The loop does what the recursion does, and goes on with the rest of the stack. -/
theorem Descends.walk {nodes : List κ} {s s' : σ} (h : Descends children visit nodes s s') :
    ∃ steps, ∀ fuel pending, walk children visit (steps + fuel) (nodes.map (·, false) ++ pending) s =
      walk children visit fuel pending s' := by
  induction h with
  | nil s => exact ⟨0, fun fuel pending => by rw [Nat.zero_add]; rfl⟩
  | @cons node nodes s u s' _ _ ihc ihn =>
    obtain ⟨stepsc, hc⟩ := ihc
    obtain ⟨stepsn, hn⟩ := ihn
    refine ⟨stepsc + (stepsn + 1) + 1, fun fuel pending => ?_⟩
    have hfuel : stepsc + (stepsn + 1) + 1 + fuel = stepsc + ((stepsn + fuel) + 1) + 1 := by omega
    rw [hfuel]
    change Walk.walk children visit (stepsc + ((stepsn + fuel) + 1))
      (push (children s node) ((node, true) :: (nodes.map (·, false) ++ pending))) s = _
    rw [push_eq, hc]
    exact hn fuel pending

/-- A tree that is descended is walked from its root, with enough fuel. -/
theorem Descends.walk_root {node : κ} {s s' : σ} (h : Descends children visit [node] s s') :
    ∃ steps, ∀ fuel, steps ≤ fuel → Walk.walk children visit fuel [(node, false)] s = some s' := by
  obtain ⟨steps, hsteps⟩ := h.walk
  refine ⟨steps + 1, fun fuel hfuel => ?_⟩
  have hrun := hsteps (fuel - steps) []
  have hsome : Walk.walk children visit (fuel - steps) [] s' = some s' := by
    obtain ⟨left, hleft⟩ : ∃ left, fuel - steps = left + 1 := ⟨fuel - steps - 1, by omega⟩
    rw [hleft]
    rfl
  rw [Nat.add_sub_of_le (by omega), hsome] at hrun
  exact hrun

end Walk
