import Canopus.Lib.Crowd
import Canopus.Theorems.Steps
import Canopus.Transparent

/-! Compare-and-swap. Each `cas_json` reads the value at a key, applies its function and writes the outcome if the
    generation is still the one it has read. However many calls run at the same time, what they do to the store is what
    the calls that succeed do one after the other, in the order in which their updates are accepted. -/

namespace Canopus
open Effect

/-- A function that keeps the type and has no result is the case that the controller uses. -/
theorem casJson_eq (n : Ns) (k : n.Key) (f : n.Val → n.Val) (attempts : Nat) :
    casJson n k f attempts = casJsonWith n k (fun v => .ok ((), f v)) attempts := by
  induction attempts with
  | zero => rfl
  | succ attempts ih =>
    rw [casJson, casJsonWith, ih]
    rfl

section
variable {R : Type} {n : Ns} {k : n.Key}

/-- What a call applies to the value. -/
abbrev CasFun (R : Type) (n : Ns) := n.Val → Except StoreError (R × n.Val)

/-- Calls of `cas_json` with the given functions, which start together on a world. -/
def casCrowd (n : Ns) (k : n.Key) (fs : List (CasFun R n)) (w : World) : Crowd iface (Except ChannelError R) World :=
  ⟨fs.map fun f => (casJsonWith n k f maxRetries).run, w⟩

/-- The call is an update that was accepted. -/
def wasUpdated (e : Crowd.Event iface) : Bool :=
  match e with
  | ⟨_, .update _ _ _ _, .ok _⟩ => true
  | _ => false

/-- The call reads, as each attempt does first. -/
def isAttempt (e : Crowd.Event iface) : Bool :=
  match e.call with
  | .get _ _ => true
  | _ => false

/-- The programs whose updates were accepted, in that order. -/
def commitOrder (h : List (Crowd.Event iface)) : List Nat := (h.filter wasUpdated).map (·.prog)

/-- How often a program has read. -/
def attemptsOf (i : Nat) (h : List (Crowd.Event iface)) : Nat := h.countP fun e => e.prog == i && isAttempt e

/-- The functions of the listed calls, each applied to the value at the key that the one before it left there. Each call
    returns the result of its function on that value, and nothing but the value at the key changes. -/
def Applies (n : Ns) (k : n.Key) (fs : List (CasFun R n)) (returns : Nat → R → Prop) : List Nat → World → World → Prop
  | [], w, w' => w' = w
  | i :: is, w, w' => ∃ f v r u, fs[i]? = some f ∧ (w.store n).value? k = some v ∧ f v = .ok (r, u) ∧ returns i r ∧
    Applies n k fs returns is (w.put n k u) w'

/-! ### The protocol of a call -/

/-- How far a call has come: it is to read, with so many attempts left; it has read a value at a generation, from which
    its function makes a result and a new value; it has stored that; or it has failed. -/
inductive CasPhase (R : Type) (n : Ns) where
  | ready (f : CasFun R n) (left : Nat)
  | holding (f : CasFun R n) (left generation : Nat) (v : n.Val) (r : R) (u : n.Val)
  | stored (f : CasFun R n) (r : R)
  | failed (f : CasFun R n)

def CasPhase.func : CasPhase R n → CasFun R n
  | .ready f _ | .holding f _ _ _ _ _ | .stored f _ | .failed f => f

def CasPhase.left : CasPhase R n → Nat
  | .ready _ left | .holding _ left _ _ _ _ => left
  | .stored _ _ | .failed _ => 0

inductive CasStep (n : Ns) (k : n.Key) : Protocol iface (CasPhase R n)
  | read {f : CasFun R n} {left generation : Nat} {v u : n.Val} {r : R} (hf : f v = .ok (r, u)) :
    CasStep n k (.ready f (left + 1)) (.get n k) (.ok (v, generation)) (.holding f left generation v r u)
  | refused {f : CasFun R n} {left : Nat} {a : Except StoreError (n.Val × Nat)} :
    CasStep n k (.ready f (left + 1)) (.get n k) a (.failed f)
  | stored {f : CasFun R n} {left generation : Nat} {v u : n.Val} {r : R} :
    CasStep n k (.holding f left generation v r u) (.update n k u generation) (.ok ()) (.stored f r)
  | overtaken {f : CasFun R n} {left generation : Nat} {v u : n.Val} {r : R} {e : StoreError} :
    CasStep n k (.holding f left generation v r u) (.update n k u generation) (.error e) (.ready f left)
  | lost {f : CasFun R n} {left generation : Nat} {v u : n.Val} {r : R} {e : StoreError} :
    CasStep n k (.holding f left generation v r u) (.update n k u generation) (.error e) (.failed f)

/-- A call returns a result exactly when it has stored it. -/
def CasReturn (ph : CasPhase R n) (a : Except ChannelError R) : Prop := ∀ r, a = .ok r ↔ ∃ f, ph = .stored f r

theorem casReturn_error {ph : CasPhase R n} {e : ChannelError} (h : ∀ f r, ph ≠ .stored f r) :
    CasReturn ph (.error e) := by
  intro r
  constructor
  · intro h'
    cases h'
  · rintro ⟨f, h'⟩
    exact absurd h' (h f r)

theorem follows_casJsonWith (f : CasFun R n) (attempts : Nat) :
    Fallible.Follows (CasStep n k) (casJsonWith n k f attempts) CasReturn (.ready f attempts) := by
  induction attempts with
  | zero => exact Fallible.Follows.throw (casReturn_error (by simp))
  | succ attempts ih =>
    unfold casJsonWith
    refine Fallible.Follows.bind (Fallible.Follows.ask ?_)
    rintro (e | ⟨v, generation⟩)
    · exact ⟨.failed f, .refused, Fallible.Follows.bind (Fallible.Follows.throw (casReturn_error (by simp)))⟩
    · cases hf : f v with
      | error e =>
        refine ⟨.failed f, .refused, Fallible.Follows.bind (Fallible.Follows.pure ?_)⟩
        dsimp only
        rw [hf]
        exact Fallible.Follows.bind (Fallible.Follows.throw (casReturn_error (by simp)))
      | ok a =>
        obtain ⟨r, u⟩ := a
        refine ⟨.holding f attempts generation v r u, .read hf, Fallible.Follows.bind (Fallible.Follows.pure ?_)⟩
        dsimp only
        rw [hf]
        refine Fallible.Follows.bind (Fallible.Follows.pure (Fallible.Follows.bind (Fallible.Follows.ask ?_)))
        rintro (e | ⟨⟩)
        · cases e with
          | generationMismatch expected actual =>
            by_cases hlast : attempts = 0
            · refine ⟨.failed f, .lost, ?_⟩
              dsimp only
              rw [if_pos hlast]
              exact Fallible.Follows.throw (casReturn_error (by simp))
            · refine ⟨.ready f attempts, .overtaken, ?_⟩
              dsimp only
              rw [if_neg hlast]
              exact ih
          | notFound | alreadyExists | backend =>
            exact ⟨.failed f, .lost, Fallible.Follows.throw (casReturn_error (by simp))⟩
        · refine ⟨.stored f r, .stored, Fallible.Follows.pure fun r' => ?_⟩
          constructor
          · intro h
            cases h
            exact ⟨f, rfl⟩
          · rintro ⟨f', h⟩
            cases h
            rfl

/-! ### What the steps keep -/

section
variable {fs : List (CasFun R n)} {returns : Nat → R → Prop} {w w' w₀ : World}

theorem Applies.mono {returns' : Nat → R → Prop} (hr : ∀ i r, returns i r → returns' i r) {order : List Nat}
    (h : Applies n k fs returns order w w') : Applies n k fs returns' order w w' := by
  induction order generalizing w with
  | nil => exact h
  | cons i is ih =>
    obtain ⟨f, v, r, u, hf, hv, hfv, hret, hrest⟩ := h
    exact ⟨f, v, r, u, hf, hv, hfv, hr i r hret, ih hrest⟩

theorem Applies.snoc {order : List Nat} {i : Nat} {f : CasFun R n} {v u : n.Val} {r : R}
    (h : Applies n k fs returns order w w') (hf : fs[i]? = some f) (hv : (w'.store n).value? k = some v)
    (hfv : f v = .ok (r, u)) (hret : returns i r) : Applies n k fs returns (order ++ [i]) w (w'.put n k u) := by
  induction order generalizing w with
  | nil =>
    obtain rfl : w' = w := h
    exact ⟨f, v, r, u, hf, hv, hfv, hret, rfl⟩
  | cons j js ih =>
    obtain ⟨f', v', r', u', hf', hv', hfv', hret', hrest⟩ := h
    exact ⟨f', v', r', u', hf', hv', hfv', hret', ih hrest⟩

/-- The value after the functions of the listed calls. -/
def applyAll (fs : List (CasFun R n)) : List Nat → n.Val → Option n.Val
  | [], v => some v
  | i :: is, v => do
    let f ← fs[i]?
    let (_, u) ← (f v).toOption
    applyAll fs is u

theorem Applies.value {order : List Nat} {v : n.Val} (h : Applies n k fs returns order w w')
    (hv : (w.store n).value? k = some v) : (w'.store n).value? k = applyAll fs order v := by
  induction order generalizing w v with
  | nil =>
    obtain rfl : w' = w := h
    exact hv
  | cons i is ih =>
    obtain ⟨f, v', r, u, hf, hv', hfv, -, hrest⟩ := h
    obtain rfl := Option.some.inj (hv.symm.trans hv')
    have hput : ((w.put n k u).store n).value? k = some u := by
      rw [World.put_store_self, Table.value?_put]
    rw [ih hrest hput]
    simp [applyAll, hf, hfv, Except.toOption]

/-- Every call still has its function, and the store is as the calls that have stored their value make it one after the
    other. A call that holds a value holds the one at the key, unless that has a later generation. -/
structure CasKept (n : Ns) (k : n.Key) (fs : List (CasFun R n)) (w₀ : World) (h : List (Crowd.Event iface))
    (phs : List (CasPhase R n)) (w : World) : Prop where
  func : ∀ i : Nat, phs[i]?.map CasPhase.func = fs[i]?
  held : ∀ {i : Nat} {f : CasFun R n} {left g : Nat} {v u : n.Val} {r : R}, phs[i]? = some (.holding f left g v r u) → f v = .ok (r, u) ∧
    ∃ g' v', (w.store n).lookup k = some (g', v') ∧ g ≤ g' ∧ (g = g' → v' = v)
  nodup : (commitOrder h).Nodup
  mem : ∀ i, i ∈ commitOrder h ↔ ∃ f r, phs[i]? = some (.stored f r)
  applied : Applies n k fs (fun i r => ∃ f, phs[i]? = some (.stored f r)) (commitOrder h) w₀ w
  attempts : ∀ i, attemptsOf i h + phs[i]?.elim 0 CasPhase.left ≤ maxRetries

variable {h : List (Crowd.Event iface)} {phs : List (CasPhase R n)} {ph ph' : CasPhase R n} {i : Nat}

theorem commitOrder_append (h : List (Crowd.Event iface)) (e : Crowd.Event iface) :
    commitOrder (h ++ [e]) = commitOrder h ++ if wasUpdated e then [e.prog] else [] := by
  unfold commitOrder
  rw [List.filter_append, List.map_append]
  cases he : wasUpdated e <;> simp [he]

theorem attemptsOf_append (j : Nat) (h : List (Crowd.Event iface)) (e : Crowd.Event iface) :
    attemptsOf j (h ++ [e]) = attemptsOf j h + if e.prog == j && isAttempt e then 1 else 0 := by
  unfold attemptsOf
  rw [List.countP_append, List.countP_singleton]

/-- A read takes one of the attempts that are left. -/
theorem CasKept.attempts_step (hk : CasKept n k fs w₀ h phs w) (hph : phs[i]? = some ph) {e : Crowd.Event iface}
    (he : e.prog = i) (hleft : (if isAttempt e then 1 else 0) + ph'.left ≤ ph.left) (j : Nat) :
    attemptsOf j (h ++ [e]) + (phs.set i ph')[j]?.elim 0 CasPhase.left ≤ maxRetries := by
  have hj := hk.attempts j
  rw [attemptsOf_append, Crowd.phase_set hph, he]
  by_cases hij : i = j
  · subst hij
    rw [hph] at hj
    simp only [Option.elim_some, beq_self_eq_true, Bool.true_and, if_true] at hj ⊢
    omega
  · simp only [beq_eq_false_iff_ne.mpr hij, Bool.false_and, Bool.false_eq_true, if_false, if_neg hij]
    omega

/-- A call that stores nothing. -/
theorem CasKept.keeps (hk : CasKept n k fs w₀ h phs w) (hph : phs[i]? = some ph) {e : Crowd.Event iface} (he : e.prog = i)
    (hupdated : wasUpdated e = false) (hbefore : ∀ f r, ph ≠ .stored f r) (hafter : ∀ f r, ph' ≠ .stored f r)
    (hfunc : ph'.func = ph.func) (hleft : (if isAttempt e then 1 else 0) + ph'.left ≤ ph.left)
    (hheld : ∀ {f left g v r u}, ph' = .holding f left g v r u → f v = .ok (r, u) ∧ (w.store n).lookup k = some (g, v)) :
    CasKept n k fs w₀ (h ++ [e]) (phs.set i ph') w := by
  have horder : commitOrder (h ++ [e]) = commitOrder h := by
    rw [commitOrder_append, hupdated]
    simp
  have hstored (j : Nat) (f : CasFun R n) (r : R) :
      (phs.set i ph')[j]? = some (.stored f r) ↔ phs[j]? = some (.stored f r) := by
    rw [Crowd.phase_set hph]
    by_cases hij : i = j
    · subst hij
      rw [if_pos rfl, hph]
      exact ⟨fun h' => absurd (Option.some.inj h') (hafter f r), fun h' => absurd (Option.some.inj h') (hbefore f r)⟩
    · rw [if_neg hij]
  refine ⟨?_, ?_, horder.symm ▸ hk.nodup, ?_, ?_, hk.attempts_step hph he hleft⟩
  · exact fun j => (Crowd.map_phase_set hph hfunc j).trans (hk.func j)
  · intro j f left g v r u hj
    rcases Crowd.of_phase_set hph hj with ⟨-, heq⟩ | ⟨-, hj⟩
    · obtain ⟨hf, hentry⟩ := hheld heq
      exact ⟨hf, g, v, hentry, Nat.le_refl g, fun _ => rfl⟩
    · exact hk.held hj
  · intro j
    rw [horder, hk.mem j]
    simp only [hstored]
  · rw [horder]
    simp only [hstored]
    exact hk.applied

/-- One call of a program that follows the protocol. -/
theorem CasKept.step (hk : CasKept n k fs w₀ h phs w) (hph : phs[i]? = some ph) {x : Choice} {c : Call}
    (hstep : CasStep n k ph c (exec x c w).1 ph') :
    CasKept n k fs w₀ (h ++ [⟨i, c, (exec x c w).1⟩]) (phs.set i ph') (exec x c w).2 := by
  generalize hr : (exec x c w).1 = a at hstep ⊢
  cases hstep with
  | @read f left g v u r hf =>
    rw [exec_reads x w rfl]
    refine hk.keeps hph rfl rfl (by simp) (by simp) rfl (by simp [isAttempt, CasPhase.left]; omega) ?_
    intro f' left' g' v' r' u' heq
    cases heq
    exact ⟨hf, exec_get_ok hr⟩
  | refused =>
    rw [exec_reads x w rfl]
    exact hk.keeps hph rfl rfl (by simp) (by simp) rfl (by simp [isAttempt, CasPhase.left]) (by simp)
  | overtaken =>
    rw [exec_update_error hr]
    exact hk.keeps hph rfl rfl (by simp) (by simp) rfl (by simp [isAttempt, CasPhase.left]) (by simp)
  | lost =>
    rw [exec_update_error hr]
    exact hk.keeps hph rfl rfl (by simp) (by simp) rfl (by simp [isAttempt, CasPhase.left]) (by simp)
  | @stored f left g v u r =>
    -- The generation has not changed since the read, so that the function was applied to the value at the key.
    obtain ⟨v', hentry, hw⟩ := exec_update_ok hr
    obtain ⟨hfv, g', v'', hentry', -, hsame⟩ := hk.held hph
    obtain ⟨rfl, rfl⟩ := Prod.mk.inj (Option.some.inj (hentry.symm.trans hentry'))
    obtain rfl := hsame rfl
    have hput : ((w.put n k u).store n).lookup k = some (g + 1, u) := by
      rw [World.put_store_self]
      exact Table.lookup_put_next hentry
    have hnew : i ∉ commitOrder h := by
      rw [hk.mem i, hph]
      simp
    have horder : commitOrder (h ++ [⟨i, .update n k u g, .ok ()⟩]) = commitOrder h ++ [i] := by
      rw [commitOrder_append]
      rfl
    have hset (j : Nat) : (phs.set i (.stored f r))[j]? = if i = j then some (.stored f r) else phs[j]? :=
      Crowd.phase_set hph
    have hkept {j : Nat} {f' : CasFun R n} {r' : R} (hj : phs[j]? = some (.stored f' r')) :
        (phs.set i (.stored f r))[j]? = some (.stored f' r') := by
      rw [hset, if_neg, hj]
      rintro rfl
      rw [hph] at hj
      cases hj
    rw [hw]
    refine ⟨?_, ?_, ?_, ?_, ?_, hk.attempts_step hph rfl (by simp [isAttempt, CasPhase.left])⟩
    · intro j
      refine (Crowd.map_phase_set hph ?_ j).trans (hk.func j)
      rfl
    · intro j f' left' g' v' r' u' hj
      rcases Crowd.of_phase_set hph hj with ⟨-, heq⟩ | ⟨-, hj⟩
      · cases heq
      · obtain ⟨hfv', g'', v'', hentry'', hle, -⟩ := hk.held hj
        obtain ⟨rfl, rfl⟩ := Prod.mk.inj (Option.some.inj (hentry.symm.trans hentry''))
        exact ⟨hfv', g + 1, u, hput, by omega, fun heq => by omega⟩
    · rw [horder]
      exact List.nodup_append'.mpr ⟨hk.nodup, List.nodup_singleton i, by simpa using hnew⟩
    · intro j
      rw [horder, List.mem_append, hk.mem j, List.mem_singleton, hset]
      by_cases hij : i = j
      · subst hij
        simp
      · simp [hij, Ne.symm hij]
    · rw [horder]
      have hfi : fs[i]? = some f := by
        rw [← hk.func i, hph]
        rfl
      have hstored : ∀ (j : Nat) (r' : R), (∃ f', phs[j]? = some (CasPhase.stored f' r')) →
          ∃ f', (phs.set i (.stored f r))[j]? = some (CasPhase.stored f' r') := by
        rintro j r' ⟨f', hj⟩
        exact ⟨f', hkept hj⟩
      refine (hk.applied.mono hstored).snoc hfi (Table.value?_of_entry hentry) hfv ⟨f, ?_⟩
      rw [hset, if_pos rfl]

end

/-! ### A run -/

theorem casCrowd_follows (fs : List (CasFun R n)) (w : World) :
    (casCrowd n k fs w).Follows (CasStep n k) CasReturn (fs.map (.ready · maxRetries)) := by
  show List.Forall₂ _ (fs.map _) (fs.map _)
  induction fs with
  | nil => exact .nil
  | cons f fs ih => exact .cons (follows_casJsonWith f maxRetries) ih

/-- The store and the results are those of the calls of the given order, one after the other: the calls that succeed,
    each once and on the value that the one before it left. -/
structure Linearized (n : Ns) (k : n.Key) (fs : List (CasFun R n)) (w : World)
    (s : Crowd iface (Except ChannelError R) World) (order : List Nat) : Prop where
  once : order.Nodup
  successful : ∀ i, i ∈ order ↔ ∃ r, s.Returned i (.ok r)
  applied : Applies n k fs (fun i r => s.Returned i (.ok r)) order w s.world
  value : ∀ v, (w.store n).value? k = some v → (s.world.store n).value? k = applyAll fs order v

/-- In every interleaving of any number of calls, what happens to the store is what the calls that succeed do in the
    order of their updates. A call that fails changes nothing, and none makes more than ten attempts. -/
theorem casJson_linearizable (n : Ns) (k : n.Key) (fs : List (CasFun R n)) (w : World)
    (schedule : List (Nat × Choice)) :
    Linearized n k fs w (Crowd.run exec schedule (casCrowd n k fs w))
      (commitOrder (Crowd.history exec schedule (casCrowd n k fs w))) ∧
    ∀ i, attemptsOf i (Crowd.history exec schedule (casCrowd n k fs w)) ≤ 10 := by
  have hstart : CasKept n k fs w [] (fs.map (.ready · maxRetries)) w := by
    have hready (i : Nat) : (fs.map (.ready · maxRetries) : List (CasPhase R n))[i]? = fs[i]?.map (.ready · maxRetries) :=
      List.getElem?_map
    refine ⟨?_, ?_, List.nodup_nil, ?_, rfl, ?_⟩
    · intro i
      rw [hready, Option.map_map]
      exact Option.map_id'
    · intro i f left g v u r hi
      rw [hready] at hi
      cases hf : fs[i]? <;> simp [hf] at hi
    · intro i
      rw [hready]
      cases hf : fs[i]? <;> simp [commitOrder]
    · intro i
      rw [hready]
      cases hf : fs[i]? <;> simp [attemptsOf, CasPhase.left]
  have hstep (h : List (Crowd.Event iface)) (phs : List (CasPhase R n)) (w' : World) (i : Nat) (ph : CasPhase R n)
      (c : Call) (x : Choice) (ph' : CasPhase R n) (hph : phs[i]? = some ph) (hk : CasKept n k fs w h phs w')
      (hmove : CasStep n k ph c (exec x c w').1 ph') :
      CasKept n k fs w (h ++ [⟨i, c, (exec x c w').1⟩]) (phs.set i ph') (exec x c w').2 := hk.step hph hmove
  obtain ⟨phs, hfollows, hk⟩ := Crowd.run_history hstep schedule (casCrowd_follows fs w) hstart
  rw [List.nil_append] at hk
  generalize Crowd.run exec schedule (casCrowd n k fs w) = s at hfollows hk ⊢
  generalize Crowd.history exec schedule (casCrowd n k fs w) = h at hk ⊢
  have hreturned (i : Nat) (r : R) : s.Returned i (.ok r) ↔ ∃ f, phs[i]? = some (.stored f r) := by
    constructor
    · intro hi
      obtain ⟨ph, hph, hret⟩ := hfollows.of_returned hi
      obtain ⟨f, rfl⟩ := (hret r).mp rfl
      exact ⟨f, hph⟩
    · rintro ⟨f, hph⟩
      obtain ⟨a, ha, hret⟩ := hfollows.returned hph (fun c r ph' hδ => by cases hδ) fun c => ⟨(exec .calm c w).1⟩
      rwa [(hret r).mpr ⟨f, rfl⟩] at ha
  have happlied : Applies n k fs (fun i r => s.Returned i (.ok r)) (commitOrder h) w s.world :=
    hk.applied.mono fun i r hi => (hreturned i r).mpr hi
  refine ⟨⟨hk.nodup, ?_, happlied, fun v hv => happlied.value hv⟩, ?_⟩
  · intro i
    rw [hk.mem i, exists_comm]
    exact exists_congr fun r => (hreturned i r).symm
  · intro i
    exact (Nat.le_add_right _ _).trans (hk.attempts i)

end
end Canopus
