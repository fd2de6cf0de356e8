import Canopus.Lib.Cut
import Canopus.Theorems.Conservation

/-! Crashes. An operation may be cut short after any of its calls; what is in the store and what the node has done
    stays, and the controller's memory is lost. A run with crashes reaches no world that a run without them does
    not reach: the calls that a crash prevents may as well all have failed. So what holds in every world that runs
    with failing calls reach also holds where operations are cut short. -/

namespace Canopus
open Effect

variable {H : Host} {u v w : World} {x : Choice} {op : Op}

/-! ### Worlds that no code can tell apart -/

/-- The world without the history of signatures. -/
def World.unsigned (w : World) : World := { w with signed := [] }

/-- `w` is `v`, except that the host may have put its signature to more states. -/
structure SignedMore (v w : World) : Prop where
  unsigned : v.unsigned = w.unsigned
  signed : v.signed.Sublist w.signed

instance : IsPreorder World SignedMore where
  refl _ := ⟨rfl, List.Sublist.refl _⟩
  trans _ _ _ h h' := ⟨h.unsigned.trans h'.unsigned, h.signed.trans h'.signed⟩

theorem SignedMore.store (h : SignedMore v w) : v.store = w.store := by
  have he := congrArg World.store h.unsigned
  exact he

theorem SignedMore.channel (h : SignedMore v w) (p : PublicKey) : v.channel p = w.channel p := by
  unfold World.channel
  rw [h.store]

/-- No call looks at the history. -/
theorem exec_unsigned (x : Choice) (c : Call) (w : World) : (exec x c w).1 = (exec x c w.unsigned).1 ∧
    (exec x c w).2.unsigned = (exec x c w.unsigned).2.unsigned := by
  cases c with
  | get n k =>
    simp only [exec, World.unsigned]
    split
    · exact ⟨rfl, rfl⟩
    · split <;> exact ⟨rfl, rfl⟩
  | create n k d =>
    simp only [exec, World.unsigned]
    split
    · exact ⟨rfl, rfl⟩
    · split <;> exact ⟨rfl, rfl⟩
  | update n k d g =>
    simp only [exec, World.unsigned]
    split
    · exact ⟨rfl, rfl⟩
    · split
      · split <;> exact ⟨rfl, rfl⟩
      · exact ⟨rfl, rfl⟩
  | existsKey | delete | listChannels | listForwardScids | listForwards | sendCustomMsg | sendOnion | inspectOutgoingPayment
  | getBlockHeight | resolveHtlc | storePreimage | lookupPreimage =>
    simp only [exec, World.unsigned]
    split <;> exact ⟨rfl, rfl⟩
  | systemTime | sessionKey | peerConnection | notePeerConnection | peerWireEncoding | noteWireEncoding | forgetWireEncoding
  | noteSigned => exact ⟨rfl, rfl⟩

/-- What a call adds to the history. -/
def Call.signs : Call → List (PublicKey × LastCrossSignedState)
  | .noteSigned peer state => [(peer, state)]
  | _ => []

theorem exec_signed (x : Choice) (c : Call) (w : World) : (exec x c w).2.signed = w.signed ++ c.signs := by
  cases c with
  | get n k =>
    rw [exec_reads x w rfl]
    simp [Call.signs]
  | create n k d =>
    rcases exec_create_world (x := x) (w := w) (n := n) (k := k) (v := d) with h | ⟨-, h⟩
    · simp [h, Call.signs]
    · simp [h, Call.signs, World.put, World.settle]
  | update n k d g =>
    rcases @exec_update_world n k d g x w with h | ⟨-, h⟩
    · simp [h, Call.signs]
    · simp [h, Call.signs, World.put, World.settle]
  | delete | sendCustomMsg | sendOnion | resolveHtlc | storePreimage =>
    simp only [exec, Call.signs, List.append_nil]
    split <;> rfl
  | existsKey | listChannels | listForwardScids | listForwards | inspectOutgoingPayment | getBlockHeight | lookupPreimage
  | systemTime | sessionKey | peerConnection | peerWireEncoding =>
    rw [exec_reads x w rfl]
    simp [Call.signs]
  | notePeerConnection | noteWireEncoding | forgetWireEncoding =>
    simp [exec, Call.signs]
  | noteSigned => rfl

/-- So no run can tell them apart. -/
theorem SignedMore.bisimulation : Prog.Bisimulation (I := iface) exec SignedMore where
  answer x c v w h := by
    rw [(exec_unsigned x c v).1, h.unsigned, ← (exec_unsigned x c w).1]
  state x c v w h := by
    refine ⟨?_, ?_⟩
    · rw [(exec_unsigned x c v).2, h.unsigned, ← (exec_unsigned x c w).2]
    · rw [exec_signed, exec_signed]
      exact h.signed.append (List.Sublist.refl _)

theorem SignedMore.restart (h : SignedMore v w) : SignedMore v.restart w.restart :=
  ⟨congrArg World.restart h.unsigned, h.signed⟩

theorem SignedMore.next (h : SignedMore v w) (o : Nat → Choice) (op : Op) : SignedMore (op.next H o v) (op.next H o w) := by
  cases op with
  | restart => exact h.restart
  | _ => exact (SignedMore.bisimulation.run _ o h).2

/-! ### Calls without an effect -/

/-- After a restart, `w` is `v` except that the host may have signed more. -/
def Lasts (v w : World) : Prop := SignedMore v.restart w.restart

instance : IsPreorder World Lasts where
  refl w := refl_of SignedMore w.restart
  trans _ _ _ h h' := trans_of SignedMore h h'

/-- The environment fails all calls. -/
def Choice.failing : Choice := ⟨true, 0, 0, .unknown, ByteVec.fill 32 0⟩

theorem lasts_failing (c : Call) (w : World) : Lasts w (exec .failing c w).2 := by
  refine ⟨?_, ?_⟩
  · cases c <;> rfl
  · show w.signed.Sublist (exec .failing c w).2.signed
    rw [exec_signed]
    exact List.sublist_append_left _ _

/-! ### Runs with crashes -/

/-- The operation is cut short after `n` calls, and the controller starts anew. -/
def Op.cutShort (H : Host) (o : Nat → Choice) (n : Nat) (op : Op) (w : World) : World :=
  (Prog.after exec o n (op.program H).run w).restart

/-- The worlds that the controller gets to when its operations, which meet `P`, may be cut short. -/
inductive CrashReachable (H : Host) (P : World → Op → Prop) : World → Prop
  | start : CrashReachable H P World.empty
  | step {w : World} (op : Op) (o : Nat → Choice) (hw : CrashReachable H P w) (hop : P w op) :
    CrashReachable H P (op.next H o w)
  | crash {w : World} (op : Op) (o : Nat → Choice) (n : Nat) (hw : CrashReachable H P w) (hop : P w op) :
    CrashReachable H P (op.cutShort H o n w)

/-- A crash leaves what failing calls leave. -/
theorem Op.cutShort_next (H : Host) (o : Nat → Choice) (n : Nat) (op : Op) (w : World) :
    SignedMore (op.cutShort H o n w) (op.next H (Prog.cutAfter n o .failing) w).restart := by
  cases op with
  | restart =>
    cases n with
    | zero => exact refl_of SignedMore w.restart
    | succ n => exact refl_of SignedMore w.restart
  | _ => exact Prog.after_run (R := Lasts) lasts_failing _ n o w

/-- Runs without crashes are among them. -/
theorem CrashReachable.of_reachable {P : World → Op → Prop} (h : Reachable H (Guard.ofOp P) w) : CrashReachable H P w := by
  induction h with
  | start => exact .start
  | step op o _ hop ih => exact .step op o ih hop.1

/-- A commit of the client to an HTLC of its own is cut short when it has been saved: nobody has been told of it. -/
def unansweredScript : List (World → Op) := openScript ++ [clientAdds openKey 1 1000 (ByteVec.fill 32 3) 77]

def unanswered : World :=
  (clientCommits .transparent openKey (calmRun .transparent unansweredScript)).cutShort .transparent (fun _ => .calm) 7
    (calmRun .transparent unansweredScript)

theorem conserving_mono (h : SignedMore v w) (hop : (Guard.conserving H).op v op) : (Guard.conserving H).op w op := by
  cases op with
  | message p e msg =>
    cases msg with
    | lastCrossSignedState m =>
      intro hm
      obtain ⟨s, hs, halike⟩ := hop hm
      exact ⟨s, h.signed.subset hs, halike⟩
    | _ => trivial
  | addSecret => exact hop
  | removeChannel => exact hop
  | _ => trivial

end Canopus
