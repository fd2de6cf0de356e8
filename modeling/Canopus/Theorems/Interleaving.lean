import Canopus.Lib.Pool
import Canopus.Theorems.ForwardAmount

/-! Two operations on one record at the same time. An operation reads the record, adds an update and
    writes the record back with `save_channel(peer, data, None)`. That write takes whatever generation it
    finds just before, so it never notices that the record has changed since it was read: what the other
    operation has written in between is lost. -/

namespace Canopus
open Effect

/-- The program of an operation. -/
abbrev Body := Prog iface (Except ChannelError Unit)

/-! ### Operations that add one update -/

/-- A call that does not write the record of `p`. -/
def Inert (p : PublicKey) : Call → Prop
  | .create .channels q _ => q ≠ p
  | .update .channels q _ _ => q ≠ p
  | .delete .channels q => q ≠ p
  | _ => True

/-- A program that can only return an error. -/
inductive Doomed {α : Type} : Prog iface (Except ChannelError α) → Prop
  | error (e : ChannelError) : Doomed (.pure (.error e))
  | call {c : Call} {k : c.Ans → Prog iface (Except ChannelError α)} (hk : ∀ r, Doomed (k r)) : Doomed (.call c k)

/-- A program that leaves the record of `p` alone, unless it is going to return an error. -/
inductive Tail {α : Type} (p : PublicKey) : Prog iface (Except ChannelError α) → Prop
  | done (r : Except ChannelError α) : Tail p (.pure r)
  | doomed {x : Prog iface (Except ChannelError α)} (h : Doomed x) : Tail p x
  | inert {c : Call} {k : c.Ans → Prog iface (Except ChannelError α)} (hc : Inert p c) (hk : ∀ r, Tail p (k r)) : Tail p (.call c k)

/-- A program that has read the record `d` and may write it back with an update that `F` allows; after
    that it leaves the record alone. -/
inductive Holding {α : Type} (p : PublicKey) (F : ChannelData → UncommittedUpdate → Prop) (d : ChannelData) :
    Prog iface (Except ChannelError α) → Prop
  | done (r : Except ChannelError α) : Holding p F d (.pure r)
  | doomed {x : Prog iface (Except ChannelError α)} (h : Doomed x) : Holding p F d x
  | inert {c : Call} {k : c.Ans → Prog iface (Except ChannelError α)} (hc : Inert p c) (hk : ∀ r, Holding p F d (k r)) :
    Holding p F d (.call c k)
  | create {d' : ChannelData} {k : Except StoreError Unit → Prog iface (Except ChannelError α)}
    (hk : ∀ e, Holding p F d (k (.error e))) : Holding p F d (.call (.create .channels p d') k)
  | update {u : UncommittedUpdate} {g : Nat} {k : Except StoreError Unit → Prog iface (Except ChannelError α)} (hu : F d u)
    (hok : Tail p (k (.ok ()))) (hk : ∀ e, Holding p F d (k (.error e))) :
    Holding p F d (.call (.update .channels p (d.push u) g) k)

/-- An operation that reads the record of `p` first and, where the record meets `G`, adds an update to it. -/
def Appends (p : PublicKey) (F : ChannelData → UncommittedUpdate → Prop) (G : ChannelData → Prop) (x : Body) : Prop :=
  ∃ k, x = .call (.get .channels p) k ∧ (∀ d g, G d → Holding p F d (k (.ok (d, g)))) ∧ ∀ e, Doomed (k (.error e))

/-- The call has written the record of `p`. -/
def writes (p : PublicKey) : (c : Call) → c.Ans → Bool
  | .update .channels q _ _, .ok () => q == p
  | _, _ => false

variable {p : PublicKey} {F : ChannelData → UncommittedUpdate → Prop} {G : ChannelData → Prop} {d e : ChannelData}
  {c : Call} {w : World} {s : List (Bool × Choice)} {b : Bool} {pool : Pool iface (Except ChannelError Unit) World}

theorem Inert.not_writes {r : c.Ans} (h : Inert p c) : writes p c r = false := by
  cases c with
  | update n k v g =>
    cases n with
    | channels =>
      cases r with
      | error e => rfl
      | ok u => exact beq_false_of_ne h
    | _ => rfl
  | _ => rfl

theorem Inert.channel (h : Inert p c) (x : Choice) : (exec x c w).2.channel p = w.channel p := by
  cases c with
  | get n k => rw [exec_reads x w rfl]
  | existsKey n k => rw [exec_reads x w rfl]
  | create n k v =>
    simp only [exec]
    split
    · rfl
    split
    · rfl
    · cases n with
      | channels => exact World.channel_put_ne (Ne.symm h)
      | _ => simp [World.channel, World.put_store_ne]
  | update n k v g =>
    simp only [exec]
    split
    · rfl
    split
    · split
      · rfl
      · cases n with
        | channels => exact World.channel_put_ne (Ne.symm h)
        | _ => simp [World.channel, World.put_store_ne]
    · rfl
  | delete n k =>
    simp only [exec]
    split
    · rfl
    · cases n with
      | channels => exact World.channel_erase_ne (Ne.symm h)
      | _ => simp [World.channel, World.erase_store_ne]
  | systemTime | sessionKey | peerConnection | peerWireEncoding | notePeerConnection | noteWireEncoding
  | forgetWireEncoding | noteSigned => rfl
  | _ =>
    simp only [exec]
    split <;> rfl

/-! ### Programs of the controller -/

section Programs
variable {α β : Type} {x : Ctl α} {f : α → Ctl β}

theorem doomed_bind (hx : Doomed x.run) : Doomed (x >>= f).run := by
  rw [ExceptT.run_bind]
  generalize x.run = y at hx
  induction hx with
  | error e => exact .error e
  | call _ ih => exact .call ih

/-- A program that throws at its end. -/
theorem doomed_throw {e : ChannelError} : Doomed (x >>= fun _ => (throw e : Ctl β)).run := by
  rw [ExceptT.run_bind]
  generalize x.run = y
  induction y with
  | pure r =>
    cases r with
    | error e' => exact .error e'
    | ok a => exact .error e
  | call c k ih => exact .call ih

theorem tail_of_calls (hx : Fallible.Calls (Inert p) x) : Tail p x.run := by
  have hx : Prog.Calls (Inert p) x.run := hx
  generalize x.run = y at hx
  induction hx with
  | pure r => exact .done r
  | call hc _ ih => exact .inert hc ih

theorem tail_bind (hx : Tail p x.run) (hf : ∀ a, Tail p (f a).run) : Tail p (x >>= f).run := by
  rw [ExceptT.run_bind]
  generalize hy : x.run = y at hx
  induction hx generalizing x with
  | done r =>
    cases r with
    | error e => exact .done _
    | ok a => exact hf a
  | @doomed y h =>
    have hd := doomed_bind (x := ExceptT.mk y) (f := f) h
    rw [ExceptT.run_bind] at hd
    exact .doomed hd
  | inert hc _ ih => exact .inert hc fun r => ih r rfl

theorem Tail.holding {y : Prog iface (Except ChannelError α)} (h : Tail p y) : Holding p F d y := by
  induction h with
  | done r => exact .done r
  | doomed h => exact .doomed h
  | inert hc _ ih => exact .inert hc ih

theorem holding_bind (hx : Fallible.Calls (Inert p) x) (hf : ∀ a, Holding p F d (f a).run) :
    Holding p F d (x >>= f).run := by
  rw [ExceptT.run_bind]
  have hx : Prog.Calls (Inert p) x.run := hx
  generalize x.run = y at hx
  induction hx with
  | pure r =>
    cases r with
    | error e => exact .done _
    | ok a => exact hf a
  | call hc _ ih => exact .inert hc ih

theorem holding_then (hx : Holding p F d x.run) (hf : ∀ a, Tail p (f a).run) : Holding p F d (x >>= f).run := by
  rw [ExceptT.run_bind]
  generalize x.run = y at hx
  induction hx with
  | done r =>
    cases r with
    | error e => exact .done _
    | ok a => exact (hf a).holding
  | @doomed y h =>
    have hd := doomed_bind (x := ExceptT.mk y) (f := f) h
    rw [ExceptT.run_bind] at hd
    exact .doomed hd
  | inert hc _ ih => exact .inert hc ih
  | create _ ih => exact .create ih
  | @update u g k hu hok _ ih =>
    have htail := tail_bind (x := ExceptT.mk (k (.ok ()))) hok hf
    rw [ExceptT.run_bind] at htail
    exact .update hu htail ih

/-- `save_channel` of the record that was read, with one more update. -/
theorem holding_save {u : UncommittedUpdate} (hu : F d u) : Holding p F d (saveChannel p (d.push u) none).run := by
  refine Holding.create fun e => ?_
  cases e with
  | alreadyExists =>
    refine Holding.inert trivial fun r => ?_
    rcases r with e | ⟨_, g⟩
    · exact .done _
    · exact Holding.update hu (.done _) fun e => .done _
  | _ => exact .done _

/-- An operation that loads the record first. -/
theorem appends_load {f : ChannelData → Ctl Unit} (hf : ∀ d, G d → Holding p F d (f d).run) :
    Appends p F G (loadExisting p >>= f).run := by
  refine ⟨_, rfl, fun d g hg => hf d hg, fun e => ?_⟩
  cases e with
  | notFound => exact .error _
  | _ => exact .error _

end Programs

/-! ### The operations of the controller -/

section Operations
variable {α : Type} {H : Host} {q peer : PublicKey} {k : HtlcKey}
open Fallible

theorem calls_liftState (r : Except StateError α) : Calls (Inert p) (liftState r) := by
  cases r
  · exact Calls.throw _
  · exact Calls.pure _

theorem calls_liftStore (r : Except StoreError α) : Calls (Inert p) (liftStore r) := by
  cases r
  · exact Calls.throw _
  · exact Calls.pure _

theorem calls_liftNode (r : Except NodeError α) : Calls (Inert p) (liftNode r) := by
  cases r
  · exact Calls.throw _
  · exact Calls.pure _

theorem calls_liftEncode (r : EncodeResult α) : Calls (Inert p) (liftEncode r) := by
  cases r
  · exact Calls.throw _
  · exact Calls.pure _

theorem calls_okOr (e : ChannelError) (r : Option α) : Calls (Inert p) (okOr e r) := by
  cases r
  · exact Calls.throw _
  · exact Calls.pure _

theorem calls_sendMessage (msg : HostedMessage) : Calls (Inert p) (sendMessage q msg) :=
  (Calls.ask trivial).bind fun _ => (calls_liftEncode _).bind fun _ => (Calls.ask trivial).bind fun _ => calls_liftNode _

theorem calls_signNext (sm : StateManager) : Calls (Inert p) (signNext H q sm) := by
  refine (calls_liftState _).bind fun next => ?_
  refine Calls.bind (((Calls.ask trivial).bind fun _ => calls_liftNode _).bind fun _ => Calls.pure _) fun day => ?_
  exact (calls_liftEncode _).bind fun _ => (Calls.ask trivial).bind fun _ => Calls.pure _

theorem calls_resolveUpstream (r : HtlcResolution) : Calls (Inert p) (resolveUpstream k r) :=
  (Calls.ask trivial).bind fun _ => calls_liftNode _

theorem calls_peerForHostedScid (scid : UInt64) : Calls (Inert p) (peerForHostedScid H scid) :=
  ((Calls.ask trivial).bind fun _ => calls_liftStore _).bind fun _ => Calls.pure _

theorem calls_routingPolicyForData : Calls (Inert p) (routingPolicyForData H d) := by
  unfold routingPolicyForData
  cases d.routingPolicy with
  | some r => exact Calls.pure _
  | none =>
    refine Calls.bind ((Calls.ask trivial).bind fun r => ?_) fun _ => Calls.pure _
    rcases r with e | r
    · cases e with
      | notFound => exact Calls.pure _
      | _ => exact Calls.throw _
    · exact Calls.pure _

theorem calls_cltvTooClose (normal : Bool) (upstream : Option UInt32) (cltv : UInt32) (delta : UInt16) :
    Calls (Inert p) (cltvTooClose normal upstream cltv delta) := by
  unfold cltvTooClose
  split
  · split
    · exact (calls_okOr _ _).bind fun _ => Calls.pure _
    · exact Calls.pure _
  · exact Calls.pure _

theorem calls_createForwardLink (l : ForwardLink) : Calls (Inert p) (createForwardLink k l) := by
  refine (Calls.ask trivial).bind fun r => ?_
  rcases r with e | r
  · cases e with
    | alreadyExists => exact Calls.pure _
    | _ => exact Calls.throw _
  · exact Calls.pure _

/-- A delivery that fails errors the channel, but then the operation fails too. -/
theorem tail_deliver (msg : HostedMessage) : Tail p (deliver p d msg).run := by
  refine tail_bind (tail_of_calls (Calls.attempt (calls_sendMessage msg))) fun r => ?_
  rcases r with e | u
  · exact .doomed doomed_throw
  · exact .done _

/-- A peer's HTLC within its balance, or one that the channel turns down. -/
theorem appends_handleUpdateAdd (htlc : UpdateAddHtlc) :
    Appends p (fun _ u => u = .ofRemote (.add htlc))
      (fun d => ∀ next, d.next H = .ok next → htlc.amountMsat ≤ next.remoteBalanceMsat) (handleUpdateAdd H p htlc).run := by
  refine appends_load fun d hd => ?_
  split
  · exact (tail_of_calls (calls_sendMessage _)).holding
  cases hn : StateManager.lcssNext H.crypto ⟨d.lcss, d.uncommitted⟩ with
  | error e => exact .done _
  | ok next =>
    show Holding p _ d (ite (htlc.amountMsat > next.remoteBalanceMsat) _ _ : Ctl Unit).run
    rw [if_neg (UInt64.not_lt.mpr (hd next hn))]
    exact holding_save rfl

/-- An HTLC offered to the client, with the id that the record gives it. -/
theorem appends_channelHandleHtlcAdd (htlc : UpdateAddHtlc) (scid id : UInt64) (secret : Option (ByteVec 32))
    (expiry : Option UInt32) :
    Appends p (fun d u => u = .ofLocal (.add { htlc with channelId := H.channelId p, id := nextHtlcId d })) (fun _ => True)
      (channelHandleHtlcAddWithUpstreamExpiry H p htlc k scid id secret expiry).run := by
  have hrefuse : ∀ {d F} r, Holding p F d (resolveUpstream k r).run := fun r => (tail_of_calls (calls_resolveUpstream r)).holding
  refine appends_load fun d _ => ?_
  split
  · exact .done _
  refine holding_bind (Calls.ask trivial) fun _ => ?_
  split
  · exact hrefuse _
  refine holding_bind (Calls.ask trivial) fun found => ?_
  split
  · exact hrefuse _
  refine holding_bind calls_routingPolicyForData fun routing => ?_
  refine holding_bind (calls_peerForHostedScid _) fun source => ?_
  refine holding_bind (calls_cltvTooClose _ _ _ _) fun close => ?_
  split
  · exact hrefuse _
  split
  · exact hrefuse _
  split
  · exact hrefuse _
  refine holding_bind (calls_liftState _) fun next => ?_
  split
  · exact hrefuse _
  refine holding_bind ((Calls.ask trivial).bind fun _ => (calls_okOr _ _).bind fun _ => calls_okOr _ _) fun deadline => ?_
  refine holding_bind (calls_createForwardLink _) fun _ => ?_
  refine holding_then (holding_save rfl) fun _ => ?_
  refine tail_bind (tail_deliver _) fun _ => ?_
  exact tail_bind (tail_of_calls (calls_signNext _)) fun _ => tail_deliver _

/-- A resolution of an incoming HTLC that the committed state lists. -/
theorem appends_sendLocalResolution (id : UInt64) (u : PendingUpdate) (msg : HostedMessage) :
    Appends p (fun _ v => v = .ofLocal u) (fun _ => True) (sendLocalResolution H p id u msg).run := by
  refine appends_load fun d _ => ?_
  split
  · exact .done _
  refine holding_bind ((calls_signNext _).bind fun _ => Calls.pure _) fun _ => ?_
  refine holding_then (holding_save rfl) fun _ => ?_
  refine tail_bind (tail_of_calls (calls_sendMessage _)) fun _ => ?_
  exact tail_of_calls (calls_sendMessage _)

end Operations

/-! ### What a step of an operation does -/

/-- A program that must fail never completes. -/
theorem doomed_run (h : Doomed (pool.prog b)) : (Pool.run exec s pool).prog b ≠ .pure (.ok ()) := by
  induction s generalizing pool with
  | nil =>
    intro hok
    rw [show pool.prog b = _ from hok] at h
    cases h
  | cons x s ih =>
    refine ih ?_
    by_cases hb : b = x.1
    · subst hb
      cases hp : pool.prog x.1 with
      | pure r =>
        rw [Pool.step_pure hp]
        exact h
      | call c k =>
        rw [Pool.prog_step_self hp]
        rw [hp] at h
        cases h with
        | call hk => exact hk _
    · rw [Pool.prog_step_other hb]
      exact h

/-- A step of a program that is through with the record. -/
theorem tail_step {x : Choice} (h : Tail p (pool.prog b)) :
    Tail p ((Pool.step exec b x pool).prog b) ∧
      ((Pool.step exec b x pool).world.channel p = pool.world.channel p ∨ Doomed (pool.prog b)) := by
  generalize hp : pool.prog b = prog at h
  cases h with
  | done r =>
    rw [Pool.step_pure hp, hp]
    exact ⟨.done r, Or.inl rfl⟩
  | doomed h =>
    refine ⟨.doomed ?_, Or.inr h⟩
    cases h with
    | error e =>
      rw [Pool.step_pure hp, hp]
      exact .error e
    | call hk =>
      rw [Pool.prog_step_self hp]
      exact hk _
  | inert hc hk =>
    rw [Pool.prog_step_self hp, Pool.world_step hp]
    exact ⟨hk _, Or.inl (hc.channel x)⟩

/-- A step of a program that has read the record: it stays so and leaves the record alone, or it writes
    the record back with its update. -/
theorem holding_step {x : Choice} (h : Holding p F d (pool.prog b)) (he : pool.world.channel p = some e) :
    (Holding p F d ((Pool.step exec b x pool).prog b) ∧
      Pool.meets exec (writes p) b x pool = false ∧
      (Pool.step exec b x pool).world.channel p = some e) ∨
    (Tail p ((Pool.step exec b x pool).prog b) ∧
      ∃ u, F d u ∧ (Pool.step exec b x pool).world.channel p = some (d.push u)) ∨
    Doomed (pool.prog b) := by
  obtain ⟨g₀, hl⟩ := Table.exists_entry he
  generalize hp : pool.prog b = prog at h
  cases h with
  | done r =>
    rw [Pool.step_pure hp, hp]
    exact Or.inl ⟨.done r, Pool.meets_pure hp, he⟩
  | doomed h => exact Or.inr (Or.inr h)
  | inert hc hk =>
    rw [Pool.prog_step_self hp, Pool.world_step hp]
    exact Or.inl ⟨hk _, (Pool.meets_call hp).trans hc.not_writes, (hc.channel x).trans he⟩
  | create hk =>
    rw [Pool.prog_step_self hp, Pool.world_step hp]
    refine Or.inl ?_
    simp only [exec, hl]
    refine ⟨?_, Pool.meets_call hp, ?_⟩
    · split
      · exact hk _
      · exact hk _
    · split
      · exact he
      · exact he
  | @update u g k hu hok hk =>
    rw [Pool.prog_step_self hp, Pool.world_step hp]
    by_cases hw : x.fails = false ∧ g₀ = g
    · -- The generation is the one just read: the write goes through.
      refine Or.inr (Or.inl ?_)
      have hexec : exec x (.update .channels p (d.push u) g) pool.world =
          (.ok (), pool.world.put .channels p (d.push u)) := by
        simp [exec, hl, hw.1, hw.2]
      rw [hexec]
      exact ⟨hok, u, hu, World.channel_put⟩
    · refine Or.inl ?_
      have hexec : ∃ err, exec x (.update .channels p (d.push u) g) pool.world = (.error err, pool.world) := by
        simp only [exec, hl, backendError]
        split
        · exact ⟨_, rfl⟩
        · rename_i hfails
          rw [if_pos (fun hg => hw ⟨by simpa using hfails, hg⟩)]
          exact ⟨_, rfl⟩
      obtain ⟨err, hexec⟩ := hexec
      refine ⟨?_, ?_, ?_⟩
      · rw [hexec]
        exact hk err
      · rw [Pool.meets_call hp, hexec]
        rfl
      · rw [hexec]
        exact he

/-! ### Runs -/

section Run
variable {F : Bool → ChannelData → UncommittedUpdate → Prop} {G : Bool → ChannelData → Prop}

/-- Both programs are through with the record. -/
theorem run_tails (ht : ∀ b, Tail p (pool.prog b)) (hok : ∀ b, (Pool.run exec s pool).prog b = .pure (.ok ())) :
    (Pool.run exec s pool).world.channel p = pool.world.channel p := by
  induction s generalizing pool with
  | nil => rfl
  | cons x s ih =>
    obtain ⟨hself, hchannel | hdoomed⟩ := tail_step (x := x.2) (ht x.1)
    · refine (ih (fun b => ?_) hok).trans hchannel
      by_cases hb : b = x.1
      · rw [hb]
        exact hself
      · rw [Pool.prog_step_other hb]
        exact ht b
    · exact absurd (hok x.1) (doomed_run hdoomed)

/-- One program is through, the other has read `d` and is still to write: what it writes stays. -/
theorem run_holding (ht : Tail p (pool.prog !b)) (hh : Holding p (F b) d (pool.prog b))
    (he : pool.world.channel p = some e) (hok : ∀ b, (Pool.run exec s pool).prog b = .pure (.ok ()))
    (hs : Pool.saw exec (writes p) b s pool = true) :
    ∃ u, F b d u ∧ (Pool.run exec s pool).world.channel p = some (d.push u) := by
  induction s generalizing pool with
  | nil => cases hs
  | cons x s ih =>
    obtain ⟨side, x⟩ := x
    rw [Pool.run_cons] at hok ⊢
    by_cases hb : side = b
    · subst hb
      have hother : (Pool.step exec side x pool).prog (!side) = pool.prog !side := Pool.prog_step_other (by simp)
      rcases holding_step (x := x) hh he with ⟨hh', hn, he'⟩ | ⟨ht', u, hu, he'⟩ | hdoomed
      · exact ih (hother ▸ ht) hh' he' hok (Pool.saw_rest hn hs)
      · refine ⟨u, hu, (run_tails (fun c => ?_) hok).trans he'⟩
        by_cases hc : c = side
        · rw [hc]
          exact ht'
        · rw [Bool.eq_not_of_ne hc, hother]
          exact ht
      · exact absurd (hok side) (doomed_run (s := (side, x) :: s) hdoomed)
    · obtain rfl : side = !b := Bool.eq_not_of_ne hb
      have hself : (Pool.step exec (!b) x pool).prog b = pool.prog b := Pool.prog_step_other (by simp)
      obtain ⟨ht', hchannel | hdoomed⟩ := tail_step (x := x) ht
      · exact ih ht' (hself ▸ hh) (hchannel.trans he) hok (Pool.saw_other (by simp) hs)
      · exact absurd (hok !b) (doomed_run (s := (!b, x) :: s) hdoomed)

/-- An operation that has not started yet makes its first call: it reads the record. -/
theorem fresh_step {x : Choice} (ha : Appends p (F b) (G b) (pool.prog b)) (he : pool.world.channel p = some e)
    (hg : G b e) : (Holding p (F b) e ((Pool.step exec b x pool).prog b) ∧
      Pool.meets exec (writes p) b x pool = false ∧
      (Pool.step exec b x pool).world.channel p = some e) ∨ Doomed ((Pool.step exec b x pool).prog b) := by
  obtain ⟨k, hp, hread, hfail⟩ := ha
  obtain ⟨g, hl⟩ := Table.exists_entry he
  rw [Pool.prog_step_self hp, Pool.world_step hp, exec_reads _ _ rfl]
  by_cases hx : x.fails = true
  · refine Or.inr ?_
    rw [show (exec x (.get .channels p) pool.world).1 = backendError by simp [exec, hx]]
    exact hfail _
  · refine Or.inl ⟨?_, ?_, he⟩
    · rw [show (exec x (.get .channels p) pool.world).1 = .ok (e, g) by simp [exec, hx, hl]]
      exact hread e g hg
    · exact Pool.meets_call hp

/-- One program is through, the other has not started: it adds its update to what it finds. -/
theorem run_fresh (ht : Tail p (pool.prog !b)) (ha : Appends p (F b) (G b) (pool.prog b))
    (he : pool.world.channel p = some e) (hg : G b e) (hok : ∀ b, (Pool.run exec s pool).prog b = .pure (.ok ()))
    (hs : Pool.saw exec (writes p) b s pool = true) :
    ∃ u, F b e u ∧ (Pool.run exec s pool).world.channel p = some (e.push u) := by
  induction s generalizing pool with
  | nil => cases hs
  | cons x s ih =>
    obtain ⟨side, x⟩ := x
    rw [Pool.run_cons] at hok ⊢
    by_cases hb : side = b
    · subst hb
      have hother : (Pool.step exec side x pool).prog (!side) = pool.prog !side := Pool.prog_step_other (by simp)
      rcases fresh_step (x := x) ha he hg with ⟨hh, hn, he'⟩ | hdoomed
      · exact run_holding (hother ▸ ht) hh he' hok (Pool.saw_rest hn hs)
      · exact absurd (hok side) (doomed_run hdoomed)
    · obtain rfl : side = !b := Bool.eq_not_of_ne hb
      have hself : (Pool.step exec (!b) x pool).prog b = pool.prog b := Pool.prog_step_other (by simp)
      obtain ⟨ht', hchannel | hdoomed⟩ := tail_step (x := x) ht
      · exact ih ht' (hself ▸ ha) (hchannel.trans he) hok (Pool.saw_other (by simp) hs)
      · exact absurd (hok !b) (doomed_run (s := (!b, x) :: s) hdoomed)

/-- Both programs have read `d`: the one that writes last wins. -/
theorem run_overlapping (hh : ∀ b, Holding p (F b) d (pool.prog b)) (he : pool.world.channel p = some d)
    (hok : ∀ b, (Pool.run exec s pool).prog b = .pure (.ok ())) (hs : ∀ b, Pool.saw exec (writes p) b s pool = true) :
    ∃ b u, F b d u ∧ (Pool.run exec s pool).world.channel p = some (d.push u) := by
  induction s generalizing pool with
  | nil => cases hs true
  | cons x s ih =>
    obtain ⟨side, x⟩ := x
    rw [Pool.run_cons] at hok ⊢
    have hother : (Pool.step exec side x pool).prog (!side) = pool.prog !side := Pool.prog_step_other (by simp)
    rcases holding_step (x := x) (hh side) he with ⟨hh', hn, he'⟩ | ⟨ht', u, hu, he'⟩ | hdoomed
    · refine ih (fun b => ?_) he' hok fun b => ?_
      · by_cases hb : b = side
        · rw [hb]
          exact hh'
        · rw [Pool.prog_step_other hb]
          exact hh b
      · by_cases hb : b = side
        · subst hb
          exact Pool.saw_rest hn (hs b)
        · exact Pool.saw_other (Ne.symm hb) (hs b)
    · refine ⟨!side, ?_⟩
      refine run_holding ?_ (hother ▸ hh !side) he' hok (Pool.saw_other (by simp) (hs !side))
      rw [Bool.not_not]
      exact ht'
    · exact absurd (hok side) (doomed_run (s := (side, x) :: s) hdoomed)

/-- The two updates stand in the record as they would if one operation had run after the other. -/
def Serial (F : Bool → ChannelData → UncommittedUpdate → Prop) (d : ChannelData) (r : Option ChannelData) : Prop :=
  ∃ b u v, F b d u ∧ F (!b) (d.push u) v ∧ r = some ((d.push u).push v)

/-- Only one of the two updates stands in the record. -/
def Lost (F : Bool → ChannelData → UncommittedUpdate → Prop) (d : ChannelData) (r : Option ChannelData) : Prop :=
  ∃ b u, F b d u ∧ r = some (d.push u)

theorem Serial.not_lost {r : Option ChannelData} (hs : Serial F d r) : ¬ Lost F d r := by
  rintro ⟨_, u', -, hr'⟩
  obtain ⟨_, u, v, -, -, hr⟩ := hs
  have hlen := congrArg (fun r => r.map (·.uncommitted.length)) (hr.symm.trans hr')
  simp [ChannelData.push] at hlen

/-- The schedule begins with calls of `b` alone that change the record. -/
def Ahead (p : PublicKey) (d : ChannelData) (b : Bool) (pool : Pool iface (Except ChannelError Unit) World)
    (s : List (Bool × Choice)) : Prop :=
  ∃ s₁, s₁ <+: s ∧ (∀ x ∈ s₁, x.1 = b) ∧ (Pool.run exec s₁ pool).world.channel p ≠ some d

theorem ahead_cons {x : Choice} (he : pool.world.channel p = some d) :
    Ahead p d b pool ((b, x) :: s) ↔ Ahead p d b (Pool.step exec b x pool) s := by
  constructor
  · rintro ⟨s₁, hpre, hside, hne⟩
    cases s₁ with
    | nil => exact absurd he hne
    | cons y s₁ =>
      obtain ⟨rfl, hpre'⟩ := List.cons_prefix_cons.mp hpre
      exact ⟨s₁, hpre', fun z hz => hside z (List.mem_cons_of_mem _ hz), hne⟩
  · rintro ⟨s₁, hpre, hside, hne⟩
    refine ⟨(b, x) :: s₁, List.cons_prefix_cons.mpr ⟨rfl, hpre⟩, ?_, hne⟩
    intro z hz
    rcases List.mem_cons.mp hz with rfl | hz
    · rfl
    · exact hside z hz

theorem not_ahead_other {x : Choice} {c : Bool} (he : pool.world.channel p = some d) (hc : c ≠ b) :
    ¬ Ahead p d b pool ((c, x) :: s) := by
  rintro ⟨s₁, hpre, hside, hne⟩
  cases s₁ with
  | nil => exact hne he
  | cons y s₁ =>
    obtain ⟨rfl, -⟩ := List.cons_prefix_cons.mp hpre
    exact hc (hside _ (List.mem_cons_self ..))

/-- One program has read the record, the other has not started. -/
theorem run_started (hh : Holding p (F b) d (pool.prog b)) (ha : Appends p (F !b) (G !b) (pool.prog !b))
    (he : pool.world.channel p = some d) (hg : G (!b) d) (hg' : ∀ u, F b d u → G (!b) (d.push u))
    (hok : ∀ b, (Pool.run exec s pool).prog b = .pure (.ok ())) (hs : ∀ b, Pool.saw exec (writes p) b s pool = true) :
    (Ahead p d b pool s ∧ Serial F d ((Pool.run exec s pool).world.channel p)) ∨
      (¬ Ahead p d b pool s ∧ Lost F d ((Pool.run exec s pool).world.channel p)) := by
  induction s generalizing pool with
  | nil => cases hs true
  | cons x s ih =>
    obtain ⟨side, x⟩ := x
    rw [Pool.run_cons] at hok ⊢
    by_cases hb : side = b
    · subst hb
      have hother : (Pool.step exec side x pool).prog (!side) = pool.prog !side := Pool.prog_step_other (by simp)
      rw [ahead_cons he]
      rcases holding_step (x := x) hh he with ⟨hh', hn, he'⟩ | ⟨ht', u, hu, he'⟩ | hdoomed
      · refine ih hh' (hother ▸ ha) he' hok fun b => ?_
        by_cases hb : b = side
        · subst hb
          exact Pool.saw_rest hn (hs b)
        · exact Pool.saw_other (Ne.symm hb) (hs b)
      · -- It writes before the other has read: the other adds its update to this one.
        refine Or.inl ⟨⟨[], List.nil_prefix, by simp, ?_⟩, ?_⟩
        · show (Pool.step exec side x pool).world.channel p ≠ some d
          rw [he']
          intro heq
          have hlen := congrArg (fun r => r.map (·.uncommitted.length)) heq
          simp [ChannelData.push] at hlen
        · obtain ⟨v, hv, hr⟩ := run_fresh (b := !side) (by rw [Bool.not_not]; exact ht') (hother ▸ ha) he' (hg' u hu) hok
            (Pool.saw_other (by simp) (hs !side))
          exact ⟨side, u, v, hu, hv, hr⟩
      · exact absurd (hok side) (doomed_run (s := (side, x) :: s) hdoomed)
    · obtain rfl : side = !b := Bool.eq_not_of_ne hb
      have hself : (Pool.step exec (!b) x pool).prog b = pool.prog b := Pool.prog_step_other (by simp)
      refine Or.inr ⟨not_ahead_other he hb, ?_⟩
      rcases fresh_step (x := x) ha he hg with ⟨hh', hn, he'⟩ | hdoomed
      · refine run_overlapping (fun c => ?_) he' hok fun c => ?_
        · by_cases hc : c = b
          · rw [hc, hself]
            exact hh
          · rw [Bool.eq_not_of_ne hc]
            exact hh'
        · by_cases hc : c = !b
          · subst hc
            exact Pool.saw_rest hn (hs _)
          · exact Pool.saw_other (Ne.symm hc) (hs c)
      · exact absurd (hok !b) (doomed_run hdoomed)

end Run

/-- One of the operations has changed the record before the other makes its first call. -/
def Apart (p : PublicKey) (d : ChannelData) (op : Bool → Body) (w : World) (s : List (Bool × Choice)) : Prop :=
  ∃ b, Ahead p d b ⟨op, w⟩ s

/-- Two operations that each add an update to the same record and both complete leave both updates in it
    exactly if one of them reads the record only after the other has written it. -/
theorem both_updates_kept_iff (p : PublicKey) (F : Bool → ChannelData → UncommittedUpdate → Prop)
    (G : Bool → ChannelData → Prop) (op : Bool → Body) (hop : ∀ b, Appends p (F b) (G b) (op b)) (w : World)
    (d : ChannelData) (hd : w.channel p = some d) (hG : ∀ b, G b d) (hG' : ∀ b u, F b d u → G (!b) (d.push u))
    (s : List (Bool × Choice)) (hok : ∀ b, (Pool.run exec s ⟨op, w⟩).prog b = .pure (.ok ()))
    (hs : ∀ b, Pool.saw exec (writes p) b s ⟨op, w⟩ = true) :
    Serial F d ((Pool.run exec s ⟨op, w⟩).world.channel p) ↔ Apart p d op w s := by
  cases s with
  | nil => cases hs true
  | cons x s =>
    obtain ⟨b, x⟩ := x
    have hapart : Apart p d op w ((b, x) :: s) ↔ Ahead p d b (Pool.step exec b x ⟨op, w⟩) s := by
      constructor
      · rintro ⟨c, hc⟩
        by_cases hcb : b = c
        · subst hcb
          exact (ahead_cons hd).mp hc
        · exact absurd hc (not_ahead_other hd hcb)
      · intro hb
        exact ⟨b, (ahead_cons hd).mpr hb⟩
    rw [hapart, Pool.run_cons]
    rw [Pool.run_cons] at hok
    have hother : (Pool.step exec b x ⟨op, w⟩).prog (!b) = op !b := Pool.prog_step_other (by simp)
    have hfresh : Appends p (F b) (G b) ((Pool.mk op w).prog b) := hop b
    rcases fresh_step (x := x) hfresh hd (hG b) with ⟨hh, hn, he⟩ | hdoomed
    · have hrun := run_started hh (hother ▸ hop !b) he (hG !b) (hG' b) hok fun c => by
        by_cases hc : c = b
        · subst hc
          exact Pool.saw_rest hn (hs c)
        · exact Pool.saw_other (Ne.symm hc) (hs c)
      rcases hrun with ⟨hahead, hserial⟩ | ⟨hahead, hlost⟩
      · exact ⟨fun _ => hahead, fun _ => hserial⟩
      · exact ⟨fun hserial => absurd hlost hserial.not_lost, fun h => absurd h hahead⟩
    · exact absurd (hok b) (doomed_run hdoomed)

/-! ### A peer's HTLC and a hook -/

/-- An HTLC that the client of the open channel sends. -/
def racingHtlc : UpdateAddHtlc := ⟨ByteVec.fill 32 0, 1, 1000, ByteVec.fill 32 6, 1200, List.replicate 1366 0, []⟩

/-- `handle_update_add` for the client's message, and the offer of an incoming HTLC for a hook. -/
def racing : Bool → Body
  | true => (handleUpdateAdd .transparent openPeer racingHtlc).run
  | false => (channelHandleHtlcAddWithUpstreamExpiry .transparent openPeer underpaidHtlc.htlc (55, 7) 55 7 none
      (some 1200)).run

def racingUpdate : Bool → ChannelData → UncommittedUpdate → Prop
  | true, _, u => u = .ofRemote (.add racingHtlc)
  | false, d, u => u = .ofLocal (.add { underpaidHtlc.htlc with
      channelId := Host.transparent.channelId openPeer, id := nextHtlcId d })

def racingRecord : Bool → ChannelData → Prop
  | true, d => ∀ next, d.next .transparent = .ok next → racingHtlc.amountMsat ≤ next.remoteBalanceMsat
  | false, _ => True

theorem racing_appends (b : Bool) : Appends openPeer (racingUpdate b) (racingRecord b) (racing b) := by
  cases b with
  | true => exact appends_handleUpdateAdd racingHtlc
  | false => exact appends_channelHandleHtlcAdd underpaidHtlc.htlc 55 7 none (some 1200)

def completed : Body → Bool
  | .pure (.ok ()) => true
  | _ => false

theorem eq_ok_of_completed {x : Body} (h : completed x = true) : x = .pure (.ok ()) := by
  unfold completed at h
  split at h
  · rfl
  · cases h

/-- The hook starts after `n` calls of the handler. -/
def racingSchedule (n : Nat) : List (Bool × Choice) :=
  List.replicate n (true, .calm) ++ [(false, .calm)] ++ List.replicate 4 (true, .calm) ++ List.replicate 20 (false, .calm)

/-- The record before, whether both operations complete and write, and the record after. -/
def racingOutcome (n : Nat) : Option (ChannelData × Bool × ChannelData) :=
  match openWorld.channel openPeer, (Pool.run exec (racingSchedule n) ⟨racing, openWorld⟩).world.channel openPeer with
  | some d, some d' => some (d, [true, false].all fun b => completed ((Pool.run exec (racingSchedule n) ⟨racing, openWorld⟩).prog b) &&
      Pool.saw exec (writes openPeer) b (racingSchedule n) ⟨racing, openWorld⟩, d')
  | _, _ => none

theorem racingOutcome_eq {n : Nat} {d d' : ChannelData} (h : racingOutcome n = some (d, true, d')) :
    openWorld.channel openPeer = some d ∧ (Pool.run exec (racingSchedule n) ⟨racing, openWorld⟩).world.channel openPeer = some d' ∧
      (∀ b, (Pool.run exec (racingSchedule n) ⟨racing, openWorld⟩).prog b = .pure (.ok ())) ∧
      ∀ b, Pool.saw exec (writes openPeer) b (racingSchedule n) ⟨racing, openWorld⟩ = true := by
  unfold racingOutcome at h
  split at h
  · rename_i hd hd'
    simp only [List.all_cons, List.all_nil, Bool.and_true, Option.some.injEq, Prod.mk.injEq, Bool.and_eq_true] at h
    obtain ⟨rfl, ⟨⟨hc, hs⟩, hc', hs'⟩, rfl⟩ := h
    refine ⟨hd, hd', fun b => ?_, fun b => ?_⟩
    · cases b with
      | true => exact eq_ok_of_completed hc
      | false => exact eq_ok_of_completed hc'
    · cases b with
      | true => exact hs
      | false => exact hs'
  · cases h

/-- The hook starts when the handler has written. -/
theorem both_updates_kept_apart : ∃ d, openWorld.channel openPeer = some d ∧
    Serial racingUpdate d ((Pool.run exec (racingSchedule 4) ⟨racing, openWorld⟩).world.channel openPeer) := by
  have hrun : (racingOutcome 4).any (fun r => r.2.1 && decide (r.1.uncommitted = [] ∧
      (∀ next ∈ (r.1.next .transparent).toOption, racingHtlc.amountMsat ≤ next.remoteBalanceMsat) ∧
      (Pool.run exec (List.replicate 4 (true, .calm)) ⟨racing, openWorld⟩).world.channel openPeer ≠ some r.1 ∧
      ∀ next ∈ ((r.1.push (.ofLocal (.add { underpaidHtlc.htlc with
        channelId := Host.transparent.channelId openPeer, id := nextHtlcId r.1 }))).next .transparent).toOption,
        racingHtlc.amountMsat ≤ next.remoteBalanceMsat)) = true := by
    decide +kernel
  obtain ⟨⟨d, done, d'⟩, houtcome, hrun⟩ := exists_of_any hrun
  obtain ⟨rfl, hrun⟩ := Bool.and_eq_true_iff.mp hrun
  obtain ⟨-, hread, hchanged, hread'⟩ := of_decide_eq_true hrun
  obtain ⟨hd, -, hok, hs⟩ := racingOutcome_eq houtcome
  refine ⟨d, hd, ?_⟩
  refine (both_updates_kept_iff openPeer racingUpdate racingRecord racing racing_appends openWorld d hd ?_ ?_
    (racingSchedule 4) hok hs).mpr ⟨true, List.replicate 4 (true, .calm), ?_, ?_, hchanged⟩
  · intro b
    cases b with
    | true => exact fun next hn => hread next (by simp [hn, Except.toOption])
    | false => trivial
  · rintro b u hu
    cases b with
    | true => trivial
    | false =>
      obtain rfl := hu
      exact fun next hn => hread' next (by simp [hn, Except.toOption])
  · unfold racingSchedule
    rw [List.append_assoc, List.append_assoc]
    exact List.prefix_append _ _
  · intro x hx
    rw [List.eq_of_mem_replicate hx]

/-- The hook has read the record before the handler writes it, and then writes over it. -/
theorem racing_update_lost : ¬ ∀ (H : Host) (p : PublicKey) (F : Bool → ChannelData → UncommittedUpdate → Prop)
    (G : Bool → ChannelData → Prop) (op : Bool → Body) (w : World) (d : ChannelData) (s : List (Bool × Choice)),
    (∀ b, Appends p (F b) (G b) (op b)) → Reachable H Guard.free w → w.channel p = some d →
    (∀ b, (Pool.run exec s ⟨op, w⟩).prog b = .pure (.ok ())) →
    (∀ b, Pool.saw exec (writes p) b s ⟨op, w⟩ = true) → Serial F d ((Pool.run exec s ⟨op, w⟩).world.channel p) := by
  intro hall
  have hrun : (racingOutcome 0).any (fun r => r.2.1 && decide (r.2.2.uncommitted.length = r.1.uncommitted.length + 1)) = true := by
    decide +kernel
  obtain ⟨⟨d, done, d'⟩, houtcome, hrun⟩ := exists_of_any hrun
  obtain ⟨rfl, hrun⟩ := Bool.and_eq_true_iff.mp hrun
  obtain ⟨hd, hd', hok, hs⟩ := racingOutcome_eq houtcome
  have hserial : Serial racingUpdate d ((Pool.run exec (racingSchedule 0) ⟨racing, openWorld⟩).world.channel openPeer) :=
    hall .transparent openPeer racingUpdate racingRecord racing openWorld d (racingSchedule 0) racing_appends
      (calmRun_reachable _ _) hd hok hs
  rw [hd'] at hserial
  obtain ⟨_, u, v, -, -, hserial⟩ := hserial
  obtain rfl : d' = (d.push u).push v := Option.some.inj hserial
  have hlen := of_decide_eq_true hrun
  simp [ChannelData.push] at hlen

end Canopus
