import Canopus.Lib.Crowd
import Canopus.Theorems.Steps
import Canopus.Transparent

/-! One-time secrets. A secret is granted by a read, an update that compares generations, and a deletion, and its
    generation starts again from zero when it is added again. Still a secret is granted at most as often as it was
    added, however the calls that add, remove and consume it are interleaved: only an entry of generation zero is
    not consumed, only one update can find it, and only adding makes one. -/

namespace Canopus
open Effect

/-! ### The calls -/

/-- A call of the controller about a secret. -/
inductive SecretCall where
  | add (secret : String) (capacityMsat initialBalanceMsat : UInt64)
  | remove (secret : String)
  | consume (secret : Bytes)

/-- What it returns. -/
inductive SecretAnswer where
  | added (secret : Bytes)
  | removed
  | granted (secret : Bytes) (policy : ChannelPolicy)
  | refused

def SecretCall.answer (H : Host) : SecretCall → Ctl SecretAnswer
  | .add secret capacityMsat initialBalanceMsat => do
    addSecret secret capacityMsat initialBalanceMsat
    return .added ((hexDecode secret.toList).getD [])
  | .remove secret => do
    removeSecret secret
    return .removed
  | .consume secret => do
    match ← consumeSecret H secret with
    | some policy => return .granted secret policy
    | none => return .refused

def SecretCall.program (H : Host) (c : SecretCall) : Prog iface (Except ChannelError SecretAnswer) := (c.answer H).run

/-- The call added the secret, or was granted it. -/
def addedSecret (secret : Bytes) : Except ChannelError SecretAnswer → Bool
  | .ok (.added s) => s == secret
  | _ => false

def grantedSecret (secret : Bytes) : Except ChannelError SecretAnswer → Bool
  | .ok (.granted s _) => s == secret
  | _ => false

/-! ### The protocol of a secret -/

/-- How far a call has come with a secret: it has done nothing with it yet, it has read an entry that is not consumed,
    it has marked it as consumed, or it has added it. -/
inductive SecretPhase where
  | idle
  | read (generation : Nat)
  | paid
  | added
  deriving DecidableEq

/-- The calls that concern the secret. -/
def Call.touches (secret : Bytes) : Call → Prop
  | .create .secrets k _ | .update .secrets k _ _ | .get .secrets k => k = secret
  | _ => False

/-- What a call does with the secret in each phase. Deleting it is always allowed. -/
inductive SecretStep (secret : Bytes) : Protocol iface SecretPhase
  | other {ph : SecretPhase} {c : Call} {r : c.Ans} (hc : ¬ c.touches secret) (hph : ph ≠ .added) : SecretStep secret ph c r ph
  | found {s : ChannelSecret} {generation : Nat} (hs : s.consumed = false) :
    SecretStep secret .idle (.get .secrets secret) (.ok (s, generation)) (.read generation)
  | missed {r : Except StoreError (ChannelSecret × Nat)} : SecretStep secret .idle (.get .secrets secret) r .idle
  | marked {s : ChannelSecret} {generation : Nat} (hs : s.consumed = true) :
    SecretStep secret (.read generation) (.update .secrets secret s generation) (.ok ()) .paid
  | overtaken {s : ChannelSecret} {generation : Nat} {e : StoreError} :
    SecretStep secret (.read generation) (.update .secrets secret s generation) (.error e) .idle
  | created {s : ChannelSecret} (hs : s.consumed = false) :
    SecretStep secret .idle (.create .secrets secret s) (.ok ()) .added
  | refused {s : ChannelSecret} {e : StoreError} : SecretStep secret .idle (.create .secrets secret s) (.error e) .idle

/-- What a call in a phase may return. -/
def SecretReturn (secret : Bytes) (ph : SecretPhase) (r : Except ChannelError SecretAnswer) : Prop :=
  (grantedSecret secret r = true → ph = .paid) ∧ (ph = .added ↔ addedSecret secret r = true)

section
variable {H : Host} {secret key : Bytes} {ph : SecretPhase}

abbrev FollowsSecret {α : Type} (secret : Bytes) (x : Ctl α) (Q : SecretPhase → Except ChannelError α → Prop)
    (ph : SecretPhase) : Prop := Fallible.Follows (SecretStep secret) x Q ph

theorem follows_liftStore {α : Type} {r : Except StoreError α} {Q : SecretPhase → Except ChannelError α → Prop}
    (hok : ∀ a, r = .ok a → Q ph (.ok a)) (herror : ∀ e, r = .error e → Q ph (.error (.store e))) :
    FollowsSecret secret (liftStore r) Q ph := by
  cases r with
  | ok a => exact Fallible.Follows.pure (hok a rfl)
  | error e => exact Fallible.Follows.throw (herror e rfl)

/-- A call that does not concern the secret. -/
theorem follows_other {c : Call} {Q : SecretPhase → Except ChannelError c.Ans → Prop} (hc : ¬ c.touches secret)
    (hph : ph ≠ .added) (hQ : ∀ r, Q ph (.ok r)) : FollowsSecret secret (ask c) Q ph :=
  Fallible.Follows.ask fun r => ⟨ph, .other hc hph, hQ r⟩

theorem follows_effectivePolicy {Q : SecretPhase → Except ChannelError ChannelPolicy → Prop} (hph : ph ≠ .added)
    (hok : ∀ policy, Q ph (.ok policy)) (herror : ∀ e, Q ph (.error e)) :
    FollowsSecret secret (effectivePolicy H) Q ph := by
  unfold effectivePolicy
  refine Fallible.Follows.bind (follows_other (by simp [Call.touches]) hph ?_)
  rintro (e | ⟨policy, generation⟩)
  · cases e with
    | notFound => exact Fallible.Follows.pure (hok _)
    | generationMismatch | alreadyExists | backend => exact Fallible.Follows.throw (herror _)
  · exact Fallible.Follows.pure (hok _)

/-! ### Each call follows it -/

theorem follows_consumeSecret : FollowsSecret secret (consumeSecret H key)
    (fun ph r => (∀ policy, r = .ok (some policy) → key = secret → ph = .paid) ∧ ph ≠ .added) .idle := by
  unfold consumeSecret
  split_ifs with hlen
  · exact Fallible.Follows.pure ⟨by simp, by simp⟩
  · by_cases hkey : key = secret
    · subst hkey
      refine Fallible.Follows.bind (Fallible.Follows.ask ?_)
      rintro (e | ⟨s, generation⟩)
      · refine ⟨.idle, .missed, ?_⟩
        cases e with
        | notFound => exact Fallible.Follows.pure ⟨by simp, by simp⟩
        | generationMismatch | alreadyExists | backend => exact Fallible.Follows.throw ⟨by simp, by simp⟩
      · cases hs : s.consumed with
        | true =>
          refine ⟨.idle, .missed, ?_⟩
          dsimp only
          rw [if_pos hs]
          exact Fallible.Follows.pure ⟨by simp, by simp⟩
        | false =>
          refine ⟨.read generation, .found hs, ?_⟩
          dsimp only
          rw [if_neg (by simp [hs])]
          refine Fallible.Follows.bind (follows_effectivePolicy (by simp) (fun policy => ?_) fun e => ⟨by simp, by simp⟩)
          refine Fallible.Follows.bind (Fallible.Follows.ask ?_)
          rintro (e | ⟨⟩)
          · exact ⟨.idle, .overtaken, Fallible.Follows.bind (Fallible.Follows.throw ⟨by simp, by simp⟩)⟩
          · refine ⟨.paid, .marked rfl, Fallible.Follows.bind (Fallible.Follows.pure ?_)⟩
            refine Fallible.Follows.bind (follows_other (by simp [Call.touches]) (by simp) ?_)
            intro r
            refine Fallible.Follows.bind (follows_liftStore (fun _ _ => ?_) fun e _ => ⟨by simp, by simp⟩)
            exact Fallible.Follows.pure ⟨by simp, by simp⟩
    · -- A call about another secret.
      have hother : ∀ {ph : SecretPhase} {r : Except ChannelError (Option ChannelPolicy)}, ph = .idle →
          (∀ policy, r = .ok (some policy) → key = secret → ph = .paid) ∧ ph ≠ .added := by
        rintro _ r rfl
        exact ⟨fun _ _ h => absurd h hkey, by simp⟩
      refine Fallible.Follows.bind (follows_other (by simpa [Call.touches] using hkey) (by simp) ?_)
      rintro (e | ⟨s, generation⟩)
      · cases e with
        | notFound => exact Fallible.Follows.pure (hother rfl)
        | generationMismatch | alreadyExists | backend => exact Fallible.Follows.throw (hother rfl)
      · dsimp only
        split_ifs
        · exact Fallible.Follows.pure (hother rfl)
        · refine Fallible.Follows.bind (follows_effectivePolicy (by simp) (fun policy => ?_) fun e => hother rfl)
          refine Fallible.Follows.bind (follows_other (by simpa [Call.touches] using hkey) (by simp) fun r => ?_)
          refine Fallible.Follows.bind (follows_liftStore (fun _ _ => ?_) fun e _ => hother rfl)
          refine Fallible.Follows.bind (follows_other (by simp [Call.touches]) (by simp) fun r => ?_)
          refine Fallible.Follows.bind (follows_liftStore (fun _ _ => ?_) fun e _ => hother rfl)
          exact Fallible.Follows.pure (hother rfl)

theorem follows_parseSecretHex {text : String} {Q : SecretPhase → Except ChannelError Bytes → Prop}
    (hok : ∀ bytes, hexDecode text.toList = some bytes → Q ph (.ok bytes)) (herror : ∀ e, Q ph (.error e)) :
    FollowsSecret secret (parseSecretHex text) Q ph := by
  unfold parseSecretHex
  cases hbytes : hexDecode text.toList with
  | none => exact Fallible.Follows.throw (herror _)
  | some bytes =>
    dsimp only
    split_ifs
    · exact Fallible.Follows.pure (hok bytes hbytes)
    · exact Fallible.Follows.throw (herror _)

theorem follows_addSecret {text : String} {capacity initial : UInt64} :
    FollowsSecret secret (addSecret text capacity initial)
      (fun ph r => ph ≠ .paid ∧ (ph = .added ↔ r = .ok () ∧ (hexDecode text.toList).getD [] = secret)) .idle := by
  unfold addSecret
  refine Fallible.Follows.bind (follows_parseSecretHex (fun bytes hbytes => ?_) fun e => ⟨by simp, by simp⟩)
  by_cases hkey : bytes = secret
  · subst hkey
    refine Fallible.Follows.bind (Fallible.Follows.ask ?_)
    rintro (e | ⟨⟩)
    · refine ⟨.idle, .refused, ?_⟩
      cases e with
      | alreadyExists => exact Fallible.Follows.throw ⟨by simp, by simp⟩
      | notFound | generationMismatch | backend => exact Fallible.Follows.throw ⟨by simp, by simp⟩
    · exact ⟨.added, .created rfl, Fallible.Follows.pure ⟨by simp, by simp [hbytes]⟩⟩
  · refine Fallible.Follows.bind (follows_other (by simpa [Call.touches] using hkey) (by simp) ?_)
    rintro (e | ⟨⟩)
    · cases e with
      | alreadyExists => exact Fallible.Follows.throw ⟨by simp, by simp⟩
      | notFound | generationMismatch | backend => exact Fallible.Follows.throw ⟨by simp, by simp⟩
    · exact Fallible.Follows.pure ⟨by simp, by simp [hbytes, hkey]⟩

theorem follows_removeSecret {text : String} :
    FollowsSecret secret (removeSecret text) (fun ph _ => ph = .idle) .idle := by
  unfold removeSecret
  refine Fallible.Follows.bind (follows_parseSecretHex (fun bytes _ => ?_) fun e => rfl)
  refine Fallible.Follows.bind (follows_other (by simp [Call.touches]) (by simp) fun r => ?_)
  exact follows_liftStore (fun _ _ => rfl) fun _ _ => rfl

/-- Every call follows the protocol of every secret. -/
theorem follows_answer (c : SecretCall) : FollowsSecret secret (c.answer H) (SecretReturn secret) .idle := by
  cases c with
  | add text capacity initial =>
    refine Fallible.Follows.bind (follows_addSecret.mono ?_)
    rintro ph (e | ⟨⟩) ⟨-, hadded⟩
    · exact ⟨by simp [grantedSecret], by simp [hadded, addedSecret]⟩
    · exact Fallible.Follows.pure ⟨by simp [grantedSecret], by simp [hadded, addedSecret]⟩
  | remove text =>
    refine Fallible.Follows.bind (follows_removeSecret.mono ?_)
    rintro ph (e | ⟨⟩) rfl
    · exact ⟨by simp [grantedSecret], by simp [addedSecret]⟩
    · exact Fallible.Follows.pure ⟨by simp [grantedSecret], by simp [addedSecret]⟩
  | consume key =>
    refine Fallible.Follows.bind (follows_consumeSecret.mono ?_)
    rintro ph (e | _ | policy) ⟨hpaid, hph⟩
    · exact ⟨by simp [grantedSecret], by simp [addedSecret, hph]⟩
    · exact Fallible.Follows.pure ⟨by simp [grantedSecret], by simp [addedSecret, hph]⟩
    · refine Fallible.Follows.pure ⟨?_, by simp [addedSecret, hph]⟩
      intro h
      exact hpaid policy rfl (by simpa [grantedSecret] using h)

end

/-! ### What the calls keep -/

/-- Whether the entry of a secret can still be granted: one that is not consumed has generation zero. -/
def World.grantable (secret : Bytes) (w : World) : Nat :=
  match (w.store .secrets).lookup secret with
  | some (0, _) => 1
  | _ => 0

/-- What has been granted, and what can still be, has been added. -/
structure SecretsCounted (secret : Bytes) (phs : List SecretPhase) (w : World) : Prop where
  fresh : ∀ {generation : Nat} {s : ChannelSecret}, (w.store .secrets).lookup secret = some (generation, s) →
    s.consumed = false → generation = 0
  read : ∀ {generation : Nat}, .read generation ∈ phs → generation = 0
  counted : phs.countP (· = .paid) + w.grantable secret ≤ phs.countP (· = .added)

section
variable {secret : Bytes} {w w' : World} {phs : List SecretPhase} {ph ph' : SecretPhase} {i : Nat}

theorem entry_put_other {n : Ns} {k : n.Key} {v : n.Val} (h : ¬ (Call.create n k v).touches secret) :
    ((w.put n k v).store .secrets).lookup secret = (w.store .secrets).lookup secret := by
  cases n with
  | secrets =>
    rw [World.put_store_self]
    exact Table.lookup_put_ne (Ne.symm h)
  | channels | htlcForwards | policy | metadata | ledger | ledgerEventIds =>
    rw [World.put_store_ne (by decide)]

theorem entry_erase {n : Ns} {k : n.Key} :
    ((w.erase n k).store .secrets).lookup secret = (w.store .secrets).lookup secret ∨
    ((w.erase n k).store .secrets).lookup secret = none := by
  cases n with
  | secrets =>
    rw [World.erase_store_self]
    by_cases hk : secret = k
    · subst hk
      exact Or.inr Table.lookup_erase
    · exact Or.inl (Table.lookup_erase_ne hk)
  | channels | htlcForwards | policy | metadata | ledger | ledgerEventIds =>
    exact Or.inl (by rw [World.erase_store_ne (by decide)])

/-- A call that does not concern the secret leaves its entry, or deletes it. -/
theorem secret_entry_kept (x : Choice) {c : Call} (hc : ¬ c.touches secret) (w : World) :
    ((exec x c w).2.store .secrets).lookup secret = (w.store .secrets).lookup secret ∨
    ((exec x c w).2.store .secrets).lookup secret = none := by
  by_cases hreads : c.reads = true
  · exact Or.inl (by rw [exec_reads x w hreads])
  · cases c with
    | create n k v =>
      refine Or.inl ?_
      cases hr : (exec x (.create n k v) w).1 with
      | error e => rw [exec_create_error hr]
      | ok u =>
        rw [(exec_create_ok hr).2]
        exact entry_put_other hc
    | update n k v generation =>
      refine Or.inl ?_
      cases hr : (exec x (.update n k v generation) w).1 with
      | error e => rw [exec_update_error hr]
      | ok u =>
        obtain ⟨_, -, hw⟩ := exec_update_ok hr
        rw [hw]
        refine entry_put_other fun h => hc ?_
        cases n <;> exact h
    | delete n k =>
      simp only [exec]
      split
      · exact Or.inl rfl
      · exact entry_erase
    | sendCustomMsg | sendOnion | resolveHtlc | storePreimage =>
      refine Or.inl ?_
      simp only [exec]
      split <;> rfl
    | notePeerConnection | noteWireEncoding | forgetWireEncoding | noteSigned => exact Or.inl rfl
    | _ => exact absurd rfl hreads

theorem grantable_of_missing (h : (w.store .secrets).lookup secret = none) : w.grantable secret = 0 := by
  unfold World.grantable
  rw [h]

theorem grantable_of_entry {g : Nat} {s : ChannelSecret} (h : (w.store .secrets).lookup secret = some (g, s)) :
    w.grantable secret = if g = 0 then 1 else 0 := by
  unfold World.grantable
  rw [h]
  cases g <;> rfl

/-- The count of a phase when one program moves from a phase to another. -/
theorem countP_phase_set (ph' : SecretPhase) (phase : SecretPhase → Bool) (hph : phs[i]? = some ph) :
    (phs.set i ph').countP phase + (if phase ph then 1 else 0) = phs.countP phase + (if phase ph' then 1 else 0) := by
  obtain ⟨hi, rfl⟩ := List.getElem?_eq_some_iff.mp hph
  have hle := List.boole_getElem_le_countP (p := phase) hi
  rw [List.countP_set hi]
  omega

theorem mem_phase_set {g : Nat} (h : .read g ∈ phs.set i ph') : .read g ∈ phs ∨ ph' = .read g := by
  rcases List.mem_or_eq_of_mem_set h with h | h
  · exact Or.inl h
  · exact Or.inr h.symm

/-- A move that neither pays nor adds, and keeps or deletes the entry. -/
theorem SecretsCounted.keeps (hc : SecretsCounted secret phs w) (hph : phs[i]? = some ph)
    (hkept : (w'.store .secrets).lookup secret = (w.store .secrets).lookup secret ∨
      (w'.store .secrets).lookup secret = none)
    (hpaid : ph' = .paid ↔ ph = .paid) (hadded : ph' = .added ↔ ph = .added)
    (hread : ∀ {g}, ph' = .read g → g = 0) : SecretsCounted secret (phs.set i ph') w' where
  fresh := by
    intro g s hentry hs
    rcases hkept with hkept | hkept
    · exact hc.fresh (hkept.symm.trans hentry) hs
    · rw [hkept] at hentry
      cases hentry
  read := by
    intro g hg
    rcases mem_phase_set hg with hg | hg
    · exact hc.read hg
    · exact hread hg
  counted := by
    have hgrantable : w'.grantable secret ≤ w.grantable secret := by
      unfold World.grantable
      rcases hkept with hkept | hkept
      · rw [hkept]
      · rw [hkept]
        exact Nat.zero_le _
    have h₁ := countP_phase_set ph' (· = .paid) hph
    have h₂ := countP_phase_set ph' (· = .added) hph
    have h₃ := hc.counted
    simp only [decide_eq_true_eq, hpaid, hadded] at h₁ h₂
    omega

/-- One call of a program that follows the protocol. -/
theorem SecretsCounted.step (hc : SecretsCounted secret phs w) (hph : phs[i]? = some ph) {x : Choice} {c : Call}
    (h : SecretStep secret ph c (exec x c w).1 ph') : SecretsCounted secret (phs.set i ph') (exec x c w).2 := by
  generalize hr : (exec x c w).1 = r at h
  cases h with
  | other htouches hadded =>
    refine hc.keeps hph (secret_entry_kept x htouches w) Iff.rfl Iff.rfl ?_
    rintro g rfl
    exact hc.read (List.mem_of_getElem? hph)
  | @found s g hs =>
    rw [exec_reads x w rfl]
    refine hc.keeps hph (Or.inl rfl) (by simp) (by simp) ?_
    rintro g' h
    cases h
    exact hc.fresh (exec_get_ok hr) hs
  | missed =>
    rw [exec_reads x w rfl]
    exact hc.keeps hph (Or.inl rfl) Iff.rfl Iff.rfl (by simp)
  | overtaken =>
    rw [exec_update_error hr]
    exact hc.keeps hph (Or.inl rfl) (by simp) (by simp) (by simp)
  | refused =>
    rw [exec_create_error hr]
    exact hc.keeps hph (Or.inl rfl) Iff.rfl Iff.rfl (by simp)
  | @marked s g hs =>
    -- The generation that was read is zero, so that the entry was the one that could be granted.
    obtain rfl := hc.read (List.mem_of_getElem? hph)
    obtain ⟨u, hentry, hw⟩ := exec_update_ok hr
    have hentry' : ((w.put .secrets secret s).store .secrets).lookup secret = some (1, s) := by
      rw [World.put_store_self]
      exact Table.lookup_put_next hentry
    rw [hw]
    refine ⟨?_, ?_, ?_⟩
    · intro g s' hs' hconsumed
      obtain ⟨rfl, rfl⟩ := Prod.mk.inj (Option.some.inj (hentry'.symm.trans hs'))
      rw [hs] at hconsumed
      cases hconsumed
    · intro g hg
      rcases mem_phase_set hg with hg | hg
      · exact hc.read hg
      · cases hg
    · have hbefore := grantable_of_entry hentry
      have hafter := grantable_of_entry hentry'
      have h₁ := countP_phase_set .paid (· = .paid) hph
      have h₂ := countP_phase_set .paid (· = .added) hph
      have h₃ := hc.counted
      simp at h₁ h₂ hbefore hafter
      omega
  | @created s hs =>
    obtain ⟨hentry, hw⟩ := exec_create_ok hr
    have hentry' : ((w.put .secrets secret s).store .secrets).lookup secret = some (0, s) := by
      rw [World.put_store_self]
      exact Table.lookup_put_new hentry
    rw [hw]
    refine ⟨?_, ?_, ?_⟩
    · intro g s' hs' _
      exact (Prod.mk.inj (Option.some.inj (hentry'.symm.trans hs'))).1.symm
    · intro g hg
      rcases mem_phase_set hg with hg | hg
      · exact hc.read hg
      · cases hg
    · have hbefore := grantable_of_missing hentry
      have hafter := grantable_of_entry hentry'
      have h₁ := countP_phase_set .added (· = .paid) hph
      have h₂ := countP_phase_set .added (· = .added) hph
      have h₃ := hc.counted
      simp at h₁ h₂ hafter
      omega

end

/-! ### A run -/

/-- Calls that start together on a world. -/
def secretCrowd (H : Host) (calls : List SecretCall) (w : World) : Crowd iface (Except ChannelError SecretAnswer) World :=
  ⟨calls.map (·.program H), w⟩

theorem secretCrowd_follows {H : Host} {secret : Bytes} (calls : List SecretCall) (w : World) :
    (secretCrowd H calls w).Follows (SecretStep secret) (SecretReturn secret)
      (List.replicate calls.length .idle) := by
  show List.Forall₂ _ (calls.map (·.program H)) _
  induction calls with
  | nil => exact .nil
  | cons c calls ih => exact .cons (follows_answer c) ih

/-- A secret is granted at most as often as it is added, in every interleaving of any number of calls. -/
theorem secret_grants_le_adds (H : Host) (calls : List SecretCall) (secret : Bytes) (w : World)
    (hw : (w.store .secrets).lookup secret = none) (schedule : List (Nat × Choice)) :
    (Crowd.run exec schedule (secretCrowd H calls w)).returned (grantedSecret secret) ≤
      (Crowd.run exec schedule (secretCrowd H calls w)).returned (addedSecret secret) := by
  have hstart : SecretsCounted secret (List.replicate calls.length .idle) w := by
    refine ⟨?_, ?_, ?_⟩
    · intro g s hentry
      rw [hw] at hentry
      cases hentry
    · intro g hg
      cases List.eq_of_mem_replicate hg
    · rw [World.grantable, hw, List.countP_replicate]
      simp
  have hstep : ∀ phs w i ph c x ph', phs[i]? = some ph → SecretsCounted secret phs w →
      SecretStep secret ph c (exec x c w).1 ph' → SecretsCounted secret (phs.set i ph') (exec x c w).2 :=
    fun _ _ _ _ _ _ _ hph hc h => hc.step hph h
  obtain ⟨phs, hfollows, hcounted⟩ := Crowd.run_keeps hstep schedule (secretCrowd_follows calls w) hstart
  generalize Crowd.run exec schedule (secretCrowd H calls w) = s at hfollows hcounted ⊢
  have hgranted : s.returned (grantedSecret secret) ≤ phs.countP (· = .paid) := by
    refine Crowd.returned_le hfollows ?_
    intro ph r hr hgranted
    exact decide_eq_true (hr.1 hgranted)
  have hadded : phs.countP (· = .added) ≤ s.returned (addedSecret secret) := by
    refine Crowd.count_le_returned hfollows ?_ (fun c => ⟨(exec .calm c w).1⟩) ?_
    · intro ph c r ph' hph h
      obtain rfl := of_decide_eq_true hph
      cases h with
      | other _ hph' => exact hph' rfl
    · intro ph r hr hph
      exact hr.2.mp (of_decide_eq_true hph)
  have hcount := hcounted.counted
  omega

/-- Two clients that present the same secret, which is added once. -/
def secretRace : List SecretCall :=
  [.add (String.ofList (List.replicate 64 '0')) 1000 0, .consume (List.replicate 32 0), .consume (List.replicate 32 0)]

theorem secret_grants_le_adds_race :
    (Crowd.run exec ([0, 1, 2, 1, 1, 1, 2, 2].map (·, .calm)) (secretCrowd .transparent secretRace .empty)).returned
      (grantedSecret (List.replicate 32 0)) = 1 ∧
    (Crowd.run exec ([0, 1, 2, 1, 1, 1, 2, 2].map (·, .calm)) (secretCrowd .transparent secretRace .empty)).returned
      (grantedSecret (List.replicate 32 0)) ≤
    (Crowd.run exec ([0, 1, 2, 1, 1, 1, 2, 2].map (·, .calm)) (secretCrowd .transparent secretRace .empty)).returned
      (addedSecret (List.replicate 32 0)) :=
  ⟨by decide +kernel, secret_grants_le_adds .transparent secretRace (List.replicate 32 0) .empty rfl _⟩

end Canopus
