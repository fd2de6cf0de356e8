import Canopus.Theorems.Crashes
import Canopus.Theorems.OperationContracts
import Canopus.Theorems.Overflow
import Canopus.Theorems.Overrides

/-! Operations at the same time. The plugin serves every hook, message and command in a task of its own, and no lock
    is held across the calls of one. So an operation may find the store changed between any two of its calls, and a
    crash may cut all of them short. What the programs guarantee one call at a time holds all the same: an operation
    may undo what another one has written, but whatever is stored was computed from what had been stored. -/

namespace Canopus
open Effect StateManager

variable {H : Host} {B : Pledge} {P : World → Op → Prop} {w w' : World} {p : PublicKey} {d d' : ChannelData} {c : Change}
  {s : Crowd iface (Except ChannelError Unit) World}

/-- The lives of the controller whose operations, which meet `P` when they start, run at the same time. -/
def Concurrent (H : Host) (P : World → Op → Prop) : Crowd iface (Except ChannelError Unit) World → Prop :=
  Crowd.Lives exec (fun w x => ∃ op, P w op ∧ x = (op.program H).run) World.restart World.empty

/-! ### What is stored and signed -/

/-- The records and the terms in the store are as pledged. -/
structure SoundBooks (B : Pledge) (w : World) : Prop where
  records : ∀ p d, w.channel p = some d → B.record p d
  secrets : ∀ k s, (w.store .secrets).value? k = some s → B.terms s.initialBalanceMsat s.capacityMsat
  policy : ∀ k policy, (w.store .policy).value? k = some policy →
    B.terms policy.initialClientBalanceMsat policy.channelCapacityMsat

theorem SoundBooks.of_store (h : SoundBooks B w) (hs : w'.store = w.store) : SoundBooks B w' where
  records p d hd := h.records p d (by rwa [World.channel, hs] at hd)
  secrets k s hk := h.secrets k s (by rwa [hs] at hk)
  policy k policy hk := h.policy k policy (by rwa [hs] at hk)

theorem SoundBooks.put {n : Ns} {k : n.Key} {v : n.Val} (h : SoundBooks B w)
    (hv : (bookkeeping B).guar (.create n k v)) : SoundBooks B (w.put n k v) := by
  constructor
  case records =>
    intro p d hd
    cases n with
    | channels =>
      by_cases he : p = k
      · subst he
        obtain rfl := Option.some.inj (World.channel_put.symm.trans hd)
        exact hv
      · rw [World.channel_put_ne he] at hd
        exact h.records p d hd
    | _ =>
      rw [World.channel, World.put_store_ne (by decide)] at hd
      exact h.records p d hd
  case secrets =>
    intro key s hs
    cases n with
    | secrets =>
      rw [World.put_store_self] at hs
      by_cases he : key = k
      · subst he
        obtain rfl := Option.some.inj (Table.value?_put.symm.trans hs)
        exact hv
      · rw [Table.value?_put_ne he] at hs
        exact h.secrets key s hs
    | _ =>
      rw [World.put_store_ne (by decide)] at hs
      exact h.secrets key s hs
  case policy =>
    intro key policy hp
    cases n with
    | policy =>
      rw [World.put_store_self] at hp
      obtain rfl := Option.some.inj (Table.value?_put.symm.trans hp)
      exact hv
    | _ =>
      rw [World.put_store_ne (by decide)] at hp
      exact h.policy key policy hp

theorem SoundBooks.erase {n : Ns} {k : n.Key} (h : SoundBooks B w) : SoundBooks B (w.erase n k) := by
  have stays {m : Ns} {key : m.Key} {v : m.Val} (hv : ((w.erase n k).store m).value? key = some v) :
      (w.store m).value? key = some v := by
    by_cases hm : m = n
    · subst hm
      rw [World.erase_store_self] at hv
      by_cases he : key = k
      · subst he
        cases Table.value?_erase.symm.trans hv
      · rwa [Table.value?_erase_ne he] at hv
    · rwa [World.erase_store_ne hm] at hv
  exact ⟨fun p d hd => h.records p d (stays hd), fun key s hs => h.secrets key s (stays hs),
    fun key policy hp => h.policy key policy (stays hp)⟩

/-- All that is stored, signed and given away is as pledged. -/
structure InBooks (B : Pledge) (w : World) : Prop where
  books : SoundBooks B w
  signed : ∀ p s, (p, s) ∈ w.signed → B.state p s
  known : ∀ hash preimage, w.preimages.lookup hash = some preimage → B.preimage preimage
  told : ∀ x ∈ w.sent, ∀ preimage ∈ x.2.preimages, B.preimage preimage
  resolved : ∀ x ∈ w.resolutions, ∀ preimage ∈ x.2.preimages, B.preimage preimage

theorem inBooks_empty : InBooks B World.empty where
  books := ⟨fun _ _ h => (by cases h), fun _ _ h => (by cases h), fun _ _ h => by cases h⟩
  signed _ _ h := by cases h
  known _ _ h := by cases h
  told _ h := by cases h
  resolved _ h := by cases h

theorem InBooks.restart (h : InBooks B w) : InBooks B w.restart :=
  ⟨h.books.of_store rfl, h.signed, h.known, h.told, h.resolved⟩

/-! ### What the node has stored -/

/-- The world, with all preimages that the node has stored so far. -/
structure Storing where
  world : World
  stored : List (ByteVec 32)

/-- The preimage that a call has the node store. -/
def Call.stores (x : Choice) : Call → List (ByteVec 32)
  | .storePreimage _ preimage => if x.fails then [] else [preimage]
  | _ => []

def execStoring (x : Choice) (c : Call) (v : Storing) : c.Ans × Storing :=
  ((exec x c v.world).1, ⟨(exec x c v.world).2, v.stored ++ c.stores x⟩)

/-- The lives of the controller, with what the node stores on the way. -/
def ConcurrentStoring (H : Host) (P : World → Op → Prop) : Crowd iface (Except ChannelError Unit) Storing → Prop :=
  Crowd.Lives execStoring (fun v x => ∃ op, P v.world op ∧ x = (op.program H).run)
    (fun v => ⟨v.world.restart, v.stored⟩) ⟨World.empty, []⟩

theorem Concurrent.storing (hs : Concurrent H P s) :
    ∃ v, v.world = s.world ∧ ConcurrentStoring H P ⟨s.progs, v⟩ :=
  Crowd.Lives.noting Storing.world hs rfl (fun _ => rfl) fun _ _ _ => ⟨rfl, rfl⟩

/-- The world vouches for what is read, and what is written keeps it so, as far as preimages that have been stored are
    as pledged. -/
theorem inBooks_upholds (B : Pledge) : Crowd.Upholds execStoring (bookkeeping B)
    (fun v => ∀ preimage ∈ v.stored, B.preimage preimage) fun v => InBooks B v.world where
  before x c v h preimage hmem := h preimage (List.mem_append_left _ hmem)
  answers x c v hg h := by
    cases c with
    | get n k =>
      cases n with
      | channels => exact fun d g hr => h.books.records k d (Table.value?_of_entry (exec_get_ok hr))
      | secrets => exact fun s g hr => h.books.secrets k s (Table.value?_of_entry (exec_get_ok hr))
      | policy => exact fun policy g hr => h.books.policy k policy (Table.value?_of_entry (exec_get_ok hr))
      | _ => trivial
    | storePreimage hash preimage =>
      intro hr
      have hr : (exec x (.storePreimage hash preimage) v.world).1 = .ok () := hr
      refine hg preimage (List.mem_append_right _ ?_)
      simp only [exec] at hr
      split at hr
      · cases hr
      · rename_i hfails
        simp [Call.stores, hfails]
    | lookupPreimage hash =>
      intro preimage hr
      have hr : (exec x (.lookupPreimage hash) v.world).1 = .ok (some preimage) := hr
      simp only [exec] at hr
      split at hr
      · cases hr
      · exact h.known hash preimage (Except.ok.inj hr)
    | _ => trivial
  keeps x c v hg h hc := by
    show InBooks B (exec x c v.world).2
    cases c with
    | create n k d =>
      rcases @exec_create_world n k d x v.world with he | ⟨-, he⟩
      · rw [he]
        exact h
      · rw [he]
        exact ⟨h.books.put hc, h.signed, h.known, h.told, h.resolved⟩
    | update n k d generation =>
      have hv : (bookkeeping B).guar (.create n k d) := by
        cases n <;> exact hc
      rcases @exec_update_world n k d generation x v.world with he | ⟨-, he⟩
      · rw [he]
        exact h
      · rw [he]
        exact ⟨h.books.put hv, h.signed, h.known, h.told, h.resolved⟩
    | delete n k =>
      rcases @exec_delete_world n k x v.world with he | he
      · rw [he]
        exact h
      · rw [he]
        exact ⟨h.books.erase, h.signed, h.known, h.told, h.resolved⟩
    | noteSigned p s =>
      refine ⟨h.books.of_store rfl, ?_, h.known, h.told, h.resolved⟩
      intro q t hmem
      rcases List.mem_append.mp hmem with hmem | hmem
      · exact h.signed q t hmem
      · obtain ⟨rfl, rfl⟩ := Prod.mk.inj (List.mem_singleton.mp hmem)
        exact hc
    | storePreimage hash preimage =>
      have hnew : x.fails = false → B.preimage preimage := by
        intro hfails
        exact hg preimage (List.mem_append_right _ (by simp [Call.stores, hfails]))
      simp only [exec]
      split
      · exact h
      · rename_i hfails
        refine ⟨h.books.of_store rfl, h.signed, ?_, h.told, h.resolved⟩
        intro hash' preimage' hp
        by_cases he : hash' = hash
        · subst he
          obtain rfl := Option.some.inj ((AList.lookup_insert _).symm.trans hp)
          exact hnew (Bool.eq_false_iff.mpr hfails)
        · exact h.known hash' preimage' ((AList.lookup_insert_ne he).symm.trans hp)
    | sendCustomMsg p e msg =>
      simp only [exec]
      split
      · exact h
      · refine ⟨h.books.of_store rfl, h.signed, h.known, ?_, h.resolved⟩
        intro y hmem
        rcases List.mem_append.mp hmem with hmem | hmem
        · exact h.told y hmem
        · obtain rfl := List.mem_singleton.mp hmem
          exact hc
    | resolveHtlc key resolution =>
      simp only [exec]
      split
      · exact h
      · refine ⟨h.books.of_store rfl, h.signed, h.known, h.told, ?_⟩
        intro y hmem
        rcases List.mem_append.mp hmem with hmem | hmem
        · exact h.resolved y hmem
        · obtain rfl := List.mem_singleton.mp hmem
          exact hc
    | sendOnion =>
      simp only [exec]
      split
      · exact h
      · exact ⟨h.books.of_store rfl, h.signed, h.known, h.told, h.resolved⟩
    | get | existsKey | listChannels | listForwardScids | listForwards | inspectOutgoingPayment | getBlockHeight
    | lookupPreimage | systemTime | sessionKey | peerConnection | peerWireEncoding =>
      rw [exec_reads x v.world rfl]
      exact h
    | notePeerConnection | noteWireEncoding | forgetWireEncoding =>
      exact ⟨h.books.of_store rfl, h.signed, h.known, h.told, h.resolved⟩

/-- Whatever runs at the same time, and whenever it is cut short, all that is stored, signed and given away is as
    pledged, if all preimages that the node has stored are. -/
theorem ConcurrentStoring.inBooks {s : Crowd iface (Except ChannelError Unit) Storing} (hs : ConcurrentStoring H P s)
    (hL : Lasting H B) (hP : ∀ w op, InBooks B w → P w op → op.brings B H)
    (hg : ∀ preimage ∈ s.world.stored, B.preimage preimage) : InBooks B s.world.world := by
  refine (Crowd.Lives.inOrder hs (inBooks_upholds B) inBooks_empty ?_ (fun _ h => h) (fun _ h => h.restart) hg).world
  rintro v x hv ⟨op, hop, rfl⟩
  exact (orderly_program hL (hP v.world op hv hop)).run

theorem Concurrent.inBooks (hs : Concurrent H P s) (hL : Lasting H B)
    (hP : ∀ w op, InBooks B w → P w op → op.brings B H) (hg : ∀ preimage, B.preimage preimage) : InBooks B s.world := by
  obtain ⟨v, hv, hs⟩ := hs.storing
  have h := hs.inBooks hL hP fun preimage _ => hg preimage
  rwa [hv] at h

/-- Where nothing is asked of states and terms, operations may bring what they like. -/
theorem Op.brings_free (op : Op) (hstate : ∀ q s, B.state q s) (hterms : ∀ initial capacity, B.terms initial capacity) :
    op.brings B H := by
  cases op with
  | message peer e msg =>
    cases msg with
    | lastCrossSignedState m => exact fun _ => ⟨peer, m.reverse, hstate _ _, by constructor <;> rfl⟩
    | _ => trivial
  | addSecret => exact hterms _ _
  | _ => trivial

/-- Runs of one operation after the other, with crashes or without, are among the lives. -/
theorem CrashReachable.concurrent (h : CrashReachable H P w) : ∃ progs, Concurrent H P ⟨progs, w⟩ := by
  induction h with
  | start => exact ⟨[], .boot⟩
  | @step w op o _ hop ih =>
    obtain ⟨progs, hs⟩ := ih
    cases op with
    | restart => exact ⟨[], hs.halt⟩
    | _ => exact Crowd.Lives.run hs ⟨_, hop, rfl⟩ o
  | @crash w op o n _ hop ih =>
    obtain ⟨progs, hs⟩ := ih
    obtain ⟨progs', hs'⟩ := (hs.launch ⟨op, hop, rfl⟩).after n o
    exact ⟨[], hs'.halt⟩

/-! ### No promise above the capacity -/

/-- The state of the record, and the one that may replace it, promise no more than the capacity of the channel. -/
structure Affordable (d : ChannelData) : Prop where
  lcss : WithinCapacity d.lcss
  proposal : ∀ s, d.proposedOverride = some s → WithinCapacity s

def affordable : Pledge where
  record _ d := Affordable d
  state _ s := WithinCapacity s
  terms initial capacity := initial ≤ capacity
  preimage _ := True

theorem Affordable.changes (h : Affordable d) (hc : Changes H p c d d')
    (hm : ∀ m, c = .adopted m → WithinCapacity m.reverse) : Affordable d' := by
  cases hc with
  | established _ _ hl => exact ⟨(SignedAlike.sign hl).within h.lcss.opened, h.proposal⟩
  | @committed _ m next _ _ _ hn _ hl =>
    have hwithin : WithinCapacity next := h.lcss.next hn
    exact ⟨(SignedAlike.sign hl).within (t := proposedNext next m) hwithin, h.proposal⟩
  | @overridden _ m proposed _ _ hp _ hl =>
    have hwithin : WithinCapacity proposed := h.proposal _ hp
    refine ⟨?_, fun s hs => by cases hs⟩
    exact (SignedAlike.sign hl).within (t := { proposed with remoteSigOfLocal := m.localSigOfRemote }) hwithin
  | errored _ hd =>
    subst hd
    exact ⟨h.lcss, h.proposal⟩
  | resized _ _ _ _ _ _ hb hl => exact ⟨(SignedAlike.sign hl).within (h.lcss.resized hb), h.proposal⟩
  | proposed hd hb hl =>
    subst hd
    refine ⟨h.lcss, ?_⟩
    rintro s ⟨⟩
    exact (SignedAlike.sign hl).within (balanced_override hb).within
  | adopted => exact ⟨hm _ rfl, h.proposal⟩
  | _ => exact ⟨h.lcss, h.proposal⟩

theorem Affordable.signs {s : LastCrossSignedState} (h : Affordable d) (hd : w.channel p = some d) (hs : Signs H w p s) :
    WithinCapacity s := by
  have same {d'} (hd' : w.channel p = some d') : d' = d := Option.some.inj (hd'.symm.trans hd)
  cases hs with
  | @next us d' next _ day sig hd' _ hn hs =>
    have hwithin : WithinCapacity next := (same hd' ▸ h).lcss.next hn
    exact (SignedAlike.sign hs).within (t := { next with blockDay := day, remoteSigOfLocal := sig }) hwithin
  | opened hd' _ hs => exact (SignedAlike.sign hs).within (same hd' ▸ h).lcss.opened
  | @overridden d' proposed _ sig hd' hp hs =>
    have hwithin : WithinCapacity proposed := (same hd' ▸ h).proposal _ hp
    exact (SignedAlike.sign hs).within (t := { proposed with remoteSigOfLocal := sig }) hwithin
  | proposed _ hb hs => exact (SignedAlike.sign hs).within (balanced_override hb).within
  | resized hd' _ hb hs => exact (SignedAlike.sign hs).within ((same hd' ▸ h).lcss.resized hb)

theorem lasting_affordable (hpolicy : H.config.policy.initialClientBalanceMsat ≤ H.config.policy.channelCapacityMsat) :
    Lasting H affordable where
  config := hpolicy
  fair _ _ h := h
  created _ _ _ h := ⟨(balanced_initial h).within, fun s hs => by cases hs⟩
  changes p c d d' h hc hb := by
    refine h.changes hc ?_
    rintro m rfl
    obtain ⟨q, s, hs, halike⟩ := hb
    exact halike.within hs
  signs w p d s h hd hs := h.signs hd hs
  replays _ _ _ _ _ _ _ := trivial

/-- Nobody presents a state with the host's signature that the host has not signed, and no secret grants a balance
    above its capacity. -/
def Op.honest (H : Host) (w : World) : Op → Prop
  | .message _ _ (.lastCrossSignedState m) =>
    m.verifyRemoteSig H.crypto H.nodePublic = true → ∃ q s, (q, s) ∈ w.signed ∧ SignedAlike m.reverse s
  | .addSecret _ capacity initial => initial ≤ capacity
  | _ => True

theorem Op.honest.brings {op : Op} (h : InBooks affordable w) (hop : op.honest H w) : op.brings affordable H := by
  cases op with
  | message peer e msg =>
    cases msg with
    | lastCrossSignedState m =>
      intro hv
      obtain ⟨q, s, hmem, halike⟩ := hop hv
      exact ⟨q, s, h.signed q s hmem, halike⟩
    | _ => trivial
  | addSecret => exact hop
  | _ => trivial

/-- The client fulfils and fails one HTLC at the same time. -/
def contradicting : List Op :=
  [clientFulfills openKey 1 (ByteVec.fill 32 5) World.empty, clientFails openKey 1 World.empty]

/-- The two operations have made forty calls in turn, after a restart. -/
def contradicted : Crowd iface (Except ChannelError Unit) World :=
  Crowd.run exec ((List.range 40).map fun n => (n % 2, .calm))
    ⟨contradicting.map fun op => (op.program .transparent).run, (calmRun .transparent settlementScript).restart⟩

theorem concurrent_contradicted : Concurrent .transparent (Op.honest .transparent) contradicted := by
  have hw : Reachable .transparent (Guard.ofOp (Op.honest .transparent)) (calmRun .transparent settlementScript) := by
    have hcommit (w : World) : (clientCommits .transparent openKey w).honest .transparent w := by
      rcases clientCommits_cases .transparent openKey w with h | ⟨m, h⟩
      · rw [h]
        trivial
      · rw [h]
        trivial
    refine calmRun_follows (Guard.ofOp_follows ?_ _)
    intro op hop w
    simp only [settlementScript, openScript, List.cons_append, List.nil_append, List.mem_cons, List.not_mem_nil,
      or_false] at hop
    rcases hop with rfl | rfl | rfl | rfl
    · trivial
    · exact hcommit w
    · trivial
    · exact hcommit w
  obtain ⟨progs, hs⟩ := (CrashReachable.of_reachable hw).concurrent
  have hfulfils := hs.halt.launch ⟨clientFulfills openKey 1 (ByteVec.fill 32 5) World.empty, trivial, rfl⟩
  have hfails := hfulfils.launch ⟨clientFails openKey 1 World.empty, trivial, rfl⟩
  exact hfails.moves _

/-- However operations interleave, fail and are cut short, no stored state, no proposal and no state that the host has
    signed promises more than the capacity of its channel, and no fold of updates over a stored state overflows. -/
theorem interleavings_never_overcommit (H : Host) (s : Crowd iface (Except ChannelError Unit) World)
    (hpolicy : H.config.policy.initialClientBalanceMsat ≤ H.config.policy.channelCapacityMsat)
    (hs : Concurrent H (Op.honest H) s) :
    (∀ p d, s.world.channel p = some d → d.lcss.funds ≤ d.lcss.initHostedChannel.channelCapacityMsat.toNat ∧
      (∀ t, d.proposedOverride = some t → t.funds ≤ t.initHostedChannel.channelCapacityMsat.toNat) ∧
      ∀ us, lcssNext H.crypto ⟨d.lcss, us⟩ ≠ .error .overflow) ∧
    ∀ p t, (p, t) ∈ s.world.signed → t.funds ≤ t.initHostedChannel.channelCapacityMsat.toNat := by
  have h := hs.inBooks (lasting_affordable hpolicy) (fun w op => Op.honest.brings) fun _ => trivial
  refine ⟨?_, h.signed⟩
  intro p d hd
  have hd := h.books.records p d hd
  exact ⟨hd.lcss, hd.proposal, fun us => lcssNext_no_overflow hd.lcss.lt⟩

theorem interleavings_never_overcommit_contradicted : ∃ d, contradicted.world.channel openPeer = some d ∧
    d.uncommitted.length = 1 ∧ d.lcss.funds ≤ d.lcss.initHostedChannel.channelCapacityMsat.toNat := by
  have hrun : (contradicted.world.channel openPeer).any (fun d => decide (d.uncommitted.length = 1)) = true := by
    decide +kernel
  obtain ⟨d, hd, hlen⟩ := exists_of_any hrun
  have h := (interleavings_never_overcommit .transparent contradicted (by decide) concurrent_contradicted).1 openPeer d hd
  exact ⟨d, hd, of_decide_eq_true hlen, h.1⟩

/-! ### Resolutions of the peer -/

/-- Every pending resolution of the peer is of a committed HTLC, no HTLC has two, and a fulfil brings the preimage of
    its HTLC. A channel that the peer may open has none. -/
structure WellResolved (H : Host) (d : ChannelData) : Prop where
  once : d.remotelyResolved.Nodup
  committed : ∀ u ∈ d.uncommitted, ∀ id, u.remotelyResolves = some id →
    ∃ htlc, d.lcss.outgoingHtlcs.find? (·.id == id) = some htlc ∧ ∀ channelId preimage,
      u = .ofRemote (.fulfill channelId id preimage) → htlc.paymentHash = H.crypto.sha256 preimage.toList
  opening : d.established = false → d.localErrors = [] → d.remoteErrors = [] → d.remotelyResolved = []

theorem WellResolved.of_none (h : d.remotelyResolved = []) : WellResolved H d where
  once := by
    rw [h]
    exact List.nodup_nil
  committed u hu id hid := by
    have hmem : id ∈ d.remotelyResolved := List.mem_filterMap.mpr ⟨u, hu, hid⟩
    rw [h] at hmem
    cases hmem
  opening _ _ _ := h

/-- Fewer updates on a state with the same outgoing HTLCs. -/
theorem WellResolved.fewer (h : WellResolved H d) (hu : d'.uncommitted.Sublist d.uncommitted)
    (hout : d'.lcss.outgoingHtlcs = d.lcss.outgoingHtlcs)
    (he : d'.established = false → d'.localErrors = [] → d'.remoteErrors = [] →
      d.established = false ∧ d.localErrors = [] ∧ d.remoteErrors = []) : WellResolved H d' where
  once := (hu.filterMap _).nodup h.once
  committed u hmem id hid := by
    rw [hout]
    exact h.committed u (hu.subset hmem) id hid
  opening h₁ h₂ h₃ := by
    obtain ⟨h₁, h₂, h₃⟩ := he h₁ h₂ h₃
    have hnil : (d.uncommitted.filterMap _) = [] := h.opening h₁ h₂ h₃
    exact List.sublist_nil.mp (hnil ▸ hu.filterMap _)

theorem remotelyResolved_push (d : ChannelData) (u : UncommittedUpdate) :
    (d.push u).remotelyResolved = d.remotelyResolved ++ u.remotelyResolves.toList := by
  simp only [ChannelData.remotelyResolved, ChannelData.push, List.filterMap_append]
  cases hu : u.remotelyResolves <;> simp [hu]

theorem WellResolved.push_other (h : WellResolved H d) {u : UncommittedUpdate} (hu : u.remotelyResolves = none) :
    WellResolved H (d.push u) := by
  have hsame : (d.push u).remotelyResolved = d.remotelyResolved := by
    rw [remotelyResolved_push, hu, Option.toList_none, List.append_nil]
  refine ⟨hsame ▸ h.once, ?_, fun h₁ h₂ h₃ => hsame ▸ h.opening h₁ h₂ h₃⟩
  intro v hv id hid
  rcases List.mem_append.mp hv with hv | hv
  · exact h.committed v hv id hid
  · obtain rfl := List.mem_singleton.mp hv
    cases hu.symm.trans hid

theorem no_errors_of_opening (h : deriveStatus d = .opening) : d.localErrors = [] ∧ d.remoteErrors = [] := by
  unfold deriveStatus at h
  split_ifs at h with _ _ he
  all_goals simpa using he

/-- A record that takes resolutions is not one that the peer may open. -/
theorem not_opening_of_takes (h : takesResolutions d = true) (he : d.established = false) (hl : d.localErrors = [])
    (hr : d.remoteErrors = []) : False := by
  simp only [takesResolutions, Bool.or_eq_true, beq_iff_eq] at h
  rcases h with h | h
  · cases he.symm.trans (established_of_active h)
  · rcases (errored_iff.mp h).2.2 with h | h
    · exact h hl
    · exact h hr

theorem WellResolved.changes (h : WellResolved H d) (hc : Changes H p c d d') : WellResolved H d' := by
  cases hc with
  | deduplicated => exact h.fewer (dedupFrom_sublist [] _) rfl fun h₁ h₂ h₃ => ⟨h₁, h₂, h₃⟩
  | established hs =>
    obtain ⟨hl, hr⟩ := no_errors_of_opening hs
    exact .of_none (h.opening (not_established_of_opening hs) hl hr)
  | committed | overridden | adopted => exact .of_none rfl
  | receivedAdd => exact h.push_other rfl
  | @receivedResolution _ u id hs hr ho hk hf =>
    have hid := remotelyResolves_of_key hk
    constructor
    case once =>
      rw [remotelyResolved_push, hid]
      refine List.Nodup.append h.once (List.nodup_singleton id) ?_
      intro id' hmem hmem'
      obtain rfl := List.mem_singleton.mp hmem'
      cases hr.symm.trans (hasUncommittedRemoteResolution_iff.mpr hmem)
    case committed =>
      intro v hv id' hid'
      rcases List.mem_append.mp hv with hv | hv
      · exact h.committed v hv id' hid'
      · obtain rfl := List.mem_singleton.mp hv
        obtain rfl := Option.some.inj (hid.symm.trans hid')
        obtain ⟨htlc, hfind⟩ := exists_find_of_any ho
        refine ⟨htlc, hfind, ?_⟩
        rintro channelId preimage ⟨⟩
        obtain ⟨htlc', hfind', hhash⟩ := hf channelId preimage rfl
        obtain rfl := Option.some.inj (hfind.symm.trans hfind')
        exact hhash
    case opening => exact fun h₁ h₂ h₃ => (not_opening_of_takes hs h₁ h₂ h₃).elim
  | errored extra hd =>
    subst hd
    exact h.fewer (List.sublist_append_left _ _) rfl fun _ h₂ _ => by simp at h₂
  | resolved => exact h.push_other (remotelyResolves_local _)
  | added => exact h.push_other (remotelyResolves_local _)
  | remoteErrored => exact h.fewer (List.Sublist.refl _) rfl fun _ _ h₃ => by simp at h₃
  | resized _ _ _ _ _ _ _ hl =>
    exact h.fewer (List.Sublist.refl _) (SignedAlike.sign hl).outgoing fun h₁ h₂ h₃ => ⟨h₁, h₂, h₃⟩
  | proposed hd =>
    subst hd
    refine h.fewer (List.Sublist.refl _) rfl fun _ h₂ _ => ?_
    simp only [proposedData] at h₂
    split at h₂
    · cases h₂
    · rename_i hne
      simp [h₂] at hne
  | resizeAllowed | retuned | updateSent => exact h.fewer (List.Sublist.refl _) rfl fun h₁ h₂ h₃ => ⟨h₁, h₂, h₃⟩

/-- Of states and terms nothing is asked. -/
def wellResolved (H : Host) : Pledge where
  record _ d := WellResolved H d
  state _ _ := True
  terms _ _ := True
  preimage _ := True

theorem lasting_wellResolved (H : Host) : Lasting H (wellResolved H) where
  config := trivial
  fair _ _ _ := trivial
  created _ _ _ _ := .of_none rfl
  changes _ _ _ _ h hc _ := h.changes hc
  signs _ _ _ _ _ _ _ := trivial
  replays _ _ _ _ _ _ _ := trivial

/-- However operations interleave, fail and are cut short, the pending resolutions of a peer are of HTLCs that are
    committed, one at most of each, and a fulfil brings the preimage of its HTLC. -/
theorem interleavings_resolve_once (H : Host) (P : World → Op → Prop) (s : Crowd iface (Except ChannelError Unit) World)
    (p : PublicKey) (d : ChannelData) (hs : Concurrent H P s) (hd : s.world.channel p = some d) :
    d.remotelyResolved.Nodup ∧ ∀ u ∈ d.uncommitted, ∀ id, u.remotelyResolves = some id →
      ∃ htlc, d.lcss.outgoingHtlcs.find? (·.id == id) = some htlc ∧ ∀ channelId preimage,
        u = .ofRemote (.fulfill channelId id preimage) → htlc.paymentHash = H.crypto.sha256 preimage.toList := by
  have hbooks := hs.inBooks (lasting_wellResolved H)
    (fun _ op _ _ => op.brings_free (fun _ _ => trivial) fun _ _ => trivial) fun _ => trivial
  have h := hbooks.books.records p d hd
  exact ⟨h.once, h.committed⟩

/-- Both operations have seen the HTLC unresolved. -/
theorem interleavings_resolve_once_contradicted : ∃ d, contradicted.world.channel openPeer = some d ∧
    d.remotelyResolved = [1] ∧ d.remotelyResolved.Nodup := by
  have hrun : (contradicted.world.channel openPeer).any (fun d => decide (d.remotelyResolved = [1])) = true := by
    decide +kernel
  obtain ⟨d, hd, hids⟩ := exists_of_any hrun
  exact ⟨d, hd, of_decide_eq_true hids,
    (interleavings_resolve_once .transparent _ contradicted openPeer d concurrent_contradicted hd).1⟩

/-! ### Preimages -/

/-- The preimages of the host's pending fulfils have been stored. -/
def storedFirst (stored : List (ByteVec 32)) : Pledge where
  record _ d := ∀ channelId id preimage, .ofLocal (.fulfill channelId id preimage) ∈ d.uncommitted → preimage ∈ stored
  state _ _ := True
  terms _ _ := True
  preimage preimage := preimage ∈ stored

theorem lasting_storedFirst (H : Host) (preimages : List (ByteVec 32)) : Lasting H (storedFirst preimages) where
  config := trivial
  fair _ _ _ := trivial
  created _ _ _ _ _ _ _ h := by cases h
  changes p c d d' h hc hb := by
    intro channelId id preimage hmem
    have pushed {u : PendingUpdate} (hu : ∀ preimage, u = .fulfill channelId id preimage → preimage ∈ preimages)
        (hmem : .ofLocal (.fulfill channelId id preimage) ∈ (d.push (.ofLocal u)).uncommitted) : preimage ∈ preimages := by
      rcases List.mem_append.mp hmem with hmem | hmem
      · exact h _ _ _ hmem
      · exact hu preimage (UncommittedUpdate.ofLocal.inj (List.mem_singleton.mp hmem)).symm
    cases hc with
    | deduplicated => exact h _ _ _ ((dedupFrom_sublist [] d.uncommitted).subset hmem)
    | committed | overridden | adopted => cases hmem
    | receivedAdd | receivedResolution =>
      rcases List.mem_append.mp hmem with hmem | hmem
      · exact h _ _ _ hmem
      · cases List.mem_singleton.mp hmem
    | errored extra hd =>
      subst hd
      exact h _ _ _ (List.mem_append_left _ hmem)
    | resolved =>
      refine pushed ?_ hmem
      rintro preimage rfl
      exact hb
    | added => exact pushed (fun _ hu => by cases hu) hmem
    | proposed hd =>
      subst hd
      exact h _ _ _ hmem
    | _ => exact h _ _ _ hmem
  signs _ _ _ _ _ _ _ := trivial
  replays p d u h hu preimage hmem := by
    cases u with
    | fulfill channelId id preimage' =>
      obtain rfl := List.mem_singleton.mp hmem
      exact h _ _ _ hu
    | _ => cases hmem

/-- However operations interleave, fail and are cut short, a preimage is stored before it is given away: before the node
    is told to settle an HTLC with it, before a peer is told of it, and before the record of a channel takes it up. -/
theorem preimages_stored_first (H : Host) (P : World → Op → Prop) (s : Crowd iface (Except ChannelError Unit) Storing)
    (hs : ConcurrentStoring H P s) :
    (∀ key preimage, (key, .resolve preimage) ∈ s.world.world.resolutions → preimage ∈ s.world.stored) ∧
    (∀ p msg, (p, msg) ∈ s.world.world.sent → ∀ preimage ∈ msg.preimages, preimage ∈ s.world.stored) ∧
    ∀ p d channelId id preimage, s.world.world.channel p = some d →
      .ofLocal (.fulfill channelId id preimage) ∈ d.uncommitted → preimage ∈ s.world.stored := by
  have h : InBooks (storedFirst s.world.stored) s.world.world :=
    hs.inBooks (lasting_storedFirst H _) (fun _ op _ _ => op.brings_free (fun _ _ => trivial) fun _ _ => trivial)
      fun _ hmem => hmem
  refine ⟨fun key preimage hmem => ?_, fun p msg hmem => h.told _ hmem, ?_⟩
  · exact h.resolved _ hmem preimage (List.mem_singleton_self _)
  · exact fun p d channelId id preimage hd => h.books.records p d hd channelId id preimage

/-- The node has settled the HTLC that the client also failed. -/
theorem preimages_stored_first_contradicted : ∃ v : Storing, v.world = contradicted.world ∧
    ((55, 1), .resolve (ByteVec.fill 32 5)) ∈ v.world.resolutions ∧ ByteVec.fill 32 5 ∈ v.stored := by
  have hrun : ((55, 1), .resolve (ByteVec.fill 32 5)) ∈ contradicted.world.resolutions := by decide +kernel
  obtain ⟨v, hv, hs⟩ := concurrent_contradicted.storing
  rw [← hv] at hrun
  exact ⟨v, hv, hrun, (preimages_stored_first .transparent _ ⟨contradicted.progs, v⟩ hs).1 _ _ hrun⟩

end Canopus
