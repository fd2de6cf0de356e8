import Canopus.Lib.Trace
import Canopus.Runs

/-! What the controller can do to the world in one call. Every call that changes a record, a link or a
    history variable is a `Step`, labelled with an `Act` and guarded by everything the code has checked
    by then; the calls that change nothing of the kind are `quiet`. The modules after this one show
    that every operation is a sequence of such steps, so that an invariant of all runs needs one case
    for each kind of step and no program text. -/

namespace Canopus
open Effect

/-! ### Reading and writing the world -/

namespace World
variable {w : World} {p q : PublicKey} {d : ChannelData} {k k' : HtlcKey} {l : ForwardLink} {n : Ns}

@[simp] theorem noteSigned_channel {s : LastCrossSignedState} : (w.noteSigned q s).channel p = w.channel p := rfl
@[simp] theorem noteSigned_link {s : LastCrossSignedState} : (w.noteSigned q s).link k = w.link k := rfl

theorem put_store_ne {m : Ns} {x : n.Key} {v : n.Val} (h : m ≠ n) : (w.put n x v).store m = w.store m := by
  simp [put, settle, Function.update_of_ne h]

theorem erase_store_ne {m : Ns} {x : n.Key} (h : m ≠ n) : (w.erase n x).store m = w.store m := by
  simp [erase, settle, Function.update_of_ne h]

theorem put_store_self {x : n.Key} {v : n.Val} : (w.put n x v).store n = (w.store n).put x v := by
  simp [put, settle]

theorem erase_store_self {x : n.Key} : (w.erase n x).store n = (w.store n).erase x := by
  simp [erase, settle]

@[simp] theorem channel_put : (w.put .channels p d).channel p = some d := by
  simp [channel, put_store_self]

theorem channel_put_ne (h : q ≠ p) : (w.put .channels p d).channel q = w.channel q := by
  simp [channel, put_store_self, Table.value?_put_ne h]

@[simp] theorem channel_erase : (w.erase .channels p).channel p = none := by
  simp [channel, erase_store_self]

theorem channel_erase_ne (h : q ≠ p) : (w.erase .channels p).channel q = w.channel q := by
  simp [channel, erase_store_self, Table.value?_erase_ne h]

@[simp] theorem link_put_channel : (w.put .channels p d).link k = w.link k := by
  simp [link, put_store_ne (show Ns.htlcForwards ≠ .channels by decide)]

@[simp] theorem link_erase_channel : (w.erase .channels p).link k = w.link k := by
  simp [link, erase_store_ne (show Ns.htlcForwards ≠ .channels by decide)]

@[simp] theorem channel_put_link : (w.put .htlcForwards k l).channel p = w.channel p := by
  simp [channel, put_store_ne (show Ns.channels ≠ .htlcForwards by decide)]

@[simp] theorem channel_erase_link : (w.erase .htlcForwards k).channel p = w.channel p := by
  simp [channel, erase_store_ne (show Ns.channels ≠ .htlcForwards by decide)]

@[simp] theorem link_put : (w.put .htlcForwards k l).link k = some l := by
  simp [link, put_store_self]

theorem link_put_ne (h : k' ≠ k) : (w.put .htlcForwards k l).link k' = w.link k' := by
  simp [link, put_store_self, Table.value?_put_ne h]

@[simp] theorem link_erase : (w.erase .htlcForwards k).link k = none := by
  simp [link, erase_store_self]

theorem link_erase_ne (h : k' ≠ k) : (w.erase .htlcForwards k).link k' = w.link k' := by
  simp [link, erase_store_self, Table.value?_erase_ne h]

theorem mem_peers : p ∈ w.peers ↔ (w.channel p).isSome := Table.mem_sortedKeys

theorem mem_linkKeys : k ∈ w.linkKeys ↔ (w.link k).isSome := Table.mem_sortedKeys

/-- The policy that `effective_policy` returns. -/
def effectivePolicy (w : World) (H : Host) : ChannelPolicy := ((w.store .policy).value? ()).getD H.config.policy

/-- The routing policy of a channel: its own, or that of new channels. -/
def routing (w : World) (H : Host) (d : ChannelData) : ChannelRoutingPolicy :=
  d.routingPolicy.getD (.fromPolicy (w.effectivePolicy H))

end World

/-- The next state of a channel, not signed. -/
def ChannelData.next (H : Host) (d : ChannelData) : Except StateError LastCrossSignedState :=
  StateManager.lcssNext H.crypto ⟨d.lcss, d.uncommitted⟩

/-! ### Changes of a record -/

inductive Change where
  | deduplicated
  | established (m : StateUpdate)
  | committed (m : StateUpdate)
  | overridden (m : StateUpdate)
  | received (u : PendingUpdate)
  | errored (e : LocalError)
  | resolved (u : PendingUpdate)
  | added (htlc : UpdateAddHtlc)
  | remoteErrored
  | resized (m : ResizeChannel)
  | resizeAllowed
  | retuned
  | proposed (reason : LocalError)
  | adopted (m : LastCrossSignedState)
  | updateSent

/-- What is fixed while an operation runs: the host, the guard of the run, the operation and the
    world it started in, and what is known of the answers to its calls. -/
structure Ctx where
  host : Host
  guard : Guard
  start : World
  op : Op
  env : Choice → World → Call → Prop

/-- What may be assumed of a call and of its answer. A call that fails does nothing for the guard to permit. -/
def Ctx.Assumes (K : Ctx) (x : Choice) (w : World) (c : Call) : Prop :=
  (x.fails = false → K.guard.call w c) ∧ K.env x w c

/-- A run in which every call meets the guard. -/
theorem Ctx.kept_assumes {K : Ctx} {α : Type} {x : Prog iface α} {o : Nat → Choice} {w : World}
    (hg : Prog.Allowed exec K.guard.call o x w) (he : Prog.Kept exec K.env o x w) : Prog.Kept exec K.Assumes o x w :=
  Prog.kept_mono (fun _ _ _ h => ⟨fun _ => h.1, h.2⟩) (Prog.kept_and (Prog.kept_of_allowed hg) he)

/-- The peer whose message or connection an operation handles. -/
def Op.peer : Op → Option PublicKey
  | .message p _ _ | .connect p => some p
  | _ => none

/-- The operations that remove repeated resolutions of `p`'s channel. -/
def Op.repairs (p : PublicKey) : Op → Bool
  | .message q _ (.stateUpdate _) | .message q _ (.invokeHostedChannel _) => q = p
  | _ => false

/-- The operations that look again at the HTLCs of `p`'s channel, both incoming and outgoing. -/
def Op.recovers (p : PublicKey) : Op → Prop
  | .message q _ (.invokeHostedChannel _) | .connect q => q = p
  | _ => False

/-- The hosted HTLC `htlc` of `p` comes from a normal channel, and is too late to be settled there. -/
def Overdue (K : Ctx) (w : World) (p : PublicKey) (htlc : UpdateAddHtlc) : Prop :=
  ∃ l, w.link (K.host.scid p, htlc.id) = some l ∧ (∀ q, (w.channel q).isSome → K.host.scid q ≠ l.incomingScid) ∧
    ∀ e, l.upstreamCltvExpiry = some e → ∃ d x v, w.channel p = some d ∧ K.env x v .getBlockHeight ∧
      ¬ (x.height < htlc.cltvExpiry ∧ htlc.cltvExpiry.toNat + (w.routing K.host d).cltvExpiryDelta.toNat ≤ e.toNat)

/-- The messages that tell a peer of an update. -/
def HostedMessage.isUpdate : HostedMessage → Bool
  | .updateAddHtlc _ | .updateFulfillHtlc _ | .updateFailHtlc _ | .updateFailMalformedHtlc _ => true
  | _ => false

/-- The operation has not told anyone of an update yet. -/
def Ctx.Untold (K : Ctx) (w : World) : Prop := ∃ new, w.sent = K.start.sent ++ new ∧ ∀ x ∈ new, x.2.isUpdate = false

/-- The operations that may make a change to the record `d` of `p`, in the world `w`. One that replaces the
    cross-signed state, or that proposes to, finds the record that the operation has started with; a commit may
    first remove repeated resolutions. -/
def Change.Cause (K : Ctx) (w : World) (p : PublicKey) (d : ChannelData) : Change → Prop
  | .deduplicated => K.op.repairs p ∧ K.start.channel p = some d ∧ K.Untold w
  | .established m | .overridden m => (∃ e, K.op = .message p e (.stateUpdate m)) ∧ K.start.channel p = some d
  | .committed m => (∃ e, K.op = .message p e (.stateUpdate m)) ∧ ∃ d₀, K.start.channel p = some d₀ ∧
    (d = d₀ ∨ d = { d₀ with uncommitted := deduplicateUncommittedResolutions d₀.uncommitted })
  | .adopted m => (∃ e, K.op = .message p e (.lastCrossSignedState m)) ∧ K.start.channel p = some d
  | .resized m => (∃ e, K.op = .message p e (.resizeChannel m)) ∧ K.start.channel p = some d
  | .received (.add htlc) => (∃ e, K.op = .message p e (.updateAddHtlc htlc)) ∧ K.start.channel p = some d
  | .retuned => ∃ params force, K.op = .setChannel p params force
  | .proposed reason => ((∃ params force, K.op = .setChannel p params force) ∧ reason = .forcedParameterOverride ∨
    (∃ balance, K.op = .proposeOverride p balance) ∧ reason = .hostProposedOverride) ∧ K.start.channel p = some d
  | .errored .outlivedDeadline => K.op.recovers p ∧ deriveStatus d = .active ∧ ∃ htlc ∈ d.lcss.outgoingHtlcs,
    hasUncommittedRemoteResolution d htlc.id = false ∧ Overdue K w p htlc
  | .added _ => K.op.peer ≠ some p
  | _ => True

/-- Why an HTLC is added without a link: it is a payment of the host, or there is a link under its id already. -/
def Change.Bare (K : Ctx) (w : World) (p : PublicKey) : Change → Prop
  | .added htlc => (∃ r, K.op = .pay r) ∨ (w.link (K.host.scid p, htlc.id)).isSome
  | _ => True

/-- A resolution that the host makes. -/
def UncommittedUpdate.IsLocalResolution (u : UncommittedUpdate) : Prop := ∃ id, resolutionKey u = some (true, id)

/-- What each change makes of the record `d` of peer `p`, and what the code has checked before. -/
inductive Changes (H : Host) (p : PublicKey) : Change → ChannelData → ChannelData → Prop
  | deduplicated {d : ChannelData} :
    Changes H p .deduplicated d { d with uncommitted := deduplicateUncommittedResolutions d.uncommitted }
  | established {d : ChannelData} {m : StateUpdate} {lcss : LastCrossSignedState} (hs : deriveStatus d = .opening)
    (hv : (openedLcss d.lcss m).verifyRemoteSig H.crypto p = true)
    (hl : (openedLcss d.lcss m).sign H.crypto H.nodeSecret = .ok lcss) :
    Changes H p (.established m) d { d with lcss := lcss, established := true }
  | committed {d : ChannelData} {m : StateUpdate} {next lcss : LastCrossSignedState} (hs : deriveStatus d = .active)
    (hc : countersMatch d m = true) (hn : d.next H = .ok next)
    (hv : (proposedNext next m).verifyRemoteSig H.crypto p = true)
    (hl : (proposedNext next m).sign H.crypto H.nodeSecret = .ok lcss) (hu : d.uncommitted ≠ []) :
    Changes H p (.committed m) d { d with lcss := lcss, uncommitted := [] }
  | overridden {d : ChannelData} {m : StateUpdate} {proposed lcss : LastCrossSignedState}
    (hs : deriveStatus d = .overriding) (hp : d.proposedOverride = some proposed)
    (hv : { proposed with remoteSigOfLocal := m.localSigOfRemote }.verifyRemoteSig H.crypto p = true)
    (hl : { proposed with remoteSigOfLocal := m.localSigOfRemote }.sign H.crypto H.nodeSecret = .ok lcss)
    (hc : m.localUpdates = proposed.remoteUpdates ∧ m.remoteUpdates = proposed.localUpdates) :
    Changes H p (.overridden m) d (overriddenData d lcss)
  | receivedAdd {d : ChannelData} {htlc : UpdateAddHtlc} {next : LastCrossSignedState} (hs : deriveStatus d = .active)
    (hn : d.next H = .ok next) (ha : htlc.amountMsat ≤ next.remoteBalanceMsat) :
    Changes H p (.received (.add htlc)) d (d.push (.ofRemote (.add htlc)))
  | receivedResolution {d : ChannelData} {u : PendingUpdate} {id : UInt64} (hs : takesResolutions d = true)
    (hr : hasUncommittedRemoteResolution d id = false) (ho : d.lcss.outgoingHtlcs.any (·.id == id) = true)
    (hk : resolutionKey (.ofRemote u) = some (false, id))
    (hf : ∀ channelId preimage, u = .fulfill channelId id preimage → ∃ htlc,
      d.lcss.outgoingHtlcs.find? (·.id == id) = some htlc ∧ htlc.paymentHash = H.crypto.sha256 preimage.toList) :
    Changes H p (.received u) d (d.push (.ofRemote u))
  | errored (extra : List UncommittedUpdate) {d older : ChannelData} {e : LocalError}
    -- The write may go back to the record as it was before `extra` was added.
    (hd : d = { older with uncommitted := older.uncommitted ++ extra }) (hx : ∀ u ∈ extra, u.IsLocalResolution)
    (he : extra = [] ∨ e = .outlivedDeadline) :
    Changes H p (.errored e) d { older with localErrors := older.localErrors ++ [e] }
  | resolved {d : ChannelData} {u : PendingUpdate} {id : UInt64} {next : LastCrossSignedState}
    (hi : d.lcss.incomingHtlcs.any (·.id == id) = true) (hk : resolutionKey (.ofLocal u) = some (true, id))
    (hn : (d.push (.ofLocal u)).next H = .ok next) :
    Changes H p (.resolved u) d (d.push (.ofLocal u))
  | added {d : ChannelData} {htlc : UpdateAddHtlc} {next : LastCrossSignedState} (hs : deriveStatus d = .active)
    (hn : d.next H = .ok next) (ha : htlc.amountMsat ≤ next.localBalanceMsat) (hid : htlc.id = nextHtlcId d) :
    Changes H p (.added htlc) d (d.push (.ofLocal (.add htlc)))
  | remoteErrored {d : ChannelData} {e : Bytes} :
    Changes H p .remoteErrored d { d with remoteErrors := d.remoteErrors ++ [e] }
  | resized {d : ChannelData} {m : ResizeChannel} {cap bal : UInt64} {lcss : LastCrossSignedState}
    {r : ChannelRoutingPolicy} {max : UInt64} (hs : deriveStatus d = .active) (hv : m.verifyClientSig H.crypto p = true)
    (ha : d.acceptingResizeSat = some max) (hm : m.newCapacitySat ≤ max)
    (hc : checkedMul m.newCapacitySat 1000 = some cap) (hr : ¬ cap ≤ d.lcss.remoteBalanceMsat)
    (hb : resizedLocalBalance d.lcss cap = some bal)
    (hl : (resizedLcss d.lcss cap bal).sign H.crypto H.nodeSecret = .ok lcss) (hx : r.htlcMaximumMsat = cap) :
    Changes H p (.resized m) d { d with
      lcss := lcss, acceptingResizeSat := none, routingPolicy := some r, channelUpdatePending := true }
  | resizeAllowed {d : ChannelData} {c : Option UInt64} : Changes H p .resizeAllowed d { d with acceptingResizeSat := c }
  | retuned {d : ChannelData} {r : ChannelRoutingPolicy} (hs : deriveStatus d = .active)
    (hx : r.htlcMaximumMsat ≤ d.lcss.initHostedChannel.channelCapacityMsat) :
    Changes H p .retuned d { d with routingPolicy := some r, channelUpdatePending := true }
  | proposed {d d' : ChannelData} {reason : LocalError} {init : InitHostedChannel} {day : UInt32} {bal rem : UInt64}
    {r : Option ChannelRoutingPolicy} {pending : Bool} {proposal : LastCrossSignedState}
    (hd : d' = { d with routingPolicy := r, channelUpdatePending := pending })
    (hb : checkedSub init.channelCapacityMsat bal = some rem ∨ checkedSub init.channelCapacityMsat rem = some bal)
    (hl : (overrideLcss d init day bal rem).sign H.crypto H.nodeSecret = .ok proposal)
    (hx : (∃ x, r = some x ∧ x.htlcMaximumMsat ≤ init.channelCapacityMsat) ∨
      reason = .hostProposedOverride ∧ r = d.routingPolicy ∧ init = d.lcss.initHostedChannel) :
    Changes H p (.proposed reason) d (proposedData d' reason proposal)
  | adopted {d : ChannelData} {m : LastCrossSignedState} (ho : m.verifyRemoteSig H.crypto H.nodePublic = true)
    (hv : m.reverse.verifyRemoteSig H.crypto p = true) (hl : d.lcss.localUpdates ≤ m.reverse.localUpdates)
    (hr : d.lcss.remoteUpdates ≤ m.reverse.remoteUpdates)
    (hne : ¬ (m.reverse.localUpdates = d.lcss.localUpdates ∧ m.reverse.remoteUpdates = d.lcss.remoteUpdates)) :
    Changes H p (.adopted m) d { d with lcss := m.reverse, uncommitted := [] }
  | updateSent {d : ChannelData} : Changes H p .updateSent d { d with channelUpdatePending := false }

/-! ### The other steps -/

/-- The states of peer `p`'s channel that the host signs. -/
inductive Signs (H : Host) (w : World) (p : PublicKey) : LastCrossSignedState → Prop
  | next (us : List UncommittedUpdate) {d : ChannelData} {next s : LastCrossSignedState} {day : UInt32} {sig : Signature}
    (hd : w.channel p = some d)
    (hu : us = [] ∨ deriveStatus d = .active ∨ d.lcss.incomingHtlcs ≠ [])
    (hn : StateManager.lcssNext H.crypto ⟨d.lcss, d.uncommitted ++ us⟩ = .ok next)
    (hs : { next with blockDay := day, remoteSigOfLocal := sig }.sign H.crypto H.nodeSecret = .ok s)
    (ho : ∀ u ∈ us, u.isLocal = true) : Signs H w p s
  | opened {d : ChannelData} {m : StateUpdate} {s : LastCrossSignedState} (hd : w.channel p = some d)
    (ho : deriveStatus d = .opening) (hs : (openedLcss d.lcss m).sign H.crypto H.nodeSecret = .ok s) : Signs H w p s
  | overridden {d : ChannelData} {proposed s : LastCrossSignedState} {sig : Signature} (hd : w.channel p = some d)
    (hp : d.proposedOverride = some proposed)
    (hs : { proposed with remoteSigOfLocal := sig }.sign H.crypto H.nodeSecret = .ok s) : Signs H w p s
  | proposed {d : ChannelData} {init : InitHostedChannel} {day : UInt32} {bal rem : UInt64} {s : LastCrossSignedState}
    (hd : w.channel p = some d)
    (hb : checkedSub init.channelCapacityMsat bal = some rem ∨ checkedSub init.channelCapacityMsat rem = some bal)
    (hs : (overrideLcss d init day bal rem).sign H.crypto H.nodeSecret = .ok s) : Signs H w p s
  | resized {d : ChannelData} {cap bal : UInt64} {s : LastCrossSignedState} (hd : w.channel p = some d)
    (ha : deriveStatus d = .active) (hb : resizedLocalBalance d.lcss cap = some bal)
    (hs : (resizedLcss d.lcss cap bal).sign H.crypto H.nodeSecret = .ok s) : Signs H w p s

/-- An incoming HTLC of `p`'s channel is not committed, or the host has resolved it. -/
def Settled (w : World) (p : PublicKey) (id : UInt64) : Prop :=
  ∃ d, w.channel p = some d ∧
    (d.lcss.incomingHtlcs.any (·.id == id) = false ∨ hasUncommittedLocalResolution d id = true)

/-- The link that `create` was asked to store under `k`, or the one that was there already. -/
def LinkAt (G : Guard) (w : World) (k : HtlcKey) (l : ForwardLink) : Prop :=
  w.link k = some l ∨ ∃ w₀, G.link w₀ k l ∧ w₀.link k = w.link k ∧ (w.link k).isSome

/-- The reasons to delete the link under `k`. -/
inductive Drops (H : Host) (G : Guard) (w : World) (k : HtlcKey) : Prop
  | answered {l : ForwardLink} (hl : w.link k = some l)
    (ha : (∀ q, (w.channel q).isSome → H.scid q ≠ l.incomingScid) ∨
      ∃ q, H.scid q = l.incomingScid ∧ Settled w q l.incomingHtlcId) : Drops H G w k
  | undone {k₀ : HtlcKey} {l : ForwardLink} {q : PublicKey} (hl : w.link k₀ = some l)
    (hk : k = (l.outgoingScid, l.outgoingHtlcId)) (hq : H.scid q = l.incomingScid)
    (hs : Settled w q l.incomingHtlcId) : Drops H G w k
  | refused {l : ForwardLink} {q : PublicKey} (hl : LinkAt G w k l) (hd : l.hostedCommitDeadlineUnix = none)
    (hq : H.scid q = l.incomingScid) (hs : Settled w q l.incomingHtlcId) : Drops H G w k
  | closing {q : PublicKey} (hq : (w.channel q).isSome) (hk : k.1 = H.scid q) : Drops H G w k

/-- A policy that a new channel is granted: the effective one, or that of a secret. -/
def Granted (H : Host) (w : World) (policy : ChannelPolicy) : Prop :=
  policy = w.effectivePolicy H ∨
  ∃ secret s, (w.store .secrets).value? secret = some s ∧
    policy = { w.effectivePolicy H with
      channelCapacityMsat := s.capacityMsat, initialClientBalanceMsat := s.initialBalanceMsat }

/-- The store is the same, apart from the ledger. -/
structure SameBooks (w w' : World) : Prop where
  channels : w'.store .channels = w.store .channels
  links : w'.store .htlcForwards = w.store .htlcForwards
  secrets : w'.store .secrets = w.store .secrets
  policy : w'.store .policy = w.store .policy

/-- The ledger, its numbers and its event ids are the same. -/
structure SameLedger (w w' : World) : Prop where
  metadata : w'.store .metadata = w.store .metadata
  entries : w'.store .ledger = w.store .ledger
  ids : w'.store .ledgerEventIds = w.store .ledgerEventIds

/-- Nothing that the invariants speak about has changed apart from the ledger, and no update has been sent. -/
structure Recorded (w w' : World) : Prop extends SameBooks w w' where
  signed : w'.signed = w.signed
  onions : w'.onions = w.onions
  resolutions : w'.resolutions = w.resolutions
  preimages : w'.preimages = w.preimages
  sent : ∃ new, w'.sent = w.sent ++ new ∧ ∀ x ∈ new, x.2.isUpdate = false
  outstanding : ∀ e ∈ w'.outstanding, e ∈ w.outstanding

/-- Nor has the ledger changed. -/
structure Quiet (w w' : World) : Prop extends Recorded w w', SameLedger w w'

/-- The operations that may write to the ledger. -/
def Op.books : Op → Bool
  | .message _ _ (.stateUpdate _) | .message _ _ (.resizeChannel _) => true
  | _ => false

inductive Act where
  | created (p : PublicKey)
  | wrote (p : PublicKey) (c : Change)
  | removed (p : PublicKey)
  | linked
  | unlinked
  | forwarded
  | signed
  | answered
  | sent
  | stored
  | secretChanged
  | policyChanged
  | quiet

/-- Where the HTLC of a link comes from: a hook, or another hosted channel. -/
def Ctx.Comes (K : Ctx) (scid : UInt64) : Prop :=
  (∃ r, K.op = .htlcAccepted r) ∨ ∃ q, (K.start.channel q).isSome ∧ K.host.scid q = scid

/-- The link that the host builds for an HTLC it offers to `p`. -/
structure ForwardLink.BuiltFor (H : Host) (p : PublicKey) (htlc : UpdateAddHtlc) (l : ForwardLink) : Prop where
  scid : l.outgoingScid = H.scid p
  id : l.outgoingHtlcId = htlc.id
  hash : l.paymentHash = htlc.paymentHash

/-- The calls that fail when the store does. -/
def Call.isStore : Call → Bool
  | .get _ _ | .existsKey _ _ | .create _ _ _ | .update _ _ _ _ | .delete _ _ | .listChannels | .listForwardScids
  | .listForwards _ => true
  | _ => false

/-- The store may fail during the operation. -/
def Ctx.StoreFails (K : Ctx) : Prop := ∃ x v c, K.env x v c ∧ c.isStore = true ∧ x.fails = true

/-- Why a link is stored without the HTLC that it is for: it leaves by the node, or the store has failed
    before the HTLC was saved. -/
def Ctx.Alone (K : Ctx) (w : World) (l : ForwardLink) : Prop :=
  (∀ q, (w.channel q).isSome → K.host.scid q ≠ l.outgoingScid) ∨
    K.StoreFails ∧ ∃ q, K.op.peer ≠ some q ∧ (w.channel q).isSome ∧ K.host.scid q = l.outgoingScid

/-- The peers whose operations may settle hosted HTLCs with a preimage. -/
def Op.settles (p : PublicKey) : Op → Prop
  | .message q _ (.updateFulfillHtlc _) | .message q _ (.invokeHostedChannel _) | .connect q => q = p
  | _ => False

theorem Op.recovers.settles {p : PublicKey} {op : Op} (h : op.recovers p) : op.settles p := by
  cases op with
  | message q e msg =>
    cases msg with
    | invokeHostedChannel => exact h
    | _ => cases h
  | connect q => exact h
  | _ => cases h

theorem Op.recovers.peer {p : PublicKey} {op : Op} (h : op.recovers p) : op.peer = some p := by
  cases op with
  | message q e msg =>
    cases msg with
    | invokeHostedChannel => exact congrArg some h
    | _ => cases h
  | connect q => exact congrArg some h
  | _ => cases h

/-- The hosted HTLC `htlc` of `p` has not expired, and leaves the channel's CLTV delta to the upstream one. -/
structure Timely (K : Ctx) (w : World) (p : PublicKey) (htlc : UpdateAddHtlc) (l : ForwardLink) : Prop where
  margin : ∃ d e, w.channel p = some d ∧ l.upstreamCltvExpiry = some e ∧
    htlc.cltvExpiry.toNat + (w.routing K.host d).cltvExpiryDelta.toNat ≤ e.toNat
  height : ∃ x v, K.env x v .getBlockHeight ∧ x.fails = false ∧ x.height < htlc.cltvExpiry

/-- The reasons to answer an HTLC of the node under `key`: it is the one of a hook, or it comes from a
    hosted channel after all, or a link leads to it. -/
inductive Answers (K : Ctx) (w : World) (key : HtlcKey) : HtlcResolution → Prop
  | direct {r : HtlcResolution} (h : K.Comes key.1) : Answers K w key r
  | failed {k : HtlcKey} {l : ForwardLink} {onion : Bytes} (hl : w.link k = some l)
    (hk : key = (l.incomingScid, l.incomingHtlcId)) : Answers K w key (.fail onion)
  | settled {p : PublicKey} {d : ChannelData} {htlc : UpdateAddHtlc} {l : ForwardLink} {preimage : ByteVec 32}
    (ho : K.op.settles p) (hd : w.channel p = some d) (hh : htlc ∈ d.lcss.outgoingHtlcs)
    (hl : w.link (K.host.scid p, htlc.id) = some l) (hk : key = (l.incomingScid, l.incomingHtlcId))
    (ht : Timely K w p htlc l)
    (hp : K.host.crypto.sha256 preimage.toList = htlc.paymentHash ∨ w.preimages.lookup htlc.paymentHash = some preimage) :
    Answers K w key (.resolve preimage)

/-- The node has said that the payment with the label `k` has succeeded with the preimage. -/
def Reported (K : Ctx) (w : World) (k : HtlcKey) (preimage : ByteVec 32) : Prop :=
  K.op = .paymentResult k.1 k.2 (.succeeded preimage) ∨
    ∃ x hash, K.env x w (.inspectOutgoingPayment hash k) ∧ x.fails = false ∧ x.status = .succeeded preimage

/-- The reasons to store a preimage: the hash is its own, or it comes from the payment of a link. -/
inductive Stores (K : Ctx) (w : World) (hash : Hash) (preimage : ByteVec 32) : Prop
  | checked (hp : K.host.crypto.sha256 preimage.toList = hash)
  | paid {k : HtlcKey} {l : ForwardLink} (hl : w.link k = some l) (hh : l.paymentHash = hash)
    (hr : Reported K w k preimage)

/-- The reasons to tell `p` of an update: it is pending, or the channel was not active to begin with. -/
def Tells (K : Ctx) (w : World) (p : PublicKey) (msg : HostedMessage) : Prop :=
  (∃ d, K.start.channel p = some d ∧ deriveStatus d ≠ .active) ∨
    ∃ d u, w.channel p = some d ∧ .ofLocal u ∈ d.uncommitted ∧ msg = replayMessage K.host p u

inductive Step (K : Ctx) : Act → World → World → Prop
  | created {w : World} {p : PublicKey} {policy : ChannelPolicy} {refund : Bytes}
    (hn : ∀ d, w.channel p = some d → deriveStatus d = .notOpened ∨ deriveStatus d = .suspended)
    (ho : ∃ e m, K.op = .message p e (.invokeHostedChannel m)) (hp : Granted K.host K.start policy)
    (hg : K.guard.record w p (initialData policy refund)) :
    Step K (.created p) w (w.put .channels p (initialData policy refund))
  | wrote {w : World} {p : PublicKey} {c : Change} {d d' : ChannelData} (hd : w.channel p = some d)
    (hc : Changes K.host p c d d') (ho : c.Cause K w p d) (hg : K.guard.record w p d') (hb : c.Bare K w p) :
    Step K (.wrote p c) w (w.put .channels p d')
  | removed {w : World} {p : PublicKey} (ho : ∃ force, K.op = .removeChannel p force) :
    Step K (.removed p) w (w.erase .channels p)
  | offered {w : World} {p : PublicKey} {htlc : UpdateAddHtlc} {d d' : ChannelData} {l : ForwardLink}
    (hd : w.channel p = some d) (hc : Changes K.host p (.added htlc) d d') (hb : l.BuiltFor K.host p htlc)
    (hi : K.Comes l.incomingScid) (ho : K.op.peer ≠ some p) (hn : w.link (l.outgoingScid, l.outgoingHtlcId) = none)
    (hl : K.guard.link w (l.outgoingScid, l.outgoingHtlcId) l)
    (hg : K.guard.record (w.put .htlcForwards (l.outgoingScid, l.outgoingHtlcId) l) p d') :
    Step K (.wrote p (.added htlc)) w ((w.put .htlcForwards (l.outgoingScid, l.outgoingHtlcId) l).put .channels p d')
  | linked {w : World} {l : ForwardLink} (hi : K.Comes l.incomingScid) (ha : K.Alone w l)
    (hn : w.link (l.outgoingScid, l.outgoingHtlcId) = none)
    (hg : K.guard.link w (l.outgoingScid, l.outgoingHtlcId) l) :
    Step K .linked w (w.put .htlcForwards (l.outgoingScid, l.outgoingHtlcId) l)
  | unlinked {w : World} {k : HtlcKey} (hk : Drops K.host K.guard w k) : Step K .unlinked w (w.erase .htlcForwards k)
  | forwarded {w : World} {p : PublicKey} {htlc : UpdateAddHtlc} {params : SendOnionParams} {l : ForwardLink}
    (hl : LinkAt K.guard w (params.firstScid, htlc.id) l) (hd : l.hostedCommitDeadlineUnix = none)
    (hs : l.incomingScid = K.host.scid p)
    (hi : l.incomingHtlcId = htlc.id) (hh : l.paymentHash = htlc.paymentHash)
    (ha : params.firstAmountMsat ≤ htlc.amountMsat)
    (hq : ∀ q, (w.channel q).isSome → K.host.scid q ≠ params.firstScid)
    (hk : params.label = (params.firstScid, htlc.id)) (hp : params.paymentHash = htlc.paymentHash) :
    Step K .forwarded w (World.settle { w with
      onions := w.onions ++ [⟨p, htlc, params⟩], outstanding := w.outstanding ++ [⟨p, htlc, params.firstScid⟩] })
  | signed {w : World} {p : PublicKey} {s : LastCrossSignedState} (hs : Signs K.host w p s) :
    Step K .signed w (w.noteSigned p s)
  | answered {w : World} {key : HtlcKey} {r : HtlcResolution} (ha : Answers K w key r) :
    Step K .answered w { w with resolutions := w.resolutions ++ [(key, r)] }
  | sent {w : World} {p : PublicKey} {msg : HostedMessage} (ht : Tells K w p msg) :
    Step K .sent w { w with sent := w.sent ++ [(p, msg)] }
  | stored {w : World} {hash : Hash} {preimage : ByteVec 32} {x : Choice}
    (he : K.env x w (.storePreimage hash preimage)) (hr : Stores K w hash preimage) :
    Step K .stored w { w with preimages := w.preimages.insert hash preimage }
  | secretAdded {w : World} {text : String} {key : Bytes} {capacity initial : UInt64}
    (ho : K.op = .addSecret text capacity initial) :
    Step K .secretChanged w (w.put .secrets key ⟨capacity, initial, false⟩)
  | secretConsumed {w : World} {key : Bytes} {s : ChannelSecret} (hs : (w.store .secrets).value? key = some s) :
    Step K .secretChanged w (w.put .secrets key { s with consumed := true })
  | secretRemoved {w : World} {key : Bytes} : Step K .secretChanged w (w.erase .secrets key)
  | policyChanged {w : World} {policy : ChannelPolicy} (ho : ∃ params, K.op = .policy params)
    (hp : policy.initialClientBalanceMsat ≤ policy.channelCapacityMsat) :
    Step K .policyChanged w (w.put .policy () policy)
  | quiet {w w' : World} (h : Recorded w w') (hb : SameLedger w w' ∨ K.op.books = true) : Step K .quiet w w'

/-- Every act. -/
def Act.all : Act → Prop := fun _ => True

/-- The acts that leave the record of `p` alone, apart from resolving its incoming HTLCs. -/
def Act.spares (p : PublicKey) : Act → Prop
  | .created q | .removed q => q ≠ p
  | .wrote _ (.resolved _) => True
  | .wrote q _ => q ≠ p
  | _ => True

/-- The sets of acts that have in them whatever offering an HTLC does besides the offer itself. -/
class Mild (B : Act → Prop) : Prop where
  quiet : B .quiet
  linked : B .linked
  signed : B .signed
  answered : B .answered
  sent : B .sent

/-- Those that have in them whatever forwarding does besides offering an HTLC. -/
class Steady (B : Act → Prop) : Prop extends Mild B where
  unlinked : B .unlinked
  forwarded : B .forwarded
  stored : B .stored
  resolved : ∀ q u, B (.wrote q (.resolved u))

instance : Mild Act.all := ⟨trivial, trivial, trivial, trivial, trivial⟩

instance : Steady Act.all := ⟨trivial, trivial, trivial, fun _ _ => trivial⟩

instance (p : PublicKey) : Mild (Act.spares p) := ⟨trivial, trivial, trivial, trivial, trivial⟩

instance (p : PublicKey) : Steady (Act.spares p) := ⟨trivial, trivial, trivial, fun _ _ => trivial⟩

/-- Those that have in them whatever an operation of `p` does. It may do anything to the record of `p`; other
    channels it offers HTLCs, resolves theirs, and puts into the errored state. -/
class Serves (p : PublicKey) (B : Act → Prop) : Prop extends Steady B where
  secretChanged : B .secretChanged
  created : B (.created p)
  wrote : ∀ c, B (.wrote p c)
  added : ∀ q h, B (.wrote q (.added h))
  errored : ∀ q e, B (.wrote q (.errored e))

instance (p : PublicKey) : Serves p Act.all :=
  ⟨trivial, trivial, fun _ => trivial, fun _ _ => trivial, fun _ _ => trivial⟩

instance (p : PublicKey) {B : Act → Prop} [Steady B] : Steady fun act => Act.spares p act ∧ B act where
  quiet := ⟨trivial, Mild.quiet⟩
  linked := ⟨trivial, Mild.linked⟩
  signed := ⟨trivial, Mild.signed⟩
  answered := ⟨trivial, Mild.answered⟩
  sent := ⟨trivial, Mild.sent⟩
  unlinked := ⟨trivial, Steady.unlinked⟩
  forwarded := ⟨trivial, Steady.forwarded⟩
  stored := ⟨trivial, Steady.stored⟩
  resolved q u := ⟨trivial, Steady.resolved q u⟩

/-- The program only takes steps with acts in `B`, and `P` holds if it returns. -/
abbrev Ctx.Does {α : Type} (K : Ctx) (B : Act → Prop) (x : Ctl α) (w : World) (P : α → World → Prop) : Prop :=
  Fallible.Does exec K.Assumes (Step K) B x w P

abbrev Ctx.Trace (K : Ctx) (B : Act → Prop) : World → World → Prop := Effect.Trace (Step K) B

end Canopus
