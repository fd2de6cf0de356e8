import Canopus.Channel.Operator

/-! Runs of the controller. An operation is one thing the controller is asked to do; it runs to its
    end, and each of its calls may fail. A `Guard` says which operations and which writes a run is
    restricted to; the reachable worlds are those at the end of such a run that starts from an empty
    store. -/

namespace Canopus
open Effect

inductive Op where
  | message (peer : PublicKey) (encoding : WireEncoding) (msg : HostedMessage)
  | htlcAccepted (r : HtlcAcceptedRequest)
  | pay (r : PayRequest)
  | paymentResult (outgoingScid outgoingHtlcId : UInt64) (status : PaymentStatus)
  | recoverCommittedHtlcs
  | enforceForwardDeadlines
  | connect (peer : PublicKey)
  | disconnect (peer : PublicKey)
  | initialPeerConnections (connections : List (PublicKey × Bool))
  | acceptResize (peer : PublicKey) (maxCapacitySat : Option UInt64)
  | setChannel (peer : PublicKey) (params : SetChannelParams) (forceLcssOverride : Bool)
  | proposeOverride (peer : PublicKey) (newLocalBalance : Option UInt64)
  | addSecret (secret : String) (capacityMsat initialBalanceMsat : UInt64)
  | removeSecret (secret : String)
  | policy (params : PolicyParams)
  | removeChannel (peer : PublicKey) (force : Bool)
  | restart

variable (H : Host)

/-- The messages that only a host sends are ignored. -/
def handleMessage (peer : PublicKey) : HostedMessage → Ctl Unit
  | .invokeHostedChannel m => handleInvoke H peer m
  | .lastCrossSignedState m => handleLcss H peer m
  | .stateUpdate m => handleStateUpdate H peer m
  | .updateAddHtlc m => handleUpdateAdd H peer m
  | .updateFulfillHtlc m => handleUpdateFulfill H peer m
  | .updateFailHtlc m => handleUpdateFail peer m
  | .updateFailMalformedHtlc m => handleUpdateFailMalformed peer m
  | .resizeChannel m => handleResizeChannel H peer m
  | .queryPreimages hashes => handleQueryPreimages peer hashes
  | .replyPreimages preimages => handleReplyPreimages H preimages
  | .error m => handleError peer m
  | .askBrandingInfo _ => handleAskBranding H peer
  | .stateOverride _ | .initHostedChannel _ | .hostedChannelBranding _ | .announcementSignature _
  | .queryPublicHostedChannels _ | .replyPublicHostedChannelsEnd _ | .phcChannelUpdate _ => pure ()

def handleCustommsg (peer : PublicKey) (encoding : WireEncoding) (msg : HostedMessage) : Ctl Unit := do
  ask (.noteWireEncoding peer encoding)
  logged (handleMessage H peer msg)

/-- The program of an operation; what it returns is dropped. -/
def Op.program : Op → Ctl Unit
  | .message peer encoding msg => handleCustommsg H peer encoding msg
  | .htlcAccepted r => do let _ ← handleHtlcAccepted H r; pure ()
  | .pay r => do let _ ← handlePay H r; pure ()
  | .paymentResult outgoingScid outgoingHtlcId status => handleOutgoingPaymentResult H outgoingScid outgoingHtlcId status
  | .recoverCommittedHtlcs => Canopus.recoverCommittedHtlcs H
  | .enforceForwardDeadlines => Canopus.enforceForwardDeadlines H
  | .connect peer => handleConnect H peer
  | .disconnect peer => handleDisconnect peer
  | .initialPeerConnections connections => noteInitialPeerConnections connections
  | .acceptResize peer maxCapacitySat => Canopus.acceptResize peer maxCapacitySat
  | .setChannel peer params force => do let _ ← Canopus.setChannel H peer params force; pure ()
  | .proposeOverride peer balance => Canopus.proposeOverride H peer balance
  | .addSecret secret capacity initial => Canopus.addSecret secret capacity initial
  | .removeSecret secret => Canopus.removeSecret secret
  | .policy params => do let _ ← handlePolicy H params; pure ()
  | .removeChannel peer force => Canopus.removeChannel H peer force
  | .restart => pure ()

/-- A restart loses what the controller keeps in memory. -/
def World.restart (w : World) : World :=
  { w with peerConnections := ∅, peerWireEncodings := ∅ }

/-- The world after an operation in which the environment makes the choices `o`. -/
def Op.next (o : Nat → Choice) (op : Op) (w : World) : World :=
  match op with
  | .restart => w.restart
  | op => (Prog.run exec o (op.program H).run w).2

/-- What a run is restricted to: its operations, and the records and links it writes. -/
structure Guard where
  op : World → Op → Prop
  record : World → PublicKey → ChannelData → Prop
  link : World → HtlcKey → ForwardLink → Prop

/-- A restriction of the operations only. -/
def Guard.ofOp (op : World → Op → Prop) : Guard where
  op := op
  record _ _ _ := True
  link _ _ _ := True

/-- No restriction. -/
def Guard.free : Guard := .ofOp fun _ _ => True

def Guard.write (G : Guard) (w : World) : (n : Ns) → n.Key → n.Val → Prop
  | .channels, peer, data => G.record w peer data
  | .htlcForwards, key, link => G.link w key link
  | _, _, _ => True

def Guard.call (G : Guard) (w : World) : Call → Prop
  | .create n k v | .update n k v _ => G.write w n k v
  | _ => True

theorem Guard.ofOp_call {op : World → Op → Prop} : (Guard.ofOp op).call = fun _ _ => True := by
  funext w c
  cases c with
  | create n k v => cases n <;> rfl
  | update n k v g => cases n <;> rfl
  | _ => rfl

theorem Guard.ofOp_allowed {op : World → Op → Prop} {α : Type} {x : Prog iface α} {o : Nat → Choice} {w : World} :
    Prog.Allowed exec (Guard.ofOp op).call o x w := by
  rw [Guard.ofOp_call]
  exact Prog.allowed_true

/-- The operation and each of its calls meet the guard. -/
def Guard.Allows (G : Guard) (o : Nat → Choice) (op : Op) (w : World) : Prop :=
  G.op w op ∧ Prog.Allowed exec G.call o (op.program H).run w

theorem Guard.ofOp_allows {P : World → Op → Prop} {o : Nat → Choice} {op : Op} {w : World} (h : P w op) :
    (Guard.ofOp P).Allows H o op w :=
  ⟨h, Guard.ofOp_allowed⟩

inductive Reachable (G : Guard) : World → Prop
  | start : Reachable G World.empty
  | step {w : World} (op : Op) (o : Nat → Choice) (hw : Reachable G w) (hop : G.Allows H o op w) :
    Reachable G (op.next H o w)

/-- The worlds between the operations of a run, the latest first. What is allowed next may depend on all
    that has happened. -/
inductive Run (allowed : List World → Op → (Nat → Choice) → Prop) : List World → Prop
  | start : Run allowed [World.empty]
  | step {w : World} {past : List World} (op : Op) (o : Nat → Choice) (hw : Run allowed (w :: past))
    (hop : allowed (w :: past) op o) : Run allowed (op.next H o w :: w :: past)

theorem Run.reachable {allowed : List World → Op → (Nat → Choice) → Prop} {w : World} {past : List World}
    (h : Run H allowed (w :: past)) : Reachable H .free w := by
  generalize hhist : w :: past = hist at h
  induction h generalizing w past with
  | start =>
    obtain ⟨rfl, rfl⟩ := List.cons.inj hhist
    exact .start
  | step op o _ _ ih =>
    obtain ⟨rfl, rfl⟩ := List.cons.inj hhist
    exact .step op o (ih rfl) (Guard.ofOp_allows H trivial)

end Canopus
