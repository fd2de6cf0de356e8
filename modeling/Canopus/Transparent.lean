import Canopus.Runs

/-! A transparent instance of the cryptography, on which programs can be run: a signature is the hash
    with the signer's key after it, and an onion is plain text. Signatures behave as they should: what a
    key signs verifies under it, and nothing else does. -/

namespace Canopus
open Effect

/-- A checksum in the place of SHA-256. -/
def digest (bs : Bytes) : Hash :=
  let sum : UInt64 := bs.foldl (fun acc b => acc * 31 + b.toUInt64 + 1) 7
  let bytes := beBytes 8 sum.toNat
  ⟨bytes ++ bytes ++ bytes ++ bytes, by simp [bytes, beBytes]⟩

/-- The public key of a secret key. -/
def publicOf (key : SecretKey) : PublicKey := 2 ::ᵥ key

/-- An onion that names the next channel, the amount and the expiry in its first twenty bytes. -/
def plainPeel (packet : Bytes) : PeeledOnion where
  shortChannelId := fromBeBytes (packet.take 8)
  amtToForward := fromBeBytes ((packet.drop 8).take 8)
  outgoingCltvValue := (fromBeBytes ((packet.drop 16).take 4)).toUInt32
  nextOnion := packet
  sharedSecret := ByteVec.fill 32 0

def plainOnion (scid amount : UInt64) (cltv : UInt32) : Bytes :=
  writeU64 scid ++ writeU64 amount ++ writeU32 cltv ++ List.replicate 1346 0

def Crypto.transparent : Crypto where
  sha256 := digest
  signEcdsa hash key := ⟨hash.toList ++ key.toList, by simp⟩
  verifyEcdsa hash sig key := decide (sig.toList = hash.toList ++ key.toList.tail)
  peelOnion _ packet _ := some (plainPeel packet)
  wrapFailure _ message := message
  createSingleHopOnion _ _ _ _ _ _ := .ok (List.replicate 1366 0)

theorem transparent_verify (hash : Hash) (sig : Signature) (key : SecretKey) :
    Crypto.transparent.verifyEcdsa hash sig (publicOf key) = true ↔ sig = Crypto.transparent.signEcdsa hash key := by
  simp only [Crypto.transparent, decide_eq_true_eq, publicOf, List.Vector.toList_cons, List.tail_cons]
  constructor
  · exact fun h => List.Vector.toList_injective h
  · rintro rfl
    rfl

/-- A host with a default policy of one million satoshi that asks for no secret. -/
def Host.transparent : Host where
  crypto := .transparent
  config :=
    { policy :=
        { channelCapacityMsat := 1000000
          initialClientBalanceMsat := 400000
          maxHtlcValueInFlightMsat := 1000000
          htlcMinimumMsat := 1
          maxAcceptedHtlcs := 10
          feeBaseMsat := 0
          feeProportionalMillionths := 0
          cltvExpiryDelta := 10 }
      branding := ⟨none, none, none⟩
      requireSecret := false
      chainHash := ByteVec.fill 32 0 }
  nodeSecret := ByteVec.fill 32 9
  nodePublic := publicOf (ByteVec.fill 32 9)

/-- The environment's choice when nothing fails. -/
def Choice.calm : Choice where
  fails := false
  height := 1000
  time := 100
  status := .pending
  key := ByteVec.fill 32 0

/-- The block day of a calm run. -/
def calmDay : UInt32 := 6

/-- The world after a script in which nothing fails. Each operation may depend on the world it starts
    in, as a client's signature does. -/
def calmRun (H : Host) (script : List (World → Op)) : World :=
  script.foldl (fun w op => (op w).next H (fun _ => .calm) w) World.empty

section
variable {G : Guard} [hrecord : ∀ w p d, Decidable (G.record w p d)] [hlink : ∀ w k l, Decidable (G.link w k l)]

instance Guard.write.decidable (w : World) : (n : Ns) → (k : n.Key) → (v : n.Val) → Decidable (G.write w n k v)
  | .channels, p, d => hrecord w p d
  | .htlcForwards, k, l => hlink w k l
  | .secrets, _, _ | .policy, _, _ | .metadata, _, _ | .ledger, _, _ | .ledgerEventIds, _, _ => .isTrue trivial

instance Guard.call.decidable (w : World) : (c : Call) → Decidable (G.call w c)
  | .create n k v | .update n k v _ => Guard.write.decidable w n k v
  | .get _ _ | .existsKey _ _ | .delete _ _ | .listChannels | .listForwardScids | .listForwards _
  | .sendCustomMsg _ _ _ | .sendOnion _ _ _ | .inspectOutgoingPayment _ _ | .getBlockHeight | .resolveHtlc _ _
  | .storePreimage _ _ | .lookupPreimage _ | .systemTime | .sessionKey | .peerConnection _ | .notePeerConnection _ _
  | .peerWireEncoding _ | .noteWireEncoding _ _ | .forgetWireEncoding _ | .noteSigned _ _ => .isTrue trivial

end

/-- The script meets the guard, when nothing fails. -/
def Guard.Follows (G : Guard) (H : Host) : World → List (World → Op) → Prop
  | _, [] => True
  | w, op :: script => G.Allows H (fun _ => .calm) (op w) w ∧ G.Follows H ((op w).next H (fun _ => .calm) w) script

/-- Runs the script and checks the guard on the way. -/
def Guard.follows (G : Guard) [∀ w op, Decidable (G.op w op)] [∀ w p d, Decidable (G.record w p d)]
    [∀ w k l, Decidable (G.link w k l)] (H : Host) : World → List (World → Op) → Bool
  | _, [] => true
  | w, op :: script =>
    decide (G.op w (op w)) && (Prog.Allowed.check exec G.call (fun _ => .calm) ((op w).program H).run w &&
      G.follows H ((op w).next H (fun _ => .calm) w) script)

theorem Guard.follows_sound {G : Guard} [∀ w op, Decidable (G.op w op)] [∀ w p d, Decidable (G.record w p d)]
    [∀ w k l, Decidable (G.link w k l)] {H : Host} {script : List (World → Op)} :
    ∀ {w : World}, G.follows H w script = true → G.Follows H w script := by
  induction script with
  | nil => exact fun _ => trivial
  | cons op script ih =>
    intro w h
    obtain ⟨hop, hrest⟩ := Bool.and_eq_true_iff.mp h
    obtain ⟨hcalls, hrest⟩ := Bool.and_eq_true_iff.mp hrest
    exact ⟨⟨of_decide_eq_true hop, Prog.allowed_of_check hcalls⟩, ih hrest⟩

theorem calmRun_follows {H : Host} {G : Guard} {script : List (World → Op)} (h : G.Follows H World.empty script) :
    Reachable H G (calmRun H script) := by
  have hfrom : ∀ w, Reachable H G w → G.Follows H w script →
      Reachable H G (script.foldl (fun w op => (op w).next H (fun _ => .calm) w) w) := by
    clear h
    induction script with
    | nil =>
      intro w hw _
      exact hw
    | cons op script ih =>
      intro w hw h
      exact ih _ (.step _ _ hw h.1) h.2
  exact hfrom _ .start h

/-- A script of operations that a restriction of the operations always permits. -/
theorem Guard.ofOp_follows {P : World → Op → Prop} {H : Host} {script : List (World → Op)}
    (h : ∀ op ∈ script, ∀ w, P w (op w)) (w : World) : (Guard.ofOp P).Follows H w script := by
  induction script generalizing w with
  | nil => exact trivial
  | cons op script ih =>
    exact ⟨Guard.ofOp_allows H (h op (by simp) w), ih (fun op' h' => h op' (by simp [h'])) _⟩

/-- Runs the script and checks a restriction of the operations on the way. -/
def followsOps (P : World → Op → Bool) (H : Host) : World → List (World → Op) → Bool
  | _, [] => true
  | w, op :: script => P w (op w) && followsOps P H ((op w).next H (fun _ => .calm) w) script

theorem followsOps_sound {P : World → Op → Bool} {Q : World → Op → Prop} {H : Host} {script : List (World → Op)}
    (hPQ : ∀ w op, P w op = true → Q w op) :
    ∀ {w : World}, followsOps P H w script = true → (Guard.ofOp Q).Follows H w script := by
  induction script with
  | nil => exact fun _ => trivial
  | cons op script ih =>
    intro w h
    obtain ⟨hop, hrest⟩ := Bool.and_eq_true_iff.mp h
    exact ⟨Guard.ofOp_allows H (hPQ w _ hop), ih hrest⟩

theorem calmRun_reachable (H : Host) (script : List (World → Op)) : Reachable H Guard.free (calmRun H script) :=
  calmRun_follows (Guard.ofOp_follows (fun _ _ _ => trivial) _)

/-- The worlds of such a run, the latest first. -/
def calmHistory (H : Host) (script : List (World → Op)) : List World :=
  script.foldl (fun past op => match past with
    | [] => []
    | w :: _ => (op w).next H (fun _ => .calm) w :: past) [World.empty]

theorem calmHistory_run {H : Host} {allowed : List World → Op → (Nat → Choice) → Prop} (script : List (World → Op))
    (h : ∀ op ∈ script, ∀ w past, allowed (w :: past) (op w) (fun _ => .calm)) : Run H allowed (calmHistory H script) := by
  have hfrom : ∀ w past, Run H allowed (w :: past) → Run H allowed (script.foldl (fun past op => match past with
      | [] => []
      | w :: _ => (op w).next H (fun _ => .calm) w :: past) (w :: past)) := by
    induction script with
    | nil => exact fun _ _ hw => hw
    | cons op script ih =>
      intro w past hw
      exact ih (fun op' h' => h op' (by simp [h'])) _ _ (.step _ _ hw (h op (by simp) w past))
  exact hfrom _ _ .start

/-- The latest world of the history is the one that the script ends in. -/
theorem calmHistory_eq (H : Host) (script : List (World → Op)) :
    calmHistory H script = calmRun H script :: (calmHistory H script).tail := by
  have hfrom : ∀ w past, ∃ past', script.foldl (fun past op => match past with
      | [] => []
      | w :: _ => (op w).next H (fun _ => .calm) w :: past) (w :: past) =
      script.foldl (fun w op => (op w).next H (fun _ => .calm) w) w :: past' := by
    induction script with
    | nil => exact fun w past => ⟨past, rfl⟩
    | cons op script ih => exact fun w past => ih _ _
  obtain ⟨past, hpast⟩ := hfrom World.empty []
  have hhist : calmHistory H script = calmRun H script :: past := hpast
  rw [hhist, List.tail_cons]

/-- A script that meets the guard is a run whose operations the guard allows. -/
theorem calmHistory_follows {H : Host} {G : Guard} {allowed : List World → Op → (Nat → Choice) → Prop}
    {script : List (World → Op)}
    (hall : ∀ w past op, G.Allows H (fun _ => .calm) op w → allowed (w :: past) op (fun _ => .calm))
    (h : G.Follows H World.empty script) : Run H allowed (calmHistory H script) := by
  have hfrom : ∀ w past, Run H allowed (w :: past) → G.Follows H w script → Run H allowed (script.foldl (fun past op =>
      match past with
      | [] => []
      | w :: _ => (op w).next H (fun _ => .calm) w :: past) (w :: past)) := by
    clear h
    induction script with
    | nil => exact fun _ _ hw _ => hw
    | cons op script ih =>
      intro w past hw h
      exact ih _ _ (.step _ _ hw (hall w past _ h.1)) h.2
  exact hfrom _ _ .start h

/-! ### Clients -/

/-- The client's signature of the host's view of a state. -/
def clientSig (H : Host) (key : SecretKey) (s : LastCrossSignedState) : Signature :=
  match s.hostedSigHash H.crypto with
  | .ok hash => H.crypto.signEcdsa hash key
  | .error _ => ByteVec.fill 64 0

def clientInvokes (H : Host) (key : SecretKey) (_ : World) : Op :=
  .message (publicOf key) .strict (.invokeHostedChannel ⟨H.config.chainHash, [1], []⟩)

/-- The client commits to all pending updates, or to the first state of the channel. -/
def clientCommits (H : Host) (key : SecretKey) (w : World) : Op :=
  match w.channel (publicOf key) with
  | none => .restart
  | some d => match StateManager.lcssNext H.crypto ⟨d.lcss, d.uncommitted⟩ with
    | .error _ => .restart
    | .ok next => .message (publicOf key) .strict (.stateUpdate
        { blockDay := calmDay
          localUpdates := next.remoteUpdates
          remoteUpdates := next.localUpdates
          localSigOfRemote := clientSig H key { next with blockDay := calmDay } })

theorem clientCommits_cases (H : Host) (key : SecretKey) (w : World) : clientCommits H key w = .restart ∨
    ∃ m, clientCommits H key w = .message (publicOf key) .strict (.stateUpdate m) := by
  unfold clientCommits
  split
  · exact Or.inl rfl
  · split
    · exact Or.inl rfl
    · exact Or.inr ⟨_, rfl⟩

/-- A state that the host has signed, with the client's signature and in the client's view. -/
def clientView (H : Host) (key : SecretKey) (s : LastCrossSignedState) : LastCrossSignedState :=
  { s with remoteSigOfLocal := clientSig H key s }.reverse

/-- The client presents the latest state but `n` that the host has signed for the channel of `peer`. -/
def clientShows (H : Host) (key : SecretKey) (peer : PublicKey) (n : Nat) (w : World) : Op :=
  match ((w.signed.reverse.filter (·.1 == peer)).drop n).head? with
  | none => .restart
  | some (_, s) => .message (publicOf key) .strict (.lastCrossSignedState (clientView H key s))

theorem clientShows_cases (H : Host) (key : SecretKey) (peer : PublicKey) (n : Nat) (w : World) :
    clientShows H key peer n w = .restart ∨ ∃ s, (peer, s) ∈ w.signed ∧
      clientShows H key peer n w = .message (publicOf key) .strict (.lastCrossSignedState (clientView H key s)) := by
  unfold clientShows
  split
  · exact Or.inl rfl
  · rename_i q s hs
    have hmem : (q, s) ∈ w.signed.reverse.filter (·.1 == peer) :=
      List.mem_of_mem_drop (List.mem_of_mem_head? (by rw [hs]; rfl))
    rw [List.mem_filter, List.mem_reverse] at hmem
    obtain rfl : q = peer := by simpa using hmem.2
    exact Or.inr ⟨s, hmem.1, rfl⟩

/-- A client with an open channel. -/
def openKey : SecretKey := ByteVec.fill 32 1
def openPeer : PublicKey := publicOf openKey
def openScript : List (World → Op) := [clientInvokes .transparent openKey, clientCommits .transparent openKey]

/-- A second client. -/
def otherKey : SecretKey := ByteVec.fill 32 2
def otherPeer : PublicKey := publicOf otherKey

theorem exists_of_any {α : Type} {o : Option α} {P : α → Bool} (h : o.any P = true) : ∃ a, o = some a ∧ P a = true := by
  cases o with
  | none => cases h
  | some a => exact ⟨a, rfl, h⟩

theorem eq_ok_of_toOption {ε α : Type} {x : Except ε α} {a : α} (h : x.toOption = some a) : x = .ok a := by
  cases x with
  | error e => cases h
  | ok b => exact congrArg Except.ok (Option.some.inj h)

/-- The client adds an HTLC whose onion asks to forward `amount` by `scid`. -/
def clientAdds (key : SecretKey) (id amount : UInt64) (hash : Hash) (scid : UInt64) (_ : World) : Op :=
  .message (publicOf key) .strict (.updateAddHtlc
    { channelId := ByteVec.fill 32 0
      id := id
      amountMsat := amount
      paymentHash := hash
      cltvExpiry := 1200
      onionRoutingPacket := plainOnion scid amount 1100
      tlvStream := [] })

/-- The client accepts the proposal that is pending. -/
def clientAccepts (H : Host) (key : SecretKey) (w : World) : Op :=
  match (w.channel (publicOf key)).bind (·.proposedOverride) with
  | none => .restart
  | some s => .message (publicOf key) .strict (.stateUpdate
      { blockDay := s.blockDay
        localUpdates := s.remoteUpdates
        remoteUpdates := s.localUpdates
        localSigOfRemote := clientSig H key s })

theorem clientAccepts_cases (H : Host) (key : SecretKey) (w : World) : clientAccepts H key w = .restart ∨
    ∃ m, clientAccepts H key w = .message (publicOf key) .strict (.stateUpdate m) := by
  unfold clientAccepts
  split
  · exact Or.inl rfl
  · exact Or.inr ⟨_, rfl⟩

/-- The host pays an invoice of the client. -/
def hostPays (n : UInt8) (_ : World) : Op :=
  .pay ⟨[Host.transparent.scid openPeer], 500, ByteVec.fill 32 n, 20, ByteVec.fill 32 n⟩

/-- The node hands the HTLC `id` of its channel 55 to the client, by a hook. -/
def hookOffers (hash : Hash) (id cltv : UInt64) (_ : World) : Op := .htlcAccepted
  { targetScid := some (Host.transparent.scid openPeer)
    amountMsat := some 1000
    forwardAmount := some 1000
    paymentHash := some hash
    cltvExpiry := some (cltv + 100)
    outgoingCltvValue := some cltv
    nextOnion := some (List.replicate 1366 0)
    htlcId := some id
    shortChannelId := some 55
    sharedSecret := some none }

def clientFulfills (key : SecretKey) (id : UInt64) (preimage : ByteVec 32) (_ : World) : Op :=
  .message (publicOf key) .strict (.updateFulfillHtlc ⟨ByteVec.fill 32 0, id, preimage, []⟩)

def clientFails (key : SecretKey) (id : UInt64) (_ : World) : Op :=
  .message (publicOf key) .strict (.updateFailHtlc ⟨ByteVec.fill 32 0, id, [1], []⟩)

def clientErrs (key : SecretKey) (_ : World) : Op :=
  .message (publicOf key) .strict (.error ⟨ByteVec.fill 32 0, [1], []⟩)

end Canopus
