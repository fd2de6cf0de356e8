import Canopus.Lib.Crowd
import Canopus.Theorems.Scanning

/-! The scanner of blocks while its methods run at the same time. Two scans may fetch one block, and the height up to
    which blocks have been scanned may go back, but no height below it has been left out, and what a scan returns is
    what the blocks that it has fetched publish of the hashes that it has found watched. -/

namespace Canopus.PreimageScanner
open Effect Scanner

variable {C : Crypto} {deserialize : Bytes → Option Block} {hashes : Finset Hash} {h : List (Crowd.Event iface)}
  {s : Fields} {x : Answers} {c : Call} {i k : Nat}

/-- An output of the block publishes the preimage of a watched hash. -/
def BlockPublishes (C : Crypto) (deserialize : Bytes → Option Block) (hashes : Finset Hash) (blockHex : String)
    (preimage : ByteVec 32) : Prop :=
  ∃ bytes block, hexDecode blockHex.toList = some bytes ∧ deserialize bytes = some block ∧
    ∃ tx ∈ block.txdata, ∃ output ∈ tx.output, Publishes C hashes output.scriptPubkey preimage

/-- What the calls so far have left watched. -/
def watched (h : List (Crowd.Event iface)) : Finset Hash :=
  h.foldl (fun hashes e => match e.call with
    | .insertInflightHash paymentHash => insert paymentHash hashes
    | .removeInflightHash paymentHash => hashes.erase paymentHash
    | _ => hashes) ∅

/-! ### One scan -/

/-- Where a method is. A scan knows the height up to which no block has been left out, and keeps the blocks that it has
    fetched, with the hashes that it looks for in them. -/
inductive Phase where
  | start
  | asked
  | begun (upTo : UInt32)
  | scanning (hashes : Finset Hash) (blocks : List (UInt32 × String)) (upTo : UInt32)
  | changing
  | ended

def Phase.upTo : Phase → Nat
  | .begun upTo | .scanning _ _ upTo => upTo.toNat
  | _ => 0

def Phase.blocks : Phase → List (UInt32 × String)
  | .scanning _ blocks _ => blocks
  | _ => []

/-- Which calls take a method from one phase to another one. A scan goes up by one height at a time. -/
inductive ScanStep : Protocol iface Phase
  | unreached {e : NodeError} : ScanStep .start .getBlockHeight (.error e) .ended
  | asked {height : UInt32} : ScanStep .start .getBlockHeight (.ok height) .asked
  | upToDate {last : UInt32} : ScanStep .asked .loadLastScannedHeight last .ended
  | begun {last : UInt32} : ScanStep .asked .loadLastScannedHeight last (.begun last)
  | read {upTo : UInt32} {hashes : Finset Hash} :
    ScanStep (.begun upTo) .cloneInflightHashes hashes (.scanning hashes [] upTo)
  | missed {hashes : Finset Hash} {blocks : List (UInt32 × String)} {upTo height : UInt32} {e : NodeError} :
    ScanStep (.scanning hashes blocks upTo) (.getRawBlockByHeight height) (.error e) (.scanning hashes blocks upTo)
  | fetched {hashes : Finset Hash} {blocks : List (UInt32 × String)} {upTo height : UInt32} {blockHex : String}
      (hnext : height.toNat = upTo.toNat + 1) :
    ScanStep (.scanning hashes blocks upTo) (.getRawBlockByHeight height) (.ok blockHex)
      (.scanning hashes (blocks ++ [(height, blockHex)]) height)
  | stored {hashes : Finset Hash} {blocks : List (UInt32 × String)} {upTo : UInt32} :
    ScanStep (.scanning hashes blocks upTo) (.storeLastScannedHeight upTo) () (.scanning hashes blocks upTo)
  | watched {paymentHash : Hash} : ScanStep .changing (.insertInflightHash paymentHash) () .ended
  | unwatched {paymentHash : Hash} : ScanStep .changing (.removeInflightHash paymentHash) () .ended

/-- What the blocks publish. -/
def Finds (C : Crypto) (deserialize : Bytes → Option Block) (hashes : Finset Hash) (blocks : List (UInt32 × String))
    (found : List (ByteVec 32)) : Prop :=
  ∀ preimage, preimage ∈ found ↔ ∃ b ∈ blocks, BlockPublishes C deserialize hashes b.2 preimage

/-- What a method returns. -/
def ScanReturn (C : Crypto) (deserialize : Bytes → Option Block) : Phase → Option (List (ByteVec 32)) → Prop
  | .scanning hashes blocks _, r => ∃ found, r = some found ∧ Finds C deserialize hashes blocks found ∧
    found.Pairwise fun a b => Bytes.le a.toList b.toList = true ∧ a ≠ b
  | .ended, r => r = some []
  | _, _ => False

theorem Finds.fetched {blocks : List (UInt32 × String)} {found preimages : List (ByteVec 32)} {height : UInt32}
    {blockHex : String} (hfound : Finds C deserialize hashes blocks found)
    (hpreimages : ∀ preimage, preimage ∈ preimages ↔ BlockPublishes C deserialize hashes blockHex preimage) :
    Finds C deserialize hashes (blocks ++ [(height, blockHex)]) (found ++ preimages) := by
  intro preimage
  rw [List.mem_append, hfound preimage, hpreimages preimage]
  simp only [List.mem_append, List.mem_singleton]
  constructor
  · rintro (⟨b, hb, hpublishes⟩ | hpublishes)
    · exact ⟨b, Or.inl hb, hpublishes⟩
    · exact ⟨_, Or.inr rfl, hpublishes⟩
  · rintro ⟨b, hb | rfl, hpublishes⟩
    · exact Or.inl ⟨b, hb, hpublishes⟩
    · exact Or.inr hpublishes

/-- The loop goes on from the height that it has come to. -/
theorem follows_scanHeights (heights : List UInt32) : ∀ (found : List (ByteVec 32)) (blocks : List (UInt32 × String))
    (upTo : UInt32), heights.map (·.toNat) = List.range' (upTo.toNat + 1) heights.length →
    Finds C deserialize hashes blocks found →
    Prog.Follows ScanStep (scanHeights C deserialize hashes heights found)
      (fun ph r => ∃ found blocks upTo, r = some found ∧ ph = .scanning hashes blocks upTo ∧
        Finds C deserialize hashes blocks found) (.scanning hashes blocks upTo) := by
  induction heights with
  | nil => exact fun found blocks upTo _ hfound => ⟨found, blocks, upTo, rfl, rfl, hfound⟩
  | cons height heights ih =>
    intro found blocks upTo hheights hfound
    rw [List.map_cons, List.length_cons, List.range'_succ] at hheights
    obtain ⟨hnext, hrest⟩ := List.cons.inj hheights
    refine Prog.Follows.bind fun r => ?_
    cases r with
    | error e => exact ⟨_, .missed, found, blocks, upTo, rfl, rfl, hfound⟩
    | ok blockHex =>
      obtain ⟨preimages, heq, -, hpreimages⟩ := scanBlockForPreimages_eq_some C hashes deserialize blockHex
      refine ⟨_, .fetched hnext, ?_⟩
      simp only [Prog.Follows, heq]
      refine Prog.Follows.bind fun _ => ⟨_, .stored, ?_⟩
      exact ih _ _ _ (by rw [hrest, hnext]) (hfound.fetched hpreimages)

theorem toNat_newHeights {last current : UInt32} (hlt : last.toNat < current.toNat) :
    (newHeights last current).map (·.toNat) = List.range' (last.toNat + 1) (newHeights last current).length := by
  have hcurrent := current.toNat_lt
  simp only [newHeights, List.map_map, List.length_map, List.length_range, List.range'_eq_map_range]
  refine List.map_congr_left fun n hn => ?_
  have hn := List.mem_range.mp hn
  simp only [Function.comp_apply]
  rw [UInt32.toNat_ofNat_of_lt' (by simp only [UInt32.size]; omega)]

theorem follows_scanOnce : Prog.Follows ScanStep (scanOnce C deserialize) (ScanReturn C deserialize) .start := by
  refine Prog.Follows.bind fun r => ?_
  cases r with
  | error e => exact ⟨_, .unreached, rfl⟩
  | ok current =>
    refine ⟨_, .asked, Prog.Follows.bind fun (last : UInt32) => ?_⟩
    by_cases hle : current ≤ last
    · refine ⟨_, .upToDate, ?_⟩
      simp only [Prog.Follows, if_pos hle]
      rfl
    · refine ⟨_, .begun, ?_⟩
      simp only [Prog.Follows, if_neg hle]
      refine Prog.Follows.bind fun hashes => ⟨_, .read, Prog.Follows.bind ?_⟩
      have hlt : last.toNat < current.toNat := UInt32.lt_iff_toNat_lt.mp (UInt32.not_le.mp hle)
      refine Prog.Follows.mono ?_ (follows_scanHeights _ [] [] last (toNat_newHeights hlt) ?_)
      · rintro ph r ⟨found, blocks, upTo, rfl, rfl, hfound⟩
        let le : ByteVec 32 → ByteVec 32 → Prop := fun a b => Bytes.le a.toList b.toList = true
        have htotal : Std.Total le := ⟨fun a b => bytesLe_total a.toList b.toList⟩
        have htrans : IsTrans (ByteVec 32) le := ⟨fun _ _ _ hab hbc => bytesLe_trans hab hbc⟩
        have hanti : ∀ a b, le a b → le b a → a = b := fun a b hab hba =>
          List.Vector.toList_injective (bytesLe_antisymm hab hba)
        refine ⟨_, rfl, ?_, pairwise_dedup hanti (List.pairwise_insertionSort le _)⟩
        intro preimage
        rw [mem_dedup, List.mem_insertionSort]
        exact hfound preimage
      · simp [Finds]

/-! ### Scans at the same time -/

variable {phs : List Phase}

/-- Some scan has fetched the block at the height. -/
def Fetched (phs : List Phase) (k : Nat) : Prop :=
  ∃ (i : Nat) (ph : Phase) (b : UInt32 × String), phs[i]? = some ph ∧ b ∈ ph.blocks ∧ b.1.toNat = k

/-- A scan has found the hashes watched and has then fetched the block. -/
def Scanned (h : List (Crowd.Event iface)) (i : Nat) (hashes : Finset Hash) (b : UInt32 × String) : Prop :=
  ∃ before after, h = before ++ ⟨i, .cloneInflightHashes, hashes⟩ :: after ∧ hashes = watched before ∧
    ⟨i, .getRawBlockByHeight b.1, .ok b.2⟩ ∈ after

theorem Scanned.append {b : UInt32 × String} (hb : Scanned h i hashes b) (e : Crowd.Event iface) :
    Scanned (h ++ [e]) i hashes b := by
  obtain ⟨before, after, rfl, hwatched, hmem⟩ := hb
  exact ⟨before, after ++ [e], by simp, hwatched, List.mem_append_left _ hmem⟩

/-- The scan has found the hashes watched at some time. -/
def Read (h : List (Crowd.Event iface)) (i : Nat) (hashes : Finset Hash) : Prop :=
  ∃ before after, h = before ++ ⟨i, .cloneInflightHashes, hashes⟩ :: after ∧ hashes = watched before

theorem Read.append (hr : Read h i hashes) (e : Crowd.Event iface) : Read (h ++ [e]) i hashes := by
  obtain ⟨before, after, rfl, hwatched⟩ := hr
  exact ⟨before, after ++ [e], by simp, hwatched⟩

theorem Read.fetched (hr : Read h i hashes) (height : UInt32) (blockHex : String) :
    Scanned (h ++ [⟨i, .getRawBlockByHeight height, .ok blockHex⟩]) i hashes (height, blockHex) := by
  obtain ⟨before, after, rfl, hwatched⟩ := hr
  exact ⟨before, after ++ [_], by simp, hwatched, List.mem_append_right _ (List.mem_singleton_self _)⟩

/-- The fields, and what the scans have noted, against the calls that have been made. -/
structure ScannerKept (h : List (Crowd.Event iface)) (phs : List Phase) (s : Fields) : Prop where
  watched : s.inflightHashes = watched h
  last : ∀ k, 0 < k → k ≤ s.lastScannedHeight.toNat → Fetched phs k
  upTo : ∀ (i : Nat) (ph : Phase), phs[i]? = some ph → ∀ k, 0 < k → k ≤ ph.upTo → Fetched phs k
  read : ∀ (i : Nat) hashes blocks upTo, phs[i]? = some (.scanning hashes blocks upTo) → Read h i hashes
  scanned : ∀ (i : Nat) hashes blocks upTo, phs[i]? = some (.scanning hashes blocks upTo) → ∀ b ∈ blocks, Scanned h i hashes b

/-- A scan forgets no block. -/
theorem ScanStep.blocks {ph ph' : Phase} {r : c.Ans} (hstep : ScanStep ph c r ph') : ph.blocks ⊆ ph'.blocks := by
  cases hstep with
  | fetched => exact List.subset_append_left _ _
  | _ => exact fun _ hb => hb

theorem Fetched.set {ph ph' : Phase} (hk : Fetched phs k) (hph : phs[i]? = some ph) (hb : ph.blocks ⊆ ph'.blocks) :
    Fetched (phs.set i ph') k := by
  obtain ⟨j, ph₀, b, hj, hmem, hheight⟩ := hk
  by_cases hij : i = j
  · subst hij
    obtain rfl := Option.some.inj (hph.symm.trans hj)
    exact ⟨i, ph', b, by rw [Crowd.phase_set hph, if_pos rfl], hb hmem, hheight⟩
  · exact ⟨j, ph₀, b, by rw [Crowd.phase_set hph, if_neg hij, hj], hmem, hheight⟩

/-- A scan gets on by what has been stored, or by the block that it has just fetched. -/
theorem ScanStep.upTo {ph ph' : Phase} (hstep : ScanStep ph c (exec x c s).1 ph') :
    ph'.upTo ≤ ph.upTo ∨ ph'.upTo = s.lastScannedHeight.toNat ∨
      ph'.upTo = ph.upTo + 1 ∧ ∃ b ∈ ph'.blocks, b.1.toNat = ph'.upTo := by
  generalize hr : (exec x c s).1 = r at hstep
  cases hstep with
  | begun =>
    cases hr
    exact Or.inr (Or.inl rfl)
  | fetched hnext =>
    exact Or.inr (Or.inr ⟨hnext, _, List.mem_append_right _ (List.mem_singleton_self _), rfl⟩)
  | upToDate | unreached | asked | watched | unwatched => exact Or.inl (Nat.zero_le _)
  | read | missed | stored => exact Or.inl (Nat.le_refl _)

/-- The height that is stored is one that a scan has come to. -/
theorem ScanStep.last {ph ph' : Phase} (hstep : ScanStep ph c (exec x c s).1 ph') :
    (exec x c s).2.lastScannedHeight = s.lastScannedHeight ∨ (exec x c s).2.lastScannedHeight.toNat = ph.upTo := by
  generalize (exec x c s).1 = r at hstep
  cases hstep with
  | stored => exact Or.inr rfl
  | _ => exact Or.inl rfl

theorem watched_append (e : Crowd.Event iface) (hs : s.inflightHashes = watched h) (he : e = ⟨i, c, (exec x c s).1⟩) :
    (exec x c s).2.inflightHashes = watched (h ++ [e]) := by
  subst he
  rw [watched, List.foldl_append, ← watched, ← hs]
  cases c <;> rfl

theorem ScannerKept.step {ph ph' : Phase} (hk : ScannerKept h phs s) (hph : phs[i]? = some ph)
    (hstep : ScanStep ph c (exec x c s).1 ph') :
    ScannerKept (h ++ [⟨i, c, (exec x c s).1⟩]) (phs.set i ph') (exec x c s).2 := by
  have hset {k : Nat} (hfetched : Fetched phs k) : Fetched (phs.set i ph') k := hfetched.set hph hstep.blocks
  constructor
  case watched => exact watched_append _ hk.watched rfl
  case last =>
    intro k hpos hle
    rcases hstep.last with heq | heq
    · exact hset (hk.last k hpos (heq ▸ hle))
    · exact hset (hk.upTo i ph hph k hpos (heq ▸ hle))
  case upTo =>
    intro j ph₀ hj k hpos hle
    rcases Crowd.of_phase_set hph hj with ⟨rfl, rfl⟩ | ⟨-, hj⟩
    · rcases hstep.upTo with hold | hlast | ⟨hnext, b, hb, hheight⟩
      · exact hset (hk.upTo i ph hph k hpos (hle.trans hold))
      · exact hset (hk.last k hpos (hlast ▸ hle))
      · rcases Nat.lt_or_ge ph.upTo k with hlt | hge
        · exact ⟨i, ph', b, hj, hb, by omega⟩
        · exact hset (hk.upTo i ph hph k hpos hge)
    · exact hset (hk.upTo j ph₀ hj k hpos hle)
  case read =>
    intro j hashes blocks upTo hj
    rcases Crowd.of_phase_set hph hj with ⟨rfl, rfl⟩ | ⟨-, hj⟩
    · generalize hr : (exec x c s).1 = r at hstep
      cases hstep with
      | read =>
        cases hr
        exact ⟨h, [], rfl, hk.watched⟩
      | missed | fetched | stored => exact (hk.read i _ _ _ hph).append _
    · exact (hk.read j _ _ _ hj).append _
  case scanned =>
    intro j hashes blocks upTo hj b hb
    rcases Crowd.of_phase_set hph hj with ⟨rfl, rfl⟩ | ⟨-, hj⟩
    · generalize (exec x c s).1 = r at hstep
      cases hstep with
      | read => cases hb
      | missed | stored => exact (hk.scanned i _ _ _ hph b hb).append _
      | fetched =>
        rcases List.mem_append.mp hb with hb | hb
        · exact (hk.scanned i _ _ _ hph b hb).append _
        · obtain rfl := List.mem_singleton.mp hb
          exact (hk.read i _ _ _ hph).fetched _ _
    · exact (hk.scanned j _ _ _ hj b hb).append _

/-! ### The scanner -/

/-- The methods, none of which has made a call. -/
def scannerCrowd (C : Crypto) (deserialize : Bytes → Option Block) (methods : List Method) :
    Crowd iface (Option (List (ByteVec 32))) Fields :=
  ⟨methods.map (·.program C deserialize), new⟩

def Method.phase : Method → Phase
  | scanOnce => .start
  | watch _ | unwatch _ => .changing

theorem scannerCrowd_follows (methods : List Method) :
    (scannerCrowd C deserialize methods).Follows ScanStep (ScanReturn C deserialize) (methods.map Method.phase) := by
  show List.Forall₂ _ (methods.map _) (methods.map _)
  induction methods with
  | nil => exact .nil
  | cons m methods ih =>
    refine .cons ?_ ih
    cases m with
    | scanOnce => exact follows_scanOnce
    | watch paymentHash => exact fun _ => ⟨_, .watched, rfl⟩
    | unwatch paymentHash => exact fun _ => ⟨_, .unwatched, rfl⟩

theorem scannerKept_start (methods : List Method) : ScannerKept [] (methods.map Method.phase) new := by
  have hphase {i : Nat} {ph : Phase} (hi : (methods.map Method.phase)[i]? = some ph) : ph = .start ∨ ph = .changing := by
    rw [List.getElem?_map] at hi
    obtain ⟨m, -, rfl⟩ := Option.map_eq_some_iff.mp hi
    cases m with
    | scanOnce => exact Or.inl rfl
    | watch | unwatch => exact Or.inr rfl
  refine ⟨rfl, ?_, ?_, ?_, ?_⟩
  · intro k hpos hle
    exact absurd hle (Nat.not_le.mpr hpos)
  · intro i ph hi k hpos hle
    rcases hphase hi with rfl | rfl
    · exact absurd hle (Nat.not_le.mpr hpos)
    · exact absurd hle (Nat.not_le.mpr hpos)
  · intro i hashes blocks upTo hi
    rcases hphase hi with h | h <;> cases h
  · intro i hashes blocks upTo hi
    rcases hphase hi with h | h <;> cases h

/-- However scans and changes of the watched hashes interleave, and whatever the node answers, every height up to the
    last scanned one is that of a block which some scan has fetched, and which it reports in full when it returns: each
    preimage that the block publishes of a hash which the scan has found watched. Scans report nothing else, each
    preimage once and in order, and do not panic. -/
theorem scanner_misses_nothing (C : Crypto) (deserialize : Bytes → Option Block) (methods : List Method)
    (schedule : List (Nat × Answers)) :
    let s := Crowd.run exec schedule (scannerCrowd C deserialize methods)
    let h := Crowd.history exec schedule (scannerCrowd C deserialize methods)
    (∀ height, 0 < height → height ≤ s.world.lastScannedHeight → ∃ i hashes blockHex,
      Scanned h i hashes (height, blockHex) ∧
      ∀ r, s.Returned i r → ∃ found, r = some found ∧
        ∀ preimage, BlockPublishes C deserialize hashes blockHex preimage → preimage ∈ found) ∧
    ∀ i r, s.Returned i r → ∃ found, r = some found ∧
      (found.Pairwise fun a b => Bytes.le a.toList b.toList = true ∧ a ≠ b) ∧
      ∀ preimage ∈ found, ∃ hashes b, Scanned h i hashes b ∧ BlockPublishes C deserialize hashes b.2 preimage := by
  intro s h
  have hstep (h : List (Crowd.Event iface)) (phs : List Phase) (s : Fields) (i : Nat) (ph : Phase) (c : Call)
      (x : Answers) (ph' : Phase) (hph : phs[i]? = some ph) (hk : ScannerKept h phs s)
      (hmove : ScanStep ph c (exec x c s).1 ph') :
      ScannerKept (h ++ [⟨i, c, (exec x c s).1⟩]) (phs.set i ph') (exec x c s).2 := hk.step hph hmove
  obtain ⟨phs, hfollows, hkept⟩ :=
    Crowd.run_history hstep schedule (scannerCrowd_follows methods) (scannerKept_start methods)
  rw [List.nil_append] at hkept
  constructor
  · intro height hpos hle
    obtain ⟨i, ph, ⟨height', blockHex⟩, hi, hb, hheight⟩ :=
      hkept.last height.toNat (UInt32.lt_iff_toNat_lt.mp hpos) (UInt32.le_iff_toNat_le.mp hle)
    obtain rfl := UInt32.toNat_inj.mp hheight
    cases ph with
    | scanning hashes blocks upTo =>
      refine ⟨i, hashes, blockHex, hkept.scanned i _ _ _ hi _ hb, ?_⟩
      intro r hr
      obtain ⟨ph, hph, hreturn⟩ := hfollows.of_returned hr
      obtain rfl := Option.some.inj (hi.symm.trans hph)
      obtain ⟨found, rfl, hfound, -⟩ := hreturn
      exact ⟨found, rfl, fun preimage hpublishes => (hfound preimage).mpr ⟨_, hb, hpublishes⟩⟩
    | _ => cases hb
  · intro i r hr
    obtain ⟨ph, hi, hreturn⟩ := hfollows.of_returned hr
    cases ph with
    | scanning hashes blocks upTo =>
      obtain ⟨found, rfl, hfound, hsorted⟩ := hreturn
      refine ⟨found, rfl, hsorted, ?_⟩
      intro preimage hmem
      obtain ⟨b, hb, hpublishes⟩ := (hfound preimage).mp hmem
      exact ⟨hashes, b, hkept.scanned i _ _ _ hi b hb, hpublishes⟩
    | ended =>
      obtain rfl := hreturn
      exact ⟨[], rfl, .nil, fun _ hmem => by cases hmem⟩
    | _ => cases hreturn

end Canopus.PreimageScanner
