import Canopus.Lib.Decimal
import Canopus.StoreKeys
import Canopus.Theorems.Subtrees
import Mathlib.Tactic.IntervalCases

/-! The keys of the records. Different records have different keys, no key goes on where another one ends, and no
    component has the separator of the store in memory. -/

namespace Canopus
open MemoryStore Decimal

variable {n m : Ns} {bs : Bytes} {e e' : EventId} {c : Char}

/-! ### Texts -/

theorem hexDigit_digitChar {d : Nat} (h : d < 16) : hexDigit d.digitChar = some (UInt8.ofNat d) := by
  interval_cases d <;> rfl

/-- What is printed is read back. -/
theorem hexDecode_hexEncode (bs : Bytes) : hexDecode (hexEncode bs).toList = some bs := by
  rw [hexEncode, String.toList_ofList]
  induction bs with
  | nil => rfl
  | cons b bs ih =>
    have hb := b.toNat_lt
    rw [List.flatMap_cons, List.cons_append, List.cons_append, List.nil_append, hexDecode,
      hexDigit_digitChar (by omega), hexDigit_digitChar (by omega), ih]
    have hsum : UInt8.ofNat (b.toNat / 16) * 16 + UInt8.ofNat (b.toNat % 16) = b := by
      apply UInt8.toNat_inj.mp
      simp only [UInt8.toNat_add, UInt8.toNat_mul, UInt8.toNat_ofNat', UInt8.reduceToNat]
      omega
    simp [hsum]

theorem hexEncode_inj {bs' : Bytes} (h : hexEncode bs = hexEncode bs') : bs = bs' := by
  have hback := hexDecode_hexEncode bs
  rw [h, hexDecode_hexEncode] at hback
  exact (Option.some.inj hback).symm

/-- Neither separator is a digit, decimal or not. -/
theorem not_separator_digitChar {d : Nat} (h : d < 16) : d.digitChar ≠ '/' ∧ d.digitChar ≠ ':' := by
  interval_cases d <;> decide

theorem not_separator_hex (hc : c ∈ (hexEncode bs).toList) : c ≠ '/' ∧ c ≠ ':' := by
  rw [hexEncode, String.toList_ofList] at hc
  obtain ⟨b, -, hc⟩ := List.mem_flatMap.mp hc
  have hb := b.toNat_lt
  rcases List.mem_pair.mp hc with rfl | rfl
  · exact not_separator_digitChar (by omega)
  · exact not_separator_digitChar (by omega)

theorem not_separator_nat {i : Nat} (hc : c ∈ (toString i).toList) : c ≠ '/' ∧ c ≠ ':' := by
  have hlist : (toString i).toList = (Numeral.ofNat i).digits := Nat.toList_repr
  have hdigit : c.isDigit := (Numeral.ofNat i).isDigit c (hlist ▸ hc)
  constructor
  · rintro rfl
    cases hdigit
  · rintro rfl
    cases hdigit

theorem toString_inj {i j : Nat} (h : toString i = toString j) : i = j := by
  have hi := Numeral.value_ofNat i
  have hlist : (Numeral.ofNat i).digits = (Numeral.ofNat j).digits :=
    Nat.toList_repr.symm.trans ((congrArg String.toList h).trans Nat.toList_repr)
  rw [Numeral.value, hlist] at hi
  exact hi.symm.trans (Numeral.value_ofNat j)

theorem toString_ne_empty (i : Nat) : toString i ≠ "" := Nat.repr_ne_empty

/-! ### Event ids -/

/-- The components of the text. -/
def EventId.parts (e : EventId) : List String :=
  hexEncode e.peer.toList :: toString e.localUpdates.toNat :: toString e.remoteUpdates.toNat :: e.tag.parts

theorem not_separator_tag {tag : EventTag} {part : String} (hp : part ∈ tag.parts) (hc : c ∈ part.toList) :
    c ≠ '/' ∧ c ≠ ':' := by
  have name {text : String} (hall : text.toList.all fun c => c != '/' && c != ':') (hc : c ∈ text.toList) :
      c ≠ '/' ∧ c ≠ ':' := by
    simpa using List.all_eq_true.mp hall c hc
  cases tag with
  | channelOpen | override =>
    obtain rfl := List.mem_singleton.mp hp
    exact name (by decide) hc
  | resize | localAdd | remoteAdd | localFulfill | remoteFulfill | localFail | remoteFail =>
    rcases List.mem_pair.mp hp with rfl | rfl
    · exact name (by decide) hc
    · exact not_separator_nat hc

theorem not_separator_part {part : String} (hp : part ∈ e.parts) (hc : c ∈ part.toList) : c ≠ '/' ∧ c ≠ ':' := by
  simp only [EventId.parts, List.mem_cons] at hp
  rcases hp with rfl | rfl | rfl | hp
  · exact not_separator_hex hc
  · exact not_separator_nat hc
  · exact not_separator_nat hc
  · exact not_separator_tag hp hc

theorem splitOn_text (e : EventId) : e.text.toList.splitOn ':' = e.parts.map String.toList := by
  show (":".intercalate e.parts).toList.splitOn ':' = _
  rw [String.toList_intercalate]
  refine List.splitOn_intercalate ':' ?_ (by simp [EventId.parts])
  intro text htext hmem
  obtain ⟨part, hpart, rfl⟩ := List.mem_map.mp htext
  exact (not_separator_part hpart hmem).2 rfl

theorem tag_parts_inj {tag tag' : EventTag} (h : tag.parts = tag'.parts) : tag = tag' := by
  have number {i j : UInt64} {name name' : String}
      (h : [name, toString i.toNat] = [name', toString j.toNat]) : i = j := by
    obtain ⟨-, h⟩ := List.cons.inj h
    exact UInt64.toNat_inj.mp (toString_inj (List.cons.inj h).1)
  cases tag <;> cases tag' <;> first
    | rfl
    | exact congrArg _ (number h)
    | exact absurd (List.cons.inj h).1 (by decide)

/-- Different events have different texts. -/
theorem text_inj (h : e.text = e'.text) : e = e' := by
  have hparts : e.parts = e'.parts := by
    refine List.map_injective_iff.mpr (fun _ _ => String.toList_injective) ?_
    rw [← splitOn_text, ← splitOn_text, h]
  obtain ⟨peer, localUpdates, remoteUpdates, tag⟩ := e
  obtain ⟨peer', localUpdates', remoteUpdates', tag'⟩ := e'
  obtain ⟨hpeer, hparts⟩ := List.cons.inj hparts
  obtain ⟨hlocal, hparts⟩ := List.cons.inj hparts
  obtain ⟨hremote, htag⟩ := List.cons.inj hparts
  obtain rfl := List.Vector.toList_injective (hexEncode_inj hpeer)
  obtain rfl := UInt32.toNat_inj.mp (toString_inj hlocal)
  obtain rfl := UInt32.toNat_inj.mp (toString_inj hremote)
  obtain rfl := tag_parts_inj htag
  rfl

/-- The text of an event id is one component. -/
theorem not_slash_text (hc : c ∈ e.text.toList) : c ≠ '/' := by
  have hc : c ∈ (":".intercalate e.parts).toList := hc
  rw [String.toList_intercalate] at hc
  rintro rfl
  have hsplit : ∀ parts : List (List Char), (∀ part ∈ parts, '/' ∉ part) → '/' ∉ [':'].intercalate parts := by
    intro parts
    induction parts with
    | nil => simp
    | cons part parts ih =>
      intro hparts
      cases parts with
      | nil => simpa using hparts part
      | cons part' parts =>
        rw [List.intercalate_cons_cons]
        simp only [List.mem_append, List.mem_singleton, not_or]
        exact ⟨⟨hparts part (by simp), by decide⟩, ih fun p hp => hparts p (by simp [hp])⟩
  refine hsplit _ ?_ hc
  intro text htext hmem
  obtain ⟨part, hpart, rfl⟩ := List.mem_map.mp htext
  exact (not_separator_part hpart hmem).1 rfl

/-! ### Records -/

/-- The key is that of a record. -/
def IsRecord (key : Key) : Prop := ∃ n k, key = recordKey n k

theorem recordKey_inj {k : n.Key} {j : m.Key} (h : recordKey n k = recordKey m j) :
    (⟨n, k⟩ : Σ n : Ns, n.Key) = ⟨m, j⟩ := by
  cases n <;> cases m <;> simp only [recordKey, channelKey, secretKey, forwardKey, policyKey, metaKey, ledgerKey, markerKey,
    List.cons.injEq, and_true, true_and, reduceCtorEq, and_false, false_and, String.reduceEq] at h
  case channels => rw [List.Vector.toList_injective (hexEncode_inj h)]
  case secrets => rw [hexEncode_inj h]
  case htlcForwards =>
    rw [Prod.ext (UInt64.toNat_inj.mp (toString_inj h.1)) (UInt64.toNat_inj.mp (toString_inj h.2))]
  case policy | metadata => rfl
  case ledger => rw [UInt64.toNat_inj.mp (toString_inj h)]
  case ledgerEventIds => rw [text_inj h]

/-- No key goes on where another one ends. -/
theorem IsRecord.eq_of_extends {key other : Key} (hkey : IsRecord key) (hother : IsRecord other) (h : key <+: other) :
    key = other := by
  obtain ⟨n, k, rfl⟩ := hkey
  obtain ⟨m, j, rfl⟩ := hother
  cases n <;> cases m <;> simp only [recordKey, channelKey, secretKey, forwardKey, policyKey, metaKey, ledgerKey, markerKey,
    List.cons_prefix_cons, List.nil_prefix, List.prefix_nil, and_true, true_and, reduceCtorEq, and_false, false_and,
    String.reduceEq] at h ⊢
  all_goals simp [h]

/-- The components of keys: names, hex, numbers and the texts of event ids. -/
theorem record_parts {P : String → Prop} {k : n.Key}
    (hname : ∀ name ∈ ["canopus", "channels", "secrets", "htlc_forwards", "policy", "meta", "ledger", "ledger_event_ids"],
      P name)
    (hpeer : ∀ peer : PublicKey, P (hexEncode peer.toList))
    (hsecret : ∀ secret, (⟨n, k⟩ : Σ n : Ns, n.Key) = ⟨.secrets, secret⟩ → P (hexEncode secret))
    (hnat : ∀ i : Nat, P (toString i)) (htext : ∀ e : EventId, P e.text) : ∀ part ∈ recordKey n k, P part := by
  simp only [List.forall_mem_cons, List.not_mem_nil, false_implies, implies_true, and_true] at hname
  obtain ⟨hcanopus, hchannels, hsecrets, hforwards, hpolicy, hmeta, hledger, hids⟩ := hname
  cases n <;> simp only [recordKey, channelKey, secretKey, forwardKey, policyKey, metaKey, ledgerKey, markerKey,
    List.forall_mem_cons, List.not_mem_nil, false_implies, implies_true, and_true]
  case channels => exact ⟨hcanopus, hchannels, hpeer _⟩
  case secrets => exact ⟨hcanopus, hsecrets, hsecret _ rfl⟩
  case htlcForwards => exact ⟨hcanopus, hforwards, hnat _, hnat _⟩
  case policy => exact ⟨hcanopus, hpolicy⟩
  case metadata => exact ⟨hcanopus, hmeta⟩
  case ledger => exact ⟨hcanopus, hledger, hnat _⟩
  case ledgerEventIds => exact ⟨hcanopus, hids, htext _⟩

theorem not_slash_record {key : Key} (h : IsRecord key) : ∀ part ∈ key, '/' ∉ part.toList := by
  obtain ⟨n, k, rfl⟩ := h
  have hhex (bs : Bytes) : '/' ∉ (hexEncode bs).toList := fun hmem => (not_separator_hex hmem).1 rfl
  exact record_parts (by decide) (fun _ => hhex _) (fun _ _ => hhex _) (fun _ hmem => (not_separator_nat hmem).1 rfl)
    fun _ hmem => not_slash_text hmem rfl

/-- Records are stored under keys without an empty component: there is no empty secret. -/
def Storable : (n : Ns) → n.Key → Prop
  | .secrets, secret => secret ≠ []
  | _, _ => True

theorem hexEncode_ne_empty (h : bs ≠ []) : hexEncode bs ≠ "" := fun he =>
  h (hexEncode_inj (show hexEncode bs = hexEncode [] from he))

theorem text_ne_empty (e : EventId) : e.text ≠ "" := by
  intro h
  have hsplit := splitOn_text e
  rw [h] at hsplit
  have hlen := congrArg List.length hsplit
  rw [List.length_map] at hlen
  exact absurd hlen (by simp [EventId.parts])

theorem validKey_record {k : n.Key} (h : Storable n k) : ValidKey (recordKey n k) := by
  have hempty : ∀ part ∈ recordKey n k, part ≠ "" := by
    refine record_parts (by decide) (fun peer => hexEncode_ne_empty fun hnil => ?_) ?_ toString_ne_empty text_ne_empty
    · have hlen := List.Vector.toList_length peer
      rw [hnil] at hlen
      cases hlen
    · rintro secret hk
      cases hk
      exact hexEncode_ne_empty h
  exact fun part hpart => ⟨hempty part hpart, not_slash_record ⟨n, k, rfl⟩ part hpart⟩

end Canopus
