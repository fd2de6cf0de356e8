import Canopus.Scanner
import Canopus.Theorems.RoundTrip

/-! The scanner of published preimages against the grammar of scripts: a script is a sequence of pushes and other
    opcodes, of which the last push may be cut off. What is collected is what the whole pushes carry. -/

namespace Canopus.Scanner

/-! ### The grammar -/

/-- How the length of a push is written. -/
inductive PushForm where
  | direct
  | pushData1
  | pushData2
  | pushData4

namespace PushForm

/-- The number of bytes of the length. -/
def width : PushForm → Nat
  | direct => 0
  | pushData1 => 1
  | pushData2 => 2
  | pushData4 => 4

/-- The lengths that the form can write, in the fewest bytes or not. -/
def Fits : PushForm → Nat → Prop
  | direct, n => 1 ≤ n ∧ n ≤ 75
  | form, n => n < 256 ^ form.width

def opcode : PushForm → Nat → UInt8
  | direct, n => UInt8.ofNat n
  | pushData1, _ => 0x4c
  | pushData2, _ => 0x4d
  | pushData4, _ => 0x4e

end PushForm

/-- A push, or an opcode that pushes no data. -/
inductive Instruction where
  | push (form : PushForm) (data : Bytes) (fits : form.Fits data.length)
  | other (opcode : UInt8) (noPush : opcode = 0 ∨ 0x4e < opcode)

namespace Instruction

def encode : Instruction → Bytes
  | push form data _ => form.opcode data.length :: (leBytes form.width data.length ++ data)
  | other opcode _ => [opcode]

/-- The 32-byte chunks of a push whose length is a multiple of 32 and not zero. -/
def values : Instruction → List Bytes
  | push _ data _ => if data.length ≠ 0 ∧ data.length % 32 = 0 then chunksExact 32 data else []
  | other _ _ => []

end Instruction

/-- What may come after the last whole instruction: the beginning of a push. -/
def Truncated (tail : Bytes) : Prop :=
  ∃ form data fits, tail <+: (Instruction.push form data fits).encode ∧
    tail.length < (Instruction.push form data fits).encode.length

/-! ### Lengths -/

@[simp] theorem leBytes_length (n v : Nat) : (leBytes n v).length = n := by
  rw [leBytes, List.length_reverse, beBytes_length]

theorem leNat_leBytes {n v : Nat} (h : v < 256 ^ n) : leNat (leBytes n v) = v := by
  rw [leNat, leBytes, List.reverse_reverse, beNat_beBytes h]

theorem leBytes_leNat (u : Bytes) : leBytes u.length (leNat u) = u := by
  have h := beBytes_beNat u.reverse
  rw [List.length_reverse] at h
  rw [leBytes, leNat, h, List.reverse_reverse]

theorem leNat_lt (u : Bytes) : leNat u < 256 ^ u.length := by
  rw [← List.length_reverse]
  exact beNat_lt u.reverse

/-- A length is written in the bytes that are there, or begun in them. -/
theorem split_length (n : Nat) (script : Bytes) :
    (∃ v, v < 256 ^ n ∧ ∃ rest, script = leBytes n v ++ rest) ∨
      ∃ v, v < 256 ^ n ∧ script <+: leBytes n v ∧ script.length < n := by
  rcases Nat.lt_or_ge script.length n with h | h
  · have hlen : (script ++ List.replicate (n - script.length) 0).length = n := by
      rw [List.length_append, List.length_replicate]
      omega
    have hback := leBytes_leNat (script ++ List.replicate (n - script.length) 0)
    have hlt := leNat_lt (script ++ List.replicate (n - script.length) 0)
    rw [hlen] at hback hlt
    refine Or.inr ⟨_, hlt, ?_, h⟩
    rw [hback]
    exact List.prefix_append _ _
  · have hlen : (script.take n).length = n := by
      rw [List.length_take]
      omega
    have hback := leBytes_leNat (script.take n)
    have hlt := leNat_lt (script.take n)
    rw [hlen] at hback hlt
    refine Or.inl ⟨_, hlt, script.drop n, ?_⟩
    rw [hback, List.take_append_drop]

/-! ### One opcode -/

theorem take_length {n v : Nat} (h : v < 256 ^ n) (rest : Bytes) :
    (if (leBytes n v ++ rest).length < n then Next.stop
      else .push (leNat ((leBytes n v ++ rest).take n)) ((leBytes n v ++ rest).drop n)) = .push v rest := by
  have hlen : ¬ (leBytes n v ++ rest).length < n := by
    rw [List.length_append, leBytes_length]
    omega
  rw [if_neg hlen, List.take_left' (leBytes_length n v), List.drop_left' (leBytes_length n v), leNat_leBytes h]

/-- The code reads the length that the form writes. -/
theorem next_push {form : PushForm} {n : Nat} (h : form.Fits n) (rest : Bytes) :
    next (form.opcode n) (leBytes form.width n ++ rest) = .push n rest := by
  cases form with
  | direct =>
    obtain ⟨hlow, hhigh⟩ := h
    have hn : (UInt8.ofNat n).toNat = n := UInt8.toNat_ofNat_of_lt' (Nat.lt_of_le_of_lt hhigh (by decide))
    have hrange : 0x01 ≤ UInt8.ofNat n ∧ UInt8.ofNat n ≤ 0x4b := by
      rw [UInt8.le_iff_toNat_le, UInt8.le_iff_toNat_le, hn]
      exact ⟨hlow, hhigh⟩
    unfold next PushForm.opcode
    rw [if_pos hrange, hn]
    rfl
  | pushData1 =>
    have hbyte : leBytes 1 n = [UInt8.ofNat n] := by simp [leBytes, beBytes]
    have hn : (UInt8.ofNat n).toNat = n := UInt8.toNat_ofNat_of_lt' h
    simp [PushForm.opcode, PushForm.width, next, hbyte, hn]
  | pushData2 => exact take_length h rest
  | pushData4 => exact take_length h rest

/-- A length that is cut off ends the loop. -/
theorem next_cut {form : PushForm} {n : Nat} {script : Bytes} (h : script.length < form.width) :
    next (form.opcode n) script = .stop := by
  cases form with
  | direct => exact absurd h (Nat.not_lt_zero _)
  | pushData1 =>
    have hnil : script = [] := List.length_eq_zero_iff.mp (Nat.lt_one_iff.mp h)
    rw [hnil]
    rfl
  | pushData2 => exact if_pos h
  | pushData4 => exact if_pos h

theorem next_other {opcode : UInt8} (h : opcode = 0 ∨ 0x4e < opcode) (script : Bytes) :
    next opcode script = .skip script := by
  have hout : opcode.toNat = 0 ∨ 78 < opcode.toNat := by
    rcases h with rfl | h
    · exact Or.inl rfl
    · exact Or.inr (UInt8.lt_iff_toNat_lt.mp h)
  have hdirect : ¬ (0x01 ≤ opcode ∧ opcode ≤ 0x4b) := by
    rw [UInt8.le_iff_toNat_le, UInt8.le_iff_toNat_le]
    change ¬ (1 ≤ opcode.toNat ∧ opcode.toNat ≤ 75)
    omega
  have hmark : ∀ m : UInt8, 1 ≤ m.toNat → m.toNat ≤ 78 → opcode ≠ m := by
    rintro m hlow hhigh rfl
    omega
  unfold next
  rw [if_neg hdirect, if_neg (hmark _ (by decide) (by decide)), if_neg (hmark _ (by decide) (by decide)),
    if_neg (hmark _ (by decide) (by decide))]

/-! ### Every byte string is a script -/

/-- The forms of a push opcode, by its first byte. -/
theorem form_of_opcode {opcode : UInt8} (h : ¬ (opcode = 0 ∨ 0x4e < opcode)) :
    (∃ n, PushForm.direct.Fits n ∧ opcode = PushForm.direct.opcode n) ∨
      ∃ form : PushForm, form ≠ .direct ∧ ∀ n, opcode = form.opcode n := by
  obtain ⟨hne, hle⟩ := not_or.mp h
  have hhigh : opcode.toNat ≤ 78 := UInt8.le_iff_toNat_le.mp (UInt8.not_lt.mp hle)
  have hlow : opcode.toNat ≠ 0 := fun hzero => hne (UInt8.toNat_inj.mp hzero)
  rcases Nat.lt_or_ge opcode.toNat 76 with hdirect | hwide
  · refine Or.inl ⟨opcode.toNat, ⟨by omega, by omega⟩, ?_⟩
    exact UInt8.ofNat_toNat.symm
  · have hmark : opcode = 0x4c ∨ opcode = 0x4d ∨ opcode = 0x4e := by
      have hcases : opcode.toNat = 76 ∨ opcode.toNat = 77 ∨ opcode.toNat = 78 := by omega
      exact hcases.imp (UInt8.toNat_inj.mp ·) (Or.imp (UInt8.toNat_inj.mp ·) (UInt8.toNat_inj.mp ·))
    rcases hmark with rfl | rfl | rfl
    · exact Or.inr ⟨.pushData1, PushForm.noConfusion, fun _ => rfl⟩
    · exact Or.inr ⟨.pushData2, PushForm.noConfusion, fun _ => rfl⟩
    · exact Or.inr ⟨.pushData4, PushForm.noConfusion, fun _ => rfl⟩

theorem fits_of_lt {form : PushForm} {n : Nat} (hform : form ≠ .direct) (h : n < 256 ^ form.width) : form.Fits n := by
  cases form with
  | direct => exact absurd rfl hform
  | pushData1 | pushData2 | pushData4 => exact h

/-- A push opcode is followed by the length of a push, or by the beginning of one. -/
theorem push_or_cut {opcode : UInt8} (h : ¬ (opcode = 0 ∨ 0x4e < opcode)) (script : Bytes) :
    ∃ (form : PushForm) (n : Nat), form.Fits n ∧ opcode = form.opcode n ∧
      ((∃ rest, script = leBytes form.width n ++ rest) ∨
        script <+: leBytes form.width n ∧ script.length < form.width) := by
  rcases form_of_opcode h with ⟨n, hn, hopcode⟩ | ⟨form, hform, hopcode⟩
  · exact ⟨.direct, n, hn, hopcode, Or.inl ⟨script, rfl⟩⟩
  · rcases split_length form.width script with ⟨n, hn, hrest⟩ | ⟨n, hn, hcut⟩
    · exact ⟨form, n, fits_of_lt hform hn, hopcode n, Or.inl hrest⟩
    · exact ⟨form, n, fits_of_lt hform hn, hopcode n, Or.inr hcut⟩

theorem truncated_nil : Truncated [] := by
  refine ⟨.direct, [0], ⟨Nat.le_refl _, by decide⟩, List.nil_prefix, ?_⟩
  exact Nat.succ_pos _

theorem truncated_push {form : PushForm} {data script : Bytes} (fits : form.Fits data.length)
    (hfront : script <+: leBytes form.width data.length ++ data) (hlen : script.length < form.width + data.length) :
    Truncated (form.opcode data.length :: script) := by
  refine ⟨form, data, fits, List.cons_prefix_cons.mpr ⟨rfl, hfront⟩, ?_⟩
  rw [Instruction.encode, List.length_cons, List.length_cons, List.length_append, leBytes_length]
  omega

/-- The grammar leaves no byte string out. -/
theorem exists_instructions (script : Bytes) :
    ∃ (instrs : List Instruction) (tail : Bytes),
      script = instrs.flatMap Instruction.encode ++ tail ∧ Truncated tail := by
  match script with
  | [] => exact ⟨[], [], rfl, truncated_nil⟩
  | opcode :: script =>
    by_cases hother : opcode = 0 ∨ 0x4e < opcode
    · obtain ⟨instrs, tail, hscript, htail⟩ := exists_instructions script
      refine ⟨.other opcode hother :: instrs, tail, ?_, htail⟩
      rw [List.flatMap_cons, List.append_assoc, ← hscript]
      rfl
    · obtain ⟨form, n, fits, rfl, ⟨rest, rfl⟩ | ⟨hfront, hcut⟩⟩ := push_or_cut hother script
      · rcases Nat.lt_or_ge rest.length n with hlen | hlen
        · -- the data of the last push is cut off
          have hdata : (rest ++ List.replicate (n - rest.length) 0).length = n := by
            rw [List.length_append, List.length_replicate]
            omega
          have htail : Truncated (form.opcode n :: (leBytes form.width n ++ rest)) := by
            rw [← hdata]
            refine truncated_push (by rwa [hdata]) ?_ ?_
            · rw [hdata, ← List.append_assoc]
              exact List.prefix_append _ _
            · rw [List.length_append, leBytes_length, hdata]
              omega
          exact ⟨[], _, rfl, htail⟩
        · have hdata : (rest.take n).length = n := by
            rw [List.length_take]
            omega
          obtain ⟨instrs, tail, hrest, htail⟩ := exists_instructions (rest.drop n)
          refine ⟨.push form (rest.take n) (by rwa [hdata]) :: instrs, tail, ?_, htail⟩
          rw [List.flatMap_cons, List.append_assoc, ← hrest, Instruction.encode, hdata, List.cons_append,
            List.append_assoc, List.take_append_drop]
      · -- the length of the last push is cut off
        have hzeros : (List.replicate n (0 : UInt8)).length = n := List.length_replicate
        have htail : Truncated (form.opcode n :: script) := by
          rw [← hzeros]
          refine truncated_push (by rwa [hzeros]) ?_ (Nat.lt_of_lt_of_le hcut (Nat.le_add_right _ _))
          rw [hzeros]
          exact hfront.trans (List.prefix_append _ _)
        exact ⟨[], _, rfl, htail⟩
termination_by script.length
decreasing_by
  · exact Nat.lt_succ_self _
  · have hscript := ‹script = leBytes form.width n ++ rest›
    rw [hscript, List.length_drop, List.length_cons, List.length_append]
    omega

/-! ### The loop -/

section Loop
variable {opcode : UInt8} {rest script tail : Bytes} {values : List Bytes} {len : Nat}

@[simp] theorem pushedValues_nil : pushedValues [] values = values := by
  rw [pushedValues]

theorem pushedValues_stop (h : next opcode rest = .stop) : pushedValues (opcode :: rest) values = values := by
  rw [pushedValues]
  split <;> simp_all

theorem pushedValues_skip (h : next opcode rest = .skip script) :
    pushedValues (opcode :: rest) values = pushedValues script values := by
  rw [pushedValues]
  split <;> simp_all

theorem pushedValues_push (h : next opcode rest = .push len script) :
    pushedValues (opcode :: rest) values =
      if script.length < len then values else pushedValues (script.drop len) (collect values (script.take len)) := by
  rw [pushedValues]
  split <;> simp_all

theorem collect_eq (data : Bytes) :
    collect values data =
      values ++ if data.length ≠ 0 ∧ data.length % 32 = 0 then chunksExact 32 data else [] := by
  unfold collect
  by_cases hone : data.length = 32
  · have hchunk : chunksExact 32 data = [data] := by
      have htake : data.take 32 = data := List.take_of_length_le (Nat.le_of_eq hone)
      simp [chunksExact, hone, htake]
    rw [if_pos hone, if_pos (by omega), hchunk]
  · rw [if_neg hone]
    by_cases hzero : data.length = 0
    · have hchunk : chunksExact 32 data = [] := by simp [chunksExact, hzero]
      simp [hzero, hchunk]
    · by_cases hmul : data.length % 32 = 0 <;> simp [hzero, hmul]

/-- One instruction is one turn of the loop. -/
theorem pushedValues_instruction (instr : Instruction) (rest : Bytes) :
    pushedValues (instr.encode ++ rest) values = pushedValues rest (values ++ instr.values) := by
  cases instr with
  | push form data fits =>
    have hnext := next_push fits (data ++ rest)
    rw [Instruction.encode, List.cons_append, List.append_assoc, pushedValues_push hnext, List.length_append,
      if_neg (Nat.not_lt.mpr (Nat.le_add_right _ _)), List.drop_left, List.take_left, collect_eq]
    rfl
  | other opcode hother =>
    rw [Instruction.encode, List.singleton_append, pushedValues_skip (next_other hother rest), Instruction.values,
      List.append_nil]

theorem pushedValues_instructions (instrs : List Instruction) (rest : Bytes) :
    pushedValues (instrs.flatMap Instruction.encode ++ rest) values =
      pushedValues rest (values ++ instrs.flatMap Instruction.values) := by
  induction instrs generalizing values with
  | nil => simp
  | cons instr instrs ih =>
    rw [List.flatMap_cons, List.flatMap_cons, List.append_assoc, pushedValues_instruction, ih, List.append_assoc]

/-- A push that is cut off adds nothing. -/
theorem pushedValues_truncated (h : Truncated tail) : pushedValues tail values = values := by
  obtain ⟨form, data, fits, hfront, hlen⟩ := h
  rcases tail with - | ⟨opcode, script⟩
  · exact pushedValues_nil
  · obtain ⟨rfl, hbody⟩ := List.cons_prefix_cons.mp hfront
    rw [Instruction.encode, List.length_cons, List.length_cons, List.length_append, leBytes_length] at hlen
    rcases Nat.lt_or_ge script.length form.width with hcut | hwhole
    · exact pushedValues_stop (next_cut hcut)
    · have hlength : leBytes form.width data.length <+: script :=
        List.prefix_of_prefix_length_le (List.prefix_append _ _) hbody (by rwa [leBytes_length])
      obtain ⟨part, rfl⟩ := hlength
      rw [List.length_append, leBytes_length] at hlen
      rw [pushedValues_push (next_push fits part), if_pos (by omega)]

end Loop

/-- The values are the chunks of the whole pushes, in order. -/
theorem pushed32ByteValues_eq {tail : Bytes} (instrs : List Instruction) (htail : Truncated tail) :
    pushed32ByteValues (instrs.flatMap Instruction.encode ++ tail) = instrs.flatMap Instruction.values := by
  rw [pushed32ByteValues, pushedValues_instructions, pushedValues_truncated htail, List.nil_append]

/-! ### Chunks -/

theorem flatten_chunks (size : Nat) (data : Bytes) (k : Nat) :
    ((List.range k).map fun i => (data.drop (i * size)).take size).flatten = data.take (k * size) := by
  induction k with
  | zero => simp
  | succ k ih =>
    rw [List.range_succ, List.map_append, List.flatten_append, ih, Nat.succ_mul, List.take_add]
    simp

theorem flatten_chunksExact {size : Nat} {data : Bytes} (h : size ∣ data.length) :
    (chunksExact size data).flatten = data := by
  rw [chunksExact, flatten_chunks, Nat.div_mul_cancel h, List.take_length]

theorem length_of_mem_chunksExact {size : Nat} {data chunk : Bytes} (h : chunk ∈ chunksExact size data) :
    chunk.length = size := by
  obtain ⟨i, hi, rfl⟩ := List.mem_map.mp h
  have hle : (i + 1) * size ≤ data.length :=
    (Nat.mul_le_mul_right size (List.mem_range.mp hi)).trans (Nat.div_mul_le_self _ _)
  rw [Nat.succ_mul] at hle
  rw [List.length_take, List.length_drop]
  omega

theorem Instruction.length_of_mem_values {instr : Instruction} {value : Bytes} (h : value ∈ instr.values) :
    value.length = 32 := by
  cases instr with
  | push form data fits =>
    rw [Instruction.values] at h
    split_ifs at h
    · exact length_of_mem_chunksExact h
    · cases h
  | other opcode hother => cases h

theorem length_of_mem_pushed {script value : Bytes} (h : value ∈ pushed32ByteValues script) : value.length = 32 := by
  obtain ⟨instrs, tail, rfl, htail⟩ := exists_instructions script
  rw [pushed32ByteValues_eq instrs htail] at h
  obtain ⟨instr, -, hvalue⟩ := List.mem_flatMap.mp h
  exact instr.length_of_mem_values hvalue

/-! ### Appending folds -/

/-- A fold of which each step appends. -/
theorem foldlM_append {α β : Type} {f : List β → α → Option (List β)} {g : α → List β} {l : List α}
    (h : ∀ a ∈ l, ∀ found, f found a = some (found ++ g a)) (found : List β) :
    l.foldlM f found = some (found ++ l.flatMap g) := by
  induction l generalizing found with
  | nil => simp
  | cons a l ih =>
    rw [List.foldlM_cons, h a List.mem_cons_self, Option.bind_eq_bind, Option.bind_some,
      ih (fun a' ha' => h a' (List.mem_cons_of_mem _ ha')), List.flatMap_cons, List.append_assoc]

/-! ### Scripts -/

variable (C : Crypto) (inflightHashes : Finset Hash)

theorem preimageOf_eq_some {value : Bytes} (h : value.length = 32) :
    ∃ preimage : ByteVec 32, preimageOf value = some preimage ∧ preimage.toList = value :=
  ⟨⟨value, h⟩, dif_pos h, rfl⟩

/-- The preimages among the values of a script. -/
def preimagesOf (values : List Bytes) : List (ByteVec 32) :=
  (values.filter fun value => C.sha256 value ∈ inflightHashes).filterMap preimageOf

/-- What a script publishes. -/
def published (script : Bytes) : List (ByteVec 32) :=
  if script.head? = some opReturn then preimagesOf C inflightHashes (pushed32ByteValues (script.drop 1)) else []

theorem scanScriptForPreimages_eq (script : Bytes) (found : List (ByteVec 32)) :
    scanScriptForPreimages C script inflightHashes found = some (found ++ published C inflightHashes script) := by
  unfold scanScriptForPreimages published
  by_cases hreturn : script.head? = some opReturn
  · have hstep : ∀ value ∈ pushed32ByteValues (script.drop 1), ∀ found,
        scanCandidate C inflightHashes found value = some (found ++ preimagesOf C inflightHashes [value]) := by
      intro value hvalue found
      obtain ⟨preimage, hpreimage, -⟩ := preimageOf_eq_some (length_of_mem_pushed hvalue)
      unfold scanCandidate preimagesOf
      by_cases hmem : C.sha256 value ∈ inflightHashes <;> simp [hmem, hpreimage]
    have hflat : ∀ values : List Bytes,
        values.flatMap (fun value => preimagesOf C inflightHashes [value]) = preimagesOf C inflightHashes values := by
      intro values
      induction values with
      | nil => rfl
      | cons value values ih =>
        rw [List.flatMap_cons, ih]
        unfold preimagesOf
        rw [← List.filterMap_append, ← List.filter_append]
        rfl
    rw [if_neg (not_not.mpr hreturn), if_pos hreturn, foldlM_append hstep, hflat]
  · rw [if_pos hreturn, if_neg hreturn, List.append_nil]

/-- The preimages are the values with a hash in flight, in order. -/
theorem toList_preimagesOf {values : List Bytes} (h : ∀ value ∈ values, value.length = 32) :
    (preimagesOf C inflightHashes values).map (·.toList) =
      values.filter fun value => C.sha256 value ∈ inflightHashes := by
  unfold preimagesOf
  have hback : ∀ l : List Bytes, (∀ value ∈ l, value.length = 32) →
      (l.filterMap preimageOf).map (·.toList) = l := by
    intro l hl
    induction l with
    | nil => rfl
    | cons value l ih =>
      obtain ⟨preimage, hpreimage, htoList⟩ := preimageOf_eq_some (hl value List.mem_cons_self)
      rw [List.filterMap_cons_some hpreimage, List.map_cons, ih fun v hv => hl v (List.mem_cons_of_mem _ hv), htoList]
  exact hback _ fun value hvalue => h value (List.mem_of_mem_filter hvalue)

theorem toList_published {instrs : List Instruction} {tail : Bytes} (htail : Truncated tail) :
    (published C inflightHashes (opReturn :: (instrs.flatMap Instruction.encode ++ tail))).map (·.toList) =
      (instrs.flatMap Instruction.values).filter fun value => C.sha256 value ∈ inflightHashes := by
  have hvalues : ∀ value ∈ instrs.flatMap Instruction.values, value.length = 32 := by
    intro value hvalue
    obtain ⟨instr, -, hmem⟩ := List.mem_flatMap.mp hvalue
    exact instr.length_of_mem_values hmem
  unfold published
  rw [List.head?_cons, if_pos rfl, List.drop_one, List.tail_cons, pushed32ByteValues_eq instrs htail]
  exact toList_preimagesOf C inflightHashes hvalues

/-! ### Sorting -/

theorem bytesLe_total (a b : Bytes) : Bytes.le a b = true ∨ Bytes.le b a = true := by
  induction a generalizing b with
  | nil => exact Or.inl rfl
  | cons x a ih =>
    cases b with
    | nil => exact Or.inr rfl
    | cons y b =>
      simp only [Bytes.le, Bool.or_eq_true, Bool.and_eq_true, decide_eq_true_eq, beq_iff_eq]
      rcases Nat.lt_trichotomy x.toNat y.toNat with h | h | h
      · exact Or.inl (Or.inl (UInt8.lt_iff_toNat_lt.mpr h))
      · obtain rfl := UInt8.toNat_inj.mp h
        exact (ih b).imp (fun h => Or.inr ⟨rfl, h⟩) fun h => Or.inr ⟨rfl, h⟩
      · exact Or.inr (Or.inl (UInt8.lt_iff_toNat_lt.mpr h))

theorem bytesLe_trans {a b c : Bytes} (hab : Bytes.le a b = true) (hbc : Bytes.le b c = true) :
    Bytes.le a c = true := by
  induction a generalizing b c with
  | nil => rfl
  | cons x a ih =>
    rcases b with - | ⟨y, b⟩
    · cases hab
    · rcases c with - | ⟨z, c⟩
      · cases hbc
      · simp only [Bytes.le, Bool.or_eq_true, Bool.and_eq_true, decide_eq_true_eq, beq_iff_eq] at hab hbc ⊢
        rcases hab with hxy | ⟨rfl, hab⟩
        · rcases hbc with hyz | ⟨rfl, -⟩
          · exact Or.inl (UInt8.lt_trans hxy hyz)
          · exact Or.inl hxy
        · rcases hbc with hyz | ⟨rfl, hbc⟩
          · exact Or.inl hyz
          · exact Or.inr ⟨rfl, ih hab hbc⟩

theorem bytesLe_antisymm {a b : Bytes} (hab : Bytes.le a b = true) (hba : Bytes.le b a = true) : a = b := by
  induction a generalizing b with
  | nil =>
    cases b with
    | nil => rfl
    | cons => cases hba
  | cons x a ih =>
    cases b with
    | nil => cases hab
    | cons y b =>
      simp only [Bytes.le, Bool.or_eq_true, Bool.and_eq_true, decide_eq_true_eq, beq_iff_eq] at hab hba
      rcases hab with hxy | ⟨rfl, hab⟩
      · rcases hba with hyx | ⟨rfl, -⟩
        · exact absurd hyx (UInt8.lt_asymm hxy)
        · exact absurd hxy (UInt8.lt_irrefl _)
      · rcases hba with hxx | ⟨-, hba⟩
        · exact absurd hxx (UInt8.lt_irrefl _)
        · rw [ih hab hba]

theorem mem_dedup {α : Type} [DecidableEq α] {a : α} {l : List α} : a ∈ dedup l ↔ a ∈ l := by
  fun_induction dedup l with
  | case1 => exact Iff.rfl
  | case2 => exact Iff.rfl
  | case3 b l ih => simp [ih]
  | case4 b c l _ ih => simp [ih]

/-- In a sorted list equal elements are next to each other. -/
theorem pairwise_dedup {α : Type} [DecidableEq α] {r : α → α → Prop} (hanti : ∀ a b, r a b → r b a → a = b)
    {l : List α} (h : l.Pairwise r) : (dedup l).Pairwise fun a b => r a b ∧ a ≠ b := by
  fun_induction dedup l with
  | case1 => exact List.Pairwise.nil
  | case2 a => exact List.pairwise_singleton _ a
  | case3 b l ih => exact ih h.of_cons
  | case4 a b l hne ih =>
    refine List.pairwise_cons.mpr ⟨fun c hc => ?_, ih h.of_cons⟩
    have hac : r a c := List.rel_of_pairwise_cons h (mem_dedup.mp hc)
    refine ⟨hac, ?_⟩
    rintro rfl
    rcases List.mem_cons.mp (mem_dedup.mp hc) with heq | hmem
    · exact hne heq
    · exact hne (hanti _ _ (List.rel_of_pairwise_cons h List.mem_cons_self) (List.rel_of_pairwise_cons h.of_cons hmem))

/-! ### Blocks -/

/-- A preimage that the script publishes: a 32-byte chunk of one of its pushes, with a hash in flight. -/
def Publishes (script : Bytes) (preimage : ByteVec 32) : Prop :=
  ∃ (instrs : List Instruction) (tail : Bytes), Truncated tail ∧
    script = opReturn :: (instrs.flatMap Instruction.encode ++ tail) ∧
    preimage.toList ∈ instrs.flatMap Instruction.values ∧ C.sha256 preimage.toList ∈ inflightHashes

theorem mem_published_iff {script : Bytes} {preimage : ByteVec 32} :
    preimage ∈ published C inflightHashes script ↔ Publishes C inflightHashes script preimage := by
  have hmap : ∀ {ps : List (ByteVec 32)}, preimage ∈ ps ↔ preimage.toList ∈ ps.map (·.toList) := by
    intro ps
    refine ⟨fun h => List.mem_map_of_mem h, fun h => ?_⟩
    obtain ⟨p, hp, heq⟩ := List.mem_map.mp h
    rwa [← List.Vector.toList_injective heq]
  constructor
  · intro h
    rcases script with - | ⟨opcode, script⟩
    · cases h
    · by_cases hreturn : opcode = opReturn
      · subst hreturn
        obtain ⟨instrs, tail, rfl, htail⟩ := exists_instructions script
        have hmem := hmap.mp h
        rw [toList_published C inflightHashes htail, List.mem_filter, decide_eq_true_eq] at hmem
        exact ⟨instrs, tail, htail, rfl, hmem⟩
      · have hhead : (opcode :: script).head? ≠ some opReturn := by simpa using hreturn
        rw [published, if_neg hhead] at h
        cases h
  · rintro ⟨instrs, tail, htail, rfl, hmem⟩
    refine hmap.mpr ?_
    rw [toList_published C inflightHashes htail, List.mem_filter, decide_eq_true_eq]
    exact hmem

/-- What a block publishes, sorted and without repetitions. -/
theorem scanBlockForPreimages_eq_some (deserialize : Bytes → Option Block) (blockHex : String) :
    ∃ found, scanBlockForPreimages C deserialize blockHex inflightHashes = some found ∧
      found.Pairwise (fun a b => Bytes.le a.toList b.toList = true ∧ a ≠ b) ∧
      ∀ preimage, preimage ∈ found ↔ ∃ bytes block, hexDecode blockHex.toList = some bytes ∧
        deserialize bytes = some block ∧ ∃ tx ∈ block.txdata, ∃ output ∈ tx.output,
          Publishes C inflightHashes output.scriptPubkey preimage := by
  unfold scanBlockForPreimages
  cases hbytes : hexDecode blockHex.toList with
  | none => exact ⟨[], rfl, List.Pairwise.nil, by simp⟩
  | some bytes =>
    cases hblock : deserialize bytes with
    | none => exact ⟨[], by simp [hblock], List.Pairwise.nil, by simp [hblock]⟩
    | some block =>
      let script : TxOut → List (ByteVec 32) := fun output => published C inflightHashes output.scriptPubkey
      have hfold : block.txdata.foldlM (fun found tx => tx.output.foldlM (fun found output =>
          scanScriptForPreimages C output.scriptPubkey inflightHashes found) found) [] =
            some (block.txdata.flatMap fun tx => tx.output.flatMap script) :=
        foldlM_append (fun tx _ => foldlM_append fun output _ =>
          scanScriptForPreimages_eq C inflightHashes output.scriptPubkey) []
      let le : ByteVec 32 → ByteVec 32 → Prop := fun a b => Bytes.le a.toList b.toList = true
      have htotal : Std.Total le := ⟨fun a b => bytesLe_total a.toList b.toList⟩
      have htrans : IsTrans (ByteVec 32) le := ⟨fun _ _ _ hab hbc => bytesLe_trans hab hbc⟩
      have hanti : ∀ a b, le a b → le b a → a = b := fun a b hab hba =>
        List.Vector.toList_injective (bytesLe_antisymm hab hba)
      refine ⟨dedup ((block.txdata.flatMap fun tx => tx.output.flatMap script).insertionSort le), ?_, ?_, ?_⟩
      · simp only [hblock]
        rw [hfold]
        rfl
      · exact pairwise_dedup hanti (List.pairwise_insertionSort le _)
      · intro preimage
        rw [mem_dedup, List.mem_insertionSort]
        simp only [List.mem_flatMap, script, mem_published_iff]
        constructor
        · intro h
          exact ⟨bytes, block, rfl, hblock, h⟩
        · rintro ⟨bytes', block', hbytes', hblock', h⟩
          cases hbytes'
          rw [hblock] at hblock'
          cases hblock'
          exact h

/-! ### The scanner -/

theorem scan_op_return :
    (∀ script : Bytes, ∃ (instrs : List Instruction) (tail : Bytes),
      script = instrs.flatMap Instruction.encode ++ tail ∧ Truncated tail) ∧
    (∀ (instrs : List Instruction) (tail : Bytes), Truncated tail →
      pushed32ByteValues (instrs.flatMap Instruction.encode ++ tail) = instrs.flatMap Instruction.values) ∧
    (∀ data : Bytes, 32 ∣ data.length →
      (chunksExact 32 data).flatten = data ∧ ∀ chunk ∈ chunksExact 32 data, chunk.length = 32) ∧
    ∀ (C : Crypto) (inflightHashes : Finset Hash),
      (∀ (script : Bytes) (found : List (ByteVec 32)), script.head? ≠ some opReturn →
        scanScriptForPreimages C script inflightHashes found = some found) ∧
      (∀ (instrs : List Instruction) (tail : Bytes) (found : List (ByteVec 32)), Truncated tail →
        ∃ preimages, scanScriptForPreimages C (opReturn :: (instrs.flatMap Instruction.encode ++ tail)) inflightHashes
            found = some (found ++ preimages) ∧
          preimages.map (·.toList) =
            (instrs.flatMap Instruction.values).filter fun value => C.sha256 value ∈ inflightHashes) ∧
      ∀ (deserialize : Bytes → Option Block) (blockHex : String),
        ∃ found, scanBlockForPreimages C deserialize blockHex inflightHashes = some found ∧
          found.Pairwise (fun a b => Bytes.le a.toList b.toList = true ∧ a ≠ b) ∧
          ∀ preimage, preimage ∈ found ↔ ∃ bytes block, hexDecode blockHex.toList = some bytes ∧
            deserialize bytes = some block ∧ ∃ tx ∈ block.txdata, ∃ output ∈ tx.output,
              Publishes C inflightHashes output.scriptPubkey preimage := by
  refine ⟨exists_instructions, fun instrs tail htail => pushed32ByteValues_eq instrs htail, ?_, ?_⟩
  · intro data h
    exact ⟨flatten_chunksExact h, fun chunk hchunk => length_of_mem_chunksExact hchunk⟩
  · intro C inflightHashes
    refine ⟨fun script found h => if_pos h, ?_, fun deserialize blockHex => ?_⟩
    · intro instrs tail found htail
      exact ⟨_, scanScriptForPreimages_eq C inflightHashes _ found, toList_published C inflightHashes htail⟩
    · exact scanBlockForPreimages_eq_some C inflightHashes deserialize blockHex

end Canopus.Scanner
