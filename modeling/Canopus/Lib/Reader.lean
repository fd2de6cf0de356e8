import Mathlib.Tactic.Common

/-! Readers of a buffer. A reader takes symbols off the front of the buffer or fails. `Reads` says that it takes
    exactly the given symbols, whatever comes after them, and `Ends` that it takes the whole of a buffer. What was
    written part by part is then read back part by part. `Spells` is the converse: what a reader took off the buffer
    spells its result. -/

namespace Buffer

theorem bind_eq_ok {ε α β : Type} {x : Except ε α} {f : α → Except ε β} {b : β} :
    x >>= f = .ok b ↔ ∃ a, x = .ok a ∧ f a = .ok b := by
  cases x <;> simp [bind, Except.bind]

theorem ok_bind {ε α β : Type} (a : α) (f : α → Except ε β) : (Except.ok a >>= f) = f a := rfl

/-- A reader of a buffer of symbols of type `σ`. -/
abbrev Reader (σ ε α : Type) := StateT (List σ) (Except ε) α

/-- Reads with `x` as many times as asked. -/
def many {σ ε α : Type} (x : Reader σ ε α) : Nat → Reader σ ε (List α)
  | 0 => pure []
  | n + 1 => do
    let a ← x
    let rest ← many x n
    return a :: rest

variable {σ ε α β : Type} {x : Reader σ ε α} {f : α → Reader σ ε β} {u v : List σ} {a : α} {b : β}

/-- The reader takes `bs` off any buffer that starts with it, and returns `a`. -/
def Reads (x : Reader σ ε α) (bs : List σ) (a : α) : Prop := ∀ rest, x.run (bs ++ rest) = .ok (a, rest)

/-- The reader takes all of the buffer `bs`, and returns `a`. -/
def Ends (x : Reader σ ε α) (bs : List σ) (a : α) : Prop := x.run bs = .ok (a, [])

theorem Reads.ends (h : Reads x u a) : Ends x u a := by
  have hnil := h []
  rw [List.append_nil] at hnil
  exact hnil

/-- A buffer is read in one way only. -/
theorem Ends.unique {a' : α} (h : Ends x u a) (h' : Ends x u a') : a = a' := by
  have hrun : (Except.ok (a, []) : Except ε (α × List σ)) = .ok (a', []) := h.symm.trans h'
  cases hrun
  rfl

theorem Reads.pure : Reads (pure a : Reader σ ε α) [] a := fun _ => rfl

theorem Reads.bind (hx : Reads x u a) (hf : Reads (f a) v b) : Reads (x >>= f) (u ++ v) b := by
  intro rest
  rw [StateT.run_bind, List.append_assoc, hx]
  exact hf rest

theorem Reads.andEnds (hx : Reads x u a) (hf : Ends (f a) v b) : Ends (x >>= f) (u ++ v) b := by
  unfold Ends
  rw [StateT.run_bind, hx]
  exact hf

/-- The last part of a format, after which the reader only builds its result. -/
theorem Reads.build (hx : Reads x u a) (hf : f a = Pure.pure b) : Reads (x >>= f) u b := by
  intro rest
  rw [StateT.run_bind, hx]
  exact congrArg (fun y : Reader σ ε β => y.run rest) hf

theorem Ends.build (hx : Ends x u a) (hf : f a = Pure.pure b) : Ends (x >>= f) u b := by
  unfold Ends at hx ⊢
  rw [StateT.run_bind, hx]
  exact congrArg (fun y : Reader σ ε β => y.run []) hf

/-- Two buffers that the first reader does not tell apart are read alike. -/
theorem Ends.of_run (hrun : x.run u = x.run v) (h : Ends (x >>= f) v b) : Ends (x >>= f) u b := by
  unfold Ends at h ⊢
  rw [StateT.run_bind] at h ⊢
  rw [hrun]
  exact h

/-- A list whose elements are written one after the other. -/
theorem Reads.many {enc : α → List σ} {as : List α} (h : ∀ a ∈ as, Reads x (enc a) a) :
    Reads (many x as.length) (as.map enc).flatten as := by
  induction as with
  | nil => exact Reads.pure
  | cons a as ih =>
    refine (h a (by simp)).bind ?_
    exact (ih fun a' ha' => h a' (by simp [ha'])).build rfl

/-! ### Buffers that are read to their end -/

/-- The reader takes the whole buffer. -/
def Accepts (x : Reader σ ε α) (u : List σ) : Prop := ∃ a, Ends x u a

/-- The reader takes any `n` symbols. -/
def Takes (x : Reader σ ε α) (n : Nat) : Prop := ∀ u, u.length = n → ∃ a, Reads x u a

theorem accepts_pure : Accepts (Pure.pure a : Reader σ ε α) u ↔ u = [] := by
  constructor
  · rintro ⟨b, hb⟩
    exact congrArg Prod.snd (Except.ok.inj hb)
  · rintro rfl
    exact ⟨a, rfl⟩

theorem Reads.accepts_iff (hx : Reads x u a) : Accepts (x >>= f) (u ++ v) ↔ Accepts (f a) v := by
  unfold Accepts Ends
  rw [StateT.run_bind, hx]
  exact Iff.rfl

/-- What is built from the result does not matter. -/
theorem accepts_build {g : α → β} : Accepts (x >>= fun a => Pure.pure (g a)) u ↔ Accepts x u := by
  unfold Accepts Ends
  rw [StateT.run_bind]
  cases hx : x.run u with
  | error e => simp [bind, Except.bind]
  | ok r =>
    obtain ⟨a, rest⟩ := r
    simp [StateT.run_pure]

theorem Takes.many {n : Nat} (hx : Takes x n) (count : Nat) : Takes (many x count) (n * count) := by
  induction count with
  | zero =>
    intro u hu
    rw [List.eq_nil_of_length_eq_zero hu]
    exact ⟨[], Reads.pure⟩
  | succ count ih =>
    intro u hu
    rw [Nat.mul_succ] at hu
    obtain ⟨a, ha⟩ := hx (u.take n) (by rw [List.length_take]; omega)
    obtain ⟨as, has⟩ := ih (u.drop n) (by rw [List.length_drop]; omega)
    have hread := ha.bind (f := fun a => do return a :: (← Buffer.many x count)) (has.build rfl)
    rw [List.take_append_drop] at hread
    exact ⟨_, hread⟩

/-- Where `carry` stands before a field that is read as its own layout, the reader takes it and all of the field but its
    last symbols, which stand before the next field. -/
theorem Takes.accepts_shift {p : Prop} {n k : Nat} {carry field rest : List σ} (hx : Takes x n)
    (hcarry : carry.length + k = n) (hfield : k ≤ field.length)
    (hf : ∀ a, Accepts (f a) (field.drop k ++ rest) ↔ p) : Accepts (x >>= f) (carry ++ (field ++ rest)) ↔ p := by
  have hlength : (carry ++ field.take k).length = n := by
    rw [List.length_append, List.length_take, Nat.min_eq_left hfield, hcarry]
  have hsplit : carry ++ (field ++ rest) = (carry ++ field.take k) ++ (field.drop k ++ rest) := by
    rw [List.append_assoc, ← List.append_assoc (field.take k), List.take_append_drop]
  obtain ⟨a, ha⟩ := hx _ hlength
  rw [hsplit, ha.accepts_iff]
  exact hf a

/-- Where the reader succeeds, it has taken `n` symbols. -/
def Spends (x : Reader σ ε α) (n : Nat) : Prop := ∀ u a v, x.run u = .ok (a, v) → u.length = n + v.length

theorem Spends.pure : Spends (Pure.pure a : Reader σ ε α) 0 := by
  intro u a' v h
  cases h
  exact (Nat.zero_add _).symm

theorem Spends.bind {n k : Nat} (hx : Spends x n) (hf : ∀ a, Spends (f a) k) : Spends (x >>= f) (n + k) := by
  intro u b v h
  rw [StateT.run_bind] at h
  obtain ⟨⟨a, w⟩, ha, hb⟩ := bind_eq_ok.mp h
  rw [hx u a w ha, hf a w b v hb, Nat.add_assoc]

theorem Spends.build {n : Nat} {g : α → β} (hx : Spends x n) : Spends (x >>= fun a => Pure.pure (g a)) n :=
  hx.bind fun _ => Spends.pure

theorem Spends.many {n : Nat} (hx : Spends x n) (count : Nat) : Spends (many x count) (n * count) := by
  induction count with
  | zero => exact Spends.pure
  | succ count ih =>
    rw [Nat.mul_succ, Nat.add_comm (n * count)]
    exact hx.bind fun _ => ih.build

theorem Spends.accepts_bind {n : Nat} (hx : Spends x n) (h : Accepts (x >>= f) u) : n ≤ u.length := by
  obtain ⟨b, hb⟩ := h
  unfold Ends at hb
  rw [StateT.run_bind] at hb
  obtain ⟨⟨a, v⟩, ha, -⟩ := bind_eq_ok.mp hb
  rw [hx u a v ha]
  exact Nat.le_add_right n v.length

theorem Spends.accepts {n : Nat} (hx : Spends x n) (h : Accepts x u) : u.length = n := by
  obtain ⟨a, ha⟩ := h
  exact hx u a [] ha

/-! ### Spellings -/

/-- Where the reader succeeds, what it took off the buffer is a spelling of its result. -/
def Spells (x : Reader σ ε α) (r : α → List σ → Prop) : Prop :=
  ∀ u a v, x.run u = .ok (a, v) → ∃ bs, u = bs ++ v ∧ r a bs

theorem Spells.pure {r : α → List σ → Prop} (h : r a []) : Spells (Pure.pure a : Reader σ ε α) r := by
  intro u a' v hrun
  cases hrun
  exact ⟨[], rfl, h⟩

theorem Spells.fail {r : α → List σ → Prop} {e : ε} : Spells (fun _ => .error e : Reader σ ε α) r := by
  intro u a v hrun
  cases hrun

/-- A spelling of the first part stands before one of the rest. -/
theorem Spells.bind {r : α → List σ → Prop} {q : β → List σ → Prop} (hx : Spells x r)
    (hf : ∀ a bs, r a bs → Spells (f a) fun b bs' => q b (bs ++ bs')) : Spells (x >>= f) q := by
  intro u b v h
  rw [StateT.run_bind] at h
  obtain ⟨⟨a, w⟩, ha, hb⟩ := bind_eq_ok.mp h
  obtain ⟨bs, hu, hr⟩ := hx u a w ha
  obtain ⟨bs', hw, hq⟩ := hf a bs hr w b v hb
  exact ⟨bs ++ bs', by rw [hu, hw, List.append_assoc], hq⟩

/-- A part with one spelling. -/
theorem Spells.written {enc : α → List σ} {q : β → List σ → Prop} (hx : Spells x fun a bs => bs = enc a)
    (hf : ∀ a, Spells (f a) fun b bs' => q b (enc a ++ bs')) : Spells (x >>= f) q := by
  refine hx.bind ?_
  rintro a _ rfl
  exact hf a

theorem Spells.mono {r q : α → List σ → Prop} (hx : Spells x r) (h : ∀ a bs, r a bs → q a bs) : Spells x q := by
  intro u a v hrun
  obtain ⟨bs, hu, hr⟩ := hx u a v hrun
  exact ⟨bs, hu, h a bs hr⟩

/-- A list that is spelled element by element. -/
theorem Spells.many {r : α → List σ → Prop} {rs : List α → List σ → Prop} (hx : Spells x r) (hnil : rs [] [])
    (hcons : ∀ a as bs bs', r a bs → rs as bs' → rs (a :: as) (bs ++ bs')) (count : Nat) :
    Spells (many x count) fun as bs => as.length = count ∧ rs as bs := by
  induction count with
  | zero => exact Spells.pure ⟨rfl, hnil⟩
  | succ count ih =>
    refine hx.bind fun a bs ha => ih.bind ?_
    rintro as bs' ⟨hlen, has⟩
    refine Spells.pure ⟨congrArg Nat.succ hlen, ?_⟩
    rw [List.append_nil]
    exact hcons a as bs bs' ha has

end Buffer
