import Canopus.Theorems.Outcomes
import Canopus.Theorems.HandlerSteps
import Canopus.Transparent

/-! Deadlines. A pass over the channels looks in each active one for an HTLC that the client has not
    committed to in time, or that has expired, errors the channel and fails the HTLC upstream. It stops at the
    first such HTLC of a channel, and an errored channel is not looked at again: the others stay where
    they are. -/

namespace Canopus
open Effect Fallible

variable {H : Host} {A : Choice → World → Call → Prop} {L : Type} {step : L → World → World → Prop} {S : L → Prop}
  {w u v v' : World} {p q : PublicKey} {d d' : ChannelData} {h : UpdateAddHtlc} {l : ForwardLink} {k : HtlcKey}
  {now : UInt64} {height : UInt32} {α : Type}

/-! ### What a pass has to do -/

/-- The HTLC `h` of the channel of `p` is late: it is linked by `l`, and its client has not committed to it by
    the deadline, or it has expired. -/
structure Late (H : Host) (w : World) (now : UInt64) (height : UInt32) (p : PublicKey) (d : ChannelData)
    (h : UpdateAddHtlc) (l : ForwardLink) : Prop where
  linked : w.link (H.scid p, h.id) = some l
  late : (h ∈ uncommittedLocalAdds d ∧ ∃ t, l.hostedCommitDeadlineUnix = some t ∧ t ≤ now) ∨
    (h ∈ d.lcss.outgoingHtlcs ∧ l.upstreamCltvExpiry.isSome = true ∧ h.cltvExpiry ≤ height)

/-- A failure of the HTLC is pending on the host's side. -/
def FailPending (d : ChannelData) (id : UInt64) : Prop := ∃ c reason, .ofLocal (.fail c id reason) ∈ d.uncommitted

/-- Between the worlds `w` and `w'` the HTLC that the link came from has been failed: by the node, or on the
    hosted channel that it came from. -/
def FailedUpstream (H : Host) (w w' : World) (l : ForwardLink) : Prop :=
  (∃ onion, ((l.incomingScid, l.incomingHtlcId), .fail onion) ∈ w'.resolutions.drop w.resolutions.length) ∨
    ∃ q d, H.scid q = l.incomingScid ∧ w'.channel q = some d ∧ FailPending d l.incomingHtlcId

/-- Every late HTLC of a channel that was active has been failed upstream, and its link is gone. -/
def Enforced (H : Host) (now : UInt64) (height : UInt32) (w w' : World) : Prop :=
  ∀ p d h l, w.channel p = some d → deriveStatus d = .active → Late H w now height p d h l →
    FailedUpstream H w w' l ∧ w'.link (H.scid p, h.id) = none

/-- The HTLC of a link can be failed where it came from: a hosted source lists it, or is failing it already. -/
def Answerable (H : Host) (w : World) (l : ForwardLink) : Prop :=
  ∀ q d, H.scid q = l.incomingScid → w.channel q = some d →
    d.lcss.incomingHtlcs.any (·.id == l.incomingHtlcId) = true ∨ FailPending d l.incomingHtlcId

/-- No active channel has late HTLCs under two ids, and those that are late can be failed upstream. -/
def Manageable (H : Host) (now : UInt64) (height : UInt32) (w : World) : Prop :=
  ∀ p d h l, w.channel p = some d → deriveStatus d = .active → Late H w now height p d h l →
    Answerable H w l ∧ ∀ h' l', Late H w now height p d h' l' → h'.id = h.id

def Call.isDelete : Call → Bool
  | .delete _ _ => true
  | _ => false

/-! ### Looking for a late HTLC -/

theorem does_readLink : Does exec A step S (readLink k) w fun r w' => w' = w ∧ r = w.link k := by
  refine Does.bind does_getJson ?_
  intro r w' hpost
  obtain ⟨rfl, hok, hnone⟩ := hpost
  rcases r with e | ⟨l, g⟩
  · cases e with
    | notFound => exact Does.pure ⟨rfl, (Table.value?_eq_none_of_entry (hnone rfl)).symm⟩
    | _ => exact Does.throw
  · exact Does.pure ⟨rfl, (Table.value?_of_entry (hok l g rfl)).symm⟩

/-- The HTLC is linked, and its commit deadline has passed. -/
def Uncommitted (w : World) (scid now : UInt64) (h : UpdateAddHtlc) : Prop :=
  ∃ l t, w.link (scid, h.id) = some l ∧ l.hostedCommitDeadlineUnix = some t ∧ t ≤ now

/-- The HTLC is linked to one with an expiry, and has expired itself. -/
def Expired (w : World) (scid : UInt64) (height : UInt32) (h : UpdateAddHtlc) : Prop :=
  ∃ l, w.link (scid, h.id) = some l ∧ l.upstreamCltvExpiry.isSome = true ∧ h.cltvExpiry ≤ height

/-- The result of a search is the first of the list with a property. -/
def Finds (P : UpdateAddHtlc → Prop) (htlcs : List UpdateAddHtlc) : Option UpdateAddHtlc → Prop
  | some h => h ∈ htlcs ∧ P h
  | none => ∀ h ∈ htlcs, ¬ P h

theorem Finds.skip {P : UpdateAddHtlc → Prop} {htlcs : List UpdateAddHtlc} {r : Option UpdateAddHtlc}
    (hr : Finds P htlcs r) (hh : ¬ P h) : Finds P (h :: htlcs) r := by
  cases r with
  | some h' => exact ⟨List.mem_cons_of_mem _ hr.1, hr.2⟩
  | none =>
    intro h' hmem
    rcases List.mem_cons.mp hmem with rfl | hmem
    · exact hh
    · exact hr h' hmem

theorem does_firstUncommittedLate {scid : UInt64} (htlcs : List UpdateAddHtlc) :
    Does exec A step S (firstUncommittedLate scid now htlcs) w fun r w' => w' = w ∧ Finds (Uncommitted w scid now) htlcs r := by
  induction htlcs with
  | nil => exact Does.pure ⟨rfl, by simp [Finds]⟩
  | cons h htlcs ih =>
    have skip (hh : ¬ Uncommitted w scid now h) : Does exec A step S (firstUncommittedLate scid now htlcs) w
        fun r w' => w' = w ∧ Finds (Uncommitted w scid now) (h :: htlcs) r :=
      ih.post fun r _ hr => ⟨hr.1, hr.2.skip hh⟩
    refine Does.bind does_readLink ?_
    intro r _ hpost
    obtain ⟨rfl, rfl⟩ := hpost
    split
    · rename_i l hl
      split
      · rename_i t ht
        split
        · rename_i hlt
          refine skip ?_
          rintro ⟨l', t', hl', ht', hle⟩
          obtain rfl := Option.some.inj (hl'.symm.trans hl)
          obtain rfl := Option.some.inj (ht'.symm.trans ht)
          exact UInt64.lt_irrefl _ (UInt64.lt_of_lt_of_le hlt hle)
        · rename_i hle
          exact Does.pure ⟨rfl, List.mem_cons_self, l, t, hl, ht, UInt64.not_lt.mp hle⟩
      · rename_i ht
        refine skip ?_
        rintro ⟨l', t', hl', ht', -⟩
        obtain rfl := Option.some.inj (hl'.symm.trans hl)
        cases ht'.symm.trans ht
    · rename_i hl
      refine skip ?_
      rintro ⟨l', -, hl', -⟩
      cases hl'.symm.trans hl

/-- The environment of a pass: links can be deleted, and the block height stays. -/
def PassEnv (height : UInt32) (x : Choice) (_ : World) (c : Call) : Prop :=
  (c.isDelete = true → x.fails = false) ∧ x.height = height

theorem does_cachedHeight {cached : Option UInt32} (hc : ∀ n, cached = some n → n = height) :
    Does exec (PassEnv height) step S (cachedHeight cached) w fun r w' => w' = w ∧ r = height := by
  cases cached with
  | none => exact does_getBlockHeight.post fun _ _ ⟨hw, x, hx, _, hh⟩ => ⟨hw, hh.symm.trans hx.2⟩
  | some n => exact Does.pure ⟨rfl, hc n rfl⟩

theorem does_firstExpired {scid : UInt64} (htlcs : List UpdateAddHtlc) {cached : Option UInt32}
    (hc : ∀ n, cached = some n → n = height) :
    Does exec (PassEnv height) step S (firstExpired scid htlcs cached) w fun r w' => w' = w ∧
      Finds (Expired w scid height) htlcs r.1 ∧ ∀ n, r.2 = some n → n = height := by
  induction htlcs generalizing cached with
  | nil => exact Does.pure ⟨rfl, by simp [Finds], hc⟩
  | cons h htlcs ih =>
    have skip {cached : Option UInt32} (hc : ∀ n, cached = some n → n = height) (hh : ¬ Expired w scid height h) :
        Does exec (PassEnv height) step S (firstExpired scid htlcs cached) w fun r w' => w' = w ∧
          Finds (Expired w scid height) (h :: htlcs) r.1 ∧ ∀ n, r.2 = some n → n = height :=
      (ih hc).post fun r _ hr => ⟨hr.1, hr.2.1.skip hh, hr.2.2⟩
    refine Does.bind does_readLink ?_
    intro r _ hpost
    obtain ⟨rfl, rfl⟩ := hpost
    split
    · rename_i l hl
      split
      · rename_i hnone
        refine skip hc ?_
        rintro ⟨l', hl', hsome, -⟩
        obtain rfl := Option.some.inj (hl'.symm.trans hl)
        rw [Option.isNone_iff_eq_none.mp hnone] at hsome
        cases hsome
      · rename_i hsome
        refine Does.bind (does_cachedHeight hc) ?_
        intro n _ hpost
        obtain ⟨rfl, rfl⟩ := hpost
        split
        · rename_i hlt
          refine skip (fun n hn => (Option.some.inj hn).symm) ?_
          rintro ⟨-, -, -, hle⟩
          exact UInt32.lt_irrefl _ (UInt32.lt_of_lt_of_le hlt hle)
        · rename_i hle
          refine Does.pure ⟨rfl, ⟨List.mem_cons_self, l, hl, ?_, UInt32.not_lt.mp hle⟩, fun n hn => (Option.some.inj hn).symm⟩
          exact Option.isSome_iff_ne_none.mpr fun hnone => hsome (Option.isNone_iff_eq_none.mpr hnone)
    · rename_i hl
      refine skip hc ?_
      rintro ⟨l', hl', -⟩
      cases hl'.symm.trans hl

/-! ### Giving up on an HTLC -/

/-- The channels, the links and the answers given to the node are the same. -/
structure SameDeals (w w' : World) : Prop where
  channels : w'.store .channels = w.store .channels
  links : w'.store .htlcForwards = w.store .htlcForwards
  resolutions : w'.resolutions = w.resolutions

namespace SameDeals

theorem refl (w : World) : SameDeals w w := ⟨rfl, rfl, rfl⟩

theorem trans {w₁ w₂ w₃ : World} (h : SameDeals w₁ w₂) (h' : SameDeals w₂ w₃) : SameDeals w₁ w₃ where
  channels := h'.channels.trans h.channels
  links := h'.links.trans h.links
  resolutions := h'.resolutions.trans h.resolutions

theorem channel (h : SameDeals v v') (q : PublicKey) : v'.channel q = v.channel q := by
  simp only [World.channel, h.channels]

theorem link (h : SameDeals v v') (k : HtlcKey) : v'.link k = v.link k := by
  simp only [World.link, h.links]

end SameDeals

instance : IsPreorder World SameDeals where
  refl := SameDeals.refl
  trans _ _ _ := SameDeals.trans

/-- The program makes no deals: it reads, signs and sends. -/
abbrev Dealless (x : Ctl α) : Prop := Fallible.Stays exec SameDeals x

theorem Silent.dealless {x : Ctl α} (h : Silent x) : Dealless x :=
  Stays.weaken h fun _ _ hq => ⟨hq.channels, hq.links, hq.resolutions⟩

theorem Dealless.leads {x : Ctl α} (h : Dealless x) : Leads exec A x v fun _ v' => SameDeals v v' :=
  Stays.does h fun _ _ => trace_any

theorem Dealless.sendMessage (peer : PublicKey) (msg : HostedMessage) : Dealless (sendMessage peer msg) := by
  refine (reading_ask rfl).silent.dealless.bind fun _ => ?_
  refine (Reading.liftEncode _).silent.dealless.bind fun _ => ?_
  refine (Stays.ask fun x w => ?_).bind fun _ => (Reading.liftNode _).silent.dealless
  simp only [exec, rpcError]
  split
  · exact SameDeals.refl w
  · exact ⟨rfl, rfl, rfl⟩

theorem Dealless.stateUpdateForUncommitted (H : Host) (peer : PublicKey) (d : ChannelData) :
    Dealless (stateUpdateForUncommitted H peer d) := by
  refine Stays.bind ?_ fun _ => Stays.pure _
  refine (Reading.liftState _).silent.dealless.bind fun _ => ?_
  refine Reading.currentBlockDay.silent.dealless.bind fun _ => ?_
  refine (Reading.liftEncode _).silent.dealless.bind fun _ => ?_
  exact (Stays.ask fun _ _ => ⟨rfl, rfl, rfl⟩).bind fun _ => Stays.pure _

/-- A resolution of the host is added to the record if it lists the HTLC. -/
theorem leads_sendLocalResolution {id : UInt64} {u : PendingUpdate} {msg : HostedMessage} :
    Leads exec A (sendLocalResolution H q id u msg) v fun _ v' => ∃ d, v.channel q = some d ∧
      ((d.lcss.incomingHtlcs.any (·.id == id) = false ∧ v' = v) ∨
       (d.lcss.incomingHtlcs.any (·.id == id) = true ∧ SameDeals (v.put .channels q (d.push (.ofLocal u))) v')) := by
  unfold sendLocalResolution
  refine Does.bind does_loadExisting ?_
  intro d v hpost
  obtain ⟨rfl, hd⟩ := hpost
  split
  · rename_i hlist
    exact Does.pure ⟨d, hd, Or.inl ⟨by simpa using hlist, rfl⟩⟩
  · rename_i hlist
    refine Does.bind (Dealless.stateUpdateForUncommitted H q _).leads fun update v₁ h₁ => ?_
    refine Does.bind (does_saveChannel (fun _ _ _ => trace_any) fun _ _ _ _ => trace_any) ?_
    intro _ _ hpost
    subst hpost
    refine Does.bind (Dealless.sendMessage q msg).leads fun _ v₂ h₂ => ?_
    refine (Dealless.sendMessage q _).leads.post fun _ v₃ h₃ => ⟨d, hd, Or.inr ⟨by simpa using hlist, ?_⟩⟩
    -- The record is the same before and after the state is signed, so the write has the same effect.
    have hput : SameDeals (v.put .channels q (d.push (.ofLocal u))) (v₁.put .channels q (d.push (.ofLocal u))) := by
      refine ⟨?_, ?_, h₁.resolutions⟩
      · rw [World.put_store_self, World.put_store_self, h₁.channels]
      · rw [World.put_store_ne (by decide), World.put_store_ne (by decide), h₁.links]
    exact hput.trans (h₂.trans h₃)

/-- The world `u` after the HTLC that the link came from was failed in the world `v`. -/
inductive FailedBack (H : Host) (v u : World) (l : ForwardLink) : Prop
  | node (onion : Bytes) (hn : v.Normal H l.incomingScid)
    (hu : u = v.answer (l.incomingScid, l.incomingHtlcId) (.fail onion)) : FailedBack H v u l
  | unlisted {q : PublicKey} {d : ChannelData} (hq : H.scid q = l.incomingScid) (hd : v.channel q = some d)
    (hlist : d.lcss.incomingHtlcs.any (·.id == l.incomingHtlcId) = false) (hu : u = v) : FailedBack H v u l
  | hosted {q : PublicKey} {d : ChannelData} {c : ByteVec 32} {reason : Bytes} (hq : H.scid q = l.incomingScid)
    (hd : v.channel q = some d) (hlist : d.lcss.incomingHtlcs.any (·.id == l.incomingHtlcId) = true)
    (hu : SameDeals (v.put .channels q (d.push (.ofLocal (.fail c l.incomingHtlcId reason)))) u) : FailedBack H v u l

theorem FailedBack.link (hu : FailedBack H v u l) (k : HtlcKey) : u.link k = v.link k := by
  cases hu with
  | node _ _ hu => rw [hu, World.link_answer]
  | unlisted _ _ _ hu => rw [hu]
  | hosted _ _ _ hu => rw [hu.link, World.link_put_channel]

theorem leads_resolveUpstream {key : HtlcKey} {r : HtlcResolution} :
    Leads exec A (resolveUpstream key r) v fun _ v' => v' = v.answer key r := by
  refine Does.bind (Does.ask (R := fun (a : Except NodeError Unit) v' => a = .ok () → v' = v.answer key r) fun x _ => ⟨trace_any, ?_⟩) ?_
  · simp only [exec, rpcError]
    split
    · exact fun h => by cases h
    · exact fun _ => rfl
  · intro a v₁ h₁
    refine does_liftNode.post ?_
    intro _ _ hpost
    obtain ⟨rfl, ha⟩ := hpost
    exact h₁ ha

theorem leads_answerIncoming {onion : Bytes} :
    Leads exec A (answerIncoming H l (fun source => sendLocalFail H source l onion) (.fail onion)) v
      fun _ v' => FailedBack H v v' l := by
  refine Does.bind does_peerForHostedScid ?_
  intro r _ hpost
  obtain ⟨rfl, hsome, hnone⟩ := hpost
  cases r with
  | none => exact leads_resolveUpstream.post fun _ _ hv => FailedBack.node onion (hnone rfl) hv
  | some q =>
    refine leads_sendLocalResolution.post ?_
    intro _ v' hpost
    obtain ⟨d, hd, ⟨hlist, rfl⟩ | ⟨hlist, hv⟩⟩ := hpost
    · exact FailedBack.unlisted (hsome q rfl).2 hd hlist rfl
    · exact FailedBack.hosted (hsome q rfl).2 hd hlist hv

theorem leads_dropForwardLink : Leads exec (PassEnv height) (dropForwardLink k) v fun _ v' => v' = v.erase .htlcForwards k := by
  refine Does.bind (Does.ask (R := fun _ v' => v' = v.erase .htlcForwards k) fun x hx => ⟨trace_any, ?_⟩)
    fun _ _ hv => Does.pure hv
  simp [exec, hx.1 rfl]

/-- An HTLC with a link is failed upstream, and the link is dropped. -/
theorem leads_resolveForwardFail {id : UInt64} {failure : Bytes} {scid : UInt64} (hl : v.link (scid, id) = some l) :
    Leads exec (PassEnv height) (resolveForwardFail H scid id failure) v fun _ v' =>
      ∃ u, FailedBack H v u l ∧ v' = u.erase .htlcForwards (scid, id) := by
  refine Does.bind does_getJson ?_
  intro r _ hpost
  obtain ⟨rfl, hok, hnone⟩ := hpost
  rcases r with e | ⟨l', g⟩
  · cases e with
    | notFound => cases hl.symm.trans (Table.value?_eq_none_of_entry (hnone rfl))
    | _ => exact Does.throw
  · obtain rfl := Option.some.inj (hl.symm.trans (Table.value?_of_entry (hok l' g rfl)))
    exact Does.bind leads_answerIncoming fun _ u hu => leads_dropForwardLink.post fun _ _ hv => ⟨u, hu, hv⟩

/-! ### What a pass keeps -/

variable {T : PublicKey → Prop} {dropped : PublicKey → Option UInt64}

/-- The record `d'` is `d` with failures of listed HTLCs added, and with errors if they are due. -/
def Grown (due : Prop) (d d' : ChannelData) : Prop :=
  ∃ fails errors, d' = { d with uncommitted := d.uncommitted ++ fails, localErrors := d.localErrors ++ errors } ∧
    (¬ due → errors = []) ∧ ∀ u ∈ fails, ∃ c id reason, u = .ofLocal (.fail c id reason) ∧
      d.lcss.incomingHtlcs.any (·.id == id) = true

/-- The world `v` in the middle of a pass that began in the world `w`: the channels in `T` have been looked at,
    and `dropped` says which of their HTLCs was given up on. -/
structure Passed (H : Host) (w : World) (T : PublicKey → Prop) (dropped : PublicKey → Option UInt64) (v : World) : Prop where
  absent : ∀ q, w.channel q = none → v.channel q = none
  records : ∀ q d, w.channel q = some d → ∃ d', v.channel q = some d' ∧ Grown (T q) d d'
  answers : ∃ new, v.resolutions = w.resolutions ++ new ∧ ∀ r ∈ new, w.Normal H r.1.1
  fresh : ∀ q, ¬ T q → dropped q = none
  links : ∀ k, v.link k = w.link k ∨
    v.link k = none ∧ ∃ q, (w.channel q).isSome ∧ k.1 = H.scid q ∧ dropped q = some k.2
  failed : ∀ k l, w.link k = some l → v.link k = none → Answerable H w l → FailedUpstream H w v l

theorem Grown.refl {due : Prop} : Grown due d d := by
  refine ⟨[], [], ?_, fun _ => rfl, fun _ h => by cases h⟩
  rw [List.append_nil, List.append_nil]

theorem Passed.start : Passed H w (fun _ => False) (fun _ => none) w where
  absent _ hq := hq
  records q d hd := ⟨d, hd, Grown.refl⟩
  answers := ⟨[], (List.append_nil _).symm, fun _ h => by cases h⟩
  fresh _ _ := rfl
  links _ := Or.inl rfl
  failed k l hl hn := by cases hl.symm.trans hn

/-- A failure upstream stays one while answers and updates are only added. -/
theorem FailedUpstream.grows {n : List (HtlcKey × HtlcResolution)} (hf : FailedUpstream H w v l)
    (hr : v'.resolutions = v.resolutions ++ n)
    (hd : ∀ q d, v.channel q = some d → ∃ d', v'.channel q = some d' ∧ d.uncommitted ⊆ d'.uncommitted) :
    FailedUpstream H w v' l := by
  rcases hf with ⟨onion, hmem⟩ | ⟨q, d, hq, hdq, c, reason, hmem⟩
  · refine Or.inl ⟨onion, ?_⟩
    rw [hr, List.drop_append]
    exact List.mem_append_left _ hmem
  · obtain ⟨d', hd', hsub⟩ := hd q d hdq
    exact Or.inr ⟨q, d', hq, hd', c, reason, hsub hmem⟩

/-- A channel is being looked at. -/
theorem Passed.mark (hv : Passed H w T dropped v) (p : PublicKey) : Passed H w (fun q => q = p ∨ T q) dropped v where
  absent := hv.absent
  records q d hd := by
    obtain ⟨d', hd', fails, errors, he, hdue, hfails⟩ := hv.records q d hd
    exact ⟨d', hd', fails, errors, he, fun hn => hdue fun ht => hn (Or.inr ht), hfails⟩
  answers := hv.answers
  fresh q hq := hv.fresh q fun ht => hq (Or.inr ht)
  links := hv.links
  failed := hv.failed

/-- A record is rewritten. -/
theorem Passed.put (hv : Passed H w T dropped v) (hd : v.channel p = some d)
    (hg : ∀ d₀, Grown (T p) d₀ d → Grown (T p) d₀ d') (hsub : d.uncommitted ⊆ d'.uncommitted) :
    Passed H w T dropped (v.put .channels p d') where
  absent q hq := by
    have hne : q ≠ p := by
      rintro rfl
      cases (hv.absent q hq).symm.trans hd
    rw [World.channel_put_ne hne]
    exact hv.absent q hq
  records q d₀ hd₀ := by
    obtain ⟨d₁, hd₁, hg₁⟩ := hv.records q d₀ hd₀
    by_cases heq : q = p
    · subst heq
      obtain rfl := Option.some.inj (hd₁.symm.trans hd)
      exact ⟨d', World.channel_put, hg d₀ hg₁⟩
    · rw [World.channel_put_ne heq]
      exact ⟨d₁, hd₁, hg₁⟩
  answers := hv.answers
  fresh := hv.fresh
  links k := by
    rw [World.link_put_channel]
    exact hv.links k
  failed k l hl hn ha := by
    rw [World.link_put_channel] at hn
    refine (hv.failed k l hl hn ha).grows (n := []) (List.append_nil _).symm ?_
    intro q d₁ hd₁
    by_cases heq : q = p
    · subst heq
      obtain rfl := Option.some.inj (hd₁.symm.trans hd)
      exact ⟨d', World.channel_put, hsub⟩
    · exact ⟨d₁, (World.channel_put_ne heq).trans hd₁, List.Subset.refl _⟩

/-- What makes no deals keeps the pass. -/
theorem Passed.same (hv : Passed H w T dropped v) (hs : SameDeals v v') : Passed H w T dropped v' where
  absent q hq := (hs.channel q).trans (hv.absent q hq)
  records q d hd := by
    rw [hs.channel q]
    exact hv.records q d hd
  answers := by
    rw [hs.resolutions]
    exact hv.answers
  fresh := hv.fresh
  links k := by
    rw [hs.link k]
    exact hv.links k
  failed k l hl hn ha := by
    rw [hs.link k] at hn
    refine (hv.failed k l hl hn ha).grows (n := []) (by rw [hs.resolutions, List.append_nil]) ?_
    exact fun q d hd => ⟨d, (hs.channel q).trans hd, List.Subset.refl _⟩

/-- A link is dropped after what it came from was failed. -/
theorem Passed.drop {id : UInt64} (hv : Passed H w T dropped v) (hp : (w.channel p).isSome) (ht : T p)
    (hnone : dropped p = none) (hl : w.link (H.scid p, id) = some l)
    (hf : Answerable H w l → FailedUpstream H w v l) :
    Passed H w T (Function.update dropped p (some id)) (v.erase .htlcForwards (H.scid p, id)) where
  absent q hq := by
    rw [World.channel_erase_link]
    exact hv.absent q hq
  records q d hd := by
    rw [World.channel_erase_link]
    exact hv.records q d hd
  answers := hv.answers
  fresh q hq := by
    have hne : q ≠ p := by
      rintro rfl
      exact hq ht
    rw [Function.update_of_ne hne]
    exact hv.fresh q hq
  links k := by
    by_cases hk : k = (H.scid p, id)
    · subst hk
      exact Or.inr ⟨World.link_erase, p, hp, rfl, Function.update_self _ _ _⟩
    · rw [World.link_erase_ne hk]
      rcases hv.links k with h | ⟨h, q, hq, hscid, hid⟩
      · exact Or.inl h
      · have hne : q ≠ p := by
          rintro rfl
          cases hnone.symm.trans hid
        exact Or.inr ⟨h, q, hq, hscid, by rw [Function.update_of_ne hne]; exact hid⟩
  failed k l' hl' hn ha := by
    have hkeep (hv' : FailedUpstream H w v l') : FailedUpstream H w (v.erase .htlcForwards (H.scid p, id)) l' :=
      hv'.grows (n := []) (List.append_nil _).symm fun q d hd => ⟨d, World.channel_erase_link.trans hd, List.Subset.refl _⟩
    by_cases hk : k = (H.scid p, id)
    · subst hk
      obtain rfl := Option.some.inj (hl.symm.trans hl')
      exact hkeep (hf ha)
    · rw [World.link_erase_ne hk] at hn
      exact hkeep (hv.failed k l' hl' hn ha)

theorem Grown.error {due : Prop} {d₀ : ChannelData} {e : LocalError} (hg : Grown due d₀ d) (hdue : due) :
    Grown due d₀ { d with localErrors := d.localErrors ++ [e] } := by
  obtain ⟨fails, errors, rfl, -, hfails⟩ := hg
  refine ⟨fails, errors ++ [e], ?_, fun hn => absurd hdue hn, hfails⟩
  rw [List.append_assoc]

theorem Grown.fail {due : Prop} {d₀ : ChannelData} {c : ByteVec 32} {id : UInt64} {reason : Bytes} (hg : Grown due d₀ d)
    (hlist : d.lcss.incomingHtlcs.any (·.id == id) = true) : Grown due d₀ (d.push (.ofLocal (.fail c id reason))) := by
  obtain ⟨fails, errors, rfl, hdue, hfails⟩ := hg
  refine ⟨fails ++ [.ofLocal (.fail c id reason)], errors, ?_, hdue, ?_⟩
  · unfold ChannelData.push
    rw [List.append_assoc]
  · intro u hu
    rcases List.mem_append.mp hu with hu | hu
    · exact hfails u hu
    · exact ⟨c, id, reason, List.mem_singleton.mp hu, hlist⟩

theorem Passed.normal (hv : Passed H w T dropped v) {scid : UInt64} (hn : v.Normal H scid) : w.Normal H scid := by
  intro q hq
  obtain ⟨d, hd⟩ := Option.isSome_iff_exists.mp hq
  obtain ⟨d', hd', -⟩ := hv.records q d hd
  exact hn q (by rw [hd']; rfl)

/-- What a link came from is failed. -/
theorem Passed.failedBack (hv : Passed H w T dropped v) (hu : FailedBack H v u l) :
    Passed H w T dropped u ∧ (Answerable H w l → FailedUpstream H w u l) := by
  cases hu with
  | node onion hn hu =>
    subst hu
    obtain ⟨new, hnew, hall⟩ := hv.answers
    refine ⟨⟨hv.absent, hv.records, ⟨new ++ [((l.incomingScid, l.incomingHtlcId), .fail onion)], ?_, ?_⟩, hv.fresh,
      hv.links, ?_⟩, fun _ => Or.inl ⟨onion, ?_⟩⟩
    · rw [← List.append_assoc, ← hnew]
      rfl
    · intro r hr
      rcases List.mem_append.mp hr with hr | hr
      · exact hall r hr
      · rw [List.mem_singleton.mp hr]
        exact hv.normal hn
    · intro k l hl hnone ha
      exact (hv.failed k l hl hnone ha).grows rfl fun q d hd => ⟨d, hd, List.Subset.refl _⟩
    · show _ ∈ (v.resolutions ++ [_]).drop w.resolutions.length
      rw [hnew, List.append_assoc, List.drop_left]
      exact List.mem_append_right _ (List.mem_singleton_self _)
  | @unlisted q d hq hd hlist hu =>
    subst hu
    refine ⟨hv, fun ha => ?_⟩
    have hsome : (w.channel q).isSome = true := by
      by_contra hn
      cases (hv.absent q (by simpa using hn)).symm.trans hd
    obtain ⟨d₀, hd₀⟩ := Option.isSome_iff_exists.mp hsome
    obtain ⟨d₁, hd₁, fails, errors, rfl, -, -⟩ := hv.records q d₀ hd₀
    obtain rfl := Option.some.inj (hd₁.symm.trans hd)
    rcases ha q d₀ hq hd₀ with hl | ⟨c, reason, hmem⟩
    · cases hl.symm.trans hlist
    · exact Or.inr ⟨q, _, hq, hd, c, reason, List.mem_append_left _ hmem⟩
  | @hosted q d c reason hq hd hlist hu =>
    have hput : Passed H w T dropped (v.put .channels q (d.push (.ofLocal (.fail c l.incomingHtlcId reason)))) :=
      hv.put hd (fun _ hg => hg.fail hlist) (List.subset_append_left d.uncommitted _)
    refine ⟨hput.same hu, fun _ => Or.inr ⟨q, _, hq, (hu.channel q).trans World.channel_put, c, reason, ?_⟩⟩
    exact List.mem_append_right _ (List.mem_singleton_self _)

/-! ### The rounds of a pass -/

/-- A late HTLC of an active channel: the channel is errored, and the HTLC is given up on. -/
theorem leads_giveUpOn {e : LocalError} {code : UInt16} (hv : Passed H w T dropped v) (ht : ¬ T p)
    (hp : (w.channel p).isSome) (hd : v.channel p = some d) (hl : v.link (H.scid p, h.id) = some l)
    (hl₀ : w.link (H.scid p, h.id) = some l) :
    Leads exec (PassEnv height) (giveUpOn H p d h e code) v fun _ v' =>
      (∃ dropped', Passed H w (fun q => q = p ∨ T q) dropped' v') ∧ (∀ k, v.link k = none → v'.link k = none) ∧
      v'.link (H.scid p, h.id) = none := by
  refine Does.bind (does_saveChannel (fun _ _ _ => trace_any) fun _ _ _ _ => trace_any) ?_
  intro _ v₁ h₁
  have hv₁ : Passed H w (fun q => q = p ∨ T q) dropped v₁ := by
    rw [h₁]
    exact (hv.mark p).put hd (fun _ hg => hg.error (Or.inl rfl)) (List.Subset.refl _)
  have hl₁ : v₁.link (H.scid p, h.id) = some l := by
    rw [h₁, World.link_put_channel]
    exact hl
  refine (leads_resolveForwardFail hl₁).post ?_
  intro _ v' hpost
  obtain ⟨u, hu, rfl⟩ := hpost
  obtain ⟨hv₂, hf⟩ := hv₁.failedBack hu
  refine ⟨⟨_, hv₂.drop hp (Or.inl rfl) (hv.fresh p ht) hl₀ hf⟩, ?_, World.link_erase⟩
  intro k hk
  by_cases heq : k = (H.scid p, h.id)
  · subst heq
    exact World.link_erase
  · rw [World.link_erase_ne heq, hu.link, h₁, World.link_put_channel]
    exact hk

theorem uncommittedLocalAdds_fails {us fails : List UncommittedUpdate}
    (hf : ∀ u ∈ fails, ∃ c id reason, u = .ofLocal (.fail c id reason)) :
    (us ++ fails).filterMap (fun | .ofLocal (.add htlc) => some htlc | _ => none) =
      us.filterMap (fun | .ofLocal (.add htlc) => some htlc | _ => none) := by
  rw [List.filterMap_append]
  have hnone : fails.filterMap (fun | .ofLocal (.add htlc) => some htlc | _ => none) = [] := by
    rw [List.filterMap_eq_nil_iff]
    intro u hu
    obtain ⟨c, id, reason, rfl⟩ := hf u hu
    rfl
  rw [hnone, List.append_nil]

/-- The record of a channel that has not been looked at shows the same status and the same HTLCs. -/
theorem Grown.shows {due : Prop} (hg : Grown due d d') (hdue : ¬ due) :
    deriveStatus d' = deriveStatus d ∧ uncommittedLocalAdds d' = uncommittedLocalAdds d ∧ d'.lcss = d.lcss := by
  obtain ⟨fails, errors, rfl, herr, hfails⟩ := hg
  obtain rfl := herr hdue
  refine ⟨?_, ?_, rfl⟩
  · unfold deriveStatus
    simp only [List.append_nil]
  · refine uncommittedLocalAdds_fails ?_
    intro u hu
    obtain ⟨c, id, reason, he, -⟩ := hfails u hu
    exact ⟨c, id, reason, he⟩

/-- The late HTLC of an active channel that has one only is no longer linked. -/
def Cleared (H : Host) (w : World) (now : UInt64) (height : UInt32) (p : PublicKey) (v : World) : Prop :=
  ∀ d h l, w.channel p = some d → deriveStatus d = .active → Late H w now height p d h l →
    (∀ h' l', Late H w now height p d h' l' → h'.id = h.id) → v.link (H.scid p, h.id) = none

theorem leads_enforceDeadlinesOf {cached : Option UInt32} (hc : ∀ n, cached = some n → n = height)
    (hv : Passed H w T dropped v) (ht : ¬ T p) :
    Leads exec (PassEnv height) (enforceDeadlinesOf H p now cached) v fun r v' => (∀ n, r = some n → n = height) ∧
      (∃ dropped', Passed H w (fun q => q = p ∨ T q) dropped' v') ∧ (∀ k, v.link k = none → v'.link k = none) ∧
      Cleared H w now height p v' := by
  unfold enforceDeadlinesOf
  refine Does.bind does_loadChannel ?_
  intro found v hpost
  obtain ⟨rfl, hfound⟩ := hpost
  have skip (hclear : Cleared H w now height p v) {r : Option UInt32} (hr : ∀ n, r = some n → n = height) :
      Leads exec (PassEnv height) (pure r : Ctl (Option UInt32)) v fun r v' => (∀ n, r = some n → n = height) ∧
        (∃ dropped', Passed H w (fun q => q = p ∨ T q) dropped' v') ∧ (∀ k, v.link k = none → v'.link k = none) ∧
        Cleared H w now height p v' :=
    Does.pure ⟨hr, ⟨dropped, hv.mark p⟩, fun _ hk => hk, hclear⟩
  rcases found with - | d'
  · refine skip ?_ hc
    intro d _ _ hd
    obtain ⟨_, hd', -⟩ := hv.records p d hd
    cases hd'.symm.trans hfound.symm
  obtain ⟨d, hd⟩ : ∃ d, w.channel p = some d := by
    cases hd : w.channel p with
    | none => cases (hv.absent p hd).symm.trans hfound.symm
    | some d => exact ⟨d, rfl⟩
  obtain ⟨d₁, hd₁, hgrown⟩ := hv.records p d hd
  obtain rfl := Option.some.inj (hfound.trans hd₁)
  obtain ⟨hstatus, hadds, hlcss⟩ := hgrown.shows ht
  dsimp only
  split
  · rename_i hinactive
    refine skip ?_ hc
    intro d₂ _ _ hd₂ hactive
    obtain rfl := Option.some.inj (hd₂.symm.trans hd)
    exact absurd (hstatus.trans hactive) hinactive
  have hold {k : HtlcKey} {l : ForwardLink} (hl : v.link k = some l) : w.link k = some l := by
    rcases hv.links k with he | ⟨hn, -⟩
    · exact he ▸ hl
    · cases hn.symm.trans hl
  -- Giving up on a late HTLC clears the channel, if its late HTLCs have one id.
  have give {h : UpdateAddHtlc} {l : ForwardLink} {e : LocalError} {code : UInt16} {r : Option UInt32}
      (hr : ∀ n, r = some n → n = height) (hlate : Late H w now height p d h l) (hl : v.link (H.scid p, h.id) = some l) :
      Leads exec (PassEnv height) (do giveUpOn H p d' h e code; pure r) v fun r v' => (∀ n, r = some n → n = height) ∧
        (∃ dropped', Passed H w (fun q => q = p ∨ T q) dropped' v') ∧ (∀ k, v.link k = none → v'.link k = none) ∧
        Cleared H w now height p v' := by
    refine Does.bind (leads_giveUpOn hv ht (by rw [hd]; rfl) hd₁ hl hlate.linked) ?_
    intro _ v' hpost
    obtain ⟨hpassed, hshrunk, hgone⟩ := hpost
    refine Does.pure ⟨hr, hpassed, hshrunk, ?_⟩
    intro d₂ h₂ l₂ hd₂ _ hlate₂ hone
    obtain rfl := Option.some.inj (hd₂.symm.trans hd)
    rw [← hone h l hlate]
    exact hgone
  refine Does.bind (does_firstUncommittedLate _) ?_
  intro late v hpost
  obtain ⟨rfl, hfinds⟩ := hpost
  rw [hadds] at hfinds
  cases late with
  | some h =>
    obtain ⟨hmem, l, t, hl, hdeadline, hle⟩ := hfinds
    exact give hc ⟨hold hl, Or.inl ⟨hmem, t, hdeadline, hle⟩⟩ hl
  | none =>
    refine Does.bind (does_firstExpired _ hc) ?_
    intro r v hpost
    obtain ⟨expired, cached'⟩ := r
    obtain ⟨rfl, hfinds', hc'⟩ := hpost
    rw [hlcss] at hfinds'
    cases expired with
    | some h =>
      obtain ⟨hmem, l, hl, hexp, hle⟩ := hfinds'
      exact give hc' ⟨hold hl, Or.inr ⟨hmem, hexp, hle⟩⟩ hl
    | none =>
      refine skip ?_ hc'
      intro d₂ h l hd₂ _ hlate _
      obtain rfl := Option.some.inj (hd₂.symm.trans hd)
      rcases hv.links (H.scid p, h.id) with he | ⟨hn, -⟩
      · rcases hlate.late with ⟨hmem, t, hdeadline, hle⟩ | ⟨hmem, hexp, hle⟩
        · exact absurd ⟨l, t, he.trans hlate.linked, hdeadline, hle⟩ (hfinds h hmem)
        · exact absurd ⟨l, he.trans hlate.linked, hexp, hle⟩ (hfinds' h hmem)
      · exact hn

theorem leads_enforceDeadlinesFrom (peers : List PublicKey) (hnodup : peers.Nodup) {cached : Option UInt32}
    (hc : ∀ n, cached = some n → n = height) (hv : Passed H w T dropped v) (ht : ∀ p ∈ peers, ¬ T p) :
    Leads exec (PassEnv height) (enforceDeadlinesFrom H now peers cached) v fun _ v' =>
      (∃ T' dropped', Passed H w T' dropped' v') ∧ (∀ k, v.link k = none → v'.link k = none) ∧
      ∀ p ∈ peers, Cleared H w now height p v' := by
  induction peers generalizing v T dropped cached with
  | nil => exact Does.pure ⟨⟨T, dropped, hv⟩, fun _ hk => hk, fun _ hp => by cases hp⟩
  | cons p peers ih =>
    obtain ⟨hnew, hnodup⟩ := List.nodup_cons.mp hnodup
    refine Does.bind (leads_enforceDeadlinesOf hc hv (ht p List.mem_cons_self)) ?_
    intro cached' v₁ hpost
    obtain ⟨hc', ⟨dropped', hv₁⟩, hshrunk, hclear⟩ := hpost
    have ht₁ : ∀ q ∈ peers, ¬ (q = p ∨ T q) := by
      rintro q hq (rfl | hT)
      · exact hnew hq
      · exact ht q (List.mem_cons_of_mem _ hq) hT
    refine (ih hnodup hc' hv₁ ht₁).post ?_
    intro _ v' hpost
    obtain ⟨hpassed, hshrunk', hclear'⟩ := hpost
    refine ⟨hpassed, fun k hk => hshrunk' k (hshrunk k hk), ?_⟩
    intro q hq
    rcases List.mem_cons.mp hq with rfl | hq
    · exact fun d h l hd hactive hlate hone => hshrunk' _ (hclear d h l hd hactive hlate hone)
    · exact hclear' q hq

/-- A pass that returns has looked at every channel. -/
theorem leads_enforceForwardDeadlinesAt :
    Leads exec (PassEnv height) (enforceForwardDeadlinesAt H now) w fun _ v' =>
      (∃ T dropped, Passed H w T dropped v') ∧ ∀ p, (w.channel p).isSome → Cleared H w now height p v' := by
  refine Does.bind does_listChannels ?_
  intro peers w hpost
  obtain ⟨rfl, rfl⟩ := hpost
  refine (leads_enforceDeadlinesFrom w.peers Table.sortedKeys_nodup (fun _ hn => by cases hn) Passed.start
    fun _ _ hf => hf).post ?_
  intro _ v' hpost
  obtain ⟨hpassed, -, hclear⟩ := hpost
  exact ⟨hpassed, fun p hp => hclear p (World.mem_peers.mpr hp)⟩

/-! ### When a pass is complete -/

/-- No two channels have the same id. -/
def DistinctScids (H : Host) (w : World) : Prop :=
  ∀ p q, (w.channel p).isSome → (w.channel q).isSome → H.scid p = H.scid q → p = q

theorem Passed.enforced (hv : Passed H w T dropped v) (hclear : ∀ p, (w.channel p).isSome → Cleared H w now height p v)
    (hm : Manageable H now height w) : Enforced H now height w v := by
  intro p d h l hd hactive hlate
  obtain ⟨ha, hone⟩ := hm p d h l hd hactive hlate
  have hgone := hclear p (by rw [hd]; rfl) d h l hd hactive hlate hone
  exact ⟨hv.failed _ l hlate.linked hgone ha, hgone⟩

/-- A channel has one link dropped at most, and nothing is failed on a hosted source that does not list it. -/
theorem Passed.manageable (hv : Passed H w T dropped v) (hdist : DistinctScids H w) (he : Enforced H now height w v) :
    Manageable H now height w := by
  intro p d h l hd hactive hlate
  obtain ⟨hfailed, hgone⟩ := he p d h l hd hactive hlate
  have hid {h' : UpdateAddHtlc} {l' : ForwardLink} (hlate' : Late H w now height p d h' l') : dropped p = some h'.id := by
    have hgone' := (he p d h' l' hd hactive hlate').2
    rcases hv.links (H.scid p, h'.id) with hsame | ⟨-, q, hq, hscid, hdrop⟩
    · cases (hsame.symm.trans hgone').symm.trans hlate'.linked
    · rwa [hdist p q (by rw [hd]; rfl) hq hscid]
  refine ⟨?_, fun h' l' hlate' => Option.some.inj ((hid hlate').symm.trans (hid hlate))⟩
  intro q d₀ hscid hd₀
  rcases hfailed with ⟨onion, hmem⟩ | ⟨q', d', hscid', hd', c, reason, hmem⟩
  · obtain ⟨new, hnew, hall⟩ := hv.answers
    rw [hnew, List.drop_left] at hmem
    exact absurd hscid (hall _ hmem q (by rw [hd₀]; rfl))
  · have hq' : (w.channel q').isSome = true := by
      by_contra hn
      cases (hv.absent q' (by simpa using hn)).symm.trans hd'
    obtain rfl := hdist q' q hq' (by rw [hd₀]; rfl) (hscid'.trans hscid.symm)
    obtain ⟨d₁, hd₁, fails, errors, rfl, -, hfails⟩ := hv.records q' d₀ hd₀
    obtain rfl := Option.some.inj (hd₁.symm.trans hd')
    rcases List.mem_append.mp hmem with hmem | hmem
    · exact Or.inr ⟨c, reason, hmem⟩
    · obtain ⟨c', id, reason', heq, hlist⟩ := hfails _ hmem
      cases heq
      exact Or.inl hlist

/-- A pass in which the dropped links are really deleted fails every late HTLC if no active channel has late
    HTLCs under two ids and each can be failed where it came from; where the channels have ids of their
    own, it does so only then. -/
theorem deadlines_enforced_iff (H : Host) (w : World) (now : UInt64) (height : UInt32) (o : Nat → Choice)
    (hheight : ∀ n, (o n).height = height)
    (hdel : Prog.Kept exec (fun x _ (c : Call) => c.isDelete = true → x.fails = false) o (enforceForwardDeadlinesAt H now).run w)
    (hok : (Prog.run exec o (enforceForwardDeadlinesAt H now).run w).1 = .ok ()) :
    (Manageable H now height w → Enforced H now height w (Prog.run exec o (enforceForwardDeadlinesAt H now).run w).2) ∧
      (DistinctScids H w → Enforced H now height w (Prog.run exec o (enforceForwardDeadlinesAt H now).run w).2 →
        Manageable H now height w) := by
  have hkept : Prog.Kept exec (PassEnv height) o (enforceForwardDeadlinesAt H now).run w :=
    Prog.kept_and hdel (Prog.kept_of_forall fun n _ _ => hheight n)
  obtain ⟨⟨T, dropped, hpassed⟩, hclear⟩ := leads_enforceForwardDeadlinesAt.returns hkept hok
  exact ⟨hpassed.enforced hclear, hpassed.manageable⟩

theorem eq_ok_of_isOk {ε : Type} {r : Except ε Unit} (h : r.isOk = true) : r = .ok () := by
  cases r with
  | error e => cases h
  | ok u => rfl

/-- The client has committed to HTLCs of the node that expire at the given heights. -/
def expiringScript (cltvs : List UInt64) : List (World → Op) :=
  openScript ++ cltvs.map (fun cltv => hookOffers (digest (List.replicate 32 5)) cltv cltv) ++ [clientCommits .transparent openKey]

/-- The HTLC of a channel with the given id has expired at the height 1000. -/
def expiredAt1000 (w : World) (d : ChannelData) (id : UInt64) : Bool :=
  (d.lcss.outgoingHtlcs.find? (·.id == id)).any fun h => (w.link (Host.transparent.scid openPeer, h.id)).any fun l =>
    l.upstreamCltvExpiry.isSome && decide (h.id = id) && decide (h.cltvExpiry ≤ 1000)

theorem late_of_expiredAt1000 {id : UInt64} (he : expiredAt1000 w d id = true) :
    ∃ h l, h.id = id ∧ Late .transparent w 0 1000 openPeer d h l := by
  obtain ⟨h, hh, he⟩ := exists_of_any he
  obtain ⟨l, hl, he⟩ := exists_of_any he
  simp only [Bool.and_eq_true, decide_eq_true_eq] at he
  obtain ⟨⟨hexp, hid⟩, hle⟩ := he
  exact ⟨h, l, hid, hl, Or.inr ⟨List.mem_of_find?_eq_some hh, hexp, hle⟩⟩

/-- All HTLCs of all channels have the id 1, and none of them came from a hosted channel. -/
def onlyFirst (w : World) : Bool :=
  w.peers.all fun p => (w.channel p).all fun d => (uncommittedLocalAdds d ++ d.lcss.outgoingHtlcs).all fun h =>
    h.id == 1 && (w.link (Host.transparent.scid p, h.id)).all fun l => w.peers.all (Host.transparent.scid · != l.incomingScid)

theorem manageable_of_onlyFirst (hw : onlyFirst w = true) : Manageable .transparent now height w := by
  intro p d h l hd _ hlate
  have hall {h : UpdateAddHtlc} {l : ForwardLink} (hlate : Late .transparent w now height p d h l) : h.id = 1 ∧
      ∀ q ∈ w.peers, Host.transparent.scid q ≠ l.incomingScid := by
    have hp := List.all_eq_true.mp hw p (World.mem_peers.mpr (by rw [hd]; rfl))
    rw [hd, Option.all_some] at hp
    have hmem : h ∈ uncommittedLocalAdds d ++ d.lcss.outgoingHtlcs := by
      rcases hlate.late with ⟨hmem, -⟩ | ⟨hmem, -⟩
      · exact List.mem_append_left _ hmem
      · exact List.mem_append_right _ hmem
    obtain ⟨hid, hl⟩ := Bool.and_eq_true_iff.mp (List.all_eq_true.mp hp h hmem)
    rw [hlate.linked, Option.all_some] at hl
    exact ⟨by simpa using hid, fun q hq => by simpa using List.all_eq_true.mp hl q hq⟩
  refine ⟨?_, fun h' l' hlate' => (hall hlate').1.trans (hall hlate).1.symm⟩
  intro q d' hscid hd'
  exact absurd hscid ((hall hlate).2 q (World.mem_peers.mpr (by rw [hd']; rfl)))

/-- One HTLC has expired, and the pass fails it. -/
theorem deadlines_enforced_one : ∃ d h l, (calmRun .transparent (expiringScript [900])).channel openPeer = some d ∧
    deriveStatus d = .active ∧ Late .transparent (calmRun .transparent (expiringScript [900])) 0 1000 openPeer d h l ∧
    Enforced .transparent 0 1000 (calmRun .transparent (expiringScript [900]))
      (Prog.run exec (fun _ => .calm) (enforceForwardDeadlinesAt .transparent 0).run
        (calmRun .transparent (expiringScript [900]))).2 := by
  have hrun : ((calmRun .transparent (expiringScript [900])).channel openPeer).any (fun d =>
      decide (deriveStatus d = .active) && expiredAt1000 (calmRun .transparent (expiringScript [900])) d 1 &&
        onlyFirst (calmRun .transparent (expiringScript [900])) &&
        (Prog.run exec (fun _ => .calm) (enforceForwardDeadlinesAt .transparent 0).run
          (calmRun .transparent (expiringScript [900]))).1.isOk) = true := by
    decide +kernel
  obtain ⟨d, hd, hrun⟩ := exists_of_any hrun
  obtain ⟨hrun, hok⟩ := Bool.and_eq_true_iff.mp hrun
  obtain ⟨hrun, hfirst⟩ := Bool.and_eq_true_iff.mp hrun
  obtain ⟨hactive, hexp⟩ := Bool.and_eq_true_iff.mp hrun
  obtain ⟨h, l, -, hlate⟩ := late_of_expiredAt1000 hexp
  have hret := eq_ok_of_isOk hok
  exact ⟨d, h, l, hd, of_decide_eq_true hactive, hlate, (deadlines_enforced_iff .transparent
    (calmRun .transparent (expiringScript [900])) 0 1000 (fun _ => .calm) (fun _ => rfl)
    (Prog.kept_of_forall fun _ _ _ _ => rfl) hret).1 (manageable_of_onlyFirst hfirst)⟩

/-- Two HTLCs have expired, and the pass leaves the second one where it is. -/
theorem deadlines_missed_second : ¬ ∀ (H : Host) (w : World) (now : UInt64) (height : UInt32) (o : Nat → Choice),
    Reachable H Guard.free w → (∀ n, (o n).fails = false ∧ (o n).height = height) →
    (Prog.run exec o (enforceForwardDeadlinesAt H now).run w).1 = .ok () →
    Enforced H now height w (Prog.run exec o (enforceForwardDeadlinesAt H now).run w).2 := by
  intro hall
  have hrun : ((calmRun .transparent (expiringScript [900, 950])).channel openPeer).any (fun d =>
      decide (deriveStatus d = .active) && expiredAt1000 (calmRun .transparent (expiringScript [900, 950])) d 2 &&
        (Prog.run exec (fun _ => .calm) (enforceForwardDeadlinesAt .transparent 0).run
          (calmRun .transparent (expiringScript [900, 950]))).1.isOk &&
        ((Prog.run exec (fun _ => .calm) (enforceForwardDeadlinesAt .transparent 0).run
          (calmRun .transparent (expiringScript [900, 950]))).2.link (Host.transparent.scid openPeer, 2)).isSome) = true := by
    decide +kernel
  obtain ⟨d, hd, hrun⟩ := exists_of_any hrun
  obtain ⟨hrun, hkept⟩ := Bool.and_eq_true_iff.mp hrun
  obtain ⟨hrun, hok⟩ := Bool.and_eq_true_iff.mp hrun
  obtain ⟨hactive, hexp⟩ := Bool.and_eq_true_iff.mp hrun
  obtain ⟨h, l, hid, hlate⟩ := late_of_expiredAt1000 hexp
  have hret := eq_ok_of_isOk hok
  have hgone := (hall .transparent (calmRun .transparent (expiringScript [900, 950])) 0 1000 (fun _ => .calm)
    (calmRun_reachable _ _) (fun _ => ⟨rfl, rfl⟩) hret openPeer d h l hd (of_decide_eq_true hactive) hlate).2
  rw [hid] at hgone
  rw [hgone] at hkept
  cases hkept

end Canopus
