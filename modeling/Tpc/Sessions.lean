import Tpc.Steps

/-! The discipline of the sessions: a coordinator begins a transaction at most once on a host, and
plans its end at most once. So at most one storage session has a transaction on a node, and as long
as that session is alive the record is running. Only distinct `begin_ts` are assumed. -/

namespace Tpc
open Durable

def Begun (l : Hist) (c : CoordId) (T : String) : Prop := .note (.begun c T) ∈ l

def Planned (l : Hist) (c : CoordId) (T st : String) (L : List Host) : Prop :=
  .note (.prepare c T st L) ∈ l

def Session.Trace (σ : Session) (T : String) : Prop :=
  σ.vars.beginTs = T ∨ beginReq T ∈ σ.toServ

def CoordPc.Free (h : Host) : CoordPc → Prop
  | .top => True
  | .beginSent h' _ => h' ≠ h
  | .opSent _ _ => True
  | .preparing _ _ => False
  | .dangling => False
  | .closed => False

def CoordPc.Past : CoordPc → Prop
  | .preparing _ _ => True
  | .dangling => True
  | .closed => True
  | _ => False

def Coord.Unused (co : Coord) (h : Host) : Prop := (co.storageCl h).stat = .init ∧ co.pc.Free h

def OpOk (cfg : Config) (h : Host) (m : RpcReq) : Prop :=
  ∃ T req, m = opReq T req ∧ req.IsOp ∧ cfg.hostOf req.key = some h

theorem OpOk.isOp {cfg : Config} {h : Host} {m : RpcReq} (hm : OpOk cfg h m) : m.IsOp := by
  obtain ⟨T, req, rfl, hop, -⟩ := hm
  exact ⟨hop.1, hop.2.1⟩

theorem beginReq_not_isOp (T : String) : ¬ (beginReq T).IsOp := fun h => h.1 rfl

theorem prepareReq_not_isOp (T st : String) (L : List Host) : ¬ (prepareReq T st L).IsOp :=
  fun h => h.2 rfl

def MsgOk (cfg : Config) (l : Hist) (σ : Session) (m : RpcReq) : Prop :=
  (∃ T, m = beginReq T ∧ Begun l σ.owner T) ∨ OpOk cfg σ.host m ∨
    ∃ T st L, m = prepareReq T st L ∧ Planned l σ.owner T st L ∧ σ.host ∈ L

section MsgOk

variable {cfg : Config} {l : Hist} {σ : Session}

theorem MsgOk.of_begin {m : RpcReq} (h : MsgOk cfg l σ m) (hm : m.requestType = .begin) :
    ∃ T, m = beginReq T ∧ Begun l σ.owner T := by
  rcases h with h | hop | ⟨T, st, L, rfl, -⟩
  · exact h
  · exact absurd hm hop.isOp.1
  · simp [prepareReq] at hm

theorem MsgOk.of_prepare {m : RpcReq} (h : MsgOk cfg l σ m) (hm : m.requestType = .prepare) :
    ∃ T st L, m = prepareReq T st L ∧ Planned l σ.owner T st L ∧ σ.host ∈ L := by
  rcases h with ⟨T, rfl, -⟩ | hop | h
  · simp [beginReq] at hm
  · exact absurd hm hop.isOp.2
  · exact h

theorem MsgOk.of_op {m : RpcReq} (h : MsgOk cfg l σ m) (hm : m.IsOp) : OpOk cfg σ.host m := by
  rcases h with ⟨T, rfl, -⟩ | hop | ⟨T, st, L, rfl, -⟩
  · exact absurd hm (beginReq_not_isOp T)
  · exact hop
  · exact absurd hm (prepareReq_not_isOp T st L)

theorem MsgOk.begun {T : String} (h : MsgOk cfg l σ (beginReq T)) : Begun l σ.owner T := by
  obtain ⟨T', he, hb⟩ := h.of_begin rfl
  rwa [show T = T' from congrArg RpcReq.beginTs he]

end MsgOk

def Unknown (s : Sys) (h : Host) (T : String) : Prop :=
  (∀ x σ, s.sess x = some σ → σ.host = h → ¬ σ.Trace T) ∧ transOf (s.node h).store T = none

/-- What the notes of a history say of transactions. -/
structure HistOk (cfg : Config) (l : Hist) : Prop where
  begun_ts : ∀ c T, Begun l c T → IsTS T
  planned : ∀ c T st L, Planned l c T st L → Begun l c T ∧ IsTS st ∧ ∀ h ∈ L, h ∈ cfg.hosts
  plan_unique : ∀ c T st st' L L', Planned l c T st L → Planned l c T st' L' → st = st' ∧ L = L'

/-- The variables of client session `c` agree with what it has noted. -/
structure CoordOk (cfg : Config) (l : Hist) (c : CoordId) (co : Coord) : Prop where
  begun : co.beginTs ≠ "" → Begun l c co.beginTs
  asked : ∀ h req, co.pc = .beginSent h req → req.IsOp ∧ cfg.hostOf req.key = some h
  plan_past : ∀ st L, Planned l c co.beginTs st L → co.pc.Past
  preparing : ∀ todo msg, co.pc = .preparing todo msg → ∃ L,
    msg = prepareReq co.beginTs co.startTs L ∧ Planned l c co.beginTs co.startTs L ∧ ∀ h ∈ todo, h ∈ L
  stat : ∀ h, (co.storageCl h).stat = .hasBegin → (co.storageCl h).fd ≠ none

/-- What the connections carry, and the records that their coroutines have written. -/
structure SessDisc (cfg : Config) (s : Sys) : Prop where
  host : ∀ x σ, s.sess x = some σ → σ.host ∈ cfg.hosts
  msg : ∀ x σ m, s.sess x = some σ → m ∈ σ.toServ → MsgOk cfg s.hist σ m
  waits : ∀ x σ m, s.sess x = some σ → σ.wait.req? = some m → OpOk cfg σ.host m
  vars : ∀ x σ, s.sess x = some σ → σ.vars.beginTs ≠ "" → Begun s.hist σ.owner σ.vars.beginTs
  once : ∀ x y σ τ T, s.sess x = some σ → s.sess y = some τ → σ.host = τ.host → T ≠ "" →
    σ.Trace T → τ.Trace T → x = y
  fresh : ∀ x σ T, s.sess x = some σ → beginReq T ∈ σ.toServ →
    σ.vars.beginTs ≠ T ∧ transOf (s.node σ.host).store T = none ∧
      σ.toServ.count (beginReq T) ≤ 1
  rec_begun : ∀ h T, transOf (s.node h).store T ≠ none → ∃ c, Begun s.hist c T
  rec_live : ∀ x σ, s.sess x = some σ → σ.live = true → σ.vars.beginTs ≠ "" →
    transOf (s.node σ.host).store σ.vars.beginTs = none ∨
      transOf (s.node σ.host).store σ.vars.beginTs = some {}
  down : ∀ x σ, s.sess x = some σ → (s.node σ.host).up = false → σ.live = false

structure Disc (cfg : Config) (s : Sys) : Prop extends HistOk cfg s.hist, SessDisc cfg s where
  session : ∀ c, CoordOk cfg s.hist c (s.coord c)
  slot : ∀ c h x, ((s.coord c).storageCl h).fd = some x →
    ∃ σ, s.sess x = some σ ∧ σ.host = h ∧ σ.owner = c
  plan_only : ∀ c T st L h, Planned s.hist c T st L → h ∉ L → Unknown s h T
  unused : ∀ c h, (s.coord c).beginTs ≠ "" → (s.coord c).Unused h → Unknown s h (s.coord c).beginTs

theorem histOk_nil (cfg : Config) : HistOk cfg [] := by
  constructor <;> simp [Begun, Planned]

theorem coordOk_init (cfg : Config) (c : CoordId) : CoordOk cfg [] c {} := by
  constructor <;> simp [Planned]

theorem sessDisc_init (cfg : Config) : SessDisc cfg {} := by
  constructor <;> simp [transOf]

theorem disc_init (cfg : Config) : Disc cfg {} where
  toHistOk := histOk_nil cfg
  toSessDisc := sessDisc_init cfg
  session := coordOk_init cfg
  slot := by simp
  plan_only := by simp [Planned]
  unused := by simp

def Event.Plans : Event → Prop
  | .begun .. => True
  | .prepare .. => True
  | _ => False

structure CoordMove (co co' : Coord) : Prop where
  beginTs : co'.beginTs = co.beginTs ∨ co'.beginTs = ""
  slot : ∀ h, co'.storageCl h = co.storageCl h ∨ co'.storageCl h = {} ∨
    ((co'.storageCl h).fd = (co.storageCl h).fd ∧ (co.storageCl h).fd ≠ none)
  asked : ∀ h req, co'.pc = .beginSent h req → co.pc = .beginSent h req
  unused : ∀ h, co'.beginTs ≠ "" → co'.Unused h → co.Unused h
  past : co'.beginTs ≠ "" → co.pc.Past → co'.pc.Past
  preparing : ∀ todo msg, co'.pc = .preparing todo msg → co'.beginTs = co.beginTs ∧
    co'.startTs = co.startTs ∧ ∃ todo', co.pc = .preparing todo' msg ∧ ∀ h ∈ todo, h ∈ todo'

theorem CoordMove.refl (co : Coord) : CoordMove co co :=
  ⟨.inl rfl, fun _ => .inl rfl, fun _ _ h => h, fun _ _ h => h, fun _ h => h,
    fun todo _ h => ⟨rfl, rfl, todo, h, fun _ h => h⟩⟩

namespace CoordOk

variable {cfg : Config} {l l' : Hist} {c : CoordId} {co co' : Coord}

theorem move (h : CoordOk cfg l c co) (hl : HistOk cfg l) (hm : CoordMove co co') :
    CoordOk cfg l c co' where
  begun := by
    intro hne
    rcases hm.beginTs with he | he
    · rw [he] at hne ⊢
      exact h.begun hne
    · exact absurd he hne
  asked n req hpc := h.asked n req (hm.asked n req hpc)
  plan_past := by
    intro st L hp
    have hne := (hl.begun_ts c _ (hl.planned c _ st L hp).1).ne_empty
    rcases hm.beginTs with he | he
    · rw [he] at hp
      exact hm.past hne (h.plan_past st L hp)
    · exact absurd he hne
  preparing := by
    intro todo msg hpc
    obtain ⟨hb, hst, todo', hpc', hsub⟩ := hm.preparing todo msg hpc
    obtain ⟨L, hmsg, hp, hL⟩ := h.preparing todo' msg hpc'
    rw [hb, hst]
    exact ⟨L, hmsg, hp, fun n hn => hL n (hsub n hn)⟩
  stat := by
    intro n hst
    rcases hm.slot n with he | he | ⟨he, hne⟩
    · rw [he] at hst ⊢
      exact h.stat n hst
    · simp [he] at hst
    · rwa [he]

theorem congr (h : CoordOk cfg l c co) (hb : Begun l c co.beginTs → Begun l' c co.beginTs)
    (hp : ∀ st L, Planned l' c co.beginTs st L ↔ Planned l c co.beginTs st L) :
    CoordOk cfg l' c co where
  begun hne := hb (h.begun hne)
  asked := h.asked
  plan_past st L hpl := h.plan_past st L ((hp st L).mp hpl)
  preparing := by
    intro todo msg hpc
    obtain ⟨L, hmsg, hpl, hL⟩ := h.preparing todo msg hpc
    exact ⟨L, hmsg, (hp _ L).mpr hpl, hL⟩
  stat := h.stat

end CoordOk

structure SessMove (σ σ' : Session) : Prop where
  host : σ'.host = σ.host
  owner : σ'.owner = σ.owner
  live : σ'.live = true → σ.live = true
  wait : ∀ m, σ'.wait.req? = some m → σ.wait.req? = some m ∨ (m ∈ σ.toServ ∧ m.IsOp)
  vars : ((σ'.vars.beginTs = σ.vars.beginTs ∨ σ'.vars.beginTs = "") ∧
      σ'.toServ.Sublist σ.toServ) ∨
    (σ.vars.beginTs = "" ∧ σ.toServ = beginReq σ'.vars.beginTs :: σ'.toServ)

theorem SessMove.refl (σ : Session) : SessMove σ σ :=
  ⟨rfl, rfl, id, fun _ h => .inl h, .inl ⟨.inl rfl, .refl _⟩⟩

theorem SessMove.mem {σ σ' : Session} (h : SessMove σ σ') {m : RpcReq} (hm : m ∈ σ'.toServ) :
    m ∈ σ.toServ := by
  rcases h.vars with ⟨-, hs⟩ | ⟨-, hs⟩
  · exact hs.subset hm
  · rw [hs]
    exact .tail _ hm

theorem SessMove.trace {σ σ' : Session} (h : SessMove σ σ') {T : String} (hT : T ≠ "")
    (ht : σ'.Trace T) : σ.Trace T := by
  rcases ht with ht | ht
  · rcases h.vars with ⟨hv | hv, -⟩ | ⟨-, hs⟩
    · exact .inl (hv.symm.trans ht)
    · exact absurd (ht.symm.trans hv) hT
    · exact .inr (by rw [hs, ht]; exact .head _)
  · exact .inr (h.mem ht)

inductive RecMove (s s' : Sys) (h : Host) (T : String) : Prop
  | same : transOf (s'.node h).store T = transOf (s.node h).store T → RecMove s s' h T
  | created (x : Nat) (σ σ' : Session) : transOf (s'.node h).store T = some {} →
      s.sess x = some σ → s'.sess x = some σ' → σ.host = h → σ'.vars.beginTs = T →
      σ.toServ = beginReq T :: σ'.toServ → RecMove s s' h T
  | changed : transOf (s.node h).store T ≠ none →
      (∀ x σ', s'.sess x = some σ' → σ'.host = h → σ'.live = true → σ'.vars.beginTs ≠ T) →
      RecMove s s' h T

structure Move (s s' : Sys) : Prop where
  notes : ∀ e : Event, e.Plans → (.note e ∈ s'.hist ↔ .note e ∈ s.hist)
  coord : ∀ c, CoordMove (s.coord c) (s'.coord c)
  sess : ∀ x σ', s'.sess x = some σ' → ∃ σ, s.sess x = some σ ∧ SessMove σ σ'
  kept : ∀ x σ, s.sess x = some σ → ∃ σ', s'.sess x = some σ'
  record : ∀ h T, RecMove s s' h T
  down : ∀ h, (s'.node h).up = false → (s.node h).up = false ∨
    ∀ x σ', s'.sess x = some σ' → σ'.host = h → σ'.live = false

namespace Move

variable {cfg : Config} {s s' : Sys}

theorem begun (h : Move s s') {c : CoordId} {T : String} :
    Begun s'.hist c T ↔ Begun s.hist c T := h.notes (.begun c T) trivial

theorem planned (h : Move s s') {c : CoordId} {T st : String} {L : List Host} :
    Planned s'.hist c T st L ↔ Planned s.hist c T st L := h.notes (.prepare c T st L) trivial

theorem msgOk (h : Move s s') {σ σ' : Session} (hσ : SessMove σ σ') {m : RpcReq}
    (hm : MsgOk cfg s.hist σ m) : MsgOk cfg s'.hist σ' m := by
  unfold MsgOk
  rw [hσ.owner, hσ.host]
  rcases hm with ⟨T, rfl, hb⟩ | hop | ⟨T, st, L, rfl, hp, hL⟩
  · exact .inl ⟨T, rfl, h.begun.mpr hb⟩
  · exact .inr (.inl hop)
  · exact .inr (.inr ⟨T, st, L, rfl, h.planned.mpr hp, hL⟩)

theorem none_of_none (h : Move s s') {n : Host} {T : String}
    (hn : transOf (s.node n).store T = none)
    (hno : ∀ x σ, s.sess x = some σ → σ.host = n → beginReq T ∉ σ.toServ) :
    transOf (s'.node n).store T = none := by
  rcases h.record n T with hs | ⟨x, σ, σ', -, hx, -, hh, -, hm⟩ | ⟨hne, -⟩
  · rw [hs, hn]
  · exact absurd (by rw [hm]; exact .head _) (hno x σ hx hh)
  · exact absurd hn hne

theorem unknown (h : Move s s') {n : Host} {T : String} (hT : T ≠ "") (hu : Unknown s n T) :
    Unknown s' n T := by
  refine ⟨?_, h.none_of_none hu.2 fun x σ hσ hh hm => hu.1 x σ hσ hh (.inr hm)⟩
  intro x σ' hσ' hh ht
  obtain ⟨σ, hσ, hmove⟩ := h.sess x σ' hσ'
  exact hu.1 x σ hσ (hmove.host.symm.trans hh) (hmove.trace hT ht)

theorem histOk (h : Move s s') (hd : HistOk cfg s.hist) : HistOk cfg s'.hist where
  begun_ts c T hb := hd.begun_ts c T (h.begun.mp hb)
  planned := by
    intro c T st L hp
    obtain ⟨hb, hrest⟩ := hd.planned c T st L (h.planned.mp hp)
    exact ⟨h.begun.mpr hb, hrest⟩
  plan_unique c T st st' L L' hp hp' :=
    hd.plan_unique c T st st' L L' (h.planned.mp hp) (h.planned.mp hp')

theorem fresh (h : Move s s') (hd : Disc cfg s) {x : Nat} {σ' : Session} {T : String}
    (hσ' : s'.sess x = some σ') (hm : beginReq T ∈ σ'.toServ) :
    σ'.vars.beginTs ≠ T ∧ transOf (s'.node σ'.host).store T = none ∧
      σ'.toServ.count (beginReq T) ≤ 1 := by
  obtain ⟨σ, hσ, hmove⟩ := h.sess x σ' hσ'
  have hmem := hmove.mem hm
  obtain ⟨hv, hr, hc⟩ := hd.fresh x σ T hσ hmem
  have hTs : IsTS T := hd.begun_ts _ T (hd.msg x σ _ hσ hmem).begun
  have hcount : σ'.toServ.count (beginReq T) ≤ 1 := by
    rcases hmove.vars with ⟨-, hs⟩ | ⟨-, hs⟩
    · exact (hs.count_le _).trans hc
    · rw [hs] at hc
      exact ((List.sublist_cons_self _ _).count_le _).trans hc
  -- the message is still there, so it is not the one that was just read
  have hhead : ∀ l, σ.toServ = beginReq T :: l → l = σ'.toServ → False := by
    rintro l hs rfl
    rw [hs, List.count_cons_self] at hc
    have := List.count_pos_iff.mpr hm
    omega
  refine ⟨?_, ?_, hcount⟩
  · rcases hmove.vars with ⟨he | he, -⟩ | ⟨-, hs⟩
    · rwa [he]
    · rw [he]
      exact hTs.ne_empty.symm
    · rintro rfl
      exact hhead _ hs rfl
  · rw [hmove.host]
    rcases h.record σ.host T with hs | ⟨y, τ, τ', -, hτ, hτ', hh, -, hs⟩ | ⟨hne, -⟩
    · rw [hs, hr]
    · have he := hd.once x y σ τ T hσ hτ hh.symm hTs.ne_empty (.inr hmem)
        (.inr (by rw [hs]; exact .head _))
      subst he
      obtain rfl := Option.some.inj (hσ.symm.trans hτ)
      obtain rfl := Option.some.inj (hσ'.symm.trans hτ')
      exact (hhead _ hs rfl).elim
    · exact absurd hr hne

theorem rec_live (h : Move s s') (hd : SessDisc cfg s) {x : Nat} {σ' : Session}
    (hσ' : s'.sess x = some σ') (hlive : σ'.live = true) (hne : σ'.vars.beginTs ≠ "") :
    transOf (s'.node σ'.host).store σ'.vars.beginTs = none ∨
      transOf (s'.node σ'.host).store σ'.vars.beginTs = some {} := by
  obtain ⟨σ, hσ, hmove⟩ := h.sess x σ' hσ'
  have hold : transOf (s.node σ.host).store σ'.vars.beginTs = none ∨
      transOf (s.node σ.host).store σ'.vars.beginTs = some {} := by
    rcases hmove.vars with ⟨he | he, -⟩ | ⟨-, hs⟩
    · rw [he] at hne ⊢
      exact hd.rec_live x σ hσ (hmove.live hlive) hne
    · exact absurd he hne
    · exact .inl (hd.fresh x σ _ hσ (by rw [hs]; exact .head _)).2.1
  rw [hmove.host]
  rcases h.record σ.host σ'.vars.beginTs with hs | ⟨-, -, -, hc, -⟩ | ⟨-, hno⟩
  · rw [hs]
    exact hold
  · exact .inr hc
  · exact absurd rfl (hno x σ' hσ' hmove.host hlive)

theorem rec_begun (h : Move s s') (hd : SessDisc cfg s) {n : Host} {T : String}
    (hne : transOf (s'.node n).store T ≠ none) : ∃ c, Begun s'.hist c T := by
  rcases h.record n T with hs | ⟨x, σ, σ', -, hσ, -, -, -, hs⟩ | ⟨hne', -⟩
  · rw [hs] at hne
    obtain ⟨c, hb⟩ := hd.rec_begun n T hne
    exact ⟨c, h.begun.mpr hb⟩
  · exact ⟨_, h.begun.mpr (hd.msg x σ _ hσ (by rw [hs]; exact .head _)).begun⟩
  · obtain ⟨c, hb⟩ := hd.rec_begun n T hne'
    exact ⟨c, h.begun.mpr hb⟩

theorem sessDisc (h : Move s s') (hd : Disc cfg s) : SessDisc cfg s' where
  host := by
    intro x σ' hσ'
    obtain ⟨σ, hσ, hmove⟩ := h.sess x σ' hσ'
    rw [hmove.host]
    exact hd.host x σ hσ
  msg := by
    intro x σ' m hσ' hm
    obtain ⟨σ, hσ, hmove⟩ := h.sess x σ' hσ'
    exact h.msgOk hmove (hd.msg x σ m hσ (hmove.mem hm))
  waits := by
    intro x σ' m hσ' hm
    obtain ⟨σ, hσ, hmove⟩ := h.sess x σ' hσ'
    rw [hmove.host]
    rcases hmove.wait m hm with hw | ⟨hw, hop⟩
    · exact hd.waits x σ m hσ hw
    · exact (hd.msg x σ m hσ hw).of_op hop
  vars := by
    intro x σ' hσ' hne
    obtain ⟨σ, hσ, hmove⟩ := h.sess x σ' hσ'
    rw [hmove.owner]
    rcases hmove.vars with ⟨hv | hv, -⟩ | ⟨-, hs⟩
    · rw [hv] at hne ⊢
      exact h.begun.mpr (hd.vars x σ hσ hne)
    · exact absurd hv hne
    · exact h.begun.mpr (hd.msg x σ _ hσ (by rw [hs]; exact .head _)).begun
  once := by
    intro x y σ' τ' T hσ' hτ' hh hT ht ht'
    obtain ⟨σ, hσ, hmove⟩ := h.sess x σ' hσ'
    obtain ⟨τ, hτ, hmove'⟩ := h.sess y τ' hτ'
    rw [hmove.host, hmove'.host] at hh
    exact hd.once x y σ τ T hσ hτ hh hT (hmove.trace hT ht) (hmove'.trace hT ht')
  fresh x σ' T hσ' hm := h.fresh hd hσ' hm
  rec_begun n T hne := h.rec_begun hd.toSessDisc hne
  rec_live x σ' hσ' hlive hne := h.rec_live hd.toSessDisc hσ' hlive hne
  down := by
    intro x σ' hσ' hup
    obtain ⟨σ, hσ, hmove⟩ := h.sess x σ' hσ'
    rcases h.down σ'.host hup with hd' | hno
    · rw [hmove.host] at hd'
      by_contra hlive
      have := hd.down x σ hσ hd'
      rw [hmove.live (by simpa using hlive)] at this
      exact absurd this (by decide)
    · exact hno x σ' hσ' rfl

theorem disc (h : Move s s') (hd : Disc cfg s) : Disc cfg s' where
  toHistOk := h.histOk hd.toHistOk
  toSessDisc := h.sessDisc hd
  session c := ((hd.session c).move hd.toHistOk (h.coord c)).congr (fun hb => h.begun.mpr hb)
    fun _ _ => h.planned
  slot := by
    intro c n x hx
    have hx : ((s.coord c).storageCl n).fd = some x := by
      rcases (h.coord c).slot n with he | he | ⟨he, -⟩
      · rwa [he] at hx
      · simp [he] at hx
      · rwa [he] at hx
    obtain ⟨σ, hσ, hh, ho⟩ := hd.slot c n x hx
    obtain ⟨σ', hσ'⟩ := h.kept x σ hσ
    obtain ⟨τ, hτ, hm⟩ := h.sess x σ' hσ'
    obtain rfl := Option.some.inj (hσ.symm.trans hτ)
    exact ⟨σ', hσ', hm.host.trans hh, hm.owner.trans ho⟩
  plan_only := by
    intro c T st L n hp hn
    have hp := h.planned.mp hp
    exact h.unknown (hd.begun_ts c T (hd.planned c T st L hp).1).ne_empty
      (hd.plan_only c T st L n hp hn)
  unused := by
    intro c n hne hu
    have hu' := (h.coord c).unused n hne hu
    rcases (h.coord c).beginTs with he | he
    · rw [he] at hne ⊢
      exact h.unknown hne (hd.unused c n hne hu')
    · exact absurd he hne

end Move

theorem Event.Of.not_plans {h : Host} {e : Event} (he : Event.Of h e) : ¬ e.Plans := by
  cases e <;> simp_all [Event.Of, Event.Plans]

theorem plans_iff_of_grown {p : Proc} {N : Event → Prop} {l l' : Hist} (hN : ∀ e, N e → ¬ e.Plans)
    (h : Grown p N l l') {e : Event} (he : e.Plans) : .note e ∈ l' ↔ .note e ∈ l :=
  ⟨h.old_note fun hn => hN e hn he, fun hm => h.suffix.subset hm⟩

namespace Disc

variable {cfg : Config} {s : Sys}

theorem ne_empty (hd : Disc cfg s) {h : Host} {T : String}
    (hr : transOf (s.node h).store T ≠ none) : T ≠ "" := by
  obtain ⟨c, hb⟩ := hd.rec_begun h T hr
  exact (hd.begun_ts c T hb).ne_empty

theorem no_live (hd : Disc cfg s) {h : Host} {T : String} {t : Trans}
    (ht : transOf (s.node h).store T = some t) (hne : t.state ≠ .begin) {x : Nat} {σ : Session}
    (hσ : s.sess x = some σ) (hh : σ.host = h) (hlive : σ.live = true) : σ.vars.beginTs ≠ T := by
  rintro rfl
  subst hh
  have hT := hd.ne_empty (h := σ.host) (T := σ.vars.beginTs) (by simp [ht])
  rcases hd.rec_live x σ hσ hlive hT with hr | hr
  · simp [ht] at hr
  · obtain rfl := Option.some.inj (ht.symm.trans hr)
    exact hne rfl

end Disc

section NodeStep

variable {cfg : Config} {A : Hist → Prop} {s s' : Sys}

theorem SessMove.after {σ : Session} {m : RpcReq} {rest : List RpcReq} {seg : Seg}
    (hm : σ.toServ = m :: rest)
    (hv : seg.vars.beginTs = σ.vars.beginTs ∨ seg.vars.beginTs = "" ∨
      (σ.vars.beginTs = "" ∧ m = beginReq seg.vars.beginTs))
    (hw : ∀ wt, seg.next = .wait wt → wt.req? = some m ∧ m.IsOp) :
    SessMove σ (({ σ with toServ := rest } : Session).after seg) := by
  refine ⟨by simp, by simp, by simp, fun r hr => ?_, ?_⟩
  · rcases after_wait { σ with toServ := rest } seg rfl with he | he
    · rw [he] at hr
      simp [Wait.req?] at hr
    · obtain ⟨hr', hop⟩ := hw _ he
      obtain rfl := Option.some.inj (hr'.symm.trans hr)
      exact .inr ⟨by simp [hm], hop⟩
  · simp only [after_vars, after_toServ]
    rcases hv with hv | hv | ⟨hv, rfl⟩
    · exact .inl ⟨.inl hv, by rw [hm]; exact List.sublist_cons_self _ _⟩
    · exact .inl ⟨.inr hv, by rw [hm]; exact List.sublist_cons_self _ _⟩
    · exact .inr ⟨hv, hm⟩

theorem Move.of_session {x : Nat} {σ σ' : Session} (hσ : s.sess x = some σ) (hm : SessMove σ σ')
    (hsess : s'.sess = Function.update s.sess x (some σ')) (hcoord : s'.coord = s.coord)
    (hup : ∀ h, (s'.node h).up = (s.node h).up)
    (hnotes : ∀ e : Event, e.Plans → (.note e ∈ s'.hist ↔ .note e ∈ s.hist))
    (hrec : ∀ h T, RecMove s s' h T) : Move s s' where
  notes := hnotes
  coord c := by rw [hcoord]; exact .refl _
  sess := by
    intro y τ' hτ'
    rw [hsess, Function.update_apply] at hτ'
    split_ifs at hτ' with hy
    · obtain rfl := Option.some.inj hτ'
      exact ⟨σ, by rw [hy, hσ], hm⟩
    · exact ⟨τ', hτ', .refl _⟩
  kept := by
    intro y τ hτ
    rw [hsess, Function.update_apply]
    split_ifs
    · exact ⟨σ', rfl⟩
    · exact ⟨τ, hτ⟩
  record := hrec
  down h hh := .inl (by rwa [hup] at hh)

theorem Move.of_node (hsess : s'.sess = s.sess) (hcoord : s'.coord = s.coord)
    (hnotes : ∀ e : Event, e.Plans → (.note e ∈ s'.hist ↔ .note e ∈ s.hist))
    (hup : ∀ h, (s'.node h).up = false → (s.node h).up = false)
    (hrec : ∀ h T, RecMove s s' h T) : Move s s' where
  notes := hnotes
  coord c := by rw [hcoord]; exact .refl _
  sess := by
    intro y τ' hτ'
    rw [hsess] at hτ'
    exact ⟨τ', hτ', .refl _⟩
  kept := by
    intro y τ hτ
    rw [hsess]
    exact ⟨τ, hτ⟩
  record := hrec
  down h hh := .inl (hup h hh)

theorem Move.of_lost {h : Host} {w : DbWorld}
    (hnotes : ∀ e : Event, e.Plans → (.note e ∈ w.hist ↔ .note e ∈ s.hist))
    (hrec : ∀ T, transOf (s.node h).store T = none → transOf w.store T = none) :
    Move s (s.lost h w) where
  notes := hnotes
  coord c := .refl _
  sess := by
    intro x σ' hσ'
    obtain ⟨σ, hσ, rfl⟩ := Option.map_eq_some_iff.mp hσ'
    refine ⟨σ, hσ, ?_⟩
    split_ifs with hh
    · exact ⟨rfl, rfl, by simp [Session.stop], by simp [Session.stop, Wait.req?],
        .inl ⟨.inl rfl, .refl _⟩⟩
    · exact .refl _
  kept := by
    intro x σ hσ
    exact ⟨_, Option.map_eq_some_iff.mpr ⟨σ, hσ, rfl⟩⟩
  record := by
    intro n T
    have hstore := lost_store s w h n
    by_cases hn : n = h
    · subst hn
      rw [if_pos rfl] at hstore
      by_cases hnone : transOf (s.node n).store T = none
      · exact .same (by rw [hstore, hrec T hnone, hnone])
      · refine .changed hnone fun x σ' hσ' hh hlive => ?_
        obtain ⟨σ, hσ, rfl⟩ := Option.map_eq_some_iff.mp hσ'
        split_ifs at hh hlive with hσh
        · simp [Session.stop] at hlive
        · exact absurd hh hσh
    · rw [if_neg hn] at hstore
      exact .same (by rw [hstore])
  down := by
    intro n hn
    by_cases he : n = h
    · refine .inr fun x σ' hσ' hh => ?_
      obtain ⟨σ, hσ, rfl⟩ := Option.map_eq_some_iff.mp hσ'
      split_ifs at hh ⊢ with hσh
      · rfl
      · exact absurd (hh.trans he) hσh
    · refine .inl ?_
      simpa [Sys.lost, Sys.lose, setNode_node, setWorld_node, he] using hn

def TasksPrepared (s : Sys) : Prop := ∀ h i p, (s.node h).task i = .polling p →
  ∃ t, transOf (s.node h).store p.beginTs = some t ∧ t.state = .prepared

theorem transOf_of_frame {D : String → Prop} {st st' : Db.Store}
    (h : ∀ k, ¬ D k → st'.lookup k = st.lookup k) (hD : ∀ T, ¬ D (makeTrans T)) (T : String) :
    transOf st' T = transOf st T := by
  rw [transOf, transOf, h _ (hD T)]

theorem not_not_transKey (T : String) : ¬ ¬ TransKey (makeTrans T) := fun h => h ⟨T, rfl⟩

theorem recMove_of_store {h : Host} {st : Db.Store}
    (hst : ∀ n, (s'.node n).store = if n = h then st else (s.node n).store)
    (hrec : ∀ T, transOf st T ≠ transOf (s.node h).store T → RecMove s s' h T) (n : Host)
    (T : String) : RecMove s s' n T := by
  by_cases hn : n = h
  · subst hn
    by_cases he : transOf st T = transOf (s.node n).store T
    · exact .same (by rw [hst, if_pos rfl, he])
    · exact hrec T he
  · exact .same (by rw [hst, if_neg hn])

theorem recMove_forget {x : Nat} {σ σ' : Session} (hd : Disc cfg s) (hσ : s.sess x = some σ)
    (hT : σ.vars.beginTs ≠ "") (hne : transOf (s.node σ.host).store σ.vars.beginTs ≠ none)
    (hsess : s'.sess = Function.update s.sess x (some σ'))
    (hσ' : σ'.live = true → σ'.vars.beginTs = "") : RecMove s s' σ.host σ.vars.beginTs := by
  refine .changed hne fun y τ hτ hh hlive he => ?_
  rw [hsess, Function.update_apply] at hτ
  split_ifs at hτ with hy
  · obtain rfl := Option.some.inj hτ
    exact hT (he ▸ hσ' hlive)
  · exact hy (hd.once y x τ σ _ hτ hσ hh hT (.inl he) (.inl rfl))

theorem Disc.recv (hd : Disc cfg s) {x : Nat} {σ : Session} {m : RpcReq} {rest : List RpcReq}
    {seg : Seg} {w : DbWorld} {fates : List Fate} {fuel : Nat} (hσ : s.sess x = some σ)
    (hm : σ.toServ = m :: rest)
    (h : Handled A fates σ.host (s.idle σ.host) fuel σ.vars m (s.world σ.host) seg w) :
    Disc cfg (s.served x { σ with toServ := rest } seg w) := by
  have hmsg := hd.msg x σ m hσ (by simp [hm])
  have hst := served_store s x { σ with toServ := rest } seg w
  have move : ∀ {N : Event → Prop}, (∀ e, N e → ¬ e.Plans) → Grown (.storage σ.host) N s.hist w.hist →
      SessMove σ (({ σ with toServ := rest } : Session).after seg) →
      (∀ T, transOf w.store T ≠ transOf (s.node σ.host).store T →
        RecMove s (s.served x { σ with toServ := rest } seg w) σ.host T) →
      Disc cfg (s.served x { σ with toServ := rest } seg w) := by
    intro N hN hg hs hr
    have hmove : Move s (s.served x { σ with toServ := rest } seg w) :=
      .of_session hσ hs rfl rfl (fun _ => by simp) (fun _ he => plans_iff_of_grown hN hg he)
        (recMove_of_store hst hr)
    exact hmove.disc hd
  cases h with
  | begin hreq hend hran =>
    have hmb : m = beginReq m.beginTs := by
      obtain ⟨T, he, -⟩ := hmsg.of_begin hreq
      rw [he]
      rfl
    generalize hw : w.store = st at hend
    cases hend with
    | refused res =>
      exact move (fun _ => Event.Of.not_plans) hran.grown (.after hm (.inl rfl) (by simp))
        fun U hU => absurd (by rw [hw]; rfl) hU
    | begun hv hn =>
      refine move (fun _ => Event.Of.not_plans) hran.grown
        (.after hm (.inr (.inr ⟨hv, hmb⟩)) (by simp)) fun U hU => ?_
      have hUT : U = m.beginTs := by
        by_contra hne
        refine hU ?_
        rw [hw, transOf_insert_trans, if_neg hne]
        rfl
      subst hUT
      refine .created x σ _ ?_ hσ (Function.update_self ..) rfl (by simp) ?_
      · rw [hst, if_pos rfl, hw]
        exact transOf_insert_self ..
      · simpa [← hmb] using hm
    | failed ret hv =>
      exact move (fun _ => Event.Of.not_plans) hran.grown
        (.after hm (.inr (.inr ⟨hv, hmb⟩)) (by simp)) fun U hU => absurd (by rw [hw]; rfl) hU
  | prepare hreq hend hran =>
    have hothers : ∀ U, U ≠ σ.vars.beginTs →
        transOf w.store U = transOf (s.node σ.host).store U := fun U hU => hend.others hU
    generalize hw : w.store = st at hend
    cases hend with
    | refused ts res =>
      exact move (fun _ => Event.Of.not_plans) hran.grown (.after hm (.inl rfl) (by simp))
        fun U hU => absurd (by rw [hw]; rfl) hU
    | votes t c o _ hv _ ht =>
      refine move (fun _ => Event.Of.not_plans) hran.grown (.after hm (.inr (.inl rfl)) (by simp))
        fun U hU => ?_
      by_cases hUv : U = σ.vars.beginTs
      · subst hUv
        refine recMove_forget hd hσ hv ?_ rfl fun _ => by simp
        exact ne_of_eq_of_ne (show transOf (s.node σ.host).store σ.vars.beginTs = some t from ht)
          (Option.some_ne_none _)
      · exact absurd (hothers U hUv) hU
  | op hop hend hk hran =>
    refine move (fun _ => Event.Of.not_plans) hran.grown (.after hm (.inl (by rw [hk.1])) ?_)
      fun U hU => absurd (transOf_of_frame hran.frame not_not_transKey U) hU
    intro wt hn
    cases hend with
    | answers => simp at hn
    | accesses res _ _ h => exact ⟨h.wait hn, hop⟩

theorem Disc.hangup (hd : Disc cfg s) {x : Nat} {σ : Session} {o : Option TaskState} {w : DbWorld}
    (hσ : s.sess x = some σ)
    (h : (σ.vars.beginTs = "" ∧ o = none ∧ w.store = (s.node σ.host).store) ∨
      (σ.vars.beginTs ≠ "" ∧ CleanEnd σ.host s.hist w.hist (s.idle σ.host) σ.vars.beginTs
        (s.node σ.host).store o w.store))
    (hran : Ran σ.host (fun _ => False) TransKey (s.world σ.host) w) :
    Disc cfg (s.hungUp x σ o w) := by
  have hs : SessMove σ σ.stop :=
    ⟨rfl, rfl, by simp [Session.stop], by simp [Session.stop, Wait.req?], .inl ⟨.inl rfl, .refl _⟩⟩
  have hrec : ∀ T, transOf w.store T ≠ transOf (s.node σ.host).store T →
      RecMove s (s.hungUp x σ o w) σ.host T := by
    intro T hT
    rcases h with ⟨-, -, hw⟩ | ⟨hv, hc⟩
    · exact absurd (by rw [hw]) hT
    · by_cases hTv : T = σ.vars.beginTs
      · subst hTv
        refine recMove_forget hd hσ hv ?_ rfl (by simp [Session.stop])
        generalize w.store = st at hc hT
        cases hc with
        | nothing => exact absurd rfl hT
        | aborts t ht => simp [ht]
        | resumes t _ _ _ ht => simp [ht]
        | declines => exact absurd rfl hT
        | ends => exact absurd rfl hT
      · exact absurd (hc.others hTv) hT
  have hmove : Move s (s.hungUp x σ o w) :=
    .of_session hσ hs rfl rfl (fun _ => by simp)
      (fun _ he => plans_iff_of_grown (fun _ h => h.elim) hran.grown he)
      (recMove_of_store (hungUp_store s x σ w · o) hrec)
  exact hmove.disc hd

theorem Disc.tasked (hd : Disc cfg s) (hp : TasksPrepared s) {h : Host} {i : Nat} {p : Polling}
    {t : TaskState} {w : DbWorld} (ht : (s.node h).task i = .polling p)
    (hothers : ∀ U, U ≠ p.beginTs → transOf w.store U = transOf (s.node h).store U)
    (hran : Ran h (fun _ => False) TransKey (s.world h) w) : Disc cfg (s.tasked h i t w) := by
  have hrec : ∀ T, transOf w.store T ≠ transOf (s.node h).store T →
      RecMove s (s.tasked h i t w) h T := by
    intro T hT
    by_cases hTp : T = p.beginTs
    · subst hTp
      obtain ⟨r, hr, hs⟩ := hp h i p ht
      exact .changed (by simp [hr]) fun y τ hτ hh hlive =>
        hd.no_live hr (by simp [hs]) hτ hh hlive
    · exact absurd (hothers T hTp) hT
  have hmove : Move s (s.tasked h i t w) :=
    .of_node rfl rfl (fun _ he => plans_iff_of_grown (fun _ h => h.elim) hran.grown he)
      (fun _ => by simp) (recMove_of_store (tasked_store s w h · i t) hrec)
  exact hmove.disc hd

theorem mem_transEntries {s : Sys} {h : Host} {T : String} {r : Record}
    (hm : (makeTrans T, r) ∈ transEntries (s.world h).listing) :
    transOf (s.node h).store T = some r.toTrans :=
  transOf_of_lookup (World.mem_listing.mp ((transEntries_sublist _).subset hm))

theorem Disc.started (hd : Disc cfg s) {h : Host} {ts : List TaskState} {w : DbWorld} {idle : Nat}
    (hup : (s.node h).up = false)
    (hend : UpEnd h s.hist w.hist idle (transEntries (s.world h).listing) (s.node h).store ts
      w.store) (hran : Ran h (fun _ => False) TransKey (s.world h) w) :
    Disc cfg (s.started h ts w) := by
  have hrec : ∀ T, transOf w.store T ≠ transOf (s.node h).store T →
      RecMove s (s.started h ts w) h T := by
    intro T hT
    refine .changed (fun hn => hT ?_) fun x σ hσ hh hlive => ?_
    · rw [hn]
      exact hend.none_of_none (fun T r hr => by simp [mem_transEntries hr]) hn
    · rw [hd.down x σ hσ (by rw [hh, hup])] at hlive
      cases hlive
  have hmove : Move s (s.started h ts w) := by
    refine .of_node rfl rfl (fun _ he => plans_iff_of_grown (fun _ h => h.elim) hran.grown he)
      (fun n hn => ?_) (recMove_of_store (started_store s w h · ts) hrec)
    by_cases hnh : n = h
    · rw [hnh, hup]
    · simpa [Sys.started, setNode_node, setWorld_node, hnh] using hn
  exact hmove.disc hd

theorem Disc.lost (hd : Disc cfg s) {h : Host} {w : DbWorld} {ℓ : Label} (hdies : Dies s h w ℓ) :
    Disc cfg (s.lost h w) := by
  have of : ∀ {N : Event → Prop}, (∀ e, N e → ¬ e.Plans) → Grown (.storage h) N s.hist w.hist →
      (∀ T, transOf (s.node h).store T = none → transOf w.store T = none) →
      Disc cfg (s.lost h w) := fun hN hg hr =>
    (Move.of_lost (fun _ he => plans_iff_of_grown hN hg he) hr).disc hd
  cases hdies with
  | same hw hg => exact of (fun _ h => h.elim) hg fun T hT => by rw [hw, hT]
  | @recv x env σ m rest _ _ _ _ hdies hg =>
    refine of (fun _ => Event.Of.not_plans) hg fun T hT => ?_
    cases hdies with
    | same hw => rw [hw]; exact hT
    | prepare _ hl =>
      by_cases hTv : T = σ.vars.beginTs
      · subst hTv
        generalize w.store = st at hl ⊢
        cases hl with
        | before => exact hT
        | between t _ _ _ ht => exact absurd (ht.symm.trans hT) (by simp)
        | after t _ _ _ ht => exact absurd (ht.symm.trans hT) (by simp)
      · exact (hl.others hTv).trans hT
    | op _ _ hr => rw [transOf_of_frame hr.frame not_not_transKey]; exact hT
  | timeout _ _ _ _ _ hr =>
    refine of (fun _ => Event.Of.not_plans) hr.grown fun T hT => ?_
    rw [transOf_of_frame hr.frame not_not_transKey]
    exact hT
  | startUp _ hl hr =>
    refine of (fun _ h => h.elim) hr.grown fun T hT => ?_
    obtain ⟨pre, ts, hpre, hend⟩ := hl
    exact hend.none_of_none (fun T r hr => by simp [mem_transEntries (hpre.subset hr)]) hT

theorem Disc.node (hd : Disc cfg s) (hp : TasksPrepared s) {ℓ : Label} (hs : NodeStep A s ℓ s') :
    Disc cfg s' := by
  cases hs with
  | recv hσ _ _ hm _ h => exact hd.recv hσ hm h
  | @timeout x env σ seg w hσ hlive hup hend hk hran =>
    have hs : SessMove σ (σ.after seg) := by
      refine ⟨by simp, by simp, by simp, fun m hm => ?_, .inl ⟨.inl (by simp [hk.1]), by simp⟩⟩
      rcases after_wait σ seg rfl with he | he
      · rw [he] at hm
        simp [Wait.req?] at hm
      · refine .inl ?_
        cases hend' : σ.wait with
        | idle => rw [hend'] at hend; cases hend
        | lock req res =>
          rw [hend'] at hend
          cases hend with
          | lock ha => rw [← hm, ha.wait he]; rfl
        | read req res =>
          rw [hend'] at hend
          cases hend with
          | read hr =>
            obtain ⟨-, l, ts, n, r, -, -, -, -, rfl⟩ := hr
            rw [← hm, readSeg_wait he]
            rfl
    have hmove : Move s (s.served x σ seg w) :=
      .of_session hσ hs rfl rfl (fun _ => by simp)
        (fun _ he => plans_iff_of_grown (fun _ => Event.Of.not_plans) hran.grown he)
        (recMove_of_store (served_store s x σ seg w) fun T hT =>
          absurd (transOf_of_frame hran.frame not_not_transKey T) hT)
    exact hmove.disc hd
  | @event x σ res hσ _ _ hw =>
    have hs : SessMove σ (({ σ with wait := .idle } : Session).answer (.rpcResponse res)) :=
      ⟨by simp, by simp, by simp, by simp [Wait.req?], .inl ⟨.inl (by simp), by simp⟩⟩
    have hmove : Move s (s.setSess x
        (({ σ with wait := .idle } : Session).answer (.rpcResponse res))) :=
      .of_session hσ hs rfl rfl (fun _ => rfl) (fun _ _ => Iff.rfl) fun _ _ => .same rfl
    exact hmove.disc hd
  | hangup hσ _ _ _ _ h hran => exact hd.hangup hσ h hran
  | taskSkip ht _ h hran => exact hd.tasked hp ht (fun U hU => h.others hU) hran
  | taskRecv ht _ _ h hran => exact hd.tasked hp ht (fun U hU => h.others hU) hran
  | @taskAsk h peer i env p o w ht _ _ _ hw _ hg =>
    have hmove : Move s ((s.setWorld peer w).setNode h (((s.setWorld peer w).node h).setTask i
        (.polling { p with reply := some (stateRes o) }))) :=
      .of_node rfl rfl (fun _ he => plans_iff_of_grown (fun _ h => h.elim) hg he)
        (fun n hn => by rwa [asked_up] at hn) fun n T => .same (by rw [asked_store _ _ _ _ _ _ _ hw])
    exact hmove.disc hd
  | startUp hup h hran => exact hd.started hup h hran
  | lost hdies => exact hd.lost hdies
  | @cut x a b σ hσ =>
    have hs : SessMove σ { σ with
        toServ := σ.toServ.take a, toCl := σ.toCl.take b, clClosed := true, servClosed := true } :=
      ⟨rfl, rfl, id, fun _ h => .inl h, .inl ⟨.inl rfl, List.take_sublist _ _⟩⟩
    have hmove : Move s (s.setSess x { σ with
        toServ := σ.toServ.take a, toCl := σ.toCl.take b, clClosed := true, servClosed := true }) :=
      .of_session hσ hs rfl rfl (fun _ => rfl) (fun _ _ => Iff.rfl) fun _ _ => .same rfl
    exact hmove.disc hd

end NodeStep

section CoordStep

variable {cfg : Config} {s s' : Sys} {c : CoordId}

theorem Disc.client (hd : Disc cfg s) (hnode : s'.node = s.node)
    (hnotes : ∀ e : Event, e.Plans → (.note e ∈ s'.hist ↔ .note e ∈ s.hist))
    (hcoord : ∀ d, CoordMove (s.coord d) (s'.coord d))
    (hsess : ∀ y, s'.sess y = s.sess y ∨
      ∃ σ σ', s.sess y = some σ ∧ s'.sess y = some σ' ∧ SessMove σ σ') : Disc cfg s' := by
  have hmove : Move s s' := {
    notes := hnotes
    coord := hcoord
    sess := by
      intro y τ' hτ'
      rcases hsess y with he | ⟨σ, σ', hσ, hσ', hm⟩
      · exact ⟨τ', by rw [← he, hτ'], .refl _⟩
      · obtain rfl := Option.some.inj (hσ'.symm.trans hτ')
        exact ⟨σ, hσ, hm⟩
    kept := by
      intro y τ hτ
      rcases hsess y with he | ⟨σ, σ', hσ, hσ', hm⟩
      · exact ⟨τ, by rw [he, hτ]⟩
      · exact ⟨σ', hσ'⟩
    record := fun h T => .same (by rw [hnode])
    down := fun h hh => .inl (by rwa [hnode] at hh) }
  exact hmove.disc hd

namespace CoordMove

variable {co : Coord}

theorem of_pc {pc : CoordPc} (hfree : ∀ n, pc.Free n → co.pc.Free n)
    (hpast : co.pc.Past → pc.Past) (hasked : ∀ h req, pc ≠ .beginSent h req)
    (hprep : ∀ todo msg, pc ≠ .preparing todo msg) : CoordMove co { co with pc := pc } :=
  ⟨.inl rfl, fun _ => .inl rfl, fun h req he => absurd he (hasked h req),
    fun n _ hun => ⟨hun.1, hfree n hun.2⟩, fun _ => hpast,
    fun todo msg he => absurd he (hprep todo msg)⟩

theorem of_slot {h : Host} (sl : StorageCl)
    (hsl : sl = {} ∨ (sl.fd = (co.storageCl h).fd ∧ (co.storageCl h).fd ≠ none))
    (hun : sl.stat = .init → co.pc.Free h → (co.storageCl h).stat = .init) :
    CoordMove co (co.setSlot h sl) := by
  refine ⟨.inl rfl, fun n => ?_, fun _ _ h => h, fun n _ hn => ?_, fun _ h => h,
    fun todo msg h => ⟨rfl, rfl, todo, h, fun _ h => h⟩⟩
  · by_cases hn : n = h
    · subst hn
      right
      simpa [Coord.setSlot] using hsl
    · exact .inl (by simp [Coord.setSlot, hn])
  · by_cases hnh : n = h
    · subst hnh
      exact ⟨hun (by simpa [Coord.setSlot] using hn.1) hn.2, hn.2⟩
    · exact ⟨by simpa [Coord.setSlot, hnh] using hn.1, hn.2⟩

theorem of_forget {co' : Coord} (hT : co'.beginTs = "")
    (hslot : ∀ h, co'.storageCl h = co.storageCl h ∨ co'.storageCl h = {})
    (hasked : ∀ h req, co'.pc ≠ .beginSent h req)
    (hprep : ∀ todo msg, co'.pc ≠ .preparing todo msg) : CoordMove co co' :=
  ⟨.inr hT, fun h => (hslot h).imp_right .inl, fun h req he => absurd he (hasked h req),
    fun _ hne => absurd hT hne, fun hne => absurd hT hne,
    fun todo msg he => absurd he (hprep todo msg)⟩

end CoordMove

theorem Disc.setCoord (hd : Disc cfg s) {a a' : Coord} (hco : s.coord c = a)
    (hm : CoordMove a a') : Disc cfg (s.setCoord c a') := by
  refine hd.client rfl (fun _ _ => Iff.rfl) (fun d => ?_) fun _ => .inl rfl
  simp only [Sys.setCoord, Function.update_apply]
  split_ifs with hd
  · rw [hd, hco]
    exact hm
  · exact .refl _

theorem Disc.log (hd : Disc cfg s) {e : Event} (he : ¬ e.Plans) : Disc cfg (s.log (.note e)) := by
  refine hd.client rfl (fun e' he' => ?_) (fun _ => .refl _) fun _ => .inl rfl
  have hne : e' ≠ e := fun h => he (h ▸ he')
  simp [Sys.log, hne]

theorem Disc.reply (hd : Disc cfg s) (type : RequestType) (res : CliRes) :
    Disc cfg (s.reply c type res) := hd.log fun h => h

theorem Disc.setSess (hd : Disc cfg s) {x : Nat} {σ σ' : Session} (hσ : s.sess x = some σ)
    (hm : SessMove σ σ') : Disc cfg (s.setSess x σ') := by
  refine hd.client rfl (fun _ _ => Iff.rfl) (fun _ => .refl _) fun y => ?_
  simp only [Sys.setSess, Function.update_apply]
  split_ifs with hy
  · exact .inr ⟨σ, σ', by rw [hy, hσ], rfl, hm⟩
  · exact .inl rfl

theorem Disc.read (hd : Disc cfg s) {x : Nat} {σ : Session} (hσ : s.sess x = some σ)
    (rest : List ResMsg) : Disc cfg (s.read x σ rest) :=
  hd.setSess hσ ⟨rfl, rfl, id, fun _ h => .inl h, .inl ⟨.inl rfl, .refl _⟩⟩

theorem Disc.closeAll (hd : Disc cfg s) : Disc cfg (s.closeAll c) := by
  refine hd.client rfl (fun _ _ => Iff.rfl) (fun _ => .refl _) fun y => ?_
  cases hy : s.sess y with
  | none => exact .inl (by simp [Sys.closeAll, hy])
  | some σ =>
    refine .inr ⟨σ, _, rfl, by simp [Sys.closeAll, hy]; rfl, ?_⟩
    split_ifs
    · exact ⟨rfl, rfl, id, fun _ h => .inl h, .inl ⟨.inl rfl, .refl _⟩⟩
    · exact .refl _

theorem Disc.endSession (hd : Disc cfg s) : Disc cfg (s.endSession c) :=
  hd.closeAll.setCoord rfl (.of_pc (fun _ h => h.elim) (fun _ => trivial) (by simp) (by simp))

theorem Disc.kill (hd : Disc cfg s) (type : RequestType) (res : CliRes) :
    Disc cfg (s.kill c type res) := (hd.reply type _).endSession

theorem send_toServ (σ : Session) (m : RpcReq) :
    (σ.send m).toServ = σ.toServ ∨ (σ.send m).toServ = σ.toServ ++ [m] := by
  unfold Session.send
  split
  · exact .inl rfl
  · exact .inr rfl

theorem mem_send {σ : Session} {m r : RpcReq} (h : r ∈ (σ.send m).toServ) : r ∈ σ.toServ ∨ r = m := by
  rcases send_toServ σ m with he | he
  · exact .inl (he ▸ h)
  · rw [he] at h
    simpa using h

theorem setSess_cases {x y : Nat} {σ' τ : Session} (h : (s.setSess x σ').sess y = some τ) :
    (y = x ∧ τ = σ') ∨ (y ≠ x ∧ s.sess y = some τ) := by
  simp only [Sys.setSess, Function.update_apply] at h
  split_ifs at h with hy
  · exact .inl ⟨hy, (Option.some.inj h).symm⟩
  · exact .inr ⟨hy, h⟩

theorem trace_send {σ : Session} {m : RpcReq} {T : String} (h : (σ.send m).Trace T) :
    σ.Trace T ∨ m = beginReq T := by
  rcases h with h | h
  · exact .inl (.inl (by simpa using h))
  · rcases mem_send h with h | h
    · exact .inl (.inr h)
    · exact .inr h.symm

theorem MsgOk.mono {l l' : Hist} (hl : ∀ e, e ∈ l → e ∈ l') {σ : Session} {m : RpcReq}
    (h : MsgOk cfg l σ m) : MsgOk cfg l' σ m := by
  rcases h with ⟨T, rfl, hb⟩ | hop | ⟨T, st, L, rfl, hp, hL⟩
  · exact .inl ⟨T, rfl, hl _ hb⟩
  · exact .inr (.inl hop)
  · exact .inr (.inr ⟨T, st, L, rfl, hl _ hp, hL⟩)

theorem SessDisc.mono (hd : SessDisc cfg s) (hl : ∀ e, e ∈ s.hist → e ∈ s'.hist)
    (hsess : s'.sess = s.sess) (hnode : s'.node = s.node) : SessDisc cfg s' where
  host := by
    rw [hsess]
    exact hd.host
  msg y τ r hτ hr := (hd.msg y τ r (hsess ▸ hτ) hr).mono hl
  waits := by
    rw [hsess]
    exact hd.waits
  vars y τ hτ hv := hl _ (hd.vars y τ (hsess ▸ hτ) hv)
  once := by
    rw [hsess]
    exact hd.once
  fresh := by
    rw [hsess, hnode]
    exact hd.fresh
  rec_begun := by
    intro n T hne
    rw [hnode] at hne
    obtain ⟨d, hb⟩ := hd.rec_begun n T hne
    exact ⟨d, hl _ hb⟩
  rec_live := by
    rw [hsess, hnode]
    exact hd.rec_live
  down := by
    rw [hsess, hnode]
    exact hd.down

theorem Unknown.send {x : Nat} {σ : Session} {m : RpcReq} {n : Host} {T : String} (hu : Unknown s n T)
    (hσ : s.sess x = some σ) (hne : n ≠ σ.host ∨ m ≠ beginReq T) :
    Unknown (s.setSess x (σ.send m)) n T := by
  refine ⟨fun y τ hτ hn ht => ?_, hu.2⟩
  rcases setSess_cases hτ with ⟨rfl, rfl⟩ | ⟨-, hτ⟩
  · rw [send_host] at hn
    rcases trace_send ht with ht | he
    · exact hu.1 y σ hσ hn ht
    · exact hne.elim (fun h => h hn.symm) fun h => h he
  · exact hu.1 y τ hτ hn ht

namespace SessDisc

variable {x : Nat} {σ : Session} {m : RpcReq}

theorem once_send (hd : SessDisc cfg s) (hσ : s.sess x = some σ)
    (hnew : ∀ T, m = beginReq T → Unknown s σ.host T) {y z : Nat} {τ υ : Session} {T : String}
    (hτ : (s.setSess x (σ.send m)).sess y = some τ) (hυ : (s.setSess x (σ.send m)).sess z = some υ)
    (hhosts : τ.host = υ.host) (hT : T ≠ "") (ht : τ.Trace T) (hu : υ.Trace T) : y = z := by
  -- a session that has a trace of `T` had it before, or it is `x` and `m` begins `T`
  have old : ∀ {y τ}, (s.setSess x (σ.send m)).sess y = some τ → τ.Trace T →
      (y = x ∧ τ.host = σ.host ∧ m = beginReq T) ∨
        ∃ ρ, s.sess y = some ρ ∧ ρ.host = τ.host ∧ ρ.Trace T := by
    intro y τ hτ ht
    rcases setSess_cases hτ with ⟨rfl, rfl⟩ | ⟨-, hτ⟩
    · rcases trace_send ht with ht | he
      · exact .inr ⟨σ, hσ, (send_host _ _).symm, ht⟩
      · exact .inl ⟨rfl, send_host _ _, he⟩
    · exact .inr ⟨τ, hτ, rfl, ht⟩
  rcases old hτ ht with ⟨rfl, hh, he⟩ | ⟨ρ, hρ, hh, ht⟩
  · rcases old hυ hu with ⟨rfl, -⟩ | ⟨ρ', hρ', hh', hu⟩
    · rfl
    · exact absurd hu ((hnew T he).1 z ρ' hρ' (hh'.trans (hhosts.symm.trans hh)))
  · rcases old hυ hu with ⟨rfl, hh', he⟩ | ⟨ρ', hρ', hh', hu⟩
    · exact absurd ht ((hnew T he).1 y ρ hρ (hh.trans (hhosts.trans hh')))
    · exact hd.once y z ρ ρ' T hρ hρ' (hh.trans (hhosts.trans hh'.symm)) hT ht hu

theorem fresh_send (hd : SessDisc cfg s) (hσ : s.sess x = some σ)
    (hnew : ∀ T, m = beginReq T → Unknown s σ.host T) {T : String}
    (hr : beginReq T ∈ (σ.send m).toServ) :
    σ.vars.beginTs ≠ T ∧ transOf (s.node σ.host).store T = none ∧
      (σ.send m).toServ.count (beginReq T) ≤ 1 := by
  by_cases he : m = beginReq T
  · have hunk := hnew T he
    have h0 := List.count_eq_zero.mpr fun hr => hunk.1 x σ hσ rfl (.inr hr)
    refine ⟨fun hv => hunk.1 x σ hσ rfl (.inl hv), hunk.2, ?_⟩
    rcases send_toServ σ m with hs | hs
    · rw [hs, h0]
      exact Nat.zero_le 1
    · rw [hs, List.count_append, h0, he, List.count_singleton]
      simp
  · obtain ⟨hv, hn, hc⟩ := hd.fresh x σ T hσ ((mem_send hr).resolve_right fun h => he h.symm)
    refine ⟨hv, hn, ?_⟩
    rcases send_toServ σ m with hs | hs
    · rwa [hs]
    · rw [hs, List.count_append, List.count_singleton]
      simpa [he] using hc

theorem send (hd : SessDisc cfg s) (hσ : s.sess x = some σ) (hm : MsgOk cfg s.hist σ m)
    (hnew : ∀ T, m = beginReq T → Unknown s σ.host T) : SessDisc cfg (s.setSess x (σ.send m)) where
  host := by
    intro y τ hτ
    rcases setSess_cases hτ with ⟨-, rfl⟩ | ⟨-, hτ⟩
    · rw [send_host]
      exact hd.host x σ hσ
    · exact hd.host y τ hτ
  msg := by
    intro y τ r hτ hr
    rcases setSess_cases hτ with ⟨-, rfl⟩ | ⟨-, hτ⟩
    · unfold MsgOk
      rw [send_host, send_owner]
      rcases mem_send hr with hr | rfl
      · exact hd.msg x σ r hσ hr
      · exact hm
    · exact hd.msg y τ r hτ hr
  waits := by
    intro y τ r hτ hr
    rcases setSess_cases hτ with ⟨-, rfl⟩ | ⟨-, hτ⟩
    · rw [send_host]
      exact hd.waits x σ r hσ (by simpa using hr)
    · exact hd.waits y τ r hτ hr
  vars := by
    intro y τ hτ hv
    rcases setSess_cases hτ with ⟨-, rfl⟩ | ⟨-, hτ⟩
    · rw [send_vars] at hv ⊢
      rw [send_owner]
      exact hd.vars x σ hσ hv
    · exact hd.vars y τ hτ hv
  once y z τ υ T hτ hυ hhosts hT ht hu := hd.once_send hσ hnew hτ hυ hhosts hT ht hu
  fresh := by
    intro y τ T hτ hr
    rcases setSess_cases hτ with ⟨-, rfl⟩ | ⟨-, hτ⟩
    · rw [send_vars, send_host]
      exact hd.fresh_send hσ hnew hr
    · exact hd.fresh y τ T hτ hr
  rec_begun := hd.rec_begun
  rec_live := by
    intro y τ hτ hlive hv
    rcases setSess_cases hτ with ⟨-, rfl⟩ | ⟨-, hτ⟩
    · rw [send_vars] at hv ⊢
      rw [send_host]
      exact hd.rec_live x σ hσ (by simpa using hlive) hv
    · exact hd.rec_live y τ hτ hlive hv
  down := by
    intro y τ hτ hup
    rcases setSess_cases hτ with ⟨-, rfl⟩ | ⟨-, hτ⟩
    · rw [send_live]
      rw [send_host] at hup
      exact hd.down x σ hσ hup
    · exact hd.down y τ hτ hup

end SessDisc

theorem slot_send {x y : Nat} {σ : Session} {m : RpcReq} {d : CoordId} {n : Host}
    (hσ : s.sess x = some σ) (h : ∃ τ, s.sess y = some τ ∧ τ.host = n ∧ τ.owner = d) :
    ∃ τ, (s.setSess x (σ.send m)).sess y = some τ ∧ τ.host = n ∧ τ.owner = d := by
  obtain ⟨τ, hτ, hh, ho⟩ := h
  by_cases hyx : y = x
  · subst hyx
    obtain rfl := Option.some.inj (hσ.symm.trans hτ)
    exact ⟨σ.send m, Function.update_self .., by simpa using hh, by simpa using ho⟩
  · exact ⟨τ, by simpa [Sys.setSess, hyx] using hτ, hh, ho⟩

theorem Disc.post (hd : Disc cfg s) {x : Nat} {σ : Session} {m : RpcReq} (hσ : s.sess x = some σ)
    (hm : MsgOk cfg s.hist σ m) (hb : m.requestType ≠ .begin) :
    Disc cfg (s.setSess x (σ.send m)) := by
  have hne : ∀ T, m ≠ beginReq T := fun T h => hb (by rw [h]; rfl)
  exact {
    toHistOk := hd.toHistOk
    toSessDisc := hd.toSessDisc.send hσ hm fun T he => absurd he (hne T)
    session := hd.session
    slot := fun d h y hy => slot_send hσ (hd.slot d h y hy)
    plan_only := fun d T st L h hp hh => (hd.plan_only d T st L h hp hh).send hσ (.inr (hne T))
    unused := fun d h hT hun => (hd.unused d h hT hun).send hσ (.inr (hne _)) }

theorem begun_unique {l : Hist} (h : DistinctBegin l) {c d : CoordId} {T : String}
    (hc : Begun l c T) (hd : Begun l d T) : c = d := by
  induction l with
  | nil => simp [Begun] at hc
  | cons e l ih =>
    have hl : DistinctBegin l := closed_distinctBegin l _ (List.suffix_cons e l) h
    have new : ∀ {c d}, e = .note (.begun c T) → Begun l d T → False := by
      rintro c d rfl hb
      have hn : T ∉ begunTs l := (List.nodup_cons.mp h).1
      exact hn (List.mem_filterMap.mpr ⟨_, hb, rfl⟩)
    rcases List.mem_cons.mp hc with hc | hc
    · rcases List.mem_cons.mp hd with hd | hd
      · have he := hc.trans hd.symm
        simpa using he
      · exact (new hc.symm hd).elim
    · rcases List.mem_cons.mp hd with hd | hd
      · exact (new hd.symm hc).elim
      · exact ih hl hc hd

theorem not_begun_of_distinct {l : Hist} {c : CoordId} {T : String}
    (h : DistinctBegin (.note (.begun c T) :: l)) (d : CoordId) : ¬ Begun l d T := by
  intro hb
  have hn : T ∉ begunTs l := (List.nodup_cons.mp h).1
  exact hn (List.mem_filterMap.mpr ⟨_, hb, rfl⟩)

theorem setCoord_cases {co' : Coord} {P : CoordId → Coord → Prop} (hc : P c co')
    (h : ∀ d, d ≠ c → P d (s.coord d)) (d : CoordId) : P d ((s.setCoord c co').coord d) := by
  simp only [Sys.setCoord, Function.update_apply]
  split_ifs with hd
  · rwa [hd]
  · exact h d hd

theorem Disc.sendBegin (hd : Disc cfg s) (hu : DistinctBegin s.hist) {h : Host} {x : Nat}
    {σ : Session} {req : CliReq} (htop : (s.coord c).pc = .top) (hT : (s.coord c).beginTs ≠ "")
    (hop : req.IsOp) (hh : cfg.hostOf req.key = some h) (hslot : s.Slot c h .init x σ) :
    Disc cfg (s.sendBegin c x σ h req) := by
  obtain ⟨hslot, hσ⟩ := hslot
  obtain ⟨ρ, hρ, rfl, howner⟩ := hd.slot c h x (by rw [hslot])
  obtain rfl := Option.some.inj (hσ.symm.trans hρ)
  have hok := hd.session c
  have hb : Begun s.hist c (s.coord c).beginTs := hok.begun hT
  have hunk : Unknown s σ.host (s.coord c).beginTs :=
    hd.unused c σ.host hT ⟨by rw [hslot], by rw [htop]; trivial⟩
  have inj : ∀ {T U}, beginReq T = beginReq U → T = U := fun he => congrArg RpcReq.beginTs he
  have noplan : ∀ {st L}, ¬ Planned s.hist c (s.coord c).beginTs st L := by
    intro st L hp
    have := hok.plan_past st L hp
    simp [htop, CoordPc.Past] at this
  have hsent : CoordOk cfg s.hist c { s.coord c with pc := .beginSent σ.host req } := by
    refine ⟨hok.begun, fun n r hpc => ?_, fun _ _ hp => absurd hp noplan, by simp, hok.stat⟩
    obtain ⟨rfl, rfl⟩ := CoordPc.beginSent.inj hpc
    exact ⟨hop, hh⟩
  exact {
    toHistOk := hd.toHistOk
    toSessDisc := by
      have hsend := hd.toSessDisc.send hσ (.inl ⟨_, rfl, by rwa [howner]⟩) fun T he => inj he ▸ hunk
      exact hsend.mono (fun _ h => h) rfl rfl
    session := setCoord_cases (P := CoordOk cfg s.hist) hsent fun d _ => hd.session d
    slot := by
      refine setCoord_cases (P := fun d co => ∀ n y, (co.storageCl n).fd = some y → ∃ τ,
        (s.setSess x (σ.send (beginReq (s.coord c).beginTs))).sess y = some τ ∧ τ.host = n ∧
          τ.owner = d) (fun n y hy => ?_) fun d _ n y hy => ?_
      · exact slot_send hσ (hd.slot c n y hy)
      · exact slot_send hσ (hd.slot d n y hy)
    plan_only := by
      intro d U st L n hp hn
      refine (hd.plan_only d U st L n hp hn).send hσ (.inr fun he => ?_)
      obtain rfl := inj he
      obtain rfl := begun_unique hu hb (hd.planned d _ st L hp).1
      exact noplan hp
    unused := by
      refine setCoord_cases (P := fun _ co => ∀ n, co.beginTs ≠ "" → co.Unused n →
        Unknown (s.setSess x (σ.send (beginReq (s.coord c).beginTs))) n co.beginTs)
        (fun n hne hun => ?_) fun d hdc n hne hun => ?_
      · refine (hd.unused c n hne ⟨hun.1, ?_⟩).send hσ (.inl fun hn => hun.2 hn.symm)
        rw [htop]
        trivial
      · refine (hd.unused d n hne hun).send hσ (.inr fun he => hdc ?_)
        exact begun_unique hu ((hd.session d).begun hne) (inj he ▸ hb) }

section Connect

variable {h : Host} {x : Nat}

theorem not_trace_new {T : String} (hT : T ≠ "") : ¬ ({ host := h, owner := c } : Session).Trace T := by
  rintro (ht | ht)
  · exact hT ht.symm
  · cases ht

theorem SessDisc.connect (hd : SessDisc cfg s) (hh : h ∈ cfg.hosts) (hup : (s.node h).up = true) :
    SessDisc cfg (s.connect c h x) where
  host := by
    intro y τ hτ
    rcases setSess_cases hτ with ⟨-, rfl⟩ | ⟨-, hτ⟩
    · exact hh
    · exact hd.host y τ hτ
  msg := by
    intro y τ r hτ hr
    rcases setSess_cases hτ with ⟨-, rfl⟩ | ⟨-, hτ⟩
    · cases hr
    · exact hd.msg y τ r hτ hr
  waits := by
    intro y τ r hτ hr
    rcases setSess_cases hτ with ⟨-, rfl⟩ | ⟨-, hτ⟩
    · cases hr
    · exact hd.waits y τ r hτ hr
  vars := by
    intro y τ hτ hv
    rcases setSess_cases hτ with ⟨-, rfl⟩ | ⟨-, hτ⟩
    · exact absurd rfl hv
    · exact hd.vars y τ hτ hv
  once := by
    intro y z τ υ T hτ hυ hhosts hT ht hu
    rcases setSess_cases hτ with ⟨-, rfl⟩ | ⟨-, hτ⟩
    · exact absurd ht (not_trace_new hT)
    · rcases setSess_cases hυ with ⟨-, rfl⟩ | ⟨-, hυ⟩
      · exact absurd hu (not_trace_new hT)
      · exact hd.once y z τ υ T hτ hυ hhosts hT ht hu
  fresh := by
    intro y τ T hτ hr
    rcases setSess_cases hτ with ⟨-, rfl⟩ | ⟨-, hτ⟩
    · cases hr
    · exact hd.fresh y τ T hτ hr
  rec_begun := hd.rec_begun
  rec_live := by
    intro y τ hτ hlive hv
    rcases setSess_cases hτ with ⟨-, rfl⟩ | ⟨-, hτ⟩
    · exact absurd rfl hv
    · exact hd.rec_live y τ hτ hlive hv
  down := by
    intro y τ hτ hdown
    rcases setSess_cases hτ with ⟨-, rfl⟩ | ⟨-, hτ⟩
    · exact absurd (hdown.symm.trans hup) (by decide)
    · exact hd.down y τ hτ hdown

theorem Unknown.connect {n : Host} {T : String} (hT : T ≠ "") (hu : Unknown s n T) :
    Unknown (s.connect c h x) n T := by
  refine ⟨fun y τ hτ hn ht => ?_, hu.2⟩
  rcases setSess_cases hτ with ⟨-, rfl⟩ | ⟨-, hτ⟩
  · exact not_trace_new hT ht
  · exact hu.1 y τ hτ hn ht

theorem setSlot_fd (co : Coord) (n : Host) :
    ((co.setSlot h { co.storageCl h with fd := some x }).storageCl n).stat = (co.storageCl n).stat ∧
      ((co.setSlot h { co.storageCl h with fd := some x }).storageCl n).fd =
        if n = h then some x else (co.storageCl n).fd := by
  by_cases hn : n = h
  · subst hn
    simp [Coord.setSlot]
  · simp [Coord.setSlot, hn]

theorem CoordOk.connect {l : Hist} {co : Coord} (hok : CoordOk cfg l c co) :
    CoordOk cfg l c (co.setSlot h { co.storageCl h with fd := some x }) where
  begun := hok.begun
  asked := hok.asked
  plan_past := hok.plan_past
  preparing := hok.preparing
  stat := by
    intro n hst
    obtain ⟨hs, hfd⟩ := setSlot_fd (h := h) (x := x) co n
    rw [hfd]
    split_ifs
    · exact Option.some_ne_none x
    · exact hok.stat n (hs ▸ hst)

theorem Disc.connect (hd : Disc cfg s) (hh : h ∈ cfg.hosts) (hup : (s.node h).up = true)
    (hx : s.sess x = none) : Disc cfg (s.connect c h x) where
  toHistOk := hd.toHistOk
  toSessDisc := hd.toSessDisc.connect hh hup
  session := setCoord_cases (P := CoordOk cfg s.hist) (hd.session c).connect fun d _ => hd.session d
  slot := by
    have old : ∀ {d n y}, ((s.coord d).storageCl n).fd = some y →
        ∃ τ, (s.connect c h x).sess y = some τ ∧ τ.host = n ∧ τ.owner = d := by
      intro d n y hy
      obtain ⟨ρ, hρ, hn, ho⟩ := hd.slot d n y hy
      have hyx : y ≠ x := fun e => by simp [e, hx] at hρ
      exact ⟨ρ, by simpa [Sys.connect, Sys.setCoord, Sys.setSess, hyx] using hρ, hn, ho⟩
    refine setCoord_cases (P := fun d co => ∀ n y, (co.storageCl n).fd = some y → ∃ τ,
      (s.connect c h x).sess y = some τ ∧ τ.host = n ∧ τ.owner = d) (fun n y hy => ?_)
      fun d _ n y hy => old hy
    rw [(setSlot_fd (s.coord c) n).2] at hy
    split_ifs at hy with hn
    · obtain rfl := Option.some.inj hy
      exact ⟨{ host := h, owner := c }, Function.update_self .., hn.symm, rfl⟩
    · exact old hy
  plan_only d T st L n hp hn := (hd.plan_only d T st L n hp hn).connect
    (hd.begun_ts d T (hd.planned d T st L hp).1).ne_empty
  unused := by
    refine setCoord_cases (P := fun _ co => ∀ n, co.beginTs ≠ "" → co.Unused n →
      Unknown (s.connect c h x) n co.beginTs) (fun n hne hun => ?_)
      fun d _ n hne hun => (hd.unused d n hne hun).connect hne
    have hst := (setSlot_fd (h := h) (x := x) (s.coord c) n).1
    exact (hd.unused c n hne ⟨hst ▸ hun.1, hun.2⟩).connect hne

end Connect

theorem Disc.unknown_of_not_begun (hd : Disc cfg s) {T : String} (hT : T ≠ "")
    (hb : ∀ d, ¬ Begun s.hist d T) (h : Host) : Unknown s h T := by
  constructor
  · rintro x σ hσ - (ht | ht)
    · subst ht
      exact hb _ (hd.vars x σ hσ hT)
    · exact hb _ (hd.msg x σ _ hσ ht).begun
  · by_contra hne
    obtain ⟨d, hd'⟩ := hd.rec_begun h T hne
    exact hb d hd'

theorem begun_logBegin {tv : Timeval} {d : CoordId} {U : String} :
    Begun (s.logBegin c tv).hist d U ↔ (d = c ∧ U = getTS tv) ∨ Begun s.hist d U := by
  simp [Begun, Sys.logBegin, Sys.log]

theorem planned_logBegin {tv : Timeval} {d : CoordId} {U st : String} {L : List Host} :
    Planned (s.logBegin c tv).hist d U st L ↔ Planned s.hist d U st L := by
  simp [Planned, Sys.logBegin, Sys.log]

theorem HistOk.logBegin (hd : HistOk cfg s.hist) (tv : Timeval) :
    HistOk cfg (s.logBegin c tv).hist where
  begun_ts := by
    intro d U hb
    rcases begun_logBegin.mp hb with ⟨-, rfl⟩ | hb
    · exact ⟨tv, rfl⟩
    · exact hd.begun_ts d U hb
  planned := by
    intro d U st L hp
    obtain ⟨hb, hrest⟩ := hd.planned d U st L (planned_logBegin.mp hp)
    exact ⟨begun_logBegin.mpr (.inr hb), hrest⟩
  plan_unique d U st st' L L' hp hp' :=
    hd.plan_unique d U st st' L L' (planned_logBegin.mp hp) (planned_logBegin.mp hp')

theorem Disc.begins (hd : Disc cfg s) {tv : Timeval} (hu : DistinctBegin (s.logBegin c tv).hist)
    (htop : (s.coord c).pc = .top) :
    Disc cfg ((s.logBegin c tv).setCoord c { s.coord c with beginTs := getTS tv }) := by
  have hne : getTS tv ≠ "" := IsTS.ne_empty ⟨tv, rfl⟩
  have hnb : ∀ d, ¬ Begun s.hist d (getTS tv) := fun d hb =>
    not_begun_of_distinct hu d (.tail _ hb)
  have hok : CoordOk cfg (s.logBegin c tv).hist c { s.coord c with beginTs := getTS tv } := by
    refine ⟨fun _ => begun_logBegin.mpr (.inl ⟨rfl, rfl⟩), (hd.session c).asked, fun st L hp => ?_,
      by simp [htop], (hd.session c).stat⟩
    exact absurd (hd.planned c _ st L (planned_logBegin.mp hp)).1 (hnb c)
  have hother : ∀ d, CoordOk cfg (s.logBegin c tv).hist d (s.coord d) := fun d =>
    (hd.session d).congr (fun hb => begun_logBegin.mpr (.inr hb)) fun _ _ => planned_logBegin
  exact {
    toHistOk := hd.toHistOk.logBegin tv
    toSessDisc := hd.toSessDisc.mono (fun e he => .tail _ (.tail _ he)) rfl rfl
    session := setCoord_cases (P := CoordOk cfg (s.logBegin c tv).hist) hok fun d _ => hother d
    slot := setCoord_cases (P := fun d co => ∀ n y, (co.storageCl n).fd = some y → ∃ σ,
      s.sess y = some σ ∧ σ.host = n ∧ σ.owner = d) (hd.slot c) fun d _ => hd.slot d
    plan_only := fun d U st L n hp hn => hd.plan_only d U st L n (planned_logBegin.mp hp) hn
    unused := setCoord_cases (P := fun _ co => ∀ n, co.beginTs ≠ "" → co.Unused n →
      Unknown s n co.beginTs) (fun n _ _ => hd.unknown_of_not_begun hne hnb n)
      fun d _ => hd.unused d }

theorem mem_participants {co : Coord} {h : Host} :
    h ∈ co.participants cfg ↔
      h ∈ cfg.hosts ∧ (co.storageCl h).fd.isSome ∧ (co.storageCl h).stat = .hasBegin := by
  simp [Coord.participants]

theorem Disc.unknown_of_not_participant (hd : Disc cfg s) (htop : (s.coord c).pc = .top)
    (hT : (s.coord c).beginTs ≠ "") {h : Host} (hh : h ∉ (s.coord c).participants cfg) :
    Unknown s h (s.coord c).beginTs := by
  refine hd.unused c h hT ⟨?_, by rw [htop]; trivial⟩
  cases hst : ((s.coord c).storageCl h).stat with
  | init => rfl
  | hasBegin =>
    obtain ⟨x, hx⟩ := Option.ne_none_iff_exists'.mp ((hd.session c).stat h hst)
    obtain ⟨σ, hσ, rfl, -⟩ := hd.slot c h x hx
    exact absurd (mem_participants.mpr ⟨hd.host x σ hσ, by simp [hx], hst⟩) hh

theorem begun_logPlan {tv : Timeval} {d : CoordId} {U : String} :
    Begun (s.logPlan cfg c tv).hist d U ↔ Begun s.hist d U := by
  simp [Begun, Sys.logPlan, Sys.log]

theorem planned_logPlan {tv : Timeval} {d : CoordId} {U st : String} {L : List Host} :
    Planned (s.logPlan cfg c tv).hist d U st L ↔
      (d = c ∧ U = (s.coord c).beginTs ∧ st = getTS tv ∧ L = (s.coord c).participants cfg) ∨
        Planned s.hist d U st L := by
  simp [Planned, Sys.logPlan, Sys.log]

theorem HistOk.logPlan (hd : HistOk cfg s.hist) (tv : Timeval)
    (hb : Begun s.hist c (s.coord c).beginTs)
    (hno : ∀ st L, ¬ Planned s.hist c (s.coord c).beginTs st L) :
    HistOk cfg (s.logPlan cfg c tv).hist where
  begun_ts d U hU := hd.begun_ts d U (begun_logPlan.mp hU)
  planned := by
    intro d U st L hp
    rcases planned_logPlan.mp hp with ⟨rfl, rfl, rfl, rfl⟩ | hp
    · exact ⟨begun_logPlan.mpr hb, ⟨tv, rfl⟩, fun n hn => (mem_participants.mp hn).1⟩
    · obtain ⟨hb', hrest⟩ := hd.planned d U st L hp
      exact ⟨begun_logPlan.mpr hb', hrest⟩
  plan_unique := by
    intro d U st st' L L' hp hp'
    rcases planned_logPlan.mp hp with ⟨rfl, rfl, rfl, rfl⟩ | hold
    · rcases planned_logPlan.mp hp' with ⟨-, -, rfl, rfl⟩ | hold'
      · exact ⟨rfl, rfl⟩
      · exact absurd hold' (hno st' L')
    · rcases planned_logPlan.mp hp' with ⟨rfl, rfl, rfl, rfl⟩ | hold'
      · exact absurd hold (hno st L)
      · exact hd.plan_unique d U st st' L L' hold hold'

theorem Disc.plans (hd : Disc cfg s) {tv : Timeval} (htop : (s.coord c).pc = .top)
    (hT : (s.coord c).beginTs ≠ "") :
    Disc cfg ((s.logPlan cfg c tv).setCoord c
      { s.coord c with
        startTs := getTS tv
        pc := .preparing ((s.coord c).participants cfg)
          (prepareReq (s.coord c).beginTs (getTS tv) ((s.coord c).participants cfg)) }) := by
  have hb := (hd.session c).begun hT
  have hno : ∀ st L, ¬ Planned s.hist c (s.coord c).beginTs st L := by
    intro st L hp
    have := (hd.session c).plan_past st L hp
    simp [htop, CoordPc.Past] at this
  set L := (s.coord c).participants cfg with hL
  set co' : Coord := { s.coord c with
    startTs := getTS tv, pc := .preparing L (prepareReq (s.coord c).beginTs (getTS tv) L) } with hco'
  have hok : CoordOk cfg (s.logPlan cfg c tv).hist c co' := by
    refine ⟨fun _ => begun_logPlan.mpr hb, by simp [hco'], fun _ _ _ => trivial, fun todo msg hpc => ?_,
      (hd.session c).stat⟩
    obtain ⟨rfl, rfl⟩ := CoordPc.preparing.inj hpc
    exact ⟨L, rfl, planned_logPlan.mpr (.inl ⟨rfl, rfl, rfl, rfl⟩), fun _ h => h⟩
  have hother : ∀ d, d ≠ c → CoordOk cfg (s.logPlan cfg c tv).hist d (s.coord d) := fun d hdc =>
    (hd.session d).congr begun_logPlan.mpr fun st L' =>
      planned_logPlan.trans (or_iff_right fun h => hdc h.1)
  exact {
    toHistOk := hd.toHistOk.logPlan tv hb hno
    toSessDisc := hd.toSessDisc.mono (fun e he => .tail _ (.tail _ he)) rfl rfl
    session := setCoord_cases (P := CoordOk cfg (s.logPlan cfg c tv).hist) hok hother
    slot := setCoord_cases (P := fun d co => ∀ n y, (co.storageCl n).fd = some y → ∃ σ,
      s.sess y = some σ ∧ σ.host = n ∧ σ.owner = d) (hd.slot c) fun d _ => hd.slot d
    plan_only := by
      intro d U st L' n hp hn
      rcases planned_logPlan.mp hp with ⟨rfl, rfl, rfl, rfl⟩ | hp
      · exact hd.unknown_of_not_participant htop hT hn
      · exact hd.plan_only d U st L' n hp hn
    unused := setCoord_cases (P := fun _ co => ∀ n, co.beginTs ≠ "" → co.Unused n →
      Unknown s n co.beginTs) (fun _ _ hun => hun.2.elim) fun d _ => hd.unused d }

theorem opReq_ok {T : String} {req : CliReq} {h : Host} (hop : req.IsOp)
    (hh : cfg.hostOf req.key = some h) {l : Hist} {σ : Session} (hσ : σ.host = h) :
    MsgOk cfg l σ (opReq T req) := .inr (.inl ⟨T, req, rfl, hop, by rw [hσ, hh]⟩)

theorem Disc.sendOp (hd : Disc cfg s) {h : Host} {x : Nat} {σ : Session} {req : CliReq}
    (rest : List ResMsg)
    (hpc : (s.coord c).pc = .top ∨
      (((s.coord c).storageCl h).stat = .hasBegin ∧ (s.coord c).pc = .beginSent h req))
    (hop : req.IsOp) (hh : cfg.hostOf req.key = some h)
    (hx : ((s.coord c).storageCl h).fd = some x) (hσ : s.sess x = some σ) :
    Disc cfg (s.sendOp c x { σ with toCl := rest } h req) := by
  obtain ⟨ρ, hρ, hhost, -⟩ := hd.slot c h x hx
  obtain rfl := Option.some.inj (hσ.symm.trans hρ)
  have hread : (s.read x σ rest).setSess x
      (({ σ with toCl := rest } : Session).send (opReq (s.coord c).beginTs req)) =
      s.setSess x (({ σ with toCl := rest } : Session).send (opReq (s.coord c).beginTs req)) := by
    simp [Sys.read, Sys.setSess]
  have hpost := (hd.read hρ rest).post (m := opReq (s.coord c).beginTs req)
    (Function.update_self ..) (opReq_ok hop hh hhost) hop.1
  rw [hread] at hpost
  refine hpost.setCoord (a := s.coord c) rfl ⟨.inl rfl, fun _ => .inl rfl, by simp,
    fun n _ hun => ⟨hun.1, ?_⟩, ?_, by simp⟩
  · rcases hpc with hpc | ⟨hst, hpc⟩
    · rw [hpc]
      trivial
    · rw [hpc]
      rintro rfl
      exact absurd (hst.symm.trans hun.1) (by decide)
  · intro _ hpast
    rcases hpc with hpc | ⟨-, hpc⟩ <;> simp [hpc, CoordPc.Past] at hpast

theorem Disc.coord (hd : Disc cfg s) (hu : DistinctBegin s'.hist) {ℓ : Label}
    (hs : CoordStep cfg s c ℓ s') : Disc cfg s' := by
  cases hs with
  | replies type res _ _ => exact hd.reply type res
  | begins tv htop _ _ =>
    have hu' : DistinctBegin (s.logBegin c tv).hist :=
      closed_distinctBegin _ _ (List.suffix_cons _ _) hu
    exact (hd.begins hu' htop).reply _ _
  | plans tv htop _ hT => exact hd.plans htop hT
  | rollsBack reused _ _ _ =>
    refine (hd.reply _ _).closeAll.setCoord rfl (.of_forget rfl (fun _ => .inr rfl) ?_ ?_)
    · intro h req
      cases reused <;> simp
    · intro todo msg
      cases reused <;> simp
  | connectsBegin h x req htop _ hT hop hh hfd hst hup hx =>
    have hc := hd.connect (c := c) (cfg.mem_hosts_of_hostOf hh) hup hx
    have hco : (s.connect c h x).coord c =
        (s.coord c).setSlot h { (s.coord c).storageCl h with fd := some x } := by
      simp [Sys.connect, Sys.setCoord]
    refine hc.sendBegin hu (by rw [hco]; exact htop) (by rw [hco]; exact hT) hop hh ⟨?_, ?_⟩
    · rw [hco]
      simp [Coord.setSlot, hst]
    · simp [Sys.connect, Sys.setCoord, Sys.setSess]
  | connectsOp h x req htop _ hT hop hh hfd hst hup hx =>
    exact absurd hfd ((hd.session c).stat h hst)
  | sendsBegin h x σ req htop _ hT hop hh hslot => exact hd.sendBegin hu htop hT hop hh hslot
  | sendsOp h x σ req htop _ _ hop hh hslot =>
    exact hd.sendOp σ.toCl (.inl htop) hop hh (by rw [hslot.slot]) hslot.sess
  | hearsBegin h x σ stat req res rest hpc hslot hcl _ =>
    obtain ⟨hop, hh⟩ := (hd.session c).asked h req hpc
    have hco := hd.setCoord (c := c) rfl
      (CoordMove.of_slot (h := h) { fd := some x, stat := .hasBegin }
        (.inr ⟨by rw [hslot.slot], by simp [hslot.slot]⟩) (by simp))
    refine hco.sendOp rest (.inr ⟨?_, ?_⟩) hop hh ?_ hslot.sess
    · simp [Sys.setCoord, Coord.setSlot]
    · simpa [Sys.setCoord, Coord.setSlot] using hpc
    · simp [Sys.setCoord, Coord.setSlot]
  | dangles h x σ stat req rest m hpc hslot hcl =>
    exact (hd.read hslot.sess rest).setCoord rfl
      (.of_pc (fun _ h => h.elim) (fun _ => trivial) (by simp) (by simp))
  | hearsOp h x σ stat req rest m hpc hslot hcl =>
    exact ((hd.read hslot.sess rest).setCoord (a := s.coord c) rfl
      (.of_pc (by simp [hpc, CoordPc.Free]) (by simp [hpc, CoordPc.Past]) (by simp) (by simp))).reply
      _ _
  | leavesOp h req _ hpc =>
    have hlog : Disc cfg (if (s.coord c).gone then s else s.log (.note (.early c))) := by
      split_ifs
      · exact hd
      · exact hd.log fun h => h
    have hco : (if (s.coord c).gone then s else s.log (.note (.early c))).coord c = s.coord c := by
      split_ifs <;> rfl
    exact (hlog.setCoord hco
      (.of_pc (by simp [hpc, CoordPc.Free]) (by simp [hpc, CoordPc.Past]) (by simp) (by simp))).reply
      _ _
  | sendsPrepare h todo msg x σ stat hpc hslot =>
    obtain ⟨L, rfl, hp, hL⟩ := (hd.session c).preparing _ msg hpc
    obtain ⟨ρ, hρ, hhost, howner⟩ := hd.slot c h x (by rw [hslot.slot])
    obtain rfl := Option.some.inj (hslot.sess.symm.trans hρ)
    have hmsg : MsgOk cfg s.hist σ (prepareReq (s.coord c).beginTs (s.coord c).startTs L) :=
      .inr (.inr ⟨_, _, L, rfl, by rw [howner]; exact hp, by rw [hhost]; exact hL h (.head _)⟩)
    refine (hd.post hρ hmsg (by simp [prepareReq])).setCoord (a := s.coord c) rfl ⟨.inl rfl,
      fun _ => .inl rfl, by simp, fun _ _ h => h.2.elim, fun _ _ => trivial,
      fun t m he => ⟨rfl, rfl, h :: todo, ?_, ?_⟩⟩
    · rw [hpc]
      exact congrArg _ (CoordPc.preparing.inj he).2
    · intro n hn
      rw [← (CoordPc.preparing.inj he).1] at hn
      exact .tail _ hn
  | collects h msg x σ rest m hpc hslot hcl =>
    have hlog : Disc cfg (s.logAnswer c h m) := by
      cases m with
      | rpcResponse res => exact hd.log fun h => h
      | transStateResponse res => exact hd
    have hse : (s.logAnswer c h m).sess x = some σ := by
      rw [← hslot.sess]
      cases m <;> rfl
    have hco : ((s.logAnswer c h m).read x σ rest).coord c = s.coord c := by cases m <;> rfl
    refine (hlog.read hse rest).setCoord hco
      (.of_slot _ (.inr ⟨by rw [hslot.slot], by simp [hslot.slot]⟩) ?_)
    simp [hpc, CoordPc.Free]
  | completes msg hpc hst =>
    exact (hd.reply _ _).setCoord rfl (.of_forget rfl (fun _ => .inl rfl) (by simp) (by simp))
  | drops h x σ hpc hslot hcl =>
    have hclose : Disc cfg (s.setSess x { σ with clClosed := true }) :=
      hd.setSess hslot.sess ⟨rfl, rfl, id, fun _ h => .inl h, .inl ⟨.inl rfl, .refl _⟩⟩
    exact hclose.setCoord (a := s.coord c) rfl
      (.of_slot _ (.inl rfl) fun _ _ => by rw [hslot.slot])
  | goes =>
    exact hd.setCoord rfl ⟨.inl rfl, fun _ => .inl rfl, fun _ _ h => h, fun _ _ h => h, fun _ h => h,
      fun todo msg h => ⟨rfl, rfl, todo, h, fun _ h => h⟩⟩
  | ends => exact hd.endSession
  | kills type res => exact hd.kill type res
  | killsCollecting _ _ _ _ res => exact hd.kill _ res
  | killsReading h x σ stat req rest m res hpc hslot hcl =>
    exact (hd.read hslot.sess rest).kill _ res
  | killsBegun h x σ stat req rest m res hpc hslot hcl =>
    have hco := hd.setCoord (c := c) rfl
      (CoordMove.of_slot (h := h) { fd := some x, stat := .hasBegin }
        (.inr ⟨by rw [hslot.slot], by simp [hslot.slot]⟩) (by simp))
    exact (hco.read hslot.sess rest).kill _ _

end CoordStep

end Tpc
