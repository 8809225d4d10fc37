import Tpc.Sessions

/-! One slot of a client session and the connection that it holds: the request that the session
waits for on it, and what one step of the whole system can do to the two. Nothing is assumed of
clients, clocks or failures. -/

namespace Tpc
open Durable

def Coord.asked (co : Coord) (h : Host) : Option RpcReq :=
  match co.pc with
  | .beginSent h' _ => if h' = h then some (beginReq co.beginTs) else none
  | .opSent h' req => if h' = h then some (opReq co.beginTs req) else none
  | .preparing todo msg => if h ∉ todo ∧ (co.storageCl h).stat = .hasBegin then some msg else none
  | _ => none

def Coord.Over (co : Coord) : Prop := co.pc = .closed ∨ co.pc = .dangling

structure Table (cfg : Config) (co : Coord) : Prop where
  host : ∀ h, (co.storageCl h).fd ≠ none → h ∈ cfg.hosts
  stat : ∀ h, (co.storageCl h).stat = .hasBegin → (co.storageCl h).fd ≠ none
  idle : co.beginTs = "" → ∀ h, (co.storageCl h).stat = .init
  begins : ∀ h req, co.pc = .beginSent h req →
    co.beginTs ≠ "" ∧ req.IsOp ∧ (co.storageCl h).stat = .init
  op : ∀ h req, co.pc = .opSent h req → co.beginTs ≠ "" ∧ req.IsOp
  preparing : ∀ todo msg, co.pc = .preparing todo msg →
    co.beginTs ≠ "" ∧ (∃ st L, msg = prepareReq co.beginTs st L) ∧ todo.Nodup ∧
      ∀ h ∈ todo, (co.storageCl h).stat = .hasBegin

theorem table_init (cfg : Config) : Table cfg {} := by
  constructor <;> simp

section Table

variable {cfg : Config} {s s' : Sys} {c : CoordId} {co : Coord} {ℓ : Label}

@[simp] theorem setSlot_pc (h : Host) (sl : StorageCl) : (co.setSlot h sl).pc = co.pc := rfl

@[simp] theorem setSlot_beginTs (h : Host) (sl : StorageCl) :
    (co.setSlot h sl).beginTs = co.beginTs := rfl

theorem setSlot_storageCl (h k : Host) (sl : StorageCl) :
    (co.setSlot h sl).storageCl k = if k = h then sl else co.storageCl k := by
  simp only [Coord.setSlot, Function.update_apply]

@[simp] theorem setCoord_coord_self : (s.setCoord c co).coord c = co := Function.update_self ..

@[simp] theorem read_coord (x : Nat) (σ : Session) (rest : List ResMsg) :
    (s.read x σ rest).coord = s.coord := rfl

@[simp] theorem reply_coord (type : RequestType) (res : CliRes) :
    (s.reply c type res).coord = s.coord := rfl

@[simp] theorem endSession_coord_self : (s.endSession c).coord c = { s.coord c with pc := .closed } := by
  simp [Sys.endSession]

@[simp] theorem kill_coord_self (type : RequestType) (res : CliRes) :
    (s.kill c type res).coord c = { s.coord c with pc := .closed } := by
  simp [Sys.kill]

theorem Table.close (h : Table cfg co) {pc : CoordPc} (hpc : pc = .closed ∨ pc = .dangling ∨ pc = .top) :
    Table cfg { co with pc := pc } := by
  refine ⟨h.host, h.stat, h.idle, ?_, ?_, ?_⟩
  all_goals rcases hpc with rfl | rfl | rfl <;> simp

theorem Table.setSlot (h : Table cfg co) {n : Host} {sl : StorageCl}
    (hhost : sl.fd ≠ none → n ∈ cfg.hosts) (hstat : sl.stat = .hasBegin → sl.fd ≠ none)
    (hidle : co.beginTs = "" → sl.stat = .init)
    (hpc : (∀ h req, co.pc = .beginSent h req → h = n → sl.stat = .init) ∧
      ∀ todo msg, co.pc = .preparing todo msg → n ∉ todo ∨ sl.stat = .hasBegin) :
    Table cfg (co.setSlot n sl) := by
  refine ⟨fun k => ?_, fun k => ?_, fun hT k => ?_, fun k req he => ?_, h.op, fun todo msg he => ?_⟩
  · rw [setSlot_storageCl]
    split_ifs with hk
    · exact hk ▸ hhost
    · exact h.host k
  · rw [setSlot_storageCl]
    split_ifs
    · exact hstat
    · exact h.stat k
  · rw [setSlot_storageCl]
    split_ifs
    · exact hidle hT
    · exact h.idle hT k
  · obtain ⟨hT, hop, hst⟩ := h.begins k req he
    refine ⟨hT, hop, ?_⟩
    rw [setSlot_storageCl]
    split_ifs with hk
    · exact hpc.1 k req he hk
    · exact hst
  · obtain ⟨hT, hmsg, hnodup, hhas⟩ := h.preparing todo msg he
    refine ⟨hT, hmsg, hnodup, fun k hk => ?_⟩
    rw [setSlot_storageCl]
    split_ifs with hkn
    · exact (hpc.2 todo msg he).resolve_left fun hn => hn (hkn ▸ hk)
    · exact hhas k hk

theorem Table.beginSent (h : Table cfg co) {n : Host} {req : CliReq} (hT : co.beginTs ≠ "")
    (hop : req.IsOp) (hst : (co.storageCl n).stat = .init) :
    Table cfg { co with pc := .beginSent n req } := by
  refine ⟨h.host, h.stat, h.idle, fun k r he => ?_, by simp, by simp⟩
  obtain ⟨rfl, rfl⟩ := CoordPc.beginSent.inj he
  exact ⟨hT, hop, hst⟩

theorem Table.opSent (h : Table cfg co) {n : Host} {req : CliReq} (hT : co.beginTs ≠ "")
    (hop : req.IsOp) : Table cfg { co with pc := .opSent n req } := by
  refine ⟨h.host, h.stat, h.idle, by simp, fun k r he => ?_, by simp⟩
  obtain ⟨rfl, rfl⟩ := CoordPc.opSent.inj he
  exact ⟨hT, hop⟩

theorem Table.gone (h : Table cfg co) (b : Bool) : Table cfg { co with gone := b } :=
  ⟨h.host, h.stat, h.idle, h.begins, h.op, h.preparing⟩

theorem CoordStep.table (h : Table cfg (s.coord c)) (hs : CoordStep cfg s c ℓ s') :
    Table cfg (s'.coord c) := by
  have host : ∀ {n x stat σ}, s.Slot c n stat x σ → n ∈ cfg.hosts :=
    fun hslot => h.host _ (by simp [hslot.slot])
  cases hs with
  | replies => exact h
  | begins tv htop =>
    rw [reply_coord, setCoord_coord_self]
    have hne : getTS tv ≠ "" := IsTS.ne_empty ⟨tv, rfl⟩
    exact ⟨h.host, h.stat, fun he => absurd he hne, by simp [htop], by simp [htop], by simp [htop]⟩
  | plans tv htop hgone hT =>
    rw [setCoord_coord_self]
    refine ⟨h.host, h.stat, h.idle, by simp, by simp, fun todo msg he => ?_⟩
    obtain ⟨rfl, rfl⟩ := CoordPc.preparing.inj he
    exact ⟨hT, ⟨_, _, rfl⟩, cfg.hosts_nodup.filter _, fun k hk => (mem_participants.mp hk).2.2⟩
  | rollsBack reused =>
    rw [setCoord_coord_self]
    constructor <;> cases reused <;> simp
  | connectsBegin n x req htop _ hT hop hh hfd hst =>
    have hset : Table cfg ((s.connect c n x).coord c) := by
      rw [Sys.connect, setCoord_coord_self]
      exact h.setSlot (fun _ => Config.mem_hosts_of_hostOf hh) (by simp) (fun _ => hst) (by simp [htop])
    have hst' : (((s.connect c n x).coord c).storageCl n).stat = .init := by
      rw [Sys.connect, setCoord_coord_self, setSlot_storageCl, if_pos rfl]
      exact hst
    rw [Sys.sendBegin, setCoord_coord_self]
    exact hset.beginSent (by simpa [Sys.connect] using hT) hop hst'
  | connectsOp n x req _ _ _ _ _ hfd hst => exact absurd hfd (h.stat n hst)
  | sendsBegin n x σ req _ _ hT hop _ hslot =>
    rw [Sys.sendBegin, setCoord_coord_self]
    exact h.beginSent hT hop (by rw [hslot.slot])
  | sendsOp n x σ req _ _ hT hop _ hslot =>
    rw [Sys.sendOp, setCoord_coord_self]
    exact h.opSent hT hop
  | hearsBegin n x σ stat req res rest hpc hslot =>
    obtain ⟨hT, hop, -⟩ := h.begins n req hpc
    rw [Sys.sendOp, setCoord_coord_self, setCoord_coord_self]
    have htop : Table cfg (({ s.coord c with pc := .top } : Coord).setSlot n
        { fd := some x, stat := .hasBegin }) :=
      (h.close (.inr (.inr rfl))).setSlot (fun _ => host hslot) (by simp) (fun he => absurd he hT)
        (by simp)
    exact htop.opSent hT hop
  | dangles => rw [setCoord_coord_self]; exact h.close (.inr (.inl rfl))
  | hearsOp => rw [reply_coord, setCoord_coord_self]; exact h.close (.inr (.inr rfl))
  | leavesOp => rw [reply_coord, setCoord_coord_self]; exact h.close (.inr (.inr rfl))
  | sendsPrepare n todo msg x σ stat hpc hslot =>
    obtain ⟨hT, hmsg, hnodup, hhas⟩ := h.preparing _ _ hpc
    rw [setCoord_coord_self]
    refine ⟨h.host, h.stat, h.idle, by simp, by simp, fun todo' msg' he => ?_⟩
    obtain ⟨rfl, rfl⟩ := CoordPc.preparing.inj he
    exact ⟨hT, hmsg, hnodup.of_cons, fun k hk => hhas k (.tail _ hk)⟩
  | collects n msg x σ rest m hpc hslot =>
    rw [setCoord_coord_self]
    refine h.setSlot (fun _ => host hslot) (by simp) (fun _ => rfl) ⟨by simp [hpc], fun todo m he => ?_⟩
    obtain ⟨rfl, -⟩ := CoordPc.preparing.inj (hpc.symm.trans he)
    exact .inl (by simp)
  | completes msg hpc hall =>
    rw [setCoord_coord_self]
    refine ⟨h.host, h.stat, fun _ k => ?_, by simp, by simp, by simp⟩
    by_contra hst
    have hst : ((s.coord c).storageCl k).stat = .hasBegin := by
      cases hk : ((s.coord c).storageCl k).stat with
      | init => exact absurd hk hst
      | hasBegin => rfl
    exact absurd ((hall k (h.host k (h.stat k hst))).symm.trans hst) (by decide)
  | drops n x σ hpc hslot =>
    rw [Sys.drop, setCoord_coord_self]
    refine h.setSlot (by simp) (by simp) (fun _ => rfl) ⟨by simp, fun todo msg he => ?_⟩
    rcases hpc with hpc | ⟨m, hpc⟩
    · simp [hpc] at he
    · obtain ⟨rfl, -⟩ := CoordPc.preparing.inj (hpc.symm.trans he)
      exact .inl (by simp)
  | goes => rw [setCoord_coord_self]; exact h.gone true
  | ends => rw [endSession_coord_self]; exact h.close (.inl rfl)
  | kills => rw [kill_coord_self]; exact h.close (.inl rfl)
  | killsCollecting => rw [kill_coord_self]; exact h.close (.inl rfl)
  | killsReading => rw [kill_coord_self]; exact h.close (.inl rfl)
  | killsBegun n x σ stat req rest m res hpc hslot =>
    obtain ⟨hT, -⟩ := h.begins n req hpc
    rw [kill_coord_self, read_coord, setCoord_coord_self]
    exact (h.close (.inl rfl)).setSlot (fun _ => host hslot) (by simp) (fun he => absurd he hT)
      (by simp)

end Table

section Connections

variable {cfg : Config} {A : Hist → Prop} {s s' : Sys} {c d : CoordId} {σ σ' : Session}

structure Fades (σ σ' : Session) : Prop where
  host : σ'.host = σ.host
  live : σ'.live = true → σ.live = true ∧ σ'.vars = σ.vars
  toServ : σ'.toServ.Sublist σ.toServ
  toCl : σ'.toCl.Sublist σ.toCl
  wait : σ'.wait = σ.wait ∨ σ'.wait = .idle

theorem Fades.of_closed (σ : Session) (b : Bool) : Fades σ { σ with clClosed := b } :=
  ⟨rfl, fun h => ⟨h, rfl⟩, .refl _, .refl _, .inl rfl⟩

theorem Fades.of_stop (σ : Session) : Fades σ σ.stop :=
  ⟨rfl, fun h => by simp [Session.stop] at h, .refl _, .refl _, .inr rfl⟩

theorem Fades.idle (h : Fades σ σ') (hw : σ.wait = .idle) : σ'.wait = .idle :=
  h.wait.elim (fun h => h.trans hw) id

theorem Fades.nil (h : Fades σ σ') (hs : σ.toServ = []) : σ'.toServ = [] :=
  List.sublist_nil.mp (hs ▸ h.toServ)

def Sys.Owns (s : Sys) (c : CoordId) : Prop := ∀ h x, ((s.coord c).storageCl h).fd = some x →
  ∃ σ, s.sess x = some σ ∧ σ.host = h ∧ σ.owner = c

theorem Sys.Owns.connect (ho : s.Owns c) {n : Host} {x : Nat} (hx : s.sess x = none) :
    (s.connect c n x).Owns c := by
  intro k y hy
  have hs : (s.connect c n x).sess = Function.update s.sess x (some { host := n, owner := c }) := rfl
  have hc : (s.connect c n x).coord c =
      (s.coord c).setSlot n { (s.coord c).storageCl n with fd := some x } := by
    simp [Sys.connect, Sys.setCoord]
  rw [hc] at hy
  by_cases hk : k = n
  · subst hk
    obtain rfl : x = y := by simpa [Coord.setSlot] using hy
    exact ⟨_, by rw [hs, Function.update_self], rfl, rfl⟩
  · obtain ⟨σ, hσ, hσ'⟩ := ho k y (by simpa [Coord.setSlot, hk] using hy)
    have hyx : y ≠ x := by
      rintro rfl
      rw [hx] at hσ
      cases hσ
    exact ⟨σ, by rw [hs, Function.update_of_ne hyx, hσ], hσ'⟩

theorem Disc.owns (hd : Disc cfg s) (c : CoordId) : s.Owns c := fun h x hx => hd.slot c h x hx

/-- A step of another client session: it touches neither the slots of `c` nor what `c` was told. -/
structure Apart (c : CoordId) (s s' : Sys) : Prop where
  coord : s'.coord c = s.coord c
  sess : ∀ x σ, s.sess x = some σ → σ.owner = c →
    ∃ b, s'.sess x = some { σ with clClosed := σ.clClosed || b }
  news : ∃ l, s'.hist = l ++ s.hist ∧ ∀ type T res, .note (.replied c type T res) ∉ l

namespace Apart

theorem refl (c : CoordId) (s : Sys) : Apart c s s :=
  ⟨rfl, fun _ σ hσ _ => ⟨false, by rw [hσ, Bool.or_false]⟩, [], rfl, by simp⟩

theorem told (h : Apart c s s') (T : String) (res : CliRes)
    (hm : .note (.replied c .commit T res) ∈ s'.hist) : .note (.replied c .commit T res) ∈ s.hist := by
  obtain ⟨l, hl, hn⟩ := h.news
  rw [hl] at hm
  exact (List.mem_append.mp hm).resolve_left (hn _ _ _)

theorem setCoord (h : Apart c s s') (hne : c ≠ d) (co : Coord) : Apart c s (s'.setCoord d co) :=
  ⟨(Function.update_of_ne hne _ _).trans h.coord, h.sess, h.news⟩

theorem log (h : Apart c s s') {e : Entry Proc Timeval Event}
    (he : ∀ type T res, e ≠ .note (.replied c type T res)) : Apart c s (s'.log e) := by
  obtain ⟨l, hl, hn⟩ := h.news
  refine ⟨h.coord, h.sess, e :: l, congrArg _ hl, fun type T res hm => ?_⟩
  rcases List.mem_cons.mp hm with hm | hm
  · exact he type T res hm.symm
  · exact hn type T res hm

theorem reply (h : Apart c s s') (hne : c ≠ d) (type : RequestType) (res : CliRes) :
    Apart c s (s'.reply d type res) := by
  refine h.log fun type' T res' he => hne ?_
  have he := Entry.note.inj he
  exact (Event.replied.inj he).1.symm

theorem setSess (h : Apart c s s') {y : Nat} (hy : ∀ τ, s.sess y = some τ → τ.owner ≠ c)
    (τ' : Session) : Apart c s (s'.setSess y τ') := by
  refine ⟨h.coord, fun x σ hσ howner => ?_, h.news⟩
  obtain ⟨b, hb⟩ := h.sess x σ hσ howner
  have hne : x ≠ y := by
    rintro rfl
    exact hy σ hσ howner
  exact ⟨b, (Function.update_of_ne hne _ _).trans hb⟩

theorem closeAll (h : Apart c s s') : Apart c s (s'.closeAll d) := by
  refine ⟨h.coord, fun x σ hσ howner => ?_, h.news⟩
  obtain ⟨b, hb⟩ := h.sess x σ hσ howner
  simp only [Sys.closeAll, hb, Option.map_some]
  split_ifs
  · exact ⟨true, by rw [Bool.or_true]⟩
  · exact ⟨b, rfl⟩

theorem endSession (h : Apart c s s') (hne : c ≠ d) : Apart c s (s'.endSession d) :=
  h.closeAll.setCoord hne _

theorem kill (h : Apart c s s') (hne : c ≠ d) (type : RequestType) (res : CliRes) :
    Apart c s (s'.kill d type res) := (h.reply hne type _).endSession hne

end Apart

theorem CoordStep.apart (ho : s.Owns d) {ℓ : Label} (hs : CoordStep cfg s d ℓ s') (hne : c ≠ d) :
    Apart c s s' := by
  have hr := Apart.refl c s
  have mine : ∀ {h x stat σ}, s.Slot d h stat x σ → ∀ τ, s.sess x = some τ → τ.owner ≠ c := by
    intro h x stat σ hslot τ hτ he
    obtain ⟨ρ, hρ, -, howner⟩ := ho h x (by rw [hslot.slot])
    obtain rfl := Option.some.inj (hτ.symm.trans hρ)
    exact hne (he.symm.trans howner)
  have new : ∀ {x}, s.sess x = none → ∀ τ, s.sess x = some τ → τ.owner ≠ c := by
    intro x hx τ hτ
    rw [hx] at hτ
    cases hτ
  cases hs with
  | replies type res => exact hr.reply hne _ _
  | begins => exact (((hr.log (by simp)).log (by simp)).setCoord hne _).reply hne _ _
  | plans => exact ((hr.log (by simp)).log (by simp)).setCoord hne _
  | rollsBack => exact (hr.reply hne _ _).closeAll.setCoord hne _
  | connectsBegin h x req _ _ _ _ _ _ _ _ hx =>
    exact (((hr.setSess (new hx) _).setCoord hne _).setSess (new hx) _).setCoord hne _
  | connectsOp h x req _ _ _ _ _ _ _ _ hx =>
    exact (((hr.setSess (new hx) _).setCoord hne _).setSess (new hx) _).setCoord hne _
  | sendsBegin h x σ req _ _ _ _ _ hslot => exact (hr.setSess (mine hslot) _).setCoord hne _
  | sendsOp h x σ req _ _ _ _ _ hslot => exact (hr.setSess (mine hslot) _).setCoord hne _
  | hearsBegin h x σ stat req res rest _ hslot =>
    exact ((hr.setCoord hne _).setSess (mine hslot) _).setCoord hne _
  | dangles h x σ stat req rest m _ hslot => exact (hr.setSess (mine hslot) _).setCoord hne _
  | hearsOp h x σ stat req rest m _ hslot =>
    exact ((hr.setSess (mine hslot) _).setCoord hne _).reply hne _ _
  | leavesOp h req =>
    split_ifs
    · exact (hr.setCoord hne _).reply hne _ _
    · exact ((hr.log (by simp)).setCoord hne _).reply hne _ _
  | sendsPrepare h todo msg x σ stat _ hslot => exact (hr.setSess (mine hslot) _).setCoord hne _
  | collects h msg x σ rest m _ hslot =>
    cases m with
    | rpcResponse => exact ((hr.log (by simp)).setSess (mine hslot) _).setCoord hne _
    | transStateResponse => exact (hr.setSess (mine hslot) _).setCoord hne _
  | completes => exact (hr.reply hne _ _).setCoord hne _
  | drops h x σ _ hslot => exact (hr.setSess (mine hslot) _).setCoord hne _
  | goes => exact hr.setCoord hne _
  | ends => exact hr.endSession hne
  | kills | killsCollecting => exact hr.kill hne _ _
  | killsReading h x σ stat req rest m res _ hslot => exact (hr.setSess (mine hslot) _).kill hne _ _
  | killsBegun h x σ stat req rest m res _ hslot =>
    exact ((hr.setCoord hne _).setSess (mine hslot) _).kill hne _ _

end Connections

def Seg.Serves (seg : Seg) (m : RpcReq) : Prop :=
  (∃ r, seg.next = .response r) ∨ ∃ w, seg.next = .wait w ∧ w.req? = some m

inductive SessStep (A : Hist → Prop) (s : Sys) (x : Nat) (σ : Session) : Label → Session → Prop
  | same {ℓ : Label} : SessStep A s x σ ℓ σ
  | serves {env : Env} {m : RpcReq} {rest : List RpcReq} {seg : Seg} {w : DbWorld} :
      σ.live = true → σ.wait = .idle → σ.toServ = m :: rest →
      Handled A env.fates σ.host (s.idle σ.host) env.fuel σ.vars m (s.world σ.host) seg w →
      SessStep A s x σ (.recv x env) (({ σ with toServ := rest } : Session).after seg)
  | resumes {ℓ : Label} {m : RpcReq} {seg : Seg} : σ.wait.req? = some m → seg.vars = σ.vars →
      seg.Serves m → SessStep A s x σ ℓ (σ.after seg)
  | stops {ℓ : Label} : SessStep A s x σ ℓ σ.stop
  | closes {ℓ : Label} (b : Bool) : SessStep A s x σ ℓ { σ with clClosed := σ.clClosed || b }
  | cuts (a b : Nat) : SessStep A s x σ (.cut x a b)
      { σ with
        toServ := σ.toServ.take a, toCl := σ.toCl.take b, clClosed := true, servClosed := true }

section SessStep

variable {cfg : Config} {A : Hist → Prop} {s s' : Sys} {c : CoordId} {σ σ' : Session} {ℓ : Label}
  {x : Nat} {fates : List Fate} {self : Host} {idle fuel : Nat} {v : Vars} {req m : RpcReq}
  {res : RpcRes} {w w' : DbWorld} {seg : Seg}

theorem readSeg_serves (v : Vars) (req : RpcReq) (res : RpcRes) (r : ReadRes) :
    (readSeg v req res r).Serves req := by
  rcases readSeg_next v req res r with ⟨res', hn⟩ | ⟨res', hn, -⟩
  · exact .inl ⟨_, hn⟩
  · exact .inr ⟨_, hn, rfl⟩

theorem ReadEnd.serves {me : Proc} (h : ReadEnd A me self fuel v req res w seg w') : seg.Serves req := by
  obtain ⟨-, l, ts, m, r, -, -, -, -, rfl⟩ := h
  exact readSeg_serves v req _ _

theorem AccessEnd.serves (h : AccessEnd A fates self fuel v req res w seg w') : seg.Serves req := by
  cases h with
  | reads _ _ hr => exact hr.serves
  | gets _ _ hg =>
    cases hg with
    | waits => exact .inr ⟨_, rfl, rfl⟩
    | reads _ _ _ _ hr => exact hr.serves
  | writes _ hw =>
    cases hw with
    | waits => exact .inr ⟨_, rfl, rfl⟩
    | fails => exact .inl ⟨_, rfl⟩
    | writes => exact .inl ⟨_, rfl⟩

theorem Handled.serves (h : Handled A fates self idle fuel v req w seg w') : seg.Serves req := by
  cases h with
  | begin _ hb =>
    generalize w'.store = st at hb
    cases hb with
    | refused | begun | failed => exact .inl ⟨_, rfl⟩
  | prepare _ hp =>
    generalize w'.store = st at hp
    cases hp with
    | refused | votes => exact .inl ⟨_, rfl⟩
  | op _ ho =>
    cases ho with
    | answers => exact .inl ⟨_, rfl⟩
    | accesses _ _ _ ha => exact ha.serves

theorem NodeStep.sess_none (hs : NodeStep A s ℓ s') (hx : s.sess x = none) : s'.sess x = none := by
  have keep : ∀ {y τ} {t : Session}, s.sess y = some τ → Function.update s.sess y (some t) x = none := by
    rintro y τ t hy
    have hne : x ≠ y := by
      rintro rfl
      simp [hx] at hy
    rw [Function.update_of_ne hne, hx]
  cases hs with
  | recv hτ => exact keep hτ
  | timeout hτ => exact keep hτ
  | event hτ => exact keep hτ
  | hangup hτ => exact keep hτ
  | taskSkip | taskRecv | taskAsk | startUp => exact hx
  | lost =>
    show (s.sess x).map _ = none
    rw [hx]
    rfl
  | cut hτ => exact keep hτ

theorem NodeStep.sess (hs : NodeStep A s ℓ s') (hσ : s.sess x = some σ) :
    ∃ σ', s'.sess x = some σ' ∧ SessStep A s x σ ℓ σ' := by
  have one : ∀ {y τ τ'}, s.sess y = some τ → (x = y → SessStep A s y τ ℓ τ') →
      ∃ σ', Function.update s.sess y (some τ') x = some σ' ∧ SessStep A s x σ ℓ σ' := by
    intro y τ τ' hτ hstep
    rcases eq_or_ne x y with rfl | hne
    · obtain rfl := Option.some.inj (hσ.symm.trans hτ)
      exact ⟨τ', Function.update_self .., hstep rfl⟩
    · exact ⟨σ, by rw [Function.update_of_ne hne, hσ], .same⟩
  cases hs with
  | recv hτ hlive hwait hm _ hh => exact one hτ fun _ => .serves hlive hwait hm hh
  | @timeout y env τ seg w hτ _ _ hend hk _ =>
    refine one hτ fun _ => ?_
    generalize hw : τ.wait = wt at hend
    cases hend with
    | lock ha => exact .resumes (by rw [hw]; rfl) hk.1 ha.serves
    | read hr => exact .resumes (by rw [hw]; rfl) hk.1 hr.serves
  | @event y τ res hτ _ _ hev =>
    refine one hτ fun _ => ?_
    have he : ({ τ with wait := .idle } : Session).answer (.rpcResponse res) =
        τ.after { vars := τ.vars, next := .response (.rpcResponse res) } := by
      simp [Session.after]
    rw [he]
    cases hw : τ.wait with
    | idle => simp [hw, onEvent] at hev
    | lock req res' => exact .resumes (by rw [hw]; rfl) rfl (.inl ⟨_, rfl⟩)
    | read req res' => exact .resumes (by rw [hw]; rfl) rfl (.inl ⟨_, rfl⟩)
  | hangup hτ => exact one hτ fun _ => .stops
  | taskSkip | taskRecv | taskAsk | startUp => exact ⟨σ, hσ, .same⟩
  | @lost ℓ h w =>
    refine ⟨_, congrArg (Option.map _) hσ, ?_⟩
    show SessStep A s x σ ℓ (if σ.host = h then σ.stop else σ)
    split_ifs
    · exact .stops
    · exact .same
  | @cut y a b τ hτ => exact one hτ fun _ => .cuts a b

theorem NodeStep.sess_inv (hs : NodeStep A s ℓ s') (hσ' : s'.sess x = some σ') :
    ∃ σ, s.sess x = some σ ∧ SessStep A s x σ ℓ σ' := by
  cases hσ : s.sess x with
  | none => simp [hs.sess_none hσ] at hσ'
  | some σ =>
    obtain ⟨τ, hτ, hstep⟩ := hs.sess hσ
    obtain rfl := Option.some.inj (hτ.symm.trans hσ')
    exact ⟨σ, rfl, hstep⟩

theorem SessStep.host (h : SessStep A s x σ ℓ σ') : σ'.host = σ.host := by
  cases h with
  | same => rfl
  | serves => simp
  | resumes => simp
  | stops | closes => rfl
  | cuts => rfl

theorem SessStep.owner (h : SessStep A s x σ ℓ σ') : σ'.owner = σ.owner := by
  cases h with
  | same => rfl
  | serves => simp
  | resumes => simp
  | stops | closes => rfl
  | cuts => rfl

theorem SessStep.live (h : SessStep A s x σ ℓ σ') (hl : σ'.live = true) : σ.live = true := by
  cases h with
  | same | closes => exact hl
  | serves => simpa using hl
  | resumes => simpa using hl
  | stops => simp [Session.stop] at hl
  | cuts => exact hl

theorem SessStep.mem (h : SessStep A s x σ ℓ σ') (hm : m ∈ σ'.toServ) : m ∈ σ.toServ := by
  cases h with
  | same | stops | closes => exact hm
  | serves _ _ hs =>
    rw [after_toServ] at hm
    rw [hs]
    exact .tail _ hm
  | resumes => rwa [after_toServ] at hm
  | cuts a b => exact List.mem_of_mem_take hm

theorem Handled.beginTs (h : Handled A fates self idle fuel v req w seg w') :
    seg.vars.beginTs = v.beginTs ∨ seg.vars.beginTs = "" ∨
      (req.requestType = .begin ∧ seg.vars.beginTs = req.beginTs) := by
  cases h with
  | begin hreq hb =>
    generalize w'.store = st at hb
    cases hb with
    | refused => exact .inl rfl
    | begun | failed => exact .inr (.inr ⟨hreq, rfl⟩)
  | prepare _ hp =>
    generalize w'.store = st at hp
    cases hp with
    | refused => exact .inl rfl
    | votes => exact .inr (.inl rfl)
  | op _ _ hk => exact .inl (by rw [hk.1])

theorem SessStep.trace {T : String} (h : SessStep A s x σ ℓ σ')
    (hmsg : ∀ m ∈ σ.toServ, MsgOk cfg s.hist σ m) (hT : T ≠ "") (ht : σ'.Trace T) : σ.Trace T := by
  rcases ht with hv | hm
  · cases h with
    | same | stops | closes => exact .inl hv
    | @serves env m rest seg w _ _ hs hh =>
      rw [after_vars] at hv
      rcases hh.beginTs with he | he | ⟨hreq, he⟩
      · exact .inl (he.symm.trans hv)
      · exact absurd (hv.symm.trans he) hT
      · obtain ⟨T', rfl, -⟩ := (hmsg m (by rw [hs]; exact .head _)).of_begin hreq
        obtain rfl : T' = T := he.symm.trans hv
        exact .inr (by rw [hs]; exact .head _)
    | resumes _ hvars =>
      rw [after_vars, hvars] at hv
      exact .inl hv
    | cuts => exact .inl hv
  · exact .inr (h.mem hm)

theorem NodeStep.owns (hs : NodeStep A s ℓ s') (ho : s.Owns c) : s'.Owns c := by
  intro k y hy
  rw [hs.coord_eq] at hy
  obtain ⟨σ, hσ, hhost, howner⟩ := ho k y hy
  obtain ⟨σ', hσ', hstep⟩ := hs.sess hσ
  exact ⟨σ', hσ', hstep.host.trans hhost, hstep.owner.trans howner⟩

theorem Apart.owns (h : Apart c s s') (ho : s.Owns c) : s'.Owns c := by
  intro k y hy
  rw [h.coord] at hy
  obtain ⟨σ, hσ, hhost, howner⟩ := ho k y hy
  obtain ⟨b, hb⟩ := h.sess y σ hσ howner
  exact ⟨_, hb, hhost, howner⟩

end SessStep

structure SlotView where
  stat : Stat
  beginTs : String
  asked : Option RpcReq

def Coord.view (co : Coord) (h : Host) : SlotView :=
  { stat := (co.storageCl h).stat, beginTs := co.beginTs, asked := co.asked h }

inductive SlotView.Sends (v : SlotView) : RpcReq → Prop
  | begin : v.stat = .init → v.beginTs ≠ "" → v.Sends (beginReq v.beginTs)
  | op (req : CliReq) : v.stat = .hasBegin → req.IsOp → v.Sends (opReq v.beginTs req)
  | prepare (st : String) (L : List Host) : v.stat = .hasBegin → v.Sends (prepareReq v.beginTs st L)

/-- What a step of the session does to a slot and to the connection that stays in it; `E` says that
the client's socket had an event during the operation. -/
inductive SlotStep (E : Prop) (v : SlotView) (σ : Session) : SlotView → Session → Prop
  | same : SlotStep E v σ v σ
  | renames (T : String) : v.stat = .init → v.asked = none →
      SlotStep E v σ { v with beginTs := T } σ
  | sends (m : RpcReq) : v.asked = none → v.Sends m →
      SlotStep E v σ { v with asked := some m } (σ.send m)
  | begun (req : CliReq) (res : RpcRes) (rest : List ResMsg) : v.stat = .init → v.beginTs ≠ "" →
      v.asked = some (beginReq v.beginTs) → σ.toCl = .rpcResponse res :: rest → res.result = 0 →
      req.IsOp →
      SlotStep E v σ { v with stat := .hasBegin, asked := some (opReq v.beginTs req) }
        (({ σ with toCl := rest } : Session).send (opReq v.beginTs req))
  | hears (req : CliReq) (m : ResMsg) (rest : List ResMsg) : v.asked = some (opReq v.beginTs req) →
      req.IsOp → σ.toCl = m :: rest →
      SlotStep E v σ { v with asked := none } { σ with toCl := rest }
  | leaves (req : CliReq) : v.asked = some (opReq v.beginTs req) → req.IsOp → E →
      SlotStep E v σ { v with asked := none } σ
  | collects (st : String) (L : List Host) (m : ResMsg) (rest : List ResMsg) : v.stat = .hasBegin →
      v.asked = some (prepareReq v.beginTs st L) → σ.toCl = m :: rest →
      SlotStep E v σ { v with stat := .init, asked := none } { σ with toCl := rest }

inductive SlotMove (s : Sys) (ℓ : Label) (s' : Sys) (c : CoordId) (k : Host) (x : Nat) (σ' : Session) :
    Prop
  | moves (σ : Session) : ((s.coord c).storageCl k).fd = some x → s.sess x = some σ →
      ¬ (s.coord c).Over →
      SlotStep (ℓ = .clientEvent c) ((s.coord c).view k) σ ((s'.coord c).view k) σ' →
      SlotMove s ℓ s' c k x σ'
  | connects : s.sess x = none → (s.coord c).pc = .top → (s.coord c).gone = false →
      (s.coord c).beginTs ≠ "" →
      (s'.coord c).view k =
        { stat := .init
          beginTs := (s.coord c).beginTs
          asked := some (beginReq (s.coord c).beginTs) } →
      σ' = ({ host := k, owner := c } : Session).send (beginReq (s.coord c).beginTs) →
      SlotMove s ℓ s' c k x σ'

section SlotStep

variable {cfg : Config} {s s' : Sys} {c : CoordId} {co : Coord} {σ σ' : Session} {x y : Nat}
  {h k : Host} {ℓ : Label}

theorem asked_top (hpc : co.pc = .top) (k : Host) : co.asked k = none := by
  simp [Coord.asked, hpc]

theorem view_eq {co' : Coord} (hst : (co'.storageCl k).stat = (co.storageCl k).stat)
    (hT : co'.beginTs = co.beginTs) (ha : co'.asked k = co.asked k) : co'.view k = co.view k := by
  simp only [Coord.view, hst, hT, ha]

theorem Sys.Owns.sess_ne (ho : s.Owns c) {h k : Host} (hk : k ≠ h)
    (hx : ((s.coord c).storageCl k).fd = some x) (hy : ((s.coord c).storageCl h).fd = some y) :
    x ≠ y := by
  rintro rfl
  obtain ⟨σ, hσ, rfl, -⟩ := ho k x hx
  obtain ⟨τ, hτ, rfl, -⟩ := ho h x hy
  exact hk (congrArg Session.host (Option.some.inj (hσ.symm.trans hτ)))

theorem Sys.Slot.fd_setSlot {n : Host} {stat stat' : Stat} {τ : Session} (h : s.Slot c n stat y τ)
    (k : Host) : (((s.coord c).setSlot n { fd := some y, stat := stat' }).storageCl k).fd =
      ((s.coord c).storageCl k).fd := by
  rw [setSlot_storageCl]
  split_ifs with hk
  · rw [hk, h.slot]
  · rfl

theorem SlotMove.of_same (hover : ¬ (s.coord c).Over) (hx : ((s.coord c).storageCl k).fd = some x)
    (hσ : s.sess x = some σ') (hv : (s'.coord c).view k = (s.coord c).view k) :
    SlotMove s ℓ s' c k x σ' :=
  .moves σ' hx hσ hover (hv ▸ .same)

theorem SlotMove.of_slot {n : Host} {stat : Stat} {τ υ : Session} {co' : Coord} (ho : s.Owns c)
    (hslot : s.Slot c n stat y τ) (hover : ¬ (s.coord c).Over) (hc : s'.coord c = co')
    (hsess : s'.sess = (s.setSess y υ).sess)
    (hfd : ∀ k, (co'.storageCl k).fd = ((s.coord c).storageCl k).fd)
    (hother : ∀ k, k ≠ n → co'.view k = (s.coord c).view k)
    (hstep : SlotStep (ℓ = .clientEvent c) ((s.coord c).view n) τ (co'.view n) υ)
    (hx : ((s'.coord c).storageCl k).fd = some x) (hσ' : s'.sess x = some σ') :
    SlotMove s ℓ s' c k x σ' := by
  subst hc
  rw [hfd] at hx
  rw [hsess] at hσ'
  have hy : ((s.coord c).storageCl n).fd = some y := by rw [hslot.slot]
  by_cases hk : k = n
  · subst hk
    obtain rfl := Option.some.inj (hy.symm.trans hx)
    obtain ⟨-, rfl⟩ := (setSess_cases hσ').resolve_right fun h => h.1 rfl
    exact .moves τ hx hslot.sess hover hstep
  · have hσ := ((setSess_cases hσ').resolve_left fun h => ho.sess_ne hk hx hy h.1).2
    exact .of_same hover hx hσ (hother k hk)

theorem SlotMove.of_send {n : Host} {stat : Stat} {τ : Session} {m : RpcReq} {pc : CoordPc}
    (ho : s.Owns c) (hslot : s.Slot c n stat y τ) (hover : ¬ (s.coord c).Over)
    (hc : s'.coord c = { s.coord c with pc := pc })
    (hsess : s'.sess = (s.setSess y (τ.send m)).sess) (hnone : (s.coord c).asked n = none)
    (hasked : ∀ k, ({ s.coord c with pc := pc } : Coord).asked k =
      if k = n then some m else (s.coord c).asked k)
    (hsends : ((s.coord c).view n).Sends m) (hx : ((s'.coord c).storageCl k).fd = some x)
    (hσ' : s'.sess x = some σ') : SlotMove s ℓ s' c k x σ' := by
  refine .of_slot ho hslot hover hc hsess (fun _ => rfl) (fun k hk => ?_) ?_ hx hσ'
  · exact view_eq rfl rfl ((hasked k).trans (if_neg hk))
  · have hv : Coord.view { s.coord c with pc := pc } n =
        { (s.coord c).view n with asked := some m } := by
      rw [Coord.view, hasked, if_pos rfl]
      rfl
    rw [hv]
    exact .sends m hnone hsends

theorem SlotMove.of_connect {n : Host} {req : CliReq} (ho : s.Owns c) (hpc : (s.coord c).pc = .top)
    (hgone : (s.coord c).gone = false) (hT : (s.coord c).beginTs ≠ "")
    (hst : ((s.coord c).storageCl n).stat = .init) (hy : s.sess y = none)
    (hx : ((((s.connect c n y).sendBegin c y { host := n, owner := c } n req).coord c).storageCl k).fd =
      some x)
    (hσ' : ((s.connect c n y).sendBegin c y { host := n, owner := c } n req).sess x = some σ') :
    SlotMove s ℓ ((s.connect c n y).sendBegin c y { host := n, owner := c } n req) c k x σ' := by
  have hc : ((s.connect c n y).sendBegin c y { host := n, owner := c } n req).coord c =
      { (s.coord c).setSlot n { (s.coord c).storageCl n with fd := some y } with
        pc := .beginSent n req } := by
    simp [Sys.sendBegin, Sys.connect]
  rw [hc] at hx
  by_cases hk : k = n
  · subst hk
    obtain rfl : y = x := by simpa [setSlot_storageCl] using hx
    refine .connects hy hpc hgone hT ?_ ?_
    · rw [hc]
      simp [Coord.view, Coord.asked, setSlot_storageCl, hst]
    · have hσ : some (({ host := k, owner := c } : Session).send
          (beginReq ((s.connect c k y).coord c).beginTs)) = some σ' := by
        simpa [Sys.sendBegin, Sys.setSess, Sys.setCoord] using hσ'
      rw [← Option.some.inj hσ]
      simp [Sys.connect]
  · have hx : ((s.coord c).storageCl k).fd = some x := by simpa [setSlot_storageCl, hk] using hx
    obtain ⟨τ, hτ, -⟩ := ho k x hx
    have hne : x ≠ y := by
      rintro rfl
      simp [hy] at hτ
    have hσ : s.sess x = some σ' := by
      simpa [Sys.sendBegin, Sys.connect, Sys.setSess, Sys.setCoord, hne] using hσ'
    refine .of_same (by simp [Coord.Over, hpc]) hx hσ ?_
    rw [hc]
    exact view_eq (by simp [setSlot_storageCl, hk]) rfl
      (by rw [asked_top hpc]; simp [Coord.asked, Ne.symm hk])

theorem CoordStep.slot (ht : Table cfg (s.coord c)) (ho : s.Owns c) (hs : CoordStep cfg s c ℓ s')
    (hover : ¬ (s'.coord c).Over) (hx : ((s'.coord c).storageCl k).fd = some x)
    (hσ' : s'.sess x = some σ') :
    SlotMove s ℓ s' c k x σ' := by
  -- what the session waits for, where it waits on one slot
  have one : ∀ {n k : Host} {m : RpcReq}, (if n = k then some m else none) =
      if k = n then some m else none := by
    intro n k m
    simp only [eq_comm]
  cases hs with
  | replies type res hpc => exact .of_same (by simp [Coord.Over, hpc]) hx hσ' rfl
  | begins tv hpc _ hT =>
    rw [reply_coord, setCoord_coord_self] at hx
    refine .moves σ' hx hσ' (by simp [Coord.Over, hpc]) ?_
    have hv : Coord.view { s.coord c with beginTs := getTS tv } k =
        { (s.coord c).view k with beginTs := getTS tv } := by
      simp [Coord.view, Coord.asked, hpc]
    rw [reply_coord, setCoord_coord_self, hv]
    exact .renames _ (ht.idle hT k) (asked_top hpc k)
  | plans tv hpc =>
    rw [setCoord_coord_self] at hx
    refine .of_same (by simp [Coord.Over, hpc]) hx hσ' ?_
    rw [setCoord_coord_self]
    refine view_eq rfl rfl ?_
    rw [asked_top hpc]
    -- a slot in which the transaction was begun belongs to a participant
    have hfd : ((s.coord c).storageCl k).fd = some x := hx
    exact if_neg fun h => h.1 (mem_participants.mpr
      ⟨ht.host k (by simp [hfd]), by simp [hfd], h.2⟩)
  | rollsBack => simp at hx
  | connectsBegin n y req hpc hgone hT _ _ _ hst _ hy =>
    exact .of_connect ho hpc hgone hT hst hy hx hσ'
  | connectsOp n y req _ _ _ _ _ hfd hst => exact absurd hfd (ht.stat n hst)
  | sendsBegin n y τ req hpc _ hT hop _ hslot =>
    refine .of_send ho hslot (by simp [Coord.Over, hpc]) setCoord_coord_self rfl (asked_top hpc n)
      (fun k => ?_) (.begin (by simp [Coord.view, hslot.slot]) hT) hx hσ'
    rw [asked_top hpc]
    exact one
  | sendsOp n y τ req hpc _ hT hop _ hslot =>
    refine .of_send ho hslot (by simp [Coord.Over, hpc]) setCoord_coord_self rfl (asked_top hpc n)
      (fun k => ?_) (.op req (by simp [Coord.view, hslot.slot]) hop) hx hσ'
    rw [asked_top hpc]
    exact one
  | hearsBegin n y τ stat req res rest hpc hslot hcl h0 =>
    obtain ⟨hT, hop, hst⟩ := ht.begins n req hpc
    have hc : ((s.setCoord c ((s.coord c).setSlot n { fd := some y, stat := .hasBegin })).sendOp c y
        { τ with toCl := rest } n req).coord c =
        { (s.coord c).setSlot n { fd := some y, stat := .hasBegin } with pc := .opSent n req } := by
      simp [Sys.sendOp]
    have hsess : ((s.setCoord c ((s.coord c).setSlot n { fd := some y, stat := .hasBegin })).sendOp c y
        { τ with toCl := rest } n req).sess =
        (s.setSess y
          (({ τ with toCl := rest } : Session).send (opReq (s.coord c).beginTs req))).sess := by
      simp [Sys.sendOp, Sys.setCoord, Sys.setSess]
    refine .of_slot ho hslot (by simp [Coord.Over, hpc]) hc hsess hslot.fd_setSlot (fun k hk => ?_) ?_
      hx hσ'
    · exact view_eq (by simp [setSlot_storageCl, hk]) rfl (by simp [Coord.asked, hpc, Ne.symm hk])
    · have hv : Coord.view { (s.coord c).setSlot n { fd := some y, stat := .hasBegin } with
          pc := .opSent n req } n = { (s.coord c).view n with
            stat := .hasBegin, asked := some (opReq (s.coord c).beginTs req) } := by
        simp [Coord.view, Coord.asked, setSlot_storageCl]
      rw [hv]
      exact .begun req res rest hst hT (by simp [Coord.view, Coord.asked, hpc]) hcl h0 hop
  | dangles => exact absurd (.inr (by simp)) hover
  | hearsOp n y τ stat req rest m hpc hslot hcl =>
    have hop := (ht.op n req hpc).2
    refine .of_slot ho hslot (by simp [Coord.Over, hpc]) setCoord_coord_self rfl (fun _ => rfl)
      (fun k hk => ?_) ?_ hx hσ'
    · exact view_eq rfl rfl (by simp [Coord.asked, hpc, Ne.symm hk])
    · exact .hears req m rest (by simp [Coord.view, Coord.asked, hpc]) hop hcl
  | leavesOp n req he hpc =>
    have hop := (ht.op n req hpc).2
    have hsess : (((if (s.coord c).gone then s else s.log (.note (.early c))).setCoord c
        { s.coord c with pc := .top }).reply c req.requestType {}).sess = s.sess := by
      simp only [Sys.reply, Sys.log, Sys.setCoord]
      split_ifs <;> rfl
    rw [reply_coord, setCoord_coord_self] at hx
    rw [hsess] at hσ'
    refine .moves σ' hx hσ' (by simp [Coord.Over, hpc]) ?_
    rw [reply_coord, setCoord_coord_self]
    by_cases hk : k = n
    · subst hk
      exact .leaves req (by simp [Coord.view, Coord.asked, hpc]) hop he
    · have hv : Coord.view { s.coord c with pc := .top } k = (s.coord c).view k :=
        view_eq rfl rfl (by simp [Coord.asked, hpc, Ne.symm hk])
      rw [hv]
      exact .same
  | sendsPrepare n todo msg y τ stat hpc hslot =>
    obtain ⟨-, ⟨st, L, rfl⟩, hnodup, hhas⟩ := ht.preparing _ _ hpc
    have hst := hhas n (.head _)
    refine .of_send ho hslot (by simp [Coord.Over, hpc]) setCoord_coord_self rfl
      (by simp [Coord.asked, hpc]) (fun k => ?_) (.prepare st L hst) hx hσ'
    by_cases hk : k = n
    · subst hk
      simp [Coord.asked, hst, (List.nodup_cons.mp hnodup).1]
    · simp [Coord.asked, hpc, hk]
  | collects n msg y τ rest m hpc hslot hcl =>
    obtain ⟨-, ⟨st, L, rfl⟩, -⟩ := ht.preparing _ _ hpc
    have hsess : (((s.logAnswer c n m).read y τ rest).setCoord c
        ((s.coord c).setSlot n { fd := some y, stat := .init })).sess =
        (s.setSess y { τ with toCl := rest }).sess := by cases m <;> rfl
    refine .of_slot ho hslot (by simp [Coord.Over, hpc]) setCoord_coord_self hsess hslot.fd_setSlot
      (fun k hk => ?_) ?_ hx hσ'
    · exact view_eq (by simp [setSlot_storageCl, hk]) rfl
        (by simp [Coord.asked, hpc, setSlot_storageCl, hk])
    · have hv : Coord.view ((s.coord c).setSlot n { fd := some y, stat := .init }) n =
          { (s.coord c).view n with stat := .init, asked := none } := by
        simp [Coord.view, Coord.asked, hpc, setSlot_storageCl]
      rw [hv]
      exact .collects st L m rest (by simp [Coord.view, hslot.slot])
        (by simp [Coord.view, Coord.asked, hpc, hslot.slot]) hcl
  | completes msg hpc hall =>
    rw [setCoord_coord_self] at hx
    have hfd : ((s.coord c).storageCl k).fd = some x := hx
    have hst := hall k (ht.host k (by simp [hfd]))
    refine .moves σ' hfd hσ' (by simp [Coord.Over, hpc]) ?_
    rw [setCoord_coord_self]
    have hnone : ((s.coord c).view k).asked = none := by simp [Coord.view, Coord.asked, hpc, hst]
    have hv : Coord.view { s.coord c with beginTs := "", startTs := "", pc := .top } k =
        { (s.coord c).view k with beginTs := "" } := by
      simp [Coord.view, Coord.asked, hpc, hst]
    rw [hv]
    exact .renames "" hst hnone
  | drops n y τ hpc hslot hcl =>
    rw [Sys.drop, setCoord_coord_self] at hx
    have hk : k ≠ n := by
      rintro rfl
      simp [setSlot_storageCl] at hx
    have hfd : ((s.coord c).storageCl k).fd = some x := by simpa [setSlot_storageCl, hk] using hx
    have hne := ho.sess_ne hk hfd (by rw [hslot.slot] : ((s.coord c).storageCl n).fd = some y)
    have hσ := ((setSess_cases hσ').resolve_left fun h => hne h.1).2
    refine .of_same ?_ hfd hσ ?_
    · rcases hpc with hpc | ⟨m, hpc⟩ <;> simp [Coord.Over, hpc]
    · rw [Sys.drop, setCoord_coord_self]
      refine view_eq (by simp [setSlot_storageCl, hk]) rfl ?_
      rcases hpc with hpc | ⟨m, hpc⟩ <;> simp [Coord.asked, hpc, setSlot_storageCl, hk]
  | goes =>
    rw [setCoord_coord_self] at hx hover
    refine .of_same hover hx hσ' ?_
    rw [setCoord_coord_self]
    rfl
  | ends => exact absurd (.inl (by simp)) hover
  | kills | killsCollecting => exact absurd (.inl (by simp)) hover
  | killsReading => exact absurd (.inl (by simp)) hover
  | killsBegun => exact absurd (.inl (by simp)) hover

end SlotStep

def Coord.Posts (co : Coord) (h : Host) (m : RpcReq) : Prop :=
  match co.pc with
  | .top => True
  | .beginSent _ _ => True
  | .preparing (k :: _) msg => k = h ∧ m = msg
  | _ => False

/-- What a step of session `c` does to a connection: it sends a request, reads a response while it
waits for one, and closes its end. -/
inductive Touches (s : Sys) (c : CoordId) (σ : Session) : Session → Prop
  | same : Touches s c σ σ
  | sends {h : Host} {stat : Stat} {x : Nat} {m : RpcReq} : s.Slot c h stat x σ →
      (s.coord c).Posts h m → Touches s c σ (σ.send m)
  | reads {r : ResMsg} {rest : List ResMsg} : ¬ (s.coord c).Over → σ.toCl = r :: rest →
      Touches s c σ { σ with toCl := rest }
  | answers {h : Host} {stat : Stat} {x : Nat} {m : RpcReq} {r : ResMsg} {rest : List ResMsg} :
      s.Slot c h stat x σ → ¬ (s.coord c).Over → σ.toCl = r :: rest → (s.coord c).Posts h m →
      Touches s c σ (({ σ with toCl := rest } : Session).send m)
  | closes {σ' : Session} : Touches s c σ σ' → Touches s c σ { σ' with clClosed := true }

section Touches

variable {s : Sys} {c : CoordId} {σ σ' : Session}

theorem Touches.host (h : Touches s c σ σ') : σ'.host = σ.host := by
  induction h with
  | same => rfl
  | sends => simp
  | reads => rfl
  | answers => simp
  | closes _ ih => exact ih

theorem Touches.owner (h : Touches s c σ σ') : σ'.owner = σ.owner := by
  induction h with
  | same => rfl
  | sends => simp
  | reads => rfl
  | answers => simp
  | closes _ ih => exact ih

theorem Touches.toCl (h : Touches s c σ σ') :
    σ'.toCl = σ.toCl ∨ (∃ r, σ.toCl = r :: σ'.toCl) ∧ ¬ (s.coord c).Over := by
  induction h with
  | same => exact .inl rfl
  | sends => exact .inl (send_toCl _ _)
  | @reads r _ hover hcl => exact .inr ⟨⟨r, hcl⟩, hover⟩
  | @answers h stat x m r rest _ hover hcl =>
    rw [send_toCl]
    exact .inr ⟨⟨r, hcl⟩, hover⟩
  | closes _ ih => exact ih

end Touches

def Kept (s s' : Sys) : Prop := ∀ x σ, s.sess x = some σ →
  ∃ σ', s'.sess x = some σ' ∧ σ'.host = σ.host ∧ σ'.owner = σ.owner

structure Slotted (cfg : Config) (s : Sys) (c : CoordId) : Prop where
  table : Table cfg (s.coord c)
  owns : s.Owns c

section Runs

variable {cfg : Config} {A : Hist → Prop} {s s' t : Sys} {c d : CoordId} {σ σ' τ : Session} {ℓ : Label}
  {x : Nat} {k : Host}

theorem Kept.refl (s : Sys) : Kept s s := fun _ σ hσ => ⟨σ, hσ, rfl, rfl⟩

theorem Kept.setSess (h : Kept s t) (hσ : t.sess x = some σ) (hhost : τ.host = σ.host)
    (howner : τ.owner = σ.owner) : Kept s (t.setSess x τ) := by
  intro y ρ hρ
  obtain ⟨ρ', hρ', h1, h2⟩ := h y ρ hρ
  rcases eq_or_ne y x with rfl | hne
  · obtain rfl := Option.some.inj (hσ.symm.trans hρ')
    exact ⟨τ, Function.update_self .., hhost.trans h1, howner.trans h2⟩
  · exact ⟨ρ', (Function.update_of_ne hne _ _).trans hρ', h1, h2⟩

theorem Sys.Owns.kept (ho : s.Owns c) (hk : Kept s s')
    (hfd : ∀ h x, ((s'.coord c).storageCl h).fd = some x → ((s.coord c).storageCl h).fd = some x) :
    s'.Owns c := by
  intro h y hy
  obtain ⟨σ, hσ, hhost, howner⟩ := ho h y (hfd h y hy)
  obtain ⟨σ', hσ', h1, h2⟩ := hk y σ hσ
  exact ⟨σ', hσ', h1.trans hhost, h2.trans howner⟩

theorem CoordStep.touches (hs : CoordStep cfg s c ℓ s') (hσ : s.sess x = some σ) :
    ∃ σ', s'.sess x = some σ' ∧ Touches s c σ σ' := by
  have same : s'.sess = s.sess → ∃ σ', s'.sess x = some σ' ∧ Touches s c σ σ' :=
    fun he => ⟨σ, he ▸ hσ, .same⟩
  have one : ∀ {n y τ τ' stat}, s.Slot c n stat y τ → Touches s c τ τ' →
      ∃ σ', (s.setSess y τ').sess x = some σ' ∧ Touches s c σ σ' := by
    intro n y τ τ' stat hslot ht
    rcases eq_or_ne x y with rfl | hne
    · obtain rfl := Option.some.inj (hσ.symm.trans hslot.sess)
      exact ⟨τ', Function.update_self .., ht⟩
    · exact ⟨σ, (Function.update_of_ne hne _ _).trans hσ, .same⟩
  have fresh : ∀ {y}, s.sess y = none → (∀ z ≠ y, s'.sess z = s.sess z) →
      ∃ σ', s'.sess x = some σ' ∧ Touches s c σ σ' := by
    intro y hy he
    have hne : x ≠ y := by
      rintro rfl
      simp [hy] at hσ
    exact ⟨σ, (he x hne).trans hσ, .same⟩
  have close : ∀ {t : Sys}, (∃ τ, t.sess x = some τ ∧ Touches s c σ τ) →
      ∃ σ', (t.closeAll c).sess x = some σ' ∧ Touches s c σ σ' := by
    rintro t ⟨τ, hτ, ht⟩
    simp only [Sys.closeAll, hτ, Option.map_some]
    split_ifs
    · exact ⟨_, rfl, ht.closes⟩
    · exact ⟨_, rfl, ht⟩
  have mine : ∃ σ', s.sess x = some σ' ∧ Touches s c σ σ' := ⟨σ, hσ, .same⟩
  have waits : ∀ {pc}, (s.coord c).pc = pc → pc ≠ .closed → pc ≠ .dangling →
      ¬ (s.coord c).Over := by
    rintro pc rfl h1 h2
    exact fun h => h.elim h1 h2
  cases hs with
  | replies | begins | plans | completes | goes => exact same rfl
  | rollsBack => exact close (t := s.reply c _ _) mine
  | connectsBegin n y req _ _ _ _ _ _ _ _ hy =>
    exact fresh hy fun z hz => by simp [Sys.sendBegin, Sys.connect, Sys.setSess, Sys.setCoord, hz]
  | connectsOp n y req _ _ _ _ _ _ _ _ hy =>
    exact fresh hy fun z hz => by simp [Sys.sendOp, Sys.connect, Sys.setSess, Sys.setCoord, hz]
  | sendsBegin n y τ req hpc _ _ _ _ hslot => exact one hslot (.sends hslot (by simp [Coord.Posts, hpc]))
  | sendsOp n y τ req hpc _ _ _ _ hslot => exact one hslot (.sends hslot (by simp [Coord.Posts, hpc]))
  | hearsBegin n y τ stat req res rest hpc hslot hcl =>
    exact one hslot (.answers hslot (waits hpc (by simp) (by simp)) hcl (by simp [Coord.Posts, hpc]))
  | dangles n y τ stat req rest m hpc hslot hcl =>
    exact one hslot (.reads (waits hpc (by simp) (by simp)) hcl)
  | hearsOp n y τ stat req rest m hpc hslot hcl =>
    exact one hslot (.reads (waits hpc (by simp) (by simp)) hcl)
  | leavesOp n req =>
    refine same ?_
    simp only [Sys.reply, Sys.log, Sys.setCoord]
    split_ifs <;> rfl
  | sendsPrepare n todo msg y τ stat hpc hslot =>
    exact one hslot (.sends hslot (by simp [Coord.Posts, hpc]))
  | collects n msg y τ rest m hpc hslot hcl =>
    have ht : Touches s c τ { τ with toCl := rest } := .reads (waits hpc (by simp) (by simp)) hcl
    cases m <;> exact one hslot ht
  | drops n y τ _ hslot => exact one hslot Touches.same.closes
  | ends => exact close mine
  | kills | killsCollecting => exact close (t := s.reply c _ _) mine
  | killsReading n y τ stat req rest m res hpc hslot hcl =>
    exact close (t := (s.read y τ rest).reply c _ _)
      (one hslot (.reads (waits hpc (by simp) (by simp)) hcl))
  | killsBegun n y τ stat req rest m res hpc hslot hcl =>
    exact close (t := ((s.setCoord c ((s.coord c).setSlot n { fd := some y, stat := .hasBegin })).read
      y τ rest).reply c _ _) (one hslot (.reads (waits hpc (by simp) (by simp)) hcl))

theorem CoordStep.kept (hs : CoordStep cfg s c ℓ s') : Kept s s' := by
  intro x σ hσ
  obtain ⟨σ', hσ', ht⟩ := hs.touches hσ
  exact ⟨σ', hσ', ht.host, ht.owner⟩

theorem CoordStep.opens (ht : Table cfg (s.coord c)) (hs : CoordStep cfg s c ℓ s')
    (hx : s.sess x = none) (hσ' : s'.sess x = some σ') :
    ∃ h T, σ' = ({ host := h, owner := c } : Session).send (beginReq T) := by
  have same : s'.sess = s.sess → False := fun he => by
    rw [he, hx] at hσ'
    cases hσ'
  have one : ∀ {n y τ stat ρ υ}, s.Slot c n stat y τ → (s.setSess y υ).sess x = some ρ → False := by
    intro n y τ stat ρ υ hslot hρ
    rcases setSess_cases hρ with ⟨rfl, -⟩ | ⟨-, h⟩
    · simp [hslot.sess] at hx
    · simp [hx] at h
  have close : ∀ {t : Sys}, (t.closeAll c).sess x = some σ' → ∃ ρ, t.sess x = some ρ := fun h => by
    obtain ⟨ρ, hρ, -⟩ := Option.map_eq_some_iff.mp h
    exact ⟨ρ, hρ⟩
  have mine : ∀ {t : Sys}, t.sess = s.sess → (t.closeAll c).sess x = some σ' → False := by
    intro t he h
    obtain ⟨ρ, hρ⟩ := close h
    rw [he, hx] at hρ
    cases hρ
  cases hs with
  | replies | begins | plans | completes | goes => exact (same rfl).elim
  | rollsBack => exact (mine rfl hσ').elim
  | connectsBegin n y req _ _ _ _ _ _ _ _ hy =>
    rcases setSess_cases hσ' with ⟨rfl, rfl⟩ | ⟨hne, h⟩
    · exact ⟨_, _, rfl⟩
    · have h : s.sess x = some σ' := (Function.update_of_ne hne _ _).symm.trans h
      simp [hx] at h
  | connectsOp n y req _ _ _ _ _ hfd hst => exact absurd hfd (ht.stat n hst)
  | sendsBegin n y τ req _ _ _ _ _ hslot => exact (one hslot hσ').elim
  | sendsOp n y τ req _ _ _ _ _ hslot => exact (one hslot hσ').elim
  | hearsBegin n y τ stat req res rest _ hslot => exact (one hslot hσ').elim
  | dangles n y τ stat req rest m _ hslot => exact (one hslot hσ').elim
  | hearsOp n y τ stat req rest m _ hslot => exact (one hslot hσ').elim
  | leavesOp n req =>
    refine (same ?_).elim
    simp only [Sys.reply, Sys.log, Sys.setCoord]
    split_ifs <;> rfl
  | sendsPrepare n todo msg y τ stat _ hslot => exact (one hslot hσ').elim
  | collects n msg y τ rest m _ hslot => cases m <;> exact (one hslot hσ').elim
  | drops n y τ _ hslot => exact (one hslot hσ').elim
  | ends => exact (mine rfl hσ').elim
  | kills | killsCollecting => exact (mine rfl hσ').elim
  | killsReading n y τ stat req rest m res _ hslot =>
    obtain ⟨ρ, hρ⟩ := close (t := (s.read y τ rest).reply c _ _) hσ'
    exact (one hslot hρ).elim
  | killsBegun n y τ stat req rest m res _ hslot =>
    obtain ⟨ρ, hρ⟩ := close (t := ((s.setCoord c ((s.coord c).setSlot n
      { fd := some y, stat := .hasBegin })).read y τ rest).reply c _ _) hσ'
    exact (one hslot hρ).elim

theorem CoordStep.owns (ho : s.Owns c) (hs : CoordStep cfg s c ℓ s') : s'.Owns c := by
  have setSlot : ∀ (stat' : Stat) {co : Coord} {n stat y τ}, s.Slot c n stat y τ → co.storageCl =
      ((s.coord c).setSlot n { fd := some y, stat := stat' }).storageCl →
      ∀ h x, (co.storageCl h).fd = some x → ((s.coord c).storageCl h).fd = some x := by
    intro stat' co n stat y τ hslot hco h x hx
    rw [hco, setSlot_storageCl] at hx
    split_ifs at hx with hk
    · rw [hk, hslot.slot]
      exact hx
    · exact hx
  have connected : ∀ n x, (s.connect c n x).sess x = some { host := n, owner := c } :=
    fun n x => by simp [Sys.connect, Sys.setSess, Sys.setCoord]
  have hkept := hs.kept
  cases hs with
  | replies => exact ho
  | rollsBack => exact ho.kept hkept fun h x hx => by simp at hx
  | connectsBegin n x req _ _ _ _ _ _ _ _ hx =>
    exact (ho.connect hx).kept ((Kept.refl _).setSess (connected n x) (send_host _ _) (send_owner _ _))
      fun h y hy => by simpa [Sys.sendBegin] using hy
  | connectsOp n x req _ _ _ _ _ _ _ _ hx =>
    exact (ho.connect hx).kept ((Kept.refl _).setSess (connected n x) (send_host _ _) (send_owner _ _))
      fun h y hy => by simpa [Sys.sendOp] using hy
  | sendsBegin => exact ho.kept hkept fun h y hy => by simpa [Sys.sendBegin] using hy
  | sendsOp => exact ho.kept hkept fun h y hy => by simpa [Sys.sendOp] using hy
  | hearsBegin n x σ stat req res rest _ hslot =>
    exact ho.kept hkept
      (setSlot .hasBegin hslot (by rw [Sys.sendOp, setCoord_coord_self, setCoord_coord_self]))
  | collects n msg x σ rest m _ hslot =>
    exact ho.kept hkept (setSlot .init hslot (by rw [setCoord_coord_self]))
  | drops n x σ _ hslot =>
    refine ho.kept hkept fun h y hy => ?_
    rw [Sys.drop, setCoord_coord_self, setSlot_storageCl] at hy
    split_ifs at hy
    exact hy
  | killsBegun n x σ stat req rest m res _ hslot =>
    refine ho.kept hkept (setSlot .hasBegin hslot ?_)
    rw [kill_coord_self, read_coord, setCoord_coord_self]
  | _ => exact ho.kept hkept fun h y hy => by simpa using hy

theorem Slotted.step (h : ∀ d, Slotted cfg s d) (hs : step cfg s ℓ = some s') (c : CoordId) :
    Slotted cfg s' c := by
  rcases step_cases closed_true hs trivial with hn | ⟨d, hd⟩
  · exact ⟨hn.coord_eq ▸ (h c).table, hn.owns (h c).owns⟩
  · by_cases hcd : c = d
    · subst hcd
      exact ⟨hd.table (h c).table, hd.owns (h c).owns⟩
    · have ha := hd.apart (h d).owns hcd
      exact ⟨ha.coord ▸ (h c).table, ha.owns (h c).owns⟩

theorem Reach.slotted {C : Sys → Label → Prop} (hs : Reach cfg C s) : ∀ c, Slotted cfg s c := by
  induction hs with
  | init => exact fun c => ⟨table_init cfg, fun h x hx => by simp at hx⟩
  | step _ _ hstep ih => exact Slotted.step ih hstep

/-- A step from the side of session `c`: it is a step of the session, or only a storage node or the
network does something to its connections. -/
theorem session_cases (hA : Closed A) (h : ∀ d, Slotted cfg s d) (hs : step cfg s ℓ = some s')
    (ha : A s'.hist) (c : CoordId) :
    (s'.coord c = s.coord c ∧ (∃ l, s'.hist = l ++ s.hist ∧
        ∀ type T res, .note (.replied c type T res) ∉ l) ∧
      ∀ x σ, s.sess x = some σ → σ.owner = c →
        ∃ σ', s'.sess x = some σ' ∧ SessStep A s x σ ℓ σ') ∨
      ((∀ y i j, ℓ ≠ .cut y i j) ∧ CoordStep cfg s c ℓ s') := by
  have hcases : NodeStep A s ℓ s' ∨
      (∀ y i j, ℓ ≠ .cut y i j) ∧ ∃ d, CoordStep cfg s d ℓ s' := by
    cases ℓ with
    | cut y i j => exact .inl (node_cut hs)
    | _ => exact (step_cases hA hs ha).imp_right fun h => ⟨by simp, h⟩
  rcases hcases with hn | ⟨hcut, d, hd⟩
  · obtain ⟨h', l, hl, hby⟩ := hn.grown
    exact .inl ⟨by rw [hn.coord_eq], ⟨l, hl, fun type T res hm => hby _ hm⟩,
      fun x σ hσ _ => hn.sess hσ⟩
  · by_cases hcd : c = d
    · subst hcd
      exact .inr ⟨hcut, hd⟩
    · have hap := hd.apart (h d).owns hcd
      refine .inl ⟨hap.coord, hap.news, fun x σ hσ howner => ?_⟩
      obtain ⟨b, hb⟩ := hap.sess x σ hσ howner
      exact ⟨_, hb, .closes b⟩

theorem CoordStep.reads (hs : CoordStep cfg s c ℓ s') (hσ : s.sess x = some σ)
    (hσ' : s'.sess x = some σ') :
    σ'.toCl = σ.toCl ∨ (∃ r, σ.toCl = r :: σ'.toCl) ∧ ¬ (s.coord c).Over := by
  obtain ⟨τ, hτ, ht⟩ := hs.touches hσ
  obtain rfl := Option.some.inj (hτ.symm.trans hσ')
  exact ht.toCl

/-- A session tells its client that an operation has been done only when it has read a response, or
when an event of the client's socket ends the wait. -/
theorem CoordStep.replied (hs : CoordStep cfg s c ℓ s') {l : Hist} (hl : s'.hist = l ++ s.hist)
    {type : RequestType} {T : String} {res : CliRes} (hm : .note (.replied c type T res) ∈ l)
    (hop : ({ requestType := type } : CliReq).IsOp) (h0 : res.result = 0) :
    ℓ = .clientEvent c ∨ ∃ h req x σ stat m rest, (s.coord c).pc = .opSent h req ∧
      s.Slot c h stat x σ ∧ σ.toCl = m :: rest ∧ type = req.requestType ∧ res = opReply m ∧
      s'.sess x = some { σ with toCl := rest } := by
  have new : ∀ m, s'.hist = m ++ s.hist → .note (.replied c type T res) ∈ m := fun m hm' => by
    rwa [List.append_cancel_right (hm'.symm.trans hl)]
  have quiet : s'.hist = s.hist → False := fun he => by simpa using new [] he
  have one : ∀ {t : RequestType} {T' : String} {r : CliRes},
      s'.hist = [.note (.replied c t T' r)] ++ s.hist → type = t ∧ res = r := fun he => by
    have he := Event.replied.inj (Entry.note.inj (List.mem_singleton.mp (new _ he)))
    exact ⟨he.2.1, he.2.2.2⟩
  have killed : ∀ {t : RequestType} {T' : String} {r : CliRes},
      s'.hist = [.note (.replied c t T' { r with result := 1 })] ++ s.hist → False := fun he => by
    rw [(one he).2] at h0
    cases h0
  cases hs with
  | replies t r _ hr =>
    obtain ⟨rfl, rfl⟩ := one rfl
    exact absurd h0 (hr.resolve_left hop.2.1)
  | begins tv =>
    have hmem := new [.note (.replied c .begin _ { beginTs := getTS tv }), .note (.begun c (getTS tv)),
      .clock (.logic c.serv) tv] rfl
    simp only [List.mem_cons, Entry.note.injEq, Event.replied.injEq, reduceCtorEq,
      List.not_mem_nil, or_false] at hmem
    exact absurd hmem.2.1 hop.1
  | plans tv =>
    have hmem := new [.note (.prepare c _ _ _), .clock (.logic c.serv) tv] rfl
    simp at hmem
  | rollsBack => exact absurd (one rfl).1 hop.2.2.2
  | connectsBegin | connectsOp | sendsBegin | sendsOp | hearsBegin | dangles | sendsPrepare | drops |
    goes | ends => exact (quiet rfl).elim
  | hearsOp n y τ stat req rest m hpc hslot hcl =>
    obtain ⟨rfl, rfl⟩ := one rfl
    exact .inr ⟨n, req, y, τ, stat, m, rest, hpc, hslot, hcl, rfl, rfl, Function.update_self ..⟩
  | leavesOp n req he => exact .inl he
  | collects n msg y τ rest m =>
    cases m with
    | rpcResponse r =>
      have hmem := new [.note (.answered c _ n r.result)] rfl
      simp at hmem
    | transStateResponse => exact (quiet rfl).elim
  | completes => exact absurd (one rfl).1 hop.2.2.1
  | kills | killsCollecting | killsReading | killsBegun => exact (killed rfl).elim

end Runs

inductive Sys.Requests (s : Sys) (c : CoordId) (x : Nat) : RpcReq → Prop
  | begin : (s.coord c).pc = .top → (s.coord c).gone = false → (s.coord c).beginTs ≠ "" →
      (∀ σ, s.sess x = some σ → ∃ h, s.Slot c h .init x σ) → s.Requests c x (beginReq (s.coord c).beginTs)
  | op (h : Host) (σ : Session) (req : CliReq) : (s.coord c).pc = .top →
      (s.coord c).gone = false → (s.coord c).beginTs ≠ "" → req.IsOp → s.Slot c h .hasBegin x σ →
      s.Requests c x (opReq (s.coord c).beginTs req)
  | first (h : Host) (stat : Stat) (σ : Session) (req : CliReq) (res : RpcRes)
      (rest : List ResMsg) : (s.coord c).pc = .beginSent h req → req.IsOp → s.Slot c h stat x σ →
      σ.toCl = .rpcResponse res :: rest → res.result = 0 →
      s.Requests c x (opReq (s.coord c).beginTs req)
  | prepare (st : String) (L : List Host) : s.Requests c x (prepareReq (s.coord c).beginTs st L)

section Requests

variable {cfg : Config} {s s' : Sys} {c : CoordId} {ℓ : Label} {x : Nat} {σ σ' : Session}
  {m : RpcReq}

theorem CoordStep.requests (ht : Table cfg (s.coord c)) (hs : CoordStep cfg s c ℓ s')
    (hσ' : s'.sess x = some σ') (hm : m ∈ σ'.toServ) :
    (∃ σ, s.sess x = some σ ∧ m ∈ σ.toServ) ∨ s.Requests c x m := by
  have old : s'.sess = s.sess → ∃ σ, s.sess x = some σ ∧ m ∈ σ.toServ :=
    fun he => ⟨σ', he ▸ hσ', hm⟩
  have read : ∀ {n y τ τ' stat ρ}, s.Slot c n stat y τ → (s.setSess y τ').sess x = some ρ →
      m ∈ ρ.toServ → τ'.toServ = τ.toServ → ∃ σ, s.sess x = some σ ∧ m ∈ σ.toServ := by
    intro n y τ τ' stat ρ hslot hρ hm h
    rcases setSess_cases hρ with ⟨rfl, rfl⟩ | ⟨-, hρ⟩
    · exact ⟨τ, hslot.sess, h ▸ hm⟩
    · exact ⟨ρ, hρ, hm⟩
  have send : ∀ {n y τ' stat ρ r} (τ : Session), s.Slot c n stat y τ →
      (s.setSess y (Session.send τ' r)).sess x = some ρ → m ∈ ρ.toServ → τ'.toServ = τ.toServ →
      (x = y → s.Requests c y r) → (∃ σ, s.sess x = some σ ∧ m ∈ σ.toServ) ∨ s.Requests c x m := by
    intro n y τ' stat ρ r τ hslot hρ hm h hr
    rcases setSess_cases hρ with ⟨rfl, rfl⟩ | ⟨-, hρ⟩
    · rcases mem_send hm with hm | rfl
      · exact .inl ⟨τ, hslot.sess, h ▸ hm⟩
      · exact .inr (hr rfl)
    · exact .inl ⟨ρ, hρ, hm⟩
  have close : ∀ {t : Sys}, (t.closeAll c).sess x = some σ' →
      ∃ ρ, t.sess x = some ρ ∧ m ∈ ρ.toServ := by
    intro t h
    obtain ⟨ρ, hρ, rfl⟩ := Option.map_eq_some_iff.mp h
    refine ⟨ρ, hρ, ?_⟩
    split_ifs at hm
    · exact hm
    · exact hm
  cases hs with
  | replies | begins | plans | completes | goes => exact .inl (old rfl)
  | rollsBack => exact .inl (close (t := s.reply c _ _) hσ')
  | connectsBegin n y req htop hgone hT _ _ _ _ _ hy =>
    rcases setSess_cases hσ' with ⟨rfl, rfl⟩ | ⟨hne, h⟩
    · rcases mem_send hm with hm | rfl
      · cases hm
      · have hT' : ((s.connect c n x).coord c).beginTs = (s.coord c).beginTs := by
          simp [Sys.connect, Sys.setCoord, Coord.setSlot]
        rw [hT']
        exact .inr (.begin htop hgone hT fun σ hσ => by simp [hy] at hσ)
    · exact .inl ⟨σ', (Function.update_of_ne hne _ _).symm.trans h, hm⟩
  | connectsOp n y req _ _ _ _ _ hfd hst => exact absurd hfd (ht.stat n hst)
  | sendsBegin n y τ req htop hgone hT _ _ hslot =>
    refine send τ hslot hσ' hm rfl fun _ => .begin htop hgone hT fun σ hσ => ?_
    obtain rfl := Option.some.inj (hslot.sess.symm.trans hσ)
    exact ⟨n, hslot⟩
  | sendsOp n y τ req htop hgone hT hop _ hslot =>
    exact send τ hslot hσ' hm rfl fun _ => .op n τ req htop hgone hT hop hslot
  | hearsBegin n y τ stat req res rest hpc hslot hcl h0 =>
    refine send τ hslot hσ' hm rfl fun _ => ?_
    have hT' : ((s.setCoord c ((s.coord c).setSlot n { fd := some y, stat := .hasBegin })).coord
        c).beginTs = (s.coord c).beginTs := by simp
    rw [hT']
    exact .first n stat τ req res rest hpc (ht.begins n req hpc).2.1 hslot hcl h0
  | dangles n y τ stat req rest r _ hslot => exact .inl (read hslot hσ' hm rfl)
  | hearsOp n y τ stat req rest r _ hslot => exact .inl (read hslot hσ' hm rfl)
  | leavesOp n req =>
    refine .inl (old ?_)
    simp only [Sys.reply, Sys.log, Sys.setCoord]
    split_ifs <;> rfl
  | sendsPrepare n todo msg y τ stat hpc hslot =>
    obtain ⟨-, ⟨st, L, rfl⟩, -⟩ := ht.preparing _ _ hpc
    exact send τ hslot hσ' hm rfl fun _ => .prepare st L
  | collects n msg y τ rest r _ hslot => cases r <;> exact .inl (read hslot hσ' hm rfl)
  | drops n y τ _ hslot => exact .inl (read hslot hσ' hm rfl)
  | ends => exact .inl (close hσ')
  | kills | killsCollecting => exact .inl (close (t := s.reply c _ _) hσ')
  | killsReading n y τ stat req rest r res hpc hslot hcl =>
    obtain ⟨ρ, hρ, hm⟩ := close (t := (s.read y τ rest).reply c _ _) hσ'
    exact .inl (read hslot hρ hm rfl)
  | killsBegun n y τ stat req rest r res hpc hslot hcl =>
    obtain ⟨ρ, hρ, hm⟩ := close (t := ((s.setCoord c ((s.coord c).setSlot n
      { fd := some y, stat := .hasBegin })).read y τ rest).reply c _ _) hσ'
    exact .inl (read hslot hρ hm rfl)

theorem Sys.Requests.slot_of_begin (h : s.Requests c x m) (hm : m.requestType = .begin)
    (hσ : s.sess x = some σ) :
    (s.coord c).pc = .top ∧ (s.coord c).gone = false ∧ ∃ k, s.Slot c k .init x σ := by
  cases h with
  | begin htop hgone _ hslot => exact ⟨htop, hgone, hslot σ hσ⟩
  | op _ _ _ _ _ _ hop => exact absurd hm hop.1
  | first _ _ _ _ _ _ _ hop => exact absurd hm hop.1
  | prepare => simp [prepareReq] at hm

end Requests

end Tpc
