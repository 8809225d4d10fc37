import Mathlib.Logic.Equiv.Basic
import Tpc.Runs

/-! Client sessions are told apart by their identity only: if they play each other's parts, with
their requests exchanged as well, they get each other's replies, and the storage nodes and the
connections do not notice. The two runs may start from histories of their own, since no process
reads the history. -/

namespace Tpc
open Durable

namespace Event

def rename (e : Equiv.Perm CoordId) : Event → Event
  | .begun c T => .begun (e c) T
  | .prepare c T st hosts => .prepare (e c) T st hosts
  | .answered c T h result => .answered (e c) T h result
  | .replied c type T res => .replied (e c) type T res
  | .early c => .early (e c)
  | .locked h key T => .locked h key T
  | .wrote h key T type value => .wrote h key T type value
  | .read h T key forUpdate ts res => .read h T key forUpdate ts res

theorem rename_of {h : Host} {ev : Event} (hev : ev.Of h) (e : Equiv.Perm CoordId) :
    ev.rename e = ev := by
  cases ev <;> first | rfl | exact absurd hev id

end Event

def renameEntry (e : Equiv.Perm CoordId) :
    Entry Proc Timeval Event → Entry Proc Timeval Event
  | .note ev => .note (ev.rename e)
  | .clock p tv => .clock p tv
  | .dbError p => .dbError p
  | .crash p => .crash p

def Label.rename (e : Equiv.Perm CoordId) : Label → Label
  | .request c req tv x ok reused => .request (e c) req tv x ok reused
  | .beginAnswer c ok => .beginAnswer (e c) ok
  | .opAnswer c => .opAnswer (e c)
  | .clientEvent c => .clientEvent (e c)
  | .sendPrepare c ok => .sendPrepare (e c) ok
  | .collect c h => .collect (e c) h
  | .collected c => .collected (e c)
  | .storageEvent c h => .storageEvent (e c) h
  | .clientGone c => .clientGone (e c)
  | .die c => .die (e c)
  | ℓ => ℓ

def Session.bare (σ : Session) : Session := { σ with owner := ⟨0, 0⟩ }

/-- In `t` the client session `e c` stands where `c` stands in `s`, and since the histories `l`
and `m` the same has happened for it. -/
structure Twin (e : Equiv.Perm CoordId) (l m : Hist) (s t : Sys) : Prop where
  node : t.node = s.node
  sess : ∀ x, (t.sess x).map Session.bare = (s.sess x).map Session.bare
  coord : ∀ c, t.coord (e c) = s.coord c
  hist : ∃ new, s.hist = new ++ l ∧ t.hist = new.map (renameEntry e) ++ m

namespace Twin

variable {e : Equiv.Perm CoordId} {l m : Hist} {s t : Sys}

theorem bare_eq {σ τ : Session} (h : τ.bare = σ.bare) : τ = { σ with owner := τ.owner } := by
  obtain ⟨⟩ := σ
  obtain ⟨⟩ := τ
  simp only [Session.bare, Session.mk.injEq] at h ⊢
  simp [h]

theorem sess_none (h : Twin e l m s t) {x : Nat} (hx : s.sess x = none) : t.sess x = none := by
  have hb := h.sess x
  rw [hx] at hb
  exact Option.map_eq_none_iff.mp hb

theorem sess_some (h : Twin e l m s t) {x : Nat} {σ : Session} (hx : s.sess x = some σ) :
    ∃ c, t.sess x = some { σ with owner := c } := by
  have hb := h.sess x
  rw [hx] at hb
  obtain ⟨τ, hτ, hbare⟩ := Option.map_eq_some_iff.mp hb
  exact ⟨τ.owner, by rw [hτ, ← bare_eq hbare]⟩

theorem idle (h : Twin e l m s t) (n : Host) : t.idle n = s.idle n := by rw [Sys.idle, h.node, Sys.idle]

theorem setNode (h : Twin e l m s t) (n : Host) (nd : Node) :
    Twin e l m (s.setNode n nd) (t.setNode n nd) where
  node := by rw [Sys.setNode, Sys.setNode, h.node]
  sess := h.sess
  coord := h.coord
  hist := h.hist

theorem setSess (h : Twin e l m s t) (x : Nat) {σ τ : Session} (hb : τ.bare = σ.bare) :
    Twin e l m (s.setSess x σ) (t.setSess x τ) where
  node := h.node
  sess y := by
    by_cases hy : y = x
    · subst hy
      simp [Sys.setSess, hb]
    · simpa [Sys.setSess, hy] using h.sess y
  coord := h.coord
  hist := h.hist

theorem setCoord (h : Twin e l m s t) (c : CoordId) (co : Coord) :
    Twin e l m (s.setCoord c co) (t.setCoord (e c) co) where
  node := h.node
  sess := h.sess
  coord d := by
    by_cases hd : d = c
    · subst hd
      simp [Sys.setCoord]
    · simpa [Sys.setCoord, Function.update_apply, hd] using h.coord d
  hist := h.hist

theorem log (h : Twin e l m s t) (en : Entry Proc Timeval Event) :
    Twin e l m (s.log en) (t.log (renameEntry e en)) where
  node := h.node
  sess := h.sess
  coord := h.coord
  hist := by
    obtain ⟨new, hs, ht⟩ := h.hist
    exact ⟨en :: new, by rw [Sys.log, hs]; rfl, by rw [Sys.log, ht]; rfl⟩

theorem mapSess (h : Twin e l m s t) (f g : Nat → Session → Session)
    (hfg : ∀ x σ τ, τ.bare = σ.bare → (g x τ).bare = (f x σ).bare) :
    Twin e l m { s with sess := fun x => (s.sess x).map (f x) }
      { t with sess := fun x => (t.sess x).map (g x) } where
  node := h.node
  sess x := by
    change ((t.sess x).map (g x)).map _ = ((s.sess x).map (f x)).map _
    cases hs : s.sess x with
    | none => rw [h.sess_none hs]; rfl
    | some σ =>
      obtain ⟨c, ht⟩ := h.sess_some hs
      rw [ht]
      exact congrArg some (hfg x σ { σ with owner := c } rfl)
  coord := h.coord
  hist := h.hist

theorem lose (h : Twin e l m s t) (n : Host) : Twin e l m (s.lose n) (t.lose n) := by
  have hn := h.setNode n { store := (s.node n).store, up := false }
  rw [Sys.lose, Sys.lose, h.node]
  refine hn.mapSess _ _ fun x σ τ hb => ?_
  rw [bare_eq hb]
  by_cases hσ : σ.host = n
  · simp [hσ, Session.stop, Session.bare]
  · simp [hσ, Session.bare]

theorem closeAll (h : Twin e l m s t) (c : CoordId) :
    Twin e l m (s.closeAll c) (t.closeAll (e c)) := by
  rw [Sys.closeAll, Sys.closeAll, h.coord]
  refine h.mapSess _ _ fun x σ τ hb => ?_
  rw [bare_eq hb]
  split_ifs <;> rfl

theorem renameEntry_by {n : Host} {en : Entry Proc Timeval Event}
    (hen : en.By (.storage n) (Event.Of n)) (e : Equiv.Perm CoordId) : renameEntry e en = en := by
  cases en with
  | note ev => rw [renameEntry, ev.rename_of hen]
  | _ => rfl

theorem exec {α : Type} (h : Twin e l m s t) {n : Host} {env : Env} {p : Db α}
    {k k' : α → Sys → Sys} (hp : p.Tells (Event.Of n))
    (hk : ∀ a s t, Twin e l m s t → Twin e l m (k a s) (k' a t)) :
    Option.Rel (Twin e l m) (s.exec n env p k) (t.exec n env p k') := by
  obtain ⟨o, st, new, hnew, hrun⟩ := Prog.blind hp env.fates env.clocks (s.node n).store
  have hs : p.run (.storage n) env.fates env.clocks (s.world n) = (o, ⟨st, new ++ s.hist⟩) :=
    hrun s.hist
  have ht : p.run (.storage n) env.fates env.clocks (t.world n) = (o, ⟨st, new ++ t.hist⟩) := by
    rw [Sys.world, h.node]
    exact hrun t.hist
  have hw : Twin e l m (s.setWorld n ⟨st, new ++ s.hist⟩) (t.setWorld n ⟨st, new ++ t.hist⟩) := by
    have hn := h.setNode n { s.node n with store := st }
    obtain ⟨old, hs, ht⟩ := h.hist
    refine ⟨?_, hn.sess, hn.coord, new ++ old, ?_, ?_⟩
    · rw [Sys.setWorld, Sys.setWorld, h.node]
      exact hn.node
    · rw [hs, List.append_assoc]
      rfl
    · rw [ht, List.map_append, List.map_congr_left fun en hen => renameEntry_by (hnew en hen) e,
        List.map_id', List.append_assoc]
      rfl
  rw [Sys.exec, Sys.exec, h.node, hs, ht]
  by_cases hup : (s.node n).up
  · rw [if_pos hup, if_pos hup]
    cases o with
    | done a => exact .some (hk a _ _ hw)
    | died => exact .some (hw.lose n)
    | running => exact .none
  · rw [if_neg hup, if_neg hup]
    exact .none

theorem after_bare (σ : Session) (c : CoordId) (seg : Seg) :
    ({ σ with owner := c }.after seg).bare = (σ.after seg).bare := by
  cases hseg : seg.next with
  | response m =>
    simp only [Session.after, hseg, Session.answer]
    split_ifs <;> rfl
  | _ => simp only [Session.after, hseg, Session.bare]

theorem serve (h : Twin e l m s t) (x : Nat) (σ : Session) (c : CoordId) (env : Env) {p : Db Seg}
    (hp : p.Tells (Event.Of σ.host)) :
    Option.Rel (Twin e l m) (s.serve x σ env p) (t.serve x { σ with owner := c } env p) := by
  refine h.exec hp fun seg s t h => ?_
  rw [h.node]
  exact (h.setNode _ _).setSess x (after_bare σ c seg)

theorem runTask (h : Twin e l m s t) (n : Host) (i : Nat) (env : Env) {p : Db TaskState}
    (hp : p.Tells (Event.Of n)) :
    Option.Rel (Twin e l m) (s.runTask n i env p) (t.runTask n i env p) := by
  refine h.exec hp fun ts s t h => ?_
  rw [h.node]
  exact h.setNode _ _

theorem reply (h : Twin e l m s t) (c : CoordId) (type : RequestType) (res : CliRes) :
    Twin e l m (s.reply c type res) (t.reply (e c) type res) := by
  rw [Sys.reply, Sys.reply, h.coord]
  exact h.log _

theorem endSession (h : Twin e l m s t) (c : CoordId) :
    Twin e l m (s.endSession c) (t.endSession (e c)) := by
  rw [Sys.endSession, Sys.endSession, h.coord]
  exact (h.closeAll c).setCoord c _

theorem kill (h : Twin e l m s t) (c : CoordId) (type : RequestType) (res : CliRes) :
    Twin e l m (s.kill c type res) (t.kill (e c) type res) := (h.reply c type _).endSession c

theorem send_bare (σ : Session) (c : CoordId) (req : RpcReq) :
    ({ σ with owner := c }.send req).bare = (σ.send req).bare := by
  simp only [Session.send]
  split_ifs <;> rfl

theorem withFd (h : Twin e l m s t) (c : CoordId) (req : CliReq) (n : Host) (x : Nat) (σ : Session)
    (d : CoordId) (ok : Bool) :
    Twin e l m (s.withFd c req n x σ ok) (t.withFd (e c) req n x { σ with owner := d } ok) := by
  unfold Sys.withFd
  rw [h.coord]
  have hsend (r : RpcReq) (pc : CoordPc) :
      Twin e l m ((s.setSess x (σ.send r)).setCoord c { s.coord c with pc := pc })
        ((t.setSess x ({ σ with owner := d }.send r)).setCoord (e c) { s.coord c with pc := pc }) :=
    (h.setSess x (send_bare σ d r)).setCoord c _
  cases ((s.coord c).storageCl n).stat with
  | hasBegin =>
    cases ok with
    | true =>
      rw [Sys.sendOp, Sys.sendOp, h.coord]
      exact hsend _ _
    | false => exact h.kill c _ _
  | init =>
    cases ok with
    | true =>
      rw [Sys.sendBegin, Sys.sendBegin, h.coord]
      exact hsend _ _
    | false => exact h.kill c _ _

theorem operation (h : Twin e l m s t) (cfg : Config) (c : CoordId) (req : CliReq) (x : Nat)
    (ok : Bool) :
    Option.Rel (Twin e l m) (s.operation cfg c req x ok) (t.operation cfg (e c) req x ok) := by
  unfold Sys.operation
  cases cfg.hostOf req.key with
  | none => exact .none
  | some n =>
    simp only [h.coord, h.node]
    cases ((s.coord c).storageCl n).fd with
    | some y =>
      simp only
      cases hσ : s.sess y with
      | none =>
        rw [h.sess_none hσ]
        exact .none
      | some σ =>
        obtain ⟨d, hτ⟩ := h.sess_some hσ
        rw [hτ]
        exact .some (h.withFd c req n y σ d ok)
    | none =>
      have hfree : t.sess x = none ↔ s.sess x = none := by
        rw [← Option.map_eq_none_iff, h.sess x, Option.map_eq_none_iff]
      simp only [hfree]
      split_ifs
      · have hx : Twin e l m (s.setSess x { host := n, owner := c })
            (t.setSess x { host := n, owner := e c }) := h.setSess x rfl
        exact .some ((hx.setCoord c _).withFd c req n x { host := n, owner := c } (e c) true)
      · exact .none
      · exact .some (h.kill c _ _)

theorem clientRequest (h : Twin e l m s t) (hserv : ∀ c, (e c).serv = c.serv) (cfg : Config)
    (c : CoordId) (req : CliReq) (tv : Timeval) (x : Nat) (ok reused : Bool) :
    Option.Rel (Twin e l m) (s.clientRequest cfg c req tv x ok reused)
      (t.clientRequest cfg (e c) req tv x ok reused) := by
  unfold Sys.clientRequest
  simp only [h.coord, hserv]
  have hclock : Twin e l m (s.log (.clock (.logic c.serv) tv)) (t.log (.clock (.logic c.serv) tv)) :=
    h.log _
  cases req.requestType with
  | begin =>
    simp only
    split_ifs
    · exact .some (h.reply c _ _)
    · exact .some (((hclock.log _).setCoord c _).reply c _ _)
  | commit =>
    simp only
    split_ifs
    · exact .some (h.reply c _ _)
    · exact .some ((hclock.log _).setCoord c _)
  | rollback =>
    simp only
    split_ifs
    · exact .some (h.reply c _ _)
    · exact .some (((h.reply c _ _).closeAll c).setCoord c _)
    · exact .some (((h.reply c _ _).closeAll c).setCoord c _)
  | prepare => exact .some (h.reply c _ _)
  | get | update | delete | insert =>
    simp only
    split_ifs
    · exact .some (h.reply c _ _)
    · exact h.operation cfg c req x ok

variable (cfg : Config)

theorem step_recv (h : Twin e l m s t) (x : Nat) (env : Env) :
    Option.Rel (Twin e l m) (step cfg s (.recv x env)) (step cfg t (.recv x env)) := by
  simp only [step]
  cases hσ : s.sess x with
  | none =>
    rw [h.sess_none hσ]
    exact .none
  | some σ =>
    obtain ⟨c, hτ⟩ := h.sess_some hσ
    simp only [hτ, h.idle]
    split
    · exact h.serve x { σ with toServ := _ } c env (onMessage_tells _ _ _ _ _)
    · exact .none

theorem step_timeout (h : Twin e l m s t) (x : Nat) (env : Env) :
    Option.Rel (Twin e l m) (step cfg s (.timeout x env)) (step cfg t (.timeout x env)) := by
  simp only [step]
  cases hσ : s.sess x with
  | none =>
    rw [h.sess_none hσ]
    exact .none
  | some σ =>
    obtain ⟨c, hτ⟩ := h.sess_some hσ
    simp only [hτ]
    split_ifs
    · exact h.serve x σ c env (onTimeout_tells _ _ _ _)
    · exact .none

theorem step_event (h : Twin e l m s t) (x : Nat) :
    Option.Rel (Twin e l m) (step cfg s (.event x)) (step cfg t (.event x)) := by
  simp only [step]
  cases hσ : s.sess x with
  | none =>
    rw [h.sess_none hσ]
    exact .none
  | some σ =>
    obtain ⟨c, hτ⟩ := h.sess_some hσ
    simp only [hτ]
    split_ifs
    · cases onEvent σ.wait with
      | none => exact .none
      | some res =>
        refine .some (h.setSess x ?_)
        simp only [Session.answer]
        split_ifs <;> rfl
    · exact .none

theorem step_hangup (h : Twin e l m s t) (x : Nat) (env : Env) :
    Option.Rel (Twin e l m) (step cfg s (.hangup x env)) (step cfg t (.hangup x env)) := by
  simp only [step]
  cases hσ : s.sess x with
  | none =>
    rw [h.sess_none hσ]
    exact .none
  | some σ =>
    obtain ⟨c, hτ⟩ := h.sess_some hσ
    simp only [hτ, h.idle]
    split_ifs
    · refine h.exec (onClose_tells _ _ _) fun ts s t h => ?_
      rw [h.node]
      exact (h.setNode _ _).setSess x rfl
    · exact .none

theorem step_task (h : Twin e l m s t) (n : Host) (i : Nat) (env : Env) :
    Option.Rel (Twin e l m) (step cfg s (.taskSkip n i env)) (step cfg t (.taskSkip n i env)) ∧
      Option.Rel (Twin e l m) (step cfg s (.taskRecv n i env))
        (step cfg t (.taskRecv n i env)) := by
  simp only [step, h.node]
  cases (s.node n).task i with
  | polling p =>
    refine ⟨h.runTask n i env (pollNext_tells _ _), ?_⟩
    simp only
    cases p.reply with
    | some res => exact h.runTask n i env (onTransStateRes_tells _ _ _)
    | none => exact .none
  | _ => exact ⟨.none, .none⟩

theorem step_taskAsk (h : Twin e l m s t) (n peer : Host) (i : Nat) (env : Env) :
    Option.Rel (Twin e l m) (step cfg s (.taskAsk n peer i env))
      (step cfg t (.taskAsk n peer i env)) := by
  simp only [step, h.node, h.idle]
  cases (s.node n).task i with
  | polling p =>
    simp only
    split_ifs
    · refine h.exec (onMessage_tells _ _ _ _ _) fun seg s t h => ?_
      split
      · rw [h.node]
        exact h.setNode _ _
      · exact h
    · exact .none
  | _ => exact .none

theorem step_node (h : Twin e l m s t) (n : Host) (env : Env) :
    Option.Rel (Twin e l m) (step cfg s (.crash n)) (step cfg t (.crash n)) ∧
      Option.Rel (Twin e l m) (step cfg s (.startUp n env)) (step cfg t (.startUp n env)) := by
  simp only [step, h.node]
  constructor
  · split_ifs
    · exact .some ((h.log _).lose n)
    · exact .none
  · split_ifs
    · exact .none
    · refine (h.setNode n _).exec (startUpClean_tells _ _) fun ts s t h => ?_
      rw [h.node]
      exact h.setNode _ _

theorem step_cut (h : Twin e l m s t) (x a b : Nat) :
    Option.Rel (Twin e l m) (step cfg s (.cut x a b)) (step cfg t (.cut x a b)) := by
  simp only [step]
  cases hσ : s.sess x with
  | none =>
    rw [h.sess_none hσ]
    exact .none
  | some σ =>
    obtain ⟨c, hτ⟩ := h.sess_some hσ
    rw [hτ]
    exact .some (h.setSess x rfl)

theorem step_request (h : Twin e l m s t) (hserv : ∀ c, (e c).serv = c.serv) (c : CoordId)
    (req : CliReq) (tv : Timeval) (x : Nat) (ok reused : Bool) :
    Option.Rel (Twin e l m) (step cfg s (.request c req tv x ok reused))
      (step cfg t (.request (e c) req tv x ok reused)) := by
  simp only [step, h.coord]
  cases (s.coord c).pc with
  | top =>
    simp only
    split_ifs
    · exact .none
    · exact h.clientRequest hserv cfg c req tv x ok reused
  | _ => exact .none

theorem step_beginAnswer (h : Twin e l m s t) (c : CoordId) (ok : Bool) :
    Option.Rel (Twin e l m) (step cfg s (.beginAnswer c ok))
      (step cfg t (.beginAnswer (e c) ok)) := by
  simp only [step, h.coord]
  cases (s.coord c).pc with
  | beginSent n req =>
    simp only
    cases ((s.coord c).storageCl n).fd with
    | none => exact .none
    | some x =>
      simp only
      cases hσ : s.sess x with
      | none =>
        rw [h.sess_none hσ]
        exact .none
      | some σ =>
        obtain ⟨d, hτ⟩ := h.sess_some hσ
        simp only [hτ]
        have hread (rest : List ResMsg) : Twin e l m (s.setSess x { σ with toCl := rest })
            (t.setSess x { σ with owner := d, toCl := rest }) := h.setSess x rfl
        split
        · rename_i res rest _
          have hbegun := h.setCoord c ((s.coord c).setSlot n { fd := some x, stat := .hasBegin })
          split_ifs
          · exact .some ((hread rest).kill c _ _)
          · refine .some ?_
            rw [Sys.sendOp, Sys.sendOp, hbegun.coord]
            exact (hbegun.setSess x (send_bare { σ with toCl := rest } d _)).setCoord c _
          · refine .some (Twin.kill ?_ c _ _)
            exact hbegun.setSess x rfl
        · exact .some ((hread _).setCoord c _)
        · split_ifs
          · exact .some (h.kill c _ _)
          · exact .none
  | _ => exact .none

theorem step_opAnswer (h : Twin e l m s t) (c : CoordId) :
    Option.Rel (Twin e l m) (step cfg s (.opAnswer c)) (step cfg t (.opAnswer (e c))) := by
  simp only [step, h.coord]
  cases (s.coord c).pc with
  | opSent n req =>
    simp only
    cases ((s.coord c).storageCl n).fd with
    | none => exact .none
    | some x =>
      simp only
      cases hσ : s.sess x with
      | none =>
        rw [h.sess_none hσ]
        exact .none
      | some σ =>
        obtain ⟨d, hτ⟩ := h.sess_some hσ
        simp only [hτ]
        split
        · refine .some ((Twin.setCoord ?_ c _).reply c _ _)
          exact h.setSess x rfl
        · split_ifs
          · exact .some (h.kill c _ _)
          · exact .none
  | _ => exact .none

theorem step_clientEvent (h : Twin e l m s t) (c : CoordId) :
    Option.Rel (Twin e l m) (step cfg s (.clientEvent c)) (step cfg t (.clientEvent (e c))) := by
  simp only [step, h.coord]
  cases (s.coord c).pc with
  | opSent n req =>
    refine .some ((Twin.setCoord ?_ c _).reply c _ _)
    split_ifs
    · exact h
    · exact h.log _
  | _ => exact .none

theorem step_sendPrepare (h : Twin e l m s t) (c : CoordId) (ok : Bool) :
    Option.Rel (Twin e l m) (step cfg s (.sendPrepare c ok))
      (step cfg t (.sendPrepare (e c) ok)) := by
  simp only [step, h.coord]
  split
  · rename_i n todo msg _
    cases ((s.coord c).storageCl n).fd with
    | none => exact .none
    | some x =>
      simp only
      cases hσ : s.sess x with
      | none =>
        rw [h.sess_none hσ]
        exact .none
      | some σ =>
        obtain ⟨d, hτ⟩ := h.sess_some hσ
        simp only [hτ]
        split_ifs
        · exact .some ((h.setSess x (send_bare σ d msg)).setCoord c _)
        · exact .some (h.kill c _ _)
  · exact .none

theorem step_collect (h : Twin e l m s t) (c : CoordId) (n : Host) :
    Option.Rel (Twin e l m) (step cfg s (.collect c n)) (step cfg t (.collect (e c) n)) := by
  simp only [step, h.coord]
  split
  · cases ((s.coord c).storageCl n).fd with
    | none => exact .none
    | some x =>
      simp only
      cases hσ : s.sess x with
      | none =>
        rw [h.sess_none hσ]
        exact .none
      | some σ =>
        obtain ⟨d, hτ⟩ := h.sess_some hσ
        simp only [hτ]
        cases ((s.coord c).storageCl n).stat with
        | init =>
          simp only
          split_ifs
          · refine .some (Twin.setCoord ?_ c _)
            exact h.setSess x rfl
          · exact .none
        | hasBegin =>
          simp only
          split
          · rename_i m rest _
            refine .some (Twin.setCoord ?_ c _)
            cases m with
            | rpcResponse res => exact (h.log _).setSess x rfl
            | transStateResponse res => exact h.setSess x rfl
          · split_ifs
            · exact .some (h.kill c _ _)
            · exact .none
  · exact .none

theorem step_collected (h : Twin e l m s t) (c : CoordId) :
    Option.Rel (Twin e l m) (step cfg s (.collected c)) (step cfg t (.collected (e c))) := by
  simp only [step, h.coord]
  split
  · split_ifs
    · exact .some ((h.reply c _ _).setCoord c _)
    · exact .none
  · exact .none

theorem step_storageEvent (h : Twin e l m s t) (c : CoordId) (n : Host) :
    Option.Rel (Twin e l m) (step cfg s (.storageEvent c n))
      (step cfg t (.storageEvent (e c) n)) := by
  simp only [step, h.coord]
  cases (s.coord c).pc with
  | top =>
    simp only
    cases ((s.coord c).storageCl n).fd with
    | none => exact .none
    | some x =>
      simp only
      cases hσ : s.sess x with
      | none =>
        rw [h.sess_none hσ]
        exact .none
      | some σ =>
        obtain ⟨d, hτ⟩ := h.sess_some hσ
        simp only [hτ]
        split_ifs
        · cases ((s.coord c).storageCl n).stat with
          | init =>
            refine .some (Twin.setCoord ?_ c _)
            exact h.setSess x rfl
          | hasBegin => exact .some (h.endSession c)
        · exact .none
  | _ => exact .none

/-- Every step of the one is a step of the other, with the client sessions renamed. -/
protected theorem step (h : Twin e l m s t) (hserv : ∀ c, (e c).serv = c.serv) (ℓ : Label) :
    Option.Rel (Twin e l m) (step cfg s ℓ) (step cfg t (ℓ.rename e)) := by
  cases ℓ with
  | recv x env => exact h.step_recv cfg x env
  | timeout x env => exact h.step_timeout cfg x env
  | event x => exact h.step_event cfg x
  | hangup x env => exact h.step_hangup cfg x env
  | taskSkip n i env => exact (h.step_task cfg n i env).1
  | taskAsk n peer i env => exact h.step_taskAsk cfg n peer i env
  | taskRecv n i env => exact (h.step_task cfg n i env).2
  | crash n => exact (h.step_node cfg n {}).1
  | startUp n env => exact (h.step_node cfg n env).2
  | cut x a b => exact h.step_cut cfg x a b
  | request c req tv x ok reused => exact h.step_request cfg hserv c req tv x ok reused
  | beginAnswer c ok => exact h.step_beginAnswer cfg c ok
  | opAnswer c => exact h.step_opAnswer cfg c
  | clientEvent c => exact h.step_clientEvent cfg c
  | sendPrepare c ok => exact h.step_sendPrepare cfg c ok
  | collect c n => exact h.step_collect cfg c n
  | collected c => exact h.step_collected cfg c
  | storageEvent c n => exact h.step_storageEvent cfg c n
  | clientGone c =>
    simp only [step, Label.rename, h.coord]
    exact .some (h.setCoord c _)
  | die c =>
    simp only [step, Label.rename, h.coord]
    split_ifs
    · exact .none
    · exact .some (h.endSession c)

theorem steps_cons (s : Sys) (ℓ : Label) (ls : List Label) :
    steps cfg anyStep s (ℓ :: ls) = (Tpc.step cfg s ℓ).bind fun s => steps cfg anyStep s ls :=
  if_pos trivial

protected theorem steps (h : Twin e l m s t) (hserv : ∀ c, (e c).serv = c.serv) (ls : List Label) :
    Option.Rel (Twin e l m) (steps cfg anyStep s ls)
      (steps cfg anyStep t (ls.map (Label.rename e))) := by
  induction ls generalizing s t with
  | nil => exact .some h
  | cons ℓ ls ih =>
    rw [List.map_cons, steps_cons, steps_cons]
    have hstep := h.step cfg hserv ℓ
    generalize Tpc.step cfg s ℓ = o, Tpc.step cfg t (ℓ.rename e) = o' at hstep
    cases hstep with
    | some h => exact ih h
    | none => exact .none

end Twin

/-- Two sessions of one process that are in the same state are interchangeable from there on. -/
theorem twin_swap {s : Sys} {c d : CoordId} (hcd : s.coord c = s.coord d) :
    Twin (.swap c d) s.hist s.hist s s where
  node := rfl
  sess _ := rfl
  coord b := by
    rw [Equiv.swap_apply_def]
    split_ifs with hc hd
    · rw [hc, hcd]
    · rw [hd, hcd]
    · rfl
  hist := ⟨[], rfl, rfl⟩

theorem swap_serv {c d : CoordId} (hserv : d.serv = c.serv) (b : CoordId) :
    (Equiv.swap c d b).serv = b.serv := by
  rw [Equiv.swap_apply_def]
  split_ifs with hc hd
  · rw [hserv, hc]
  · rw [hd, hserv]
  · rfl

end Tpc
