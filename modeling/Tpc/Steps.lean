import Tpc.Access
import Tpc.Runs

/-! What one step of the system can do, once and for all: `NodeStep` for the storage nodes and their
connections, `CoordStep` for the client sessions. Every invariant is a case analysis over them. -/

namespace Tpc
open Durable

variable {A : Hist → Prop}

section Parts

@[simp] theorem resume_store (n : Node) (t : TaskState) : (n.resume t).store = n.store := by
  unfold Node.resume
  split
  · rfl
  · split <;> rfl

@[simp] theorem resume_up (n : Node) (t : TaskState) : (n.resume t).up = n.up := by
  unfold Node.resume
  split
  · rfl
  · split <;> rfl

@[simp] theorem setTask_store (n : Node) (i : Nat) (t : TaskState) :
    (n.setTask i t).store = n.store := by
  cases t <;> rfl

@[simp] theorem setTask_up (n : Node) (i : Nat) (t : TaskState) : (n.setTask i t).up = n.up := by
  cases t <;> rfl

@[simp] theorem foldl_resume_store (ts : List TaskState) (n : Node) :
    (ts.foldl Node.resume n).store = n.store := by
  induction ts generalizing n with
  | nil => rfl
  | cons t ts ih => rw [List.foldl_cons, ih, resume_store]

variable (σ : Session) (m : ResMsg) (seg : Seg)

@[simp] theorem answer_host : (σ.answer m).host = σ.host := by unfold Session.answer; split <;> rfl

@[simp] theorem answer_owner : (σ.answer m).owner = σ.owner := by unfold Session.answer; split <;> rfl

@[simp] theorem answer_live : (σ.answer m).live = σ.live := by unfold Session.answer; split <;> rfl

@[simp] theorem answer_vars : (σ.answer m).vars = σ.vars := by unfold Session.answer; split <;> rfl

@[simp] theorem answer_wait : (σ.answer m).wait = σ.wait := by unfold Session.answer; split <;> rfl

@[simp] theorem answer_toServ : (σ.answer m).toServ = σ.toServ := by
  unfold Session.answer; split <;> rfl

@[simp] theorem send_host (m : RpcReq) : (σ.send m).host = σ.host := by
  unfold Session.send; split <;> rfl

@[simp] theorem send_owner (m : RpcReq) : (σ.send m).owner = σ.owner := by
  unfold Session.send; split <;> rfl

@[simp] theorem send_live (m : RpcReq) : (σ.send m).live = σ.live := by
  unfold Session.send; split <;> rfl

@[simp] theorem send_vars (m : RpcReq) : (σ.send m).vars = σ.vars := by
  unfold Session.send; split <;> rfl

@[simp] theorem send_wait (m : RpcReq) : (σ.send m).wait = σ.wait := by
  unfold Session.send; split <;> rfl

@[simp] theorem send_toCl (m : RpcReq) : (σ.send m).toCl = σ.toCl := by
  unfold Session.send; split <;> rfl

@[simp] theorem after_host : (σ.after seg).host = σ.host := by unfold Session.after; split <;> simp

@[simp] theorem after_owner : (σ.after seg).owner = σ.owner := by unfold Session.after; split <;> simp

@[simp] theorem after_live : (σ.after seg).live = σ.live := by unfold Session.after; split <;> simp

@[simp] theorem after_vars : (σ.after seg).vars = seg.vars := by unfold Session.after; split <;> simp

@[simp] theorem after_toServ : (σ.after seg).toServ = σ.toServ := by
  unfold Session.after; split <;> simp

def Wait.req? : Wait → Option RpcReq
  | .idle => none
  | .lock req _ => some req
  | .read req _ => some req

theorem after_wait {w : Wait} (h : (σ.after seg).wait = w) : w = .idle ∨ seg.next = .wait w := by
  unfold Session.after at h
  split at h
  · exact .inl (by simpa using h.symm)
  · rename_i hw
    exact .inr (hw.trans (congrArg _ h))
  · exact .inl (by simpa using h.symm)

variable (s : Sys) (h : Host) (w : DbWorld)

theorem setWorld_node (n : Host) :
    (s.setWorld h w).node n = if n = h then { s.node h with store := w.store } else s.node n := by
  simp only [Sys.setWorld, Sys.setNode, Function.update_apply]

theorem setNode_node (n : Host) (nd : Node) :
    (s.setNode h nd).node n = if n = h then nd else s.node n := by
  simp only [Sys.setNode, Function.update_apply]

end Parts

/-- What a segment on `self` leaves alone: it makes notes with `N` and writes keys with `D`. -/
structure Ran (h : Host) (N : Event → Prop) (D : String → Prop) (w w' : DbWorld) : Prop where
  grown : Grown (.storage h) N w.hist w'.hist
  frame : ∀ k, ¬ D k → w'.store.lookup k = w.store.lookup k

theorem wp_ran {α : Type} {self : Host} {N : Event → Prop} {D : String → Prop} {S : α → Prop}
    {p : Db α} {w : DbWorld} (ht : p.Tells N) (ho : p.Only D S) :
    p.wp (.storage self) A (fun a w' => S a ∧ Ran self N D w w') (fun w' => Ran self N D w w') w :=
  Prog.wp_mono (fun _ _ h => ⟨h.2.1, h.1, h.2.2⟩) (fun _ h => ⟨h.1, h.2⟩)
    (Prog.wp_and (Prog.wp_grown ht (.refl _ _ _)) (Prog.wp_only ho fun _ _ => rfl))

inductive AccessEnd (A : Hist → Prop) (fates : List Fate) (self : Host) (fuel : Nat) (v : Vars)
    (req : RpcReq) (res : RpcRes) (w : DbWorld) : Seg → DbWorld → Prop
  | reads {seg : Seg} {w' : DbWorld} : req.requestType = .get → req.getForUpdate = 0 →
      ReadEnd A (.storage self) self fuel v req res w seg w' →
      AccessEnd A fates self fuel v req res w seg w'
  | gets {seg : Seg} {w' : DbWorld} : req.requestType = .get → req.getForUpdate ≠ 0 →
      GetEnd A (LockBy fates req.key v.beginTs) (.storage self) self fuel v req res w seg w' →
      AccessEnd A fates self fuel v req res w seg w'
  | writes {seg : Seg} {w' : DbWorld} : req.requestType ≠ .get →
      WriteEnd A (LockBy fates req.key v.beginTs) (.storage self) self v req res w seg w' →
      AccessEnd A fates self fuel v req res w seg w'

abbrev AccessDies (fates : List Fate) (self : Host) (v : Vars) (req : RpcReq) :
    DbWorld → DbWorld → Prop :=
  AccessLost (LockBy fates req.key v.beginTs) (.storage self) self req.key v.beginTs

theorem readSeg_wait {v : Vars} {req : RpcReq} {res : RpcRes} {r : ReadRes} {wt : Wait}
    (h : (readSeg v req res r).next = .wait wt) : wt.req? = some req := by
  rcases readSeg_next v req res r with ⟨res', hn⟩ | ⟨res', hn, -⟩
  · simp [hn] at h
  · obtain rfl : Wait.read req res' = wt := by simpa [hn] using h
    rfl

theorem AccessEnd.wait {A : Hist → Prop} {fates : List Fate} {self : Host} {fuel : Nat} {v : Vars}
    {req : RpcReq} {res : RpcRes} {w w' : DbWorld} {seg : Seg} {wt : Wait}
    (h : AccessEnd A fates self fuel v req res w seg w') (hn : seg.next = .wait wt) :
    wt.req? = some req := by
  cases h with
  | reads _ _ hr =>
    obtain ⟨-, l, ts, m, r, -, -, -, -, rfl⟩ := hr
    exact readSeg_wait hn
  | gets _ _ hg =>
    cases hg with
    | waits => obtain rfl : Wait.lock req res = wt := by simpa using hn
               rfl
    | reads _ _ _ _ hr =>
      obtain ⟨-, l, ts, m, r, -, -, -, -, rfl⟩ := hr
      exact readSeg_wait hn
  | writes _ hw =>
    cases hw with
    | waits => obtain rfl : Wait.lock req res = wt := by simpa using hn
               rfl
    | fails => simp at hn
    | writes => simp at hn

def RpcReq.Accesses (req : RpcReq) : Prop := req.requestType ∈ [.get, .insert, .update, .delete]

inductive OpEnd (A : Hist → Prop) (fates : List Fate) (self : Host) (fuel : Nat) (v : Vars)
    (req : RpcReq) (w : DbWorld) : Seg → DbWorld → Prop
  | answers (res : RpcRes) :
      OpEnd A fates self fuel v req w { vars := v, next := .response (.rpcResponse res) } w
  | accesses (res : RpcRes) {seg : Seg} {w' : DbWorld} : v.beginTs ≠ "" → req.Accesses →
      AccessEnd A fates self fuel v req res w seg w' → OpEnd A fates self fuel v req w seg w'

inductive Handled (A : Hist → Prop) (fates : List Fate) (self : Host) (idle fuel : Nat) (v : Vars)
    (req : RpcReq) (w : DbWorld) (seg : Seg) (w' : DbWorld) : Prop
  | begin : req.requestType = .begin → BeginEnd A v req w.store seg w'.store →
      Ran self (Event.Of self) TransKey w w' → Handled A fates self idle fuel v req w seg w'
  | prepare : req.requestType = .prepare →
      PrepareEnd (MayFail A ∧ writeFails fates = true) self w.hist w'.hist idle v req w.store seg
        w'.store →
      Ran self (Event.Of self) TransKey w w' → Handled A fates self idle fuel v req w seg w'
  | op : req.IsOp → OpEnd A fates self fuel v req w seg w' → seg.Keeps v →
      Ran self (Event.Of self) (fun k => ¬ TransKey k) w w' →
      Handled A fates self idle fuel v req w seg w'

inductive HandlerDies (fates : List Fate) (self : Host) (v : Vars) (req : RpcReq) (w w' : DbWorld) :
    Prop
  | same : w'.store = w.store → HandlerDies fates self v req w w'
  | prepare : req.requestType = .prepare →
      PrepareLost (cutShort fates = true) self w.hist w'.hist v req w.store w'.store →
      HandlerDies fates self v req w w'
  | op : req.IsOp → AccessDies fates self v req w w' →
      Ran self (Event.Of self) (fun k => ¬ TransKey k) w w' → HandlerDies fates self v req w w'

section Segments

variable {self : Host} {idle fuel : Nat} {v : Vars} {req : RpcReq} {res : RpcRes}
  {fates : List Fate} {clocks : List Timeval} {w : DbWorld} {o : Outcome Seg × DbWorld}

theorem serveGet_end (hA : Closed A) (hreq : req.requestType = .get)
    (ho : (serveGet self fuel v req res).run (.storage self) fates clocks w = o) (ha : A o.2.hist) :
    Outcome.Sat (AccessEnd A fates self fuel v req res w) (AccessDies fates self v req w) o := by
  by_cases hf : req.getForUpdate = 0
  · have he : serveGet self fuel v req res = readRound self fuel v req res := by
      simp only [serveGet, hf, ne_eq, not_true_eq_false, if_false]
    rw [he] at ho
    exact (readRound_sat hA ho ha).mono (fun _ _ h => .reads hreq hf h) fun _ h => .before h.1 h.2
  · exact (serveGet_sat hA hf ho ha).mono (fun _ _ h => .gets hreq hf h) fun _ h => h

theorem serveWrite_end (hA : Closed A) (hreq : req.requestType ≠ .get)
    (ho : (serveWrite self v req res).run (.storage self) fates clocks w = o) (ha : A o.2.hist) :
    Outcome.Sat (AccessEnd A fates self fuel v req res w) (AccessDies fates self v req w) o :=
  (serveWrite_sat hA ho ha).mono (fun _ _ h => .writes hreq h) fun _ h => h

theorem op_end (hA : Closed A) (hop : req.IsOp)
    (ho : (onMessage self idle fuel v (.rpcRequest req)).run (.storage self) fates clocks w = o)
    (ha : A o.2.hist) :
    Outcome.Sat (OpEnd A fates self fuel v req w) (AccessDies fates self v req w) o := by
  have answers : ∀ {res}, (respond v res).run (.storage self) fates clocks w = o →
      Outcome.Sat (OpEnd A fates self fuel v req w) (AccessDies fates self v req w) o := by
    rintro res rfl
    exact .answers res
  simp only [onMessage] at ho
  cases hr : req.requestType with
  | begin => exact absurd hr hop.1
  | prepare => exact absurd hr hop.2
  | rollback =>
    simp only [hr] at ho
    exact answers ho
  | commit =>
    simp only [hr] at ho
    split_ifs at ho <;> exact answers ho
  | get =>
    simp only [hr] at ho
    split_ifs at ho with hv
    · exact answers ho
    · have hacc : req.Accesses := by simp [RpcReq.Accesses, hr]
      exact (serveGet_end hA hr ho ha).mono (fun _ _ h => .accesses _ hv hacc h)
        fun _ h => h
  | insert | update | delete =>
    simp only [hr] at ho
    split_ifs at ho with hv
    · exact answers ho
    · have hacc : req.Accesses := by simp [RpcReq.Accesses, hr]
      exact (serveWrite_end hA (by simp [hr]) ho ha).mono (fun _ _ h => .accesses _ hv hacc h)
        fun _ h => h

theorem handled_of_run (hA : Closed A)
    (ho : (onMessage self idle fuel v (.rpcRequest req)).run (.storage self) fates clocks w = o)
    (ha : A o.2.hist) :
    Outcome.Sat (Handled A fates self idle fuel v req w) (HandlerDies fates self v req w) o := by
  have hD : ∀ T, TransKey (makeTrans T) := fun T => ⟨T, rfl⟩
  cases hr : req.requestType with
  | begin =>
    have he : onMessage self idle fuel v (.rpcRequest req) = serveBegin v req := by
      simp only [onMessage, hr]
    rw [he] at ho
    subst ho
    have hw : (serveBegin v req).wp (.storage self) A _ _ w := serveBegin_wp v req
    have hran : (serveBegin v req).wp (.storage self) A _ _ w :=
      wp_ran (N := Event.Of self) (serveBegin_tells v req) (serveBegin_only hD v req)
    exact (Prog.sat_of_wp hA (Prog.wp_and hw hran) ha).mono (fun _ _ h => .begin hr h.1 h.2.2)
      fun _ h => .same h.1
  | prepare =>
    have he : onMessage self idle fuel v (.rpcRequest req) = servePrepare self idle v req := by
      simp only [onMessage, hr]
    rw [he] at ho
    have hfates := @servePrepare_fates (.storage self) self idle v req fates clocks w
    rw [ho] at hfates
    subst ho
    have hw : (servePrepare self idle v req).wp (.storage self) A _ _ w :=
      servePrepare_wp self idle v req (List.suffix_refl _)
    have hran : (servePrepare self idle v req).wp (.storage self) A _ _ w :=
      wp_ran (N := Event.Of self) (servePrepare_tells self idle v req)
        (servePrepare_only hD self idle v req)
    have hsat := (Prog.sat_of_wp hA (Prog.wp_and hw hran) ha).and hfates
    exact hsat.mono (fun _ _ h => .prepare hr (h.1.1.and h.2) h.1.2.2) fun _ h => .prepare hr h.2
  | get | insert | update | delete | commit | rollback =>
    have hop : req.IsOp := by simp [RpcReq.IsOp, hr]
    have hran : (onMessage self idle fuel v (.rpcRequest req)).wp (.storage self) A _ _ w :=
      wp_ran (onMessage_tells self idle fuel v (.rpcRequest req)) (onMessage_only hop)
    have hsat := Prog.sat_of_wp hA hran (ho ▸ ha)
    rw [ho] at hsat
    exact ((op_end hA hop ho ha).and hsat).mono (fun _ _ h => .op hop h.1 h.2.1 h.2.2)
      fun _ h => .op hop h.1 h.2

end Segments

inductive TimedOut (A : Hist → Prop) (fates : List Fate) (self : Host) (fuel : Nat) (v : Vars)
    (w : DbWorld) : Wait → Seg → DbWorld → Prop
  | lock {req : RpcReq} {res : RpcRes} {seg : Seg} {w' : DbWorld} :
      AccessEnd A fates self fuel v req res w seg w' →
      TimedOut A fates self fuel v w (.lock req res) seg w'
  | read {req : RpcReq} {res : RpcRes} {seg : Seg} {w' : DbWorld} :
      ReadEnd A (.storage self) self fuel v req res w seg w' →
      TimedOut A fates self fuel v w (.read req res) seg w'

namespace Sys

def served (s : Sys) (x : Nat) (σ : Session) (seg : Seg) (w : DbWorld) : Sys :=
  let s := s.setWorld σ.host w
  (s.setNode σ.host ((s.node σ.host).resume (seg.task.getD .idle))).setSess x (σ.after seg)

def hungUp (s : Sys) (x : Nat) (σ : Session) (t : Option TaskState) (w : DbWorld) : Sys :=
  let s := s.setWorld σ.host w
  (s.setNode σ.host ((s.node σ.host).resume (t.getD .idle))).setSess x σ.stop

def tasked (s : Sys) (h : Host) (i : Nat) (t : TaskState) (w : DbWorld) : Sys :=
  let s := s.setWorld h w
  s.setNode h ((s.node h).setTask i t)

def lost (s : Sys) (h : Host) (w : DbWorld) : Sys := (s.setWorld h w).lose h

def started (s : Sys) (h : Host) (ts : List TaskState) (w : DbWorld) : Sys :=
  let s := (s.setNode h { store := (s.node h).store }).setWorld h w
  s.setNode h (ts.foldl Node.resume (s.node h))

end Sys

section Parts

variable (s : Sys) (x : Nat) (σ : Session) (seg : Seg) (w : DbWorld) (h n : Host)

theorem served_store : ((s.served x σ seg w).node n).store =
    if n = σ.host then w.store else (s.node n).store := by
  simp only [Sys.served, Sys.setSess, setNode_node, setWorld_node]
  split_ifs <;> simp

@[simp] theorem served_up : ((s.served x σ seg w).node n).up = (s.node n).up := by
  simp only [Sys.served, Sys.setSess, setNode_node, setWorld_node]
  split_ifs with hn
  · simp [hn]
  · rfl

theorem hungUp_store (t : Option TaskState) : ((s.hungUp x σ t w).node n).store =
    if n = σ.host then w.store else (s.node n).store := by
  simp only [Sys.hungUp, Sys.setSess, setNode_node, setWorld_node]
  split_ifs <;> simp

@[simp] theorem hungUp_up (t : Option TaskState) :
    ((s.hungUp x σ t w).node n).up = (s.node n).up := by
  simp only [Sys.hungUp, Sys.setSess, setNode_node, setWorld_node]
  split_ifs with hn
  · simp [hn]
  · rfl

theorem tasked_store (i : Nat) (t : TaskState) : ((s.tasked h i t w).node n).store =
    if n = h then w.store else (s.node n).store := by
  simp only [Sys.tasked, setNode_node, setWorld_node]
  split_ifs <;> simp

@[simp] theorem tasked_up (i : Nat) (t : TaskState) :
    ((s.tasked h i t w).node n).up = (s.node n).up := by
  simp only [Sys.tasked, setNode_node, setWorld_node]
  split_ifs with hn
  · simp [hn]
  · rfl

theorem asked_store (peer : Host) (i : Nat) (t : TaskState) (hw : w.store = (s.node peer).store) :
    (((s.setWorld peer w).setNode h (((s.setWorld peer w).node h).setTask i t)).node n).store =
      (s.node n).store := by
  simp only [setNode_node, setWorld_node]
  split_ifs with h1 h2 h2 <;> simp_all

theorem asked_up (peer : Host) (i : Nat) (t : TaskState) :
    (((s.setWorld peer w).setNode h (((s.setWorld peer w).node h).setTask i t)).node n).up =
      (s.node n).up := by
  simp only [setNode_node, setWorld_node]
  split_ifs with h1 h2 h2 <;> simp_all

theorem lost_store : ((s.lost h w).node n).store = if n = h then w.store else (s.node n).store := by
  simp only [Sys.lost, Sys.lose, setNode_node, setWorld_node, if_pos]
  split_ifs <;> rfl

theorem started_store (ts : List TaskState) : ((s.started h ts w).node n).store =
    if n = h then w.store else (s.node n).store := by
  simp only [Sys.started, setNode_node, setWorld_node]
  split_ifs <;> simp

end Parts

inductive Dies (s : Sys) (h : Host) (w : DbWorld) : Label → Prop
  | same {ℓ : Label} : w.store = (s.node h).store → Grown (.storage h) (fun _ => False) s.hist w.hist →
      Dies s h w ℓ
  | recv {x : Nat} {env : Env} {σ : Session} {m : RpcReq} {rest : List RpcReq} :
      s.sess x = some σ → σ.live = true → σ.toServ = m :: rest → σ.host = h →
      HandlerDies env.fates h σ.vars m (s.world h) w →
      Grown (.storage h) (Event.Of h) s.hist w.hist → Dies s h w (.recv x env)
  | timeout {x : Nat} {env : Env} {σ : Session} {req : RpcReq} {res : RpcRes} :
      s.sess x = some σ → σ.live = true → σ.wait = .lock req res ∨ σ.wait = .read req res →
      σ.host = h → AccessDies env.fates h σ.vars req (s.world h) w →
      Ran h (Event.Of h) (fun k => ¬ TransKey k) (s.world h) w → Dies s h w (.timeout x env)
  | startUp {env : Env} : (s.node h).up = false →
      UpLost h s.hist w.hist ({ store := (s.node h).store } : Node).prepareTask.length
        (transEntries (s.world h).listing) (s.node h).store w.store →
      Ran h (fun _ => False) TransKey (s.world h) w → Dies s h w (.startUp h env)

inductive NodeStep (A : Hist → Prop) (s : Sys) : Label → Sys → Prop
  | recv {x : Nat} {env : Env} {σ : Session} {m : RpcReq} {rest : List RpcReq} {seg : Seg}
      {w : DbWorld} : s.sess x = some σ → σ.live = true → σ.wait = .idle → σ.toServ = m :: rest →
      (s.node σ.host).up = true →
      Handled A env.fates σ.host (s.idle σ.host) env.fuel σ.vars m (s.world σ.host) seg w →
      NodeStep A s (.recv x env) (s.served x { σ with toServ := rest } seg w)
  | timeout {x : Nat} {env : Env} {σ : Session} {seg : Seg} {w : DbWorld} :
      s.sess x = some σ → σ.live = true → (s.node σ.host).up = true →
      TimedOut A env.fates σ.host env.fuel σ.vars (s.world σ.host) σ.wait seg w →
      seg.Keeps σ.vars → Ran σ.host (Event.Of σ.host) (fun k => ¬ TransKey k) (s.world σ.host) w →
      NodeStep A s (.timeout x env) (s.served x σ seg w)
  | event {x : Nat} {σ : Session} {res : RpcRes} : s.sess x = some σ → σ.live = true →
      σ.toServ ≠ [] ∨ σ.clClosed = true → onEvent σ.wait = some res →
      NodeStep A s (.event x) (s.setSess x ({ σ with wait := .idle }.answer (.rpcResponse res)))
  | hangup {x : Nat} {env : Env} {σ : Session} {o : Option TaskState} {w : DbWorld} :
      s.sess x = some σ → σ.live = true → σ.wait = .idle → σ.clClosed = true →
      (s.node σ.host).up = true →
      (σ.vars.beginTs = "" ∧ o = none ∧ w.store = (s.node σ.host).store) ∨
        (σ.vars.beginTs ≠ "" ∧ CleanEnd σ.host s.hist w.hist (s.idle σ.host) σ.vars.beginTs
          (s.node σ.host).store o w.store) →
      Ran σ.host (fun _ => False) TransKey (s.world σ.host) w →
      NodeStep A s (.hangup x env) (s.hungUp x σ o w)
  | taskSkip {h : Host} {i : Nat} {env : Env} {p : Polling} {t : TaskState} {w : DbWorld} :
      (s.node h).task i = .polling p → (s.node h).up = true →
      NextEnd h s.hist w.hist { p with i := p.i + 1 } (s.node h).store t w.store →
      Ran h (fun _ => False) TransKey (s.world h) w →
      NodeStep A s (.taskSkip h i env) (s.tasked h i t w)
  | taskAsk {h peer : Host} {i : Nat} {env : Env} {p : Polling} {o : Option Trans} {w : DbWorld} :
      (s.node h).task i = .polling p → (p.trans.transList[p.i]?).map (·.host) = some peer →
      p.reply = none → (s.node peer).up = true → w.store = (s.node peer).store →
      o = transOf (s.node peer).store p.beginTs ∨ o = none ∧ MayFail A →
      Grown (.storage peer) (fun _ => False) s.hist w.hist →
      NodeStep A s (.taskAsk h peer i env)
        ((s.setWorld peer w).setNode h (((s.setWorld peer w).node h).setTask i
          (.polling { p with reply := some (stateRes o) })))
  | taskRecv {h : Host} {i : Nat} {env : Env} {p : Polling} {res : TransStateRes} {t : TaskState}
      {w : DbWorld} : (s.node h).task i = .polling p → p.reply = some res →
      (s.node h).up = true → ResEnd h s.hist w.hist p res (s.node h).store t w.store →
      Ran h (fun _ => False) TransKey (s.world h) w →
      NodeStep A s (.taskRecv h i env) (s.tasked h i t w)
  | startUp {h : Host} {env : Env} {ts : List TaskState} {w : DbWorld} : (s.node h).up = false →
      UpEnd h s.hist w.hist ({ store := (s.node h).store } : Node).prepareTask.length
        (transEntries (s.world h).listing) (s.node h).store ts w.store →
      Ran h (fun _ => False) TransKey (s.world h) w →
      NodeStep A s (.startUp h env) (s.started h ts w)
  | lost {ℓ : Label} {h : Host} {w : DbWorld} : Dies s h w ℓ → NodeStep A s ℓ (s.lost h w)
  | cut {x a b : Nat} {σ : Session} : s.sess x = some σ →
      NodeStep A s (.cut x a b) (s.setSess x
        { σ with
          toServ := σ.toServ.take a, toCl := σ.toCl.take b, clClosed := true, servClosed := true })

section NodeStep

variable {cfg : Config} {s s' : Sys}

theorem serve_inv {x : Nat} {σ : Session} {env : Env} {p : Db Seg} {Q : Seg → DbWorld → Prop}
    {R : DbWorld → Prop}
    (hp : ∀ o, p.run (.storage σ.host) env.fates env.clocks (s.world σ.host) = o → A o.2.hist →
      Outcome.Sat Q R o) (hs : s.serve x σ env p = some s') (ha : A s'.hist) :
    (s.node σ.host).up = true ∧ ((∃ seg w, Q seg w ∧ s' = s.served x σ seg w) ∨
      ∃ w, R w ∧ s' = s.lost σ.host w) :=
  exec_inv hp (by intros; rfl) hs ha

theorem node_recv (hA : Closed A) {x : Nat} {env : Env} (hs : step cfg s (.recv x env) = some s')
    (ha : A s'.hist) : NodeStep A s (.recv x env) s' := by
  simp only [step] at hs
  split at hs
  · cases hs
  rename_i σ hσ
  split at hs
  · rename_i m rest hlive hwait hm
    have sat : ∀ o, (onMessage σ.host (s.idle σ.host) env.fuel σ.vars (.rpcRequest m)).run
        (.storage σ.host) env.fates env.clocks (s.world σ.host) = o → A o.2.hist →
        Outcome.Sat
          (fun seg w => Handled A env.fates σ.host (s.idle σ.host) env.fuel σ.vars m
            (s.world σ.host) seg w)
          (fun w => HandlerDies env.fates σ.host σ.vars m (s.world σ.host) w ∧
            Grown (.storage σ.host) (Event.Of σ.host) s.hist w.hist) o := by
      rintro o rfl ha
      have hg := Prog.sat_of_wp (A := A) hA (Prog.wp_grown
        (onMessage_tells σ.host (s.idle σ.host) env.fuel σ.vars (.rpcRequest m))
        (.refl (.storage σ.host) _ s.hist)) ha
      exact ((handled_of_run hA rfl ha).and hg).mono (fun _ _ h => h.1) fun _ h => h
    have inv := serve_inv (σ := { σ with toServ := rest }) sat hs ha
    obtain ⟨hup, ⟨seg, w, hw, rfl⟩ | ⟨w, ⟨hw, hg⟩, rfl⟩⟩ := inv
    · exact .recv hσ hlive hwait hm hup hw
    · exact .lost (.recv hσ hlive hm rfl hw hg)
  · cases hs

theorem node_timeout (hA : Closed A) {x : Nat} {env : Env}
    (hs : step cfg s (.timeout x env) = some s') (ha : A s'.hist) :
    NodeStep A s (.timeout x env) s' := by
  simp only [step] at hs
  split at hs
  · cases hs
  rename_i σ hσ
  split_ifs at hs with hc
  obtain ⟨hlive, hwait⟩ := hc
  have hran : ∀ o, (onTimeout σ.host env.fuel σ.vars σ.wait).run (.storage σ.host) env.fates
      env.clocks (s.world σ.host) = o → A o.2.hist → Outcome.Sat
        (fun seg w => seg.Keeps σ.vars ∧
          Ran σ.host (Event.Of σ.host) (fun k => ¬ TransKey k) (s.world σ.host) w)
        (fun w => Ran σ.host (Event.Of σ.host) (fun k => ¬ TransKey k) (s.world σ.host) w) o := by
    rintro o rfl ha
    exact Prog.sat_of_wp (A := A) hA (wp_ran (onTimeout_tells σ.host env.fuel σ.vars σ.wait)
      onTimeout_only) ha
  cases hwt : σ.wait with
  | idle => exact absurd hwt hwait
  | lock req res =>
    have sat : ∀ o, (onTimeout σ.host env.fuel σ.vars σ.wait).run (.storage σ.host) env.fates
        env.clocks (s.world σ.host) = o → A o.2.hist →
        Outcome.Sat (AccessEnd A env.fates σ.host env.fuel σ.vars req res (s.world σ.host))
          (AccessDies env.fates σ.host σ.vars req (s.world σ.host)) o := by
      intro o ho ha
      rw [hwt] at ho
      simp only [onTimeout] at ho
      split_ifs at ho with hreq
      · exact serveGet_end hA hreq ho ha
      · exact serveWrite_end hA hreq ho ha
    obtain ⟨hup, ⟨seg, w, ⟨hw, hk, hr⟩, rfl⟩ | ⟨w, ⟨hw, hr⟩, rfl⟩⟩ :=
      serve_inv (fun o ho ha => (sat o ho ha).and (hran o ho ha)) hs ha
    · exact .timeout hσ hlive hup (hwt ▸ .lock hw) hk hr
    · exact .lost (.timeout hσ hlive (.inl hwt) rfl hw hr)
  | read req res =>
    have sat : ∀ o, (onTimeout σ.host env.fuel σ.vars σ.wait).run (.storage σ.host) env.fates
        env.clocks (s.world σ.host) = o → A o.2.hist →
        Outcome.Sat (ReadEnd A (.storage σ.host) σ.host env.fuel σ.vars req res (s.world σ.host))
          (AccessDies env.fates σ.host σ.vars req (s.world σ.host)) o := by
      intro o ho ha
      rw [hwt] at ho
      exact (readRound_sat hA ho ha).mono (fun _ _ h => h) fun _ h => .before h.1 h.2
    obtain ⟨hup, ⟨seg, w, ⟨hw, hk, hr⟩, rfl⟩ | ⟨w, ⟨hw, hr⟩, rfl⟩⟩ :=
      serve_inv (fun o ho ha => (sat o ho ha).and (hran o ho ha)) hs ha
    · exact .timeout hσ hlive hup (hwt ▸ .read hw) hk hr
    · exact .lost (.timeout hσ hlive (.inr hwt) rfl hw hr)

theorem node_event {x : Nat} (hs : step cfg s (.event x) = some s') :
    NodeStep A s (.event x) s' := by
  simp only [step] at hs
  split at hs
  · cases hs
  rename_i σ hσ
  split_ifs at hs with hc
  obtain ⟨res, hres, rfl⟩ := Option.map_eq_some_iff.mp hs
  exact .event hσ hc.1 hc.2 hres

theorem node_hangup (hA : Closed A) {x : Nat} {env : Env}
    (hs : step cfg s (.hangup x env) = some s') (ha : A s'.hist) :
    NodeStep A s (.hangup x env) s' := by
  simp only [step] at hs
  split at hs
  · cases hs
  rename_i σ hσ
  split_ifs at hs with hc
  obtain ⟨hlive, hwait, hcl⟩ := hc
  have hD : ∀ T, TransKey (makeTrans T) := fun T => ⟨T, rfl⟩
  have hclose : (onClose σ.host (s.idle σ.host) σ.vars).wp (.storage σ.host) A _ _
      (s.world σ.host) := onClose_wp σ.host (s.idle σ.host) σ.vars (List.suffix_refl _)
  have hran : (onClose σ.host (s.idle σ.host) σ.vars).wp (.storage σ.host) A _ _
      (s.world σ.host) :=
    wp_ran (N := fun _ => False) (onClose_tells σ.host (s.idle σ.host) σ.vars)
      (onClose_only hD σ.host (s.idle σ.host) σ.vars)
  have hw := Prog.wp_and hclose hran
  obtain ⟨hup, ⟨o, w, ⟨hw, -, hr⟩, rfl⟩ | ⟨w, ⟨hw, hr⟩, rfl⟩⟩ := exec_inv
    (by rintro o rfl ha; exact Prog.sat_of_wp hA hw ha) (by intros; rfl) hs ha
  · exact .hangup hσ hlive hwait hcl hup hw hr
  · exact .lost (.same hw hr.grown)

theorem runTask_inv (hA : Closed A) {h : Host} {i : Nat} {env : Env} {p : Db TaskState}
    {Q : TaskState → DbWorld → Prop}
    (hp : p.wp (.storage h) A Q (fun w => w.store = (s.node h).store) (s.world h))
    (ht : p.Tells fun _ => False) (ho : p.Only TransKey fun _ => True)
    (hs : s.runTask h i env p = some s') (ha : A s'.hist) {ℓ : Label} :
    (s.node h).up = true ∧
      ((∃ t w, Q t w ∧ Ran h (fun _ => False) TransKey (s.world h) w ∧ s' = s.tasked h i t w) ∨
        NodeStep A s ℓ s') := by
  obtain ⟨hup, ⟨t, w, ⟨hw, -, hr⟩, rfl⟩ | ⟨w, ⟨hw, hr⟩, rfl⟩⟩ := exec_inv
    (by rintro o rfl ha; exact Prog.sat_of_wp hA (Prog.wp_and hp (wp_ran ht ho)) ha)
    (by intros; rfl) hs ha
  · exact ⟨hup, .inl ⟨t, w, hw, hr, rfl⟩⟩
  · exact ⟨hup, .inr (.lost (.same hw hr.grown))⟩

theorem node_taskSkip (hA : Closed A) {h : Host} {i : Nat} {env : Env}
    (hs : step cfg s (.taskSkip h i env) = some s') (ha : A s'.hist) :
    NodeStep A s (.taskSkip h i env) s' := by
  simp only [step] at hs
  split at hs
  · rename_i p hp
    obtain ⟨hup, ⟨t, w, hw, hr, rfl⟩ | hl⟩ := runTask_inv hA
      (pollNext_wp (w := s.world h) h { p with i := p.i + 1 } (List.suffix_refl _)) (pollNext_tells _ _)
      (pollNext_only (fun T => ⟨T, rfl⟩) _ _) hs ha
    · exact .taskSkip hp hup hw hr
    · exact hl
  · cases hs

theorem node_taskRecv (hA : Closed A) {h : Host} {i : Nat} {env : Env}
    (hs : step cfg s (.taskRecv h i env) = some s') (ha : A s'.hist) :
    NodeStep A s (.taskRecv h i env) s' := by
  simp only [step] at hs
  split at hs
  · rename_i p hp
    split at hs
    · rename_i res hres
      obtain ⟨hup, ⟨t, w, hw, hr, rfl⟩ | hl⟩ := runTask_inv hA
        (onTransStateRes_wp (w := s.world h) h p res (List.suffix_refl _)) (onTransStateRes_tells _ _ _)
        (onTransStateRes_only (fun T => ⟨T, rfl⟩) _ _ _) hs ha
      · exact .taskRecv hp hres hup hw hr
      · exact hl
    · cases hs
  · cases hs

theorem node_taskAsk (hA : Closed A) {h peer : Host} {i : Nat} {env : Env}
    (hs : step cfg s (.taskAsk h peer i env) = some s') (ha : A s'.hist) :
    NodeStep A s (.taskAsk h peer i env) s' := by
  simp only [step] at hs
  split at hs
  · rename_i p hp
    split_ifs at hs with hc
    have ht : (onMessage peer (s.idle peer) env.fuel {}
        (.transStateRequest { beginTs := p.beginTs })).Tells fun _ => False :=
      serveTransState_tells _ _
    have hserve : (serveTransState {} { beginTs := p.beginTs }).wp (.storage peer) A _ _
        (s.world peer) := serveTransState_wp {} { beginTs := p.beginTs }
    have hw := Prog.wp_and hserve (Prog.wp_grown ht (.refl (.storage peer) _ s.hist))
    obtain ⟨hup, ⟨seg, w, ⟨⟨hw, o, ho, rfl⟩, hg⟩, rfl⟩ | ⟨w, ⟨hw, hg⟩, rfl⟩⟩ := exec_inv
      (by rintro o rfl ha; exact Prog.sat_of_wp hA hw ha) (by intro a s; split <;> rfl) hs ha
    · exact .taskAsk hp hc.1 hc.2 hup hw ho hg
    · exact .lost (.same hw hg)
  · cases hs

theorem node_crash {h : Host} (hs : step cfg s (.crash h) = some s') :
    NodeStep A s (.crash h) s' := by
  simp only [step] at hs
  split_ifs at hs
  obtain rfl := Option.some.inj hs
  have hw : (s.log (.crash (.storage h))).lose h =
      s.lost h ⟨(s.node h).store, .crash (.storage h) :: s.hist⟩ := by
    simp [Sys.lost, Sys.lose, Sys.setWorld, Sys.setNode, Sys.log]
  rw [hw]
  exact .lost (.same rfl ((Grown.refl _ _ _).cons rfl))

theorem node_startUp (hA : Closed A) {h : Host} {env : Env}
    (hs : step cfg s (.startUp h env) = some s') (ha : A s'.hist) :
    NodeStep A s (.startUp h env) s' := by
  simp only [step] at hs
  split_ifs at hs with hup
  have hworld : (s.setNode h { store := (s.node h).store }).world h = s.world h := by
    simp [Sys.world, Sys.setNode]
  set idle := ({ store := (s.node h).store } : Node).prepareTask.length
  have hclean : (startUpClean h idle).wp (.storage h) A _ _ (s.world h) :=
    startUpClean_wp h idle (List.suffix_refl _)
  have hran : (startUpClean h idle).wp (.storage h) A _ _ (s.world h) :=
    wp_ran (N := fun _ => False) (startUpClean_tells h idle) (startUpClean_only h idle)
  have hw := Prog.wp_and hclean hran
  obtain ⟨-, ⟨ts, w, ⟨hw, -, hr⟩, rfl⟩ | ⟨w, ⟨hw, hr⟩, rfl⟩⟩ := exec_inv
    (by rintro o rfl ha; rw [hworld] at ha ⊢; exact Prog.sat_of_wp hA hw ha)
    (by intros; rfl) hs ha
  · exact .startUp (by simpa using hup) hw hr
  · have hl : ((s.setNode h { store := (s.node h).store }).setWorld h w).lose h = s.lost h w := by
      simp [Sys.lost, Sys.lose, Sys.setWorld, Sys.setNode]
    rw [hl]
    exact .lost (.startUp (by simpa using hup) hw hr)

theorem node_cut {x a b : Nat} (hs : step cfg s (.cut x a b) = some s') :
    NodeStep A s (.cut x a b) s' := by
  obtain ⟨σ, hσ, rfl⟩ := Option.map_eq_some_iff.mp hs
  exact .cut hσ

end NodeStep

def CliReq.IsOp (req : CliReq) : Prop :=
  req.requestType ≠ .begin ∧ req.requestType ≠ .prepare ∧ req.requestType ≠ .commit ∧
    req.requestType ≠ .rollback

namespace Sys

def read (s : Sys) (x : Nat) (σ : Session) (rest : List ResMsg) : Sys :=
  s.setSess x { σ with toCl := rest }

def drop (s : Sys) (c : CoordId) (h : Host) (x : Nat) (σ : Session) : Sys :=
  (s.setSess x { σ with clClosed := true }).setCoord c ((s.coord c).setSlot h {})

def connect (s : Sys) (c : CoordId) (h : Host) (x : Nat) : Sys :=
  (s.setSess x { host := h, owner := c }).setCoord c
    ((s.coord c).setSlot h { (s.coord c).storageCl h with fd := some x })

def logBegin (s : Sys) (c : CoordId) (tv : Timeval) : Sys :=
  (s.log (.clock (.logic c.serv) tv)).log (.note (.begun c (getTS tv)))

def logPlan (cfg : Config) (s : Sys) (c : CoordId) (tv : Timeval) : Sys :=
  (s.log (.clock (.logic c.serv) tv)).log
    (.note (.prepare c (s.coord c).beginTs (getTS tv) ((s.coord c).participants cfg)))

def logAnswer (s : Sys) (c : CoordId) (h : Host) : ResMsg → Sys
  | .rpcResponse res => s.log (.note (.answered c (s.coord c).beginTs h res.result))
  | .transStateResponse _ => s

end Sys

structure Sys.Slot (s : Sys) (c : CoordId) (h : Host) (stat : Stat) (x : Nat) (σ : Session) : Prop where
  slot : (s.coord c).storageCl h = { fd := some x, stat := stat }
  sess : s.sess x = some σ

/-- Where a session can end with an error reply, and the type of the request that it replies to. -/
inductive Coord.Fails (co : Coord) : RequestType → Prop
  | getFd (req : CliReq) : co.pc = .top → req.IsOp → co.Fails req.requestType
  | begin (h : Host) (req : CliReq) : co.pc = .beginSent h req → co.Fails req.requestType
  | op (h : Host) (req : CliReq) : co.pc = .opSent h req → co.Fails req.requestType
  | sendPrepare (h : Host) (todo : List Host) (msg : RpcReq) : co.pc = .preparing (h :: todo) msg →
      co.Fails .commit

inductive CoordStep (cfg : Config) (s : Sys) (c : CoordId) (ℓ : Label) : Sys → Prop
  | replies (type : RequestType) (res : CliRes) : (s.coord c).pc = .top →
      type = .prepare ∨ res.result ≠ 0 → (type = .commit → (s.coord c).beginTs = "") →
      CoordStep cfg s c ℓ (s.reply c type res)
  | begins (tv : Timeval) : (s.coord c).pc = .top → (s.coord c).gone = false →
      (s.coord c).beginTs = "" →
      CoordStep cfg s c ℓ (((s.logBegin c tv).setCoord c
        { s.coord c with beginTs := getTS tv }).reply c .begin { beginTs := getTS tv })
  | plans (tv : Timeval) : (s.coord c).pc = .top → (s.coord c).gone = false →
      (s.coord c).beginTs ≠ "" →
      CoordStep cfg s c ℓ ((s.logPlan cfg c tv).setCoord c
        { s.coord c with
          startTs := getTS tv
          pc := .preparing ((s.coord c).participants cfg)
            (prepareReq (s.coord c).beginTs (getTS tv) ((s.coord c).participants cfg)) })
  | rollsBack (reused : Bool) : (s.coord c).pc = .top → (s.coord c).gone = false →
      (s.coord c).beginTs ≠ "" →
      CoordStep cfg s c ℓ (((s.reply c .rollback { beginTs := (s.coord c).beginTs }).closeAll c).setCoord
        c { beginTs := "", startTs := "", pc := if reused then .top else .dangling,
            gone := (s.coord c).gone })
  | connectsBegin (h : Host) (x : Nat) (req : CliReq) : (s.coord c).pc = .top →
      (s.coord c).gone = false → (s.coord c).beginTs ≠ "" → req.IsOp →
      cfg.hostOf req.key = some h → ((s.coord c).storageCl h).fd = none →
      ((s.coord c).storageCl h).stat = .init → (s.node h).up = true → s.sess x = none →
      CoordStep cfg s c ℓ ((s.connect c h x).sendBegin c x { host := h, owner := c } h req)
  | connectsOp (h : Host) (x : Nat) (req : CliReq) : (s.coord c).pc = .top →
      (s.coord c).gone = false → (s.coord c).beginTs ≠ "" → req.IsOp →
      cfg.hostOf req.key = some h → ((s.coord c).storageCl h).fd = none →
      ((s.coord c).storageCl h).stat = .hasBegin → (s.node h).up = true → s.sess x = none →
      CoordStep cfg s c ℓ ((s.connect c h x).sendOp c x { host := h, owner := c } h req)
  | sendsBegin (h : Host) (x : Nat) (σ : Session) (req : CliReq) : (s.coord c).pc = .top →
      (s.coord c).gone = false → (s.coord c).beginTs ≠ "" → req.IsOp →
      cfg.hostOf req.key = some h → s.Slot c h .init x σ →
      CoordStep cfg s c ℓ (s.sendBegin c x σ h req)
  | sendsOp (h : Host) (x : Nat) (σ : Session) (req : CliReq) : (s.coord c).pc = .top →
      (s.coord c).gone = false → (s.coord c).beginTs ≠ "" → req.IsOp →
      cfg.hostOf req.key = some h → s.Slot c h .hasBegin x σ →
      CoordStep cfg s c ℓ (s.sendOp c x σ h req)
  | hearsBegin (h : Host) (x : Nat) (σ : Session) (stat : Stat) (req : CliReq) (res : RpcRes)
      (rest : List ResMsg) : (s.coord c).pc = .beginSent h req → s.Slot c h stat x σ →
      σ.toCl = .rpcResponse res :: rest → res.result = 0 →
      CoordStep cfg s c ℓ
        ((s.setCoord c ((s.coord c).setSlot h { fd := some x, stat := .hasBegin })).sendOp c x
          { σ with toCl := rest } h req)
  | dangles (h : Host) (x : Nat) (σ : Session) (stat : Stat) (req : CliReq) (rest : List ResMsg)
      (m : ResMsg) : (s.coord c).pc = .beginSent h req → s.Slot c h stat x σ →
      σ.toCl = m :: rest →
      CoordStep cfg s c ℓ ((s.read x σ rest).setCoord c { s.coord c with pc := .dangling })
  | hearsOp (h : Host) (x : Nat) (σ : Session) (stat : Stat) (req : CliReq) (rest : List ResMsg)
      (m : ResMsg) : (s.coord c).pc = .opSent h req → s.Slot c h stat x σ → σ.toCl = m :: rest →
      CoordStep cfg s c ℓ (((s.read x σ rest).setCoord c { s.coord c with pc := .top }).reply c
        req.requestType (opReply m))
  | leavesOp (h : Host) (req : CliReq) : ℓ = .clientEvent c → (s.coord c).pc = .opSent h req →
      CoordStep cfg s c ℓ (((if (s.coord c).gone then s else s.log (.note (.early c))).setCoord c
        { s.coord c with pc := .top }).reply c req.requestType {})
  | sendsPrepare (h : Host) (todo : List Host) (msg : RpcReq) (x : Nat) (σ : Session) (stat : Stat) :
      (s.coord c).pc = .preparing (h :: todo) msg → s.Slot c h stat x σ →
      CoordStep cfg s c ℓ ((s.setSess x (σ.send msg)).setCoord c
        { s.coord c with pc := .preparing todo msg })
  | collects (h : Host) (msg : RpcReq) (x : Nat) (σ : Session) (rest : List ResMsg) (m : ResMsg) :
      (s.coord c).pc = .preparing [] msg → s.Slot c h .hasBegin x σ → σ.toCl = m :: rest →
      CoordStep cfg s c ℓ (((s.logAnswer c h m).read x σ rest).setCoord c
        ((s.coord c).setSlot h { fd := some x, stat := .init }))
  | completes (msg : RpcReq) : (s.coord c).pc = .preparing [] msg →
      (∀ h ∈ cfg.hosts, ((s.coord c).storageCl h).stat = .init) →
      CoordStep cfg s c ℓ ((s.reply c .commit
        { startTs := (s.coord c).startTs, beginTs := (s.coord c).beginTs }).setCoord c
        { s.coord c with beginTs := "", startTs := "", pc := .top })
  | drops (h : Host) (x : Nat) (σ : Session) :
      ((s.coord c).pc = .top ∨ ∃ msg, (s.coord c).pc = .preparing [] msg) → s.Slot c h .init x σ →
      σ.toCl ≠ [] ∨ σ.servClosed = true → CoordStep cfg s c ℓ (s.drop c h x σ)
  | goes : CoordStep cfg s c ℓ (s.setCoord c { s.coord c with gone := true })
  | ends : CoordStep cfg s c ℓ (s.endSession c)
  | kills (type : RequestType) (res : CliRes) : (s.coord c).Fails type →
      CoordStep cfg s c ℓ (s.kill c type res)
  | killsCollecting (h : Host) (msg : RpcReq) (x : Nat) (σ : Session) (res : CliRes) :
      ℓ = .collect c h → (s.coord c).pc = .preparing [] msg → s.Slot c h .hasBegin x σ →
      σ.toCl = [] → σ.servClosed = true → CoordStep cfg s c ℓ (s.kill c .commit res)
  | killsReading (h : Host) (x : Nat) (σ : Session) (stat : Stat) (req : CliReq) (rest : List ResMsg)
      (m : ResMsg) (res : CliRes) : (s.coord c).pc = .beginSent h req → s.Slot c h stat x σ →
      σ.toCl = m :: rest → CoordStep cfg s c ℓ ((s.read x σ rest).kill c req.requestType res)
  | killsBegun (h : Host) (x : Nat) (σ : Session) (stat : Stat) (req : CliReq) (rest : List ResMsg)
      (m : ResMsg) (res : CliRes) : (s.coord c).pc = .beginSent h req → s.Slot c h stat x σ →
      σ.toCl = m :: rest →
      CoordStep cfg s c ℓ
        (((s.setCoord c ((s.coord c).setSlot h { fd := some x, stat := .hasBegin })).read x σ
          rest).kill c req.requestType res)

section CoordStep

variable {cfg : Config} {s s' : Sys} {c : CoordId} {ℓ : Label}

theorem slot_of {h : Host} {x : Nat} {σ : Session} (hx : ((s.coord c).storageCl h).fd = some x)
    (hσ : s.sess x = some σ) : s.Slot c h ((s.coord c).storageCl h).stat x σ :=
  ⟨by rw [← hx], hσ⟩

theorem coord_operation {req : CliReq} {x : Nat} {ok : Bool} (htop : (s.coord c).pc = .top)
    (hgone : (s.coord c).gone = false) (hT : (s.coord c).beginTs ≠ "") (hop : req.IsOp)
    (hs : s.operation cfg c req x ok = some s') : CoordStep cfg s c ℓ s' := by
  unfold Sys.operation at hs
  split at hs
  · cases hs
  rename_i h hh
  split at hs
  · rename_i y hy
    obtain ⟨σ, hσ, rfl⟩ := Option.map_eq_some_iff.mp hs
    have hslot := slot_of hy hσ
    unfold Sys.withFd
    cases hst : ((s.coord c).storageCl h).stat with
    | init =>
      cases ok with
      | true => exact .sendsBegin h y σ req htop hgone hT hop hh (hst ▸ hslot)
      | false => exact .kills _ _ (.getFd req htop hop)
    | hasBegin =>
      cases ok with
      | true => exact .sendsOp h y σ req htop hgone hT hop hh (hst ▸ hslot)
      | false => exact .kills _ _ (.getFd req htop hop)
  · rename_i hfd
    split_ifs at hs with hok hup
    · obtain rfl := Option.some.inj hs
      have hslot : (((s.connect c h x).coord c).storageCl h).stat =
          ((s.coord c).storageCl h).stat := by
        simp [Sys.connect, Sys.setSess, Sys.setCoord, Coord.setSlot]
      change CoordStep cfg s c ℓ ((s.connect c h x).withFd c req h x { host := h, owner := c } true)
      unfold Sys.withFd
      rw [hslot]
      cases hst : ((s.coord c).storageCl h).stat with
      | init => exact .connectsBegin h x req htop hgone hT hop hh hfd hst hup.1 hup.2
      | hasBegin => exact .connectsOp h x req htop hgone hT hop hh hfd hst hup.1 hup.2
    · obtain rfl := Option.some.inj hs
      exact .kills _ _ (.getFd req htop hop)

theorem coord_request {req : CliReq} {tv : Timeval} {x : Nat} {ok reused : Bool}
    (hs : step cfg s (.request c req tv x ok reused) = some s') :
    CoordStep cfg s c (.request c req tv x ok reused) s' := by
  simp only [step] at hs
  split at hs
  · rename_i htop
    split_ifs at hs with hgone
    have hgone : (s.coord c).gone = false := by simpa using hgone
    unfold Sys.clientRequest at hs
    cases hr : req.requestType with
    | begin =>
      simp only [hr] at hs
      split_ifs at hs with hT
      · obtain rfl := Option.some.inj hs
        exact .replies _ _ htop (by simp) (by simp)
      · obtain rfl := Option.some.inj hs
        exact .begins tv htop hgone (not_not.mp hT)
    | commit =>
      simp only [hr] at hs
      split_ifs at hs with hT
      · obtain rfl := Option.some.inj hs
        exact .replies _ _ htop (by simp) fun _ => hT
      · obtain rfl := Option.some.inj hs
        exact .plans tv htop hgone hT
    | rollback =>
      simp only [hr] at hs
      by_cases hT : (s.coord c).beginTs = ""
      · rw [if_pos hT] at hs
        obtain rfl := Option.some.inj hs
        exact .replies _ _ htop (by simp) (by simp)
      · rw [if_neg hT] at hs
        obtain rfl := Option.some.inj hs
        exact .rollsBack reused htop hgone hT
    | prepare =>
      simp only [hr] at hs
      obtain rfl := Option.some.inj hs
      exact .replies _ _ htop (by simp) (by simp)
    | get | update | delete | insert =>
      simp only [hr] at hs
      split_ifs at hs with hT
      · obtain rfl := Option.some.inj hs
        exact .replies _ _ htop (by simp) (by simp)
      · exact coord_operation htop hgone hT (by simp [CliReq.IsOp, hr]) hs
  · cases hs

theorem coord_beginAnswer {ok : Bool} (hs : step cfg s (.beginAnswer c ok) = some s') :
    CoordStep cfg s c (.beginAnswer c ok) s' := by
  simp only [step] at hs
  split at hs
  · rename_i h req hpc
    split at hs
    · cases hs
    rename_i x hx
    split at hs
    · cases hs
    rename_i σ hσ
    have hslot := slot_of hx hσ
    split at hs
    · rename_i res rest hcl
      split_ifs at hs with hres hok
      · obtain rfl := Option.some.inj hs
        exact .killsReading h x σ _ req rest _ _ hpc hslot hcl
      · obtain rfl := Option.some.inj hs
        exact .hearsBegin h x σ _ req res rest hpc hslot hcl (not_not.mp hres)
      · obtain rfl := Option.some.inj hs
        exact .killsBegun h x σ _ req rest _ _ hpc hslot hcl
    · rename_i res rest hcl
      obtain rfl := Option.some.inj hs
      exact .dangles h x σ _ req rest _ hpc hslot hcl
    · split_ifs at hs
      obtain rfl := Option.some.inj hs
      exact .kills _ _ (.begin h req hpc)
  · cases hs

theorem coord_opAnswer (hs : step cfg s (.opAnswer c) = some s') :
    CoordStep cfg s c (.opAnswer c) s' := by
  simp only [step] at hs
  split at hs
  · rename_i h req hpc
    split at hs
    · cases hs
    rename_i x hx
    split at hs
    · cases hs
    rename_i σ hσ
    split at hs
    · rename_i m rest hcl
      obtain rfl := Option.some.inj hs
      exact .hearsOp h x σ _ req rest m hpc (slot_of hx hσ) hcl
    · split_ifs at hs
      obtain rfl := Option.some.inj hs
      exact .kills _ _ (.op h req hpc)
  · cases hs

theorem coord_clientEvent (hs : step cfg s (.clientEvent c) = some s') :
    CoordStep cfg s c (.clientEvent c) s' := by
  simp only [step] at hs
  split at hs
  · rename_i h req hpc
    obtain rfl := Option.some.inj hs
    exact .leavesOp h req rfl hpc
  · cases hs

theorem coord_sendPrepare {ok : Bool} (hs : step cfg s (.sendPrepare c ok) = some s') :
    CoordStep cfg s c (.sendPrepare c ok) s' := by
  simp only [step] at hs
  split at hs
  · rename_i h todo msg hpc
    split at hs
    · cases hs
    rename_i x hx
    split at hs
    · cases hs
    rename_i σ hσ
    split_ifs at hs
    · obtain rfl := Option.some.inj hs
      exact .sendsPrepare h todo msg x σ _ hpc (slot_of hx hσ)
    · obtain rfl := Option.some.inj hs
      exact .kills _ _ (.sendPrepare h todo msg hpc)
  · cases hs

theorem coord_collect {h : Host} (hs : step cfg s (.collect c h) = some s') :
    CoordStep cfg s c (.collect c h) s' := by
  simp only [step] at hs
  split at hs
  · rename_i msg hpc
    split at hs
    · cases hs
    rename_i x hx
    split at hs
    · cases hs
    rename_i σ hσ
    have hslot := slot_of hx hσ
    split at hs
    · rename_i hst
      split_ifs at hs with hc
      obtain rfl := Option.some.inj hs
      exact .drops h x σ (.inr ⟨msg, hpc⟩) (hst ▸ hslot) hc
    · rename_i hst
      split at hs
      · rename_i m rest hcl
        obtain rfl := Option.some.inj hs
        have hcollect := @CoordStep.collects cfg s c (.collect c h) h msg x σ rest m hpc (hst ▸ hslot) hcl
        cases m <;> exact hcollect
      · rename_i hcl
        split_ifs at hs with hc
        obtain rfl := Option.some.inj hs
        exact .killsCollecting h msg x σ _ rfl hpc (hst ▸ hslot) hcl hc
  · cases hs

theorem coord_collected (hs : step cfg s (.collected c) = some s') :
    CoordStep cfg s c (.collected c) s' := by
  simp only [step] at hs
  split at hs
  · rename_i msg hpc
    split_ifs at hs with hst
    obtain rfl := Option.some.inj hs
    exact .completes msg hpc hst
  · cases hs

theorem coord_storageEvent {h : Host} (hs : step cfg s (.storageEvent c h) = some s') :
    CoordStep cfg s c (.storageEvent c h) s' := by
  simp only [step] at hs
  split at hs
  · rename_i hpc
    split at hs
    · cases hs
    rename_i x hx
    split at hs
    · cases hs
    rename_i σ hσ
    split_ifs at hs with hc
    split at hs
    · rename_i hst
      obtain rfl := Option.some.inj hs
      exact .drops h x σ (.inl hpc) (hst ▸ slot_of hx hσ) hc
    · obtain rfl := Option.some.inj hs
      exact .ends
  · cases hs

theorem CoordStep.node_eq (hs : CoordStep cfg s c ℓ s') : s'.node = s.node := by
  cases hs with
  | leavesOp h req =>
    change (if (s.coord c).gone then s else s.log _).node = s.node
    split_ifs <;> rfl
  | collects h msg x σ rest m =>
    cases m <;> rfl
  | _ => rfl

theorem CoordStep.hist (hs : CoordStep cfg s c ℓ s') : s.hist <:+ s'.hist := by
  have one : ∀ e : Entry Proc Timeval Event, s.hist <:+ e :: s.hist := fun e => List.suffix_cons e _
  cases hs with
  | begins => exact ((one _).trans (List.suffix_cons _ _)).trans (List.suffix_cons _ _)
  | plans => exact (one _).trans (List.suffix_cons _ _)
  | replies | rollsBack | completes | kills | killsCollecting | killsReading | killsBegun | hearsOp =>
    exact one _
  | leavesOp h req =>
    change s.hist <:+ _ :: (if (s.coord c).gone then s else s.log _).hist
    split_ifs
    · exact one _
    · exact (one _).trans (List.suffix_cons _ _)
  | collects h msg x σ rest m =>
    cases m with
    | rpcResponse => exact one _
    | transStateResponse => exact List.suffix_refl _
  | _ => exact List.suffix_refl _

theorem Handled.grown {A : Hist → Prop} {fates : List Fate} {self : Host} {idle fuel : Nat} {v : Vars}
    {req : RpcReq} {w w' : DbWorld} {seg : Seg}
    (h : Handled A fates self idle fuel v req w seg w') :
    Grown (.storage self) (Event.Of self) w.hist w'.hist := by
  cases h with
  | begin _ _ hr => exact hr.grown
  | prepare _ _ hr => exact hr.grown
  | op _ _ _ hr => exact hr.grown

theorem Dies.grown {h : Host} {w : DbWorld} {ℓ : Label} (hd : Dies s h w ℓ) :
    Grown (.storage h) (Event.Of h) s.hist w.hist := by
  cases hd with
  | same _ hg => exact hg.mono fun _ => False.elim
  | recv _ _ _ _ _ hg => exact hg
  | timeout _ _ _ _ _ hr => exact hr.grown
  | startUp _ _ hr => exact hr.grown.mono fun _ => False.elim

theorem NodeStep.grown {ℓ : Label} (hs : NodeStep A s ℓ s') :
    ∃ h, Grown (.storage h) (Event.Of h) s.hist s'.hist := by
  cases hs with
  | recv _ _ _ _ _ h => exact ⟨_, h.grown⟩
  | timeout _ _ _ _ _ hr => exact ⟨_, hr.grown⟩
  | @event x σ => exact ⟨σ.host, .refl _ _ _⟩
  | hangup _ _ _ _ _ _ hr => exact ⟨_, hr.grown.mono fun _ => False.elim⟩
  | taskSkip _ _ _ hr => exact ⟨_, hr.grown.mono fun _ => False.elim⟩
  | taskAsk _ _ _ _ _ _ hg => exact ⟨_, hg.mono fun _ => False.elim⟩
  | taskRecv _ _ _ _ hr => exact ⟨_, hr.grown.mono fun _ => False.elim⟩
  | startUp _ _ hr => exact ⟨_, hr.grown.mono fun _ => False.elim⟩
  | lost hd => exact ⟨_, hd.grown⟩
  | @cut x a b σ => exact ⟨σ.host, .refl _ _ _⟩

theorem NodeStep.hist {ℓ : Label} (hs : NodeStep A s ℓ s') : s.hist <:+ s'.hist := by
  obtain ⟨h, hg⟩ := hs.grown
  exact hg.suffix

theorem NodeStep.coord_eq {ℓ : Label} (hs : NodeStep A s ℓ s') : s'.coord = s.coord := by
  cases hs <;> rfl

def Label.party : Label → Option CoordId
  | .request c _ _ _ _ _ | .beginAnswer c _ | .opAnswer c | .clientEvent c => some c
  | .sendPrepare c _ | .collect c _ | .collected c | .storageEvent c _ => some c
  | .clientGone c | .die c => some c
  | _ => none

theorem step_party (hA : Closed A) (hs : step cfg s ℓ = some s') (ha : A s'.hist) :
    NodeStep A s ℓ s' ∨ ∃ c, ℓ.party = some c ∧ CoordStep cfg s c ℓ s' := by
  cases ℓ with
  | recv x env => exact .inl (node_recv hA hs ha)
  | timeout x env => exact .inl (node_timeout hA hs ha)
  | event x => exact .inl (node_event hs)
  | hangup x env => exact .inl (node_hangup hA hs ha)
  | taskSkip h i env => exact .inl (node_taskSkip hA hs ha)
  | taskAsk h peer i env => exact .inl (node_taskAsk hA hs ha)
  | taskRecv h i env => exact .inl (node_taskRecv hA hs ha)
  | crash h => exact .inl (node_crash hs)
  | startUp h env => exact .inl (node_startUp hA hs ha)
  | cut x a b => exact .inl (node_cut hs)
  | request c req tv x ok reused => exact .inr ⟨c, rfl, coord_request hs⟩
  | beginAnswer c ok => exact .inr ⟨c, rfl, coord_beginAnswer hs⟩
  | opAnswer c => exact .inr ⟨c, rfl, coord_opAnswer hs⟩
  | clientEvent c => exact .inr ⟨c, rfl, coord_clientEvent hs⟩
  | sendPrepare c ok => exact .inr ⟨c, rfl, coord_sendPrepare hs⟩
  | collect c h => exact .inr ⟨c, rfl, coord_collect hs⟩
  | collected c => exact .inr ⟨c, rfl, coord_collected hs⟩
  | storageEvent c h => exact .inr ⟨c, rfl, coord_storageEvent hs⟩
  | clientGone c =>
    obtain rfl := Option.some.inj hs
    exact .inr ⟨c, rfl, .goes⟩
  | die c =>
    simp only [step] at hs
    split_ifs at hs
    obtain rfl := Option.some.inj hs
    exact .inr ⟨c, rfl, .ends⟩

theorem step_cases (hA : Closed A) (hs : step cfg s ℓ = some s') (ha : A s'.hist) :
    NodeStep A s ℓ s' ∨ ∃ c, CoordStep cfg s c ℓ s' :=
  (step_party hA hs ha).imp_right fun h => h.imp fun _ hc => hc.2

theorem step_hist (hs : step cfg s ℓ = some s') : s.hist <:+ s'.hist := by
  rcases step_cases closed_true hs trivial with hn | ⟨c, hc⟩
  · exact hn.hist
  · exact hc.hist

end CoordStep

end Tpc
