import Tpc.LogicServ

/-! The whole system: storage nodes, client sessions of `logicServ` processes and the connections
between them. A label resolves every choice of the environment: which coroutine runs, what the
database and the clock do to it, which messages a broken connection loses. -/

namespace Tpc
open Durable

/-- A connection from a client session to a storage node, with the coroutine that serves it. -/
structure Session where
  host : Host
  owner : CoordId
  vars : Vars := {}
  wait : Wait := .idle
  /-- requests on their way to the storage node -/
  toServ : List RpcReq := []
  /-- responses on their way to the client session -/
  toCl : List ResMsg := []
  /-- nothing will be added to `toServ` -/
  clClosed : Bool := false
  /-- nothing will be added to `toCl` -/
  servClosed : Bool := false
  /-- the coroutine is serving the connection -/
  live : Bool := true

structure Node where
  store : Store String Record := ∅
  up : Bool := true
  /-- `g_prepareTask`, its top first -/
  prepareTask : List Nat := (List.range 100).reverse
  task : Nat → TaskState := fun _ => .idle

structure Sys where
  node : Host → Node := fun _ => {}
  sess : Nat → Option Session := fun _ => none
  coord : CoordId → Coord := fun _ => {}
  hist : Hist := []

structure Env where
  fates : List Fate := []
  clocks : List Timeval := []
  fuel : Nat := 0
deriving Repr

inductive Label
  -- storage nodes
  | recv (x : Nat) (env : Env)
  | timeout (x : Nat) (env : Env)
  | event (x : Nat)
  | hangup (x : Nat) (env : Env)
  | taskSkip (h : Host) (i : Nat) (env : Env)
  | taskAsk (h peer : Host) (i : Nat) (env : Env)
  | taskRecv (h : Host) (i : Nat) (env : Env)
  | crash (h : Host)
  | startUp (h : Host) (env : Env)
  -- connections
  | cut (x : Nat) (toServ toCl : Nat)
  -- client sessions
  | request (c : CoordId) (req : CliReq) (tv : Timeval) (x : Nat) (ok reused : Bool)
  | beginAnswer (c : CoordId) (ok : Bool)
  | opAnswer (c : CoordId)
  | clientEvent (c : CoordId)
  | sendPrepare (c : CoordId) (ok : Bool)
  | collect (c : CoordId) (h : Host)
  | collected (c : CoordId)
  | storageEvent (c : CoordId) (h : Host)
  | clientGone (c : CoordId)
  | die (c : CoordId)
deriving Repr

namespace Node

/-- `startCleanTrans` takes a task from the stack; a task that came to its end inside is back. -/
def resume (n : Node) : TaskState → Node
  | .idle => n
  | t =>
    match n.prepareTask with
    | [] => n
    | i :: rest => { n with prepareTask := rest, task := Function.update n.task i t }

def setTask (n : Node) (i : Nat) : TaskState → Node
  | .idle => { n with prepareTask := i :: n.prepareTask, task := Function.update n.task i .idle }
  | t => { n with task := Function.update n.task i t }

end Node

namespace Session

def send (σ : Session) (m : RpcReq) : Session :=
  if σ.clClosed || σ.servClosed then σ else { σ with toServ := σ.toServ ++ [m] }

/-- A response is sent; on a closed connection it is lost. -/
def answer (σ : Session) (m : ResMsg) : Session :=
  if σ.clClosed || σ.servClosed then σ else { σ with toCl := σ.toCl ++ [m] }

def stop (σ : Session) : Session :=
  { σ with wait := .idle, live := false, servClosed := true }

def after (σ : Session) (seg : Seg) : Session :=
  match seg.next with
  | .response m => { σ with vars := seg.vars, wait := .idle }.answer m
  | .wait w => { σ with vars := seg.vars, wait := w }
  | .leave => { σ with vars := seg.vars, wait := .idle, clClosed := true }

end Session

namespace Sys

def setNode (s : Sys) (h : Host) (n : Node) : Sys := { s with node := Function.update s.node h n }

def setSess (s : Sys) (x : Nat) (σ : Session) : Sys :=
  { s with sess := Function.update s.sess x (some σ) }

def setCoord (s : Sys) (c : CoordId) (co : Coord) : Sys :=
  { s with coord := Function.update s.coord c co }

def log (s : Sys) (e : Entry Proc Timeval Event) : Sys := { s with hist := e :: s.hist }

def world (s : Sys) (h : Host) : DbWorld := ⟨(s.node h).store, s.hist⟩

def setWorld (s : Sys) (h : Host) (w : DbWorld) : Sys :=
  { s.setNode h { s.node h with store := w.store } with hist := w.hist }

/-- The process on `h` is lost: its tasks and its ends of the connections are gone. -/
def lose (s : Sys) (h : Host) : Sys :=
  { s.setNode h { store := (s.node h).store, up := false } with
    sess := fun x => (s.sess x).map fun σ => if σ.host = h then σ.stop else σ }

def exec {α : Type} (s : Sys) (h : Host) (env : Env) (p : Db α) (k : α → Sys → Sys) : Option Sys :=
  if (s.node h).up then
    match p.run (.storage h) env.fates env.clocks (s.world h) with
    | (.done a, w) => some (k a (s.setWorld h w))
    | (.died, w) => some ((s.setWorld h w).lose h)
    | (.running, _) => none
  else none

def idle (s : Sys) (h : Host) : Nat := (s.node h).prepareTask.length

def serve (s : Sys) (x : Nat) (σ : Session) (env : Env) (p : Db Seg) : Option Sys :=
  s.exec σ.host env p fun seg s =>
    (s.setNode σ.host ((s.node σ.host).resume (seg.task.getD .idle))).setSess x (σ.after seg)

def runTask (s : Sys) (h : Host) (i : Nat) (env : Env) (p : Db TaskState) : Option Sys :=
  s.exec h env p fun t s => s.setNode h ((s.node h).setTask i t)

def closeAll (s : Sys) (c : CoordId) : Sys :=
  { s with sess := fun x => (s.sess x).map fun σ =>
      if ((s.coord c).storageCl σ.host).fd = some x then { σ with clClosed := true } else σ }

def endSession (s : Sys) (c : CoordId) : Sys :=
  (s.closeAll c).setCoord c { s.coord c with pc := .closed }

def reply (s : Sys) (c : CoordId) (type : RequestType) (res : CliRes) : Sys :=
  s.log (.note (.replied c type (s.coord c).beginTs res))

/-- `Respone` with `kill_trans` set. -/
def kill (s : Sys) (c : CoordId) (type : RequestType) (res : CliRes) : Sys :=
  (s.reply c type { res with result := 1 }).endSession c

def sendOp (s : Sys) (c : CoordId) (x : Nat) (σ : Session) (h : Host) (req : CliReq) : Sys :=
  (s.setSess x (σ.send (opReq (s.coord c).beginTs req))).setCoord c
    { s.coord c with pc := .opSent h req }

def sendBegin (s : Sys) (c : CoordId) (x : Nat) (σ : Session) (h : Host) (req : CliReq) : Sys :=
  (s.setSess x (σ.send (beginReq (s.coord c).beginTs))).setCoord c
    { s.coord c with pc := .beginSent h req }

/-- `getFd` with a connection, and the operation unless `getFd` has to wait for an answer. -/
def withFd (s : Sys) (c : CoordId) (req : CliReq) (h : Host) (x : Nat) (σ : Session) (ok : Bool) :
    Sys :=
  match ((s.coord c).storageCl h).stat, ok with
  | .hasBegin, true => s.sendOp c x σ h req
  | .hasBegin, false => s.kill c req.requestType { errMsg := "SendMsg storage  err" }
  | .init, true => s.sendBegin c x σ h req
  | .init, false => s.kill c req.requestType { errMsg := "get storage socket err" }

/-- An operation of the client: `getFd`, which connects where the slot has no connection, then the
request. -/
def operation (cfg : Config) (s : Sys) (c : CoordId) (req : CliReq) (x : Nat) (ok : Bool) :
    Option Sys :=
  match cfg.hostOf req.key with
  | none => none
  | some h =>
    match ((s.coord c).storageCl h).fd with
    | some y => (s.sess y).map fun σ => s.withFd c req h y σ ok
    | none =>
      if ok then
        if (s.node h).up ∧ s.sess x = none then
          let σ : Session := { host := h, owner := c }
          let sl := (s.coord c).storageCl h
          some (((s.setSess x σ).setCoord c ((s.coord c).setSlot h { sl with fd := some x })).withFd
            c req h x σ true)
        else none
      else some (s.kill c req.requestType { errMsg := "get storage socket err" })

def clientRequest (cfg : Config) (s : Sys) (c : CoordId) (req : CliReq) (tv : Timeval) (x : Nat)
    (ok reused : Bool) : Option Sys :=
  let co := s.coord c
  match req.requestType with
  | .begin =>
    if co.beginTs ≠ "" then
      some (s.reply c .begin { result := 1, errMsg := "has begin trans!", beginTs := co.beginTs })
    else
      let beginTs := getTS tv
      some ((((s.log (.clock (.logic c.serv) tv)).log (.note (.begun c beginTs))).setCoord c
        { co with beginTs := beginTs }).reply c .begin { beginTs := beginTs })
  | .commit =>
    if co.beginTs = "" then
      some (s.reply c .commit { result := 1, errMsg := "has no begin trans!" })
    else
      let startTs := getTS tv
      let hosts := co.participants cfg
      some (((s.log (.clock (.logic c.serv) tv)).log
        (.note (.prepare c co.beginTs startTs hosts))).setCoord c
        { co with startTs := startTs, pc := .preparing hosts (prepareReq co.beginTs startTs hosts) })
  | .rollback =>
    if co.beginTs = "" then
      some (s.reply c .rollback { result := 1, errMsg := "has no begin trans!" })
    else
      -- the new table is bound to an inner name: the outer pointer is good again only if the
      -- allocator hands out the block that was freed just before
      some (((s.reply c .rollback { beginTs := co.beginTs }).closeAll c).setCoord c
        { beginTs := "", startTs := "", pc := if reused then .top else .dangling, gone := co.gone })
  | .get | .update | .delete | .insert =>
    if co.beginTs = "" then
      some (s.reply c req.requestType { result := 1, errMsg := "has no begin trans!" })
    else s.operation cfg c req x ok
  | .prepare => some (s.reply c .prepare {})

end Sys

open Sys in
/-- One step; `none` where the label does not apply. -/
def step (cfg : Config) (s : Sys) : Label → Option Sys
  | .recv x env =>
    match s.sess x with
    | none => none
    | some σ =>
      match σ.live, σ.wait, σ.toServ with
      | true, .idle, m :: rest =>
        s.serve x { σ with toServ := rest } env
          (onMessage σ.host (s.idle σ.host) env.fuel σ.vars (.rpcRequest m))
      | _, _, _ => none
  | .timeout x env =>
    match s.sess x with
    | none => none
    | some σ =>
      if σ.live ∧ σ.wait ≠ .idle then s.serve x σ env (onTimeout σ.host env.fuel σ.vars σ.wait)
      else none
  | .event x =>
    match s.sess x with
    | none => none
    | some σ =>
      if σ.live ∧ (σ.toServ ≠ [] ∨ σ.clClosed) then
        (onEvent σ.wait).map fun res =>
          s.setSess x ({ σ with wait := .idle }.answer (.rpcResponse res))
      else none
  | .hangup x env =>
    match s.sess x with
    | none => none
    | some σ =>
      if σ.live ∧ σ.wait = .idle ∧ σ.clClosed then
        s.exec σ.host env (onClose σ.host (s.idle σ.host) σ.vars) fun t s =>
          (s.setNode σ.host ((s.node σ.host).resume (t.getD .idle))).setSess x σ.stop
      else none
  | .taskSkip h i env =>
    match (s.node h).task i with
    | .polling p => s.runTask h i env (pollNext h { p with i := p.i + 1 })
    | _ => none
  | .taskAsk h peer i env =>
    match (s.node h).task i with
    | .polling p =>
      if (p.trans.transList[p.i]?).map (·.host) = some peer ∧ p.reply = none then
        s.exec peer env
          (onMessage peer (s.idle peer) env.fuel {} (.transStateRequest { beginTs := p.beginTs }))
          fun seg s =>
            match seg.next with
            | .response (.transStateResponse res) =>
              s.setNode h ((s.node h).setTask i (.polling { p with reply := some res }))
            | _ => s
      else none
    | _ => none
  | .taskRecv h i env =>
    match (s.node h).task i with
    | .polling p =>
      match p.reply with
      | some res => s.runTask h i env (onTransStateRes h p res)
      | none => none
    | _ => none
  | .crash h => if (s.node h).up then some ((s.log (.crash (.storage h))).lose h) else none
  | .startUp h env =>
    if (s.node h).up then none
    else
      let n : Node := { store := (s.node h).store }
      (s.setNode h n).exec h env (startUpClean h n.prepareTask.length) fun ts s =>
        s.setNode h (ts.foldl Node.resume (s.node h))
  | .cut x a b =>
    (s.sess x).map fun σ => s.setSess x
      { σ with toServ := σ.toServ.take a, toCl := σ.toCl.take b, clClosed := true, servClosed := true }
  | .request c req tv x ok reused =>
    match (s.coord c).pc with
    | .top => if (s.coord c).gone then none else s.clientRequest cfg c req tv x ok reused
    | _ => none
  | .beginAnswer c ok =>
    let co := s.coord c
    match co.pc with
    | .beginSent h req =>
      match (co.storageCl h).fd with
      | none => none
      | some x =>
        match s.sess x with
        | none => none
        | some σ =>
          match σ.toCl with
          | .rpcResponse res :: rest =>
            if res.result ≠ 0 then
              some ((s.setSess x { σ with toCl := rest }).kill c req.requestType
                { errMsg := "get storage socket err" })
            else
              let s := s.setCoord c (co.setSlot h { fd := some x, stat := .hasBegin })
              if ok then some (s.sendOp c x { σ with toCl := rest } h req)
              else some ((s.setSess x { σ with toCl := rest }).kill c req.requestType
                { errMsg := "SendMsg storage  err" })
          -- a message of another type makes `getFd` return the type as a descriptor
          | .transStateResponse _ :: rest =>
            some ((s.setSess x { σ with toCl := rest }).setCoord c { co with pc := .dangling })
          | [] =>
            if σ.servClosed then
              some (s.kill c req.requestType { errMsg := "get storage socket err" })
            else none
    | _ => none
  | .opAnswer c =>
    let co := s.coord c
    match co.pc with
    | .opSent h req =>
      match (co.storageCl h).fd with
      | none => none
      | some x =>
        match s.sess x with
        | none => none
        | some σ =>
          match σ.toCl with
          | m :: rest =>
            some (((s.setSess x { σ with toCl := rest }).setCoord c { co with pc := .top }).reply c
              req.requestType (opReply m))
          | [] =>
            if σ.servClosed then
              some (s.kill c req.requestType { errMsg := "ReadOneMsg storage  err" })
            else none
    | _ => none
  | .clientEvent c =>
    let co := s.coord c
    match co.pc with
    | .opSent _ req =>
      let s := if co.gone then s else s.log (.note (.early c))
      some ((s.setCoord c { co with pc := .top }).reply c req.requestType {})
    | _ => none
  | .sendPrepare c ok =>
    let co := s.coord c
    match co.pc with
    | .preparing (h :: todo) msg =>
      match (co.storageCl h).fd with
      | none => none
      | some x =>
        match s.sess x with
        | none => none
        | some σ =>
          if ok then
            some ((s.setSess x (σ.send msg)).setCoord c { co with pc := .preparing todo msg })
          else
            some (s.kill c .commit
              { errMsg := "SendMsg storage  err", startTs := co.startTs, beginTs := co.beginTs })
    | _ => none
  | .collect c h =>
    let co := s.coord c
    match co.pc with
    | .preparing [] _ =>
      match (co.storageCl h).fd with
      | none => none
      | some x =>
        match s.sess x with
        | none => none
        | some σ =>
          match (co.storageCl h).stat with
          | .init =>
            if σ.toCl ≠ [] ∨ σ.servClosed then
              some ((s.setSess x { σ with clClosed := true }).setCoord c (co.setSlot h {}))
            else none
          | .hasBegin =>
            match σ.toCl with
            | m :: rest =>
              let s := match m with
                | .rpcResponse res => s.log (.note (.answered c co.beginTs h res.result))
                | .transStateResponse _ => s
              some ((s.setSess x { σ with toCl := rest }).setCoord c
                (co.setSlot h { fd := some x, stat := .init }))
            | [] =>
              if σ.servClosed then
                some (s.kill c .commit
                  { errMsg := "ReadOneMsg storage  err", startTs := co.startTs, beginTs := co.beginTs })
              else none
    | _ => none
  | .collected c =>
    let co := s.coord c
    match co.pc with
    | .preparing [] _ =>
      if ∀ h ∈ cfg.hosts, (co.storageCl h).stat = .init then
        some ((s.reply c .commit { startTs := co.startTs, beginTs := co.beginTs }).setCoord c
          { co with beginTs := "", startTs := "", pc := .top })
      else none
    | _ => none
  | .storageEvent c h =>
    let co := s.coord c
    match co.pc with
    | .top =>
      match (co.storageCl h).fd with
      | none => none
      | some x =>
        match s.sess x with
        | none => none
        | some σ =>
          if σ.toCl ≠ [] ∨ σ.servClosed then
            match (co.storageCl h).stat with
            | .init =>
              some ((s.setSess x { σ with clClosed := true }).setCoord c (co.setSlot h {}))
            | .hasBegin => some (s.endSession c)
          else none
    | _ => none
  | .clientGone c => some (s.setCoord c { s.coord c with gone := true })
  | .die c => if (s.coord c).pc = .closed then none else some (s.endSession c)

end Tpc
