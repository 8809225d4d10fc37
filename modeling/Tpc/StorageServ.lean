import Tpc.PrepareRoutine

/-! `readwrite_routine` of `storageServ.cpp`, cut where the coroutine can lose the processor: at
the head of its loop and in the waits of 500 ms for a lock or for a committing transaction. -/

namespace Tpc
open Durable

structure Vars where
  beginTs : String := ""
  startTs : String := ""
deriving DecidableEq, Repr

/-- Where the coroutine is suspended; a wait keeps the request and the response filled so far. -/
inductive Wait
  /-- at the head of the loop -/
  | idle
  /-- after an `addLock` that did not return 0 -/
  | lock (req : RpcReq) (res : RpcRes)
  /-- after a `ReadData` that returned 66 -/
  | read (req : RpcReq) (res : RpcRes)
deriving DecidableEq, Repr

inductive ReqMsg
  | rpcRequest (req : RpcReq)
  | transStateRequest (req : TransStateReq)
  | other
deriving DecidableEq, Repr

inductive ResMsg
  | rpcResponse (res : RpcRes)
  | transStateResponse (res : TransStateRes)
deriving DecidableEq, Repr

inductive Next
  | response (msg : ResMsg)
  | wait (w : Wait)
  /-- `break` out of the loop over requests -/
  | leave
deriving DecidableEq, Repr

/-- The outcome of a segment, with the task that `startCleanTrans` resumed in it. -/
structure Seg where
  vars : Vars
  next : Next
  task : Option TaskState := none
deriving DecidableEq, Repr

def respond (v : Vars) (res : RpcRes) : Db Seg := .ret { vars := v, next := .response (.rpcResponse res) }

def refuse (v : Vars) (res : RpcRes) (errMsg : String) : Db Seg :=
  respond v { res with result := 1, errMsg := errMsg }

/-- The code behind `ReadData`: the response, or the wait for a committing transaction. -/
def readSeg (v : Vars) (req : RpcReq) (res : RpcRes) (r : ReadRes) : Seg :=
  let res := { res with
    value := r.value, beginTs := r.retBeginTs, startTs := r.retStartTs, commitTs := r.retCommitTs }
  if r.code ≠ 0 then
    let res := { res with result := toUInt32 r.code, errMsg := "ReadData err " }
    if r.code = 99 then
      { vars := v, next := .response (.rpcResponse { res with errMsg := "data not found" }) }
    else if r.code = 66 then
      { vars := v, next := .wait (.read req { res with errMsg := "data commiting" }) }
    else if r.code = 33 then
      { vars := v, next := .response (.rpcResponse { res with errMsg := "data deleted" }) }
    else { vars := v, next := .response (.rpcResponse res) }
  else { vars := v, next := .response (.rpcResponse res) }

def readRound (self : Host) (fuel : Nat) (v : Vars) (req : RpcReq) (res : RpcRes) : Db Seg := do
  let inBeginTs ← if req.getForUpdate ≠ 0 then readTS else pure v.beginTs
  let r ← readData inBeginTs req.key fuel ""
  note (.read self v.beginTs req.key (req.getForUpdate ≠ 0) inBeginTs r)
  return readSeg v req res r

/-- Get from its loop around `addLock` on. -/
def serveGet (self : Host) (fuel : Nat) (v : Vars) (req : RpcReq) (res : RpcRes) : Db Seg := do
  if req.getForUpdate ≠ 0 then
    let ret ← addLock req.key v.beginTs
    if ret ≠ 0 then return { vars := v, next := .wait (.lock req res) }
    else
      note (.locked self req.key v.beginTs)
      readRound self fuel v req res
  else readRound self fuel v req res

/-- Delete, Update and Insert from their loop around `addLock` on. -/
def serveWrite (self : Host) (v : Vars) (req : RpcReq) (res : RpcRes) : Db Seg := do
  let ret ← addLock req.key v.beginTs
  if ret ≠ 0 then return { vars := v, next := .wait (.lock req res) }
  else
    note (.locked self req.key v.beginTs)
    let ret ← addData req.key req.value v.beginTs req.requestType
    if ret ≠ 0 then respond v { res with result := toUInt32 ret, errMsg := "addData err" }
    else
      note (.wrote self req.key v.beginTs req.requestType req.value)
      respond v res

def serveBegin (v : Vars) (req : RpcReq) : Db Seg := do
  if v.beginTs ≠ "" then refuse v {} "has begin trans!"
  else
    let v := { v with beginTs := req.beginTs }
    let ret ← addTrans v.beginTs
    if ret ≠ 0 then respond v { result := toUInt32 ret, errMsg := "addTrans err " }
    else respond v {}

def servePrepare (self : Host) (idle : Nat) (v : Vars) (req : RpcReq) : Db Seg := do
  if v.beginTs = "" then refuse v {} "has no begin trans!"
  else if v.beginTs ≠ req.beginTs then refuse v {} "begin_ts err!"
  else
    let v := { v with startTs := req.startTs }
    let ret ← updateTransPrepared self.hashId v.beginTs req
    if ret ≠ 0 then refuse v {} "updateTransPrepared err!"
    else
      let selfCommitTs ← readTS
      let ret ← updateTransSelfCommitTs v.beginTs selfCommitTs
      if ret ≠ 0 then .abort
      else
        let task ← startCleanTrans self idle v.beginTs
        return { vars := {}, next := .response (.rpcResponse {}), task := task }

/-- A peer's question; a missing record leaves `trans_stat` unset, which reads as Begin. -/
def serveTransState (v : Vars) (req : TransStateReq) : Db Seg := do
  match ← dbGet (makeTrans req.beginTs) with
  | .found r =>
    let trans := r.toTrans
    let commitTs :=
      match trans.state with
      | .prepared => trans.selfCommitTs
      | .commited => trans.commitTrans
      | _ => ""
    return { vars := v, next := .response (.transStateResponse
      { transStat := trans.state, commitTs := commitTs }) }
  | _ =>
    return { vars := v, next := .response (.transStateResponse
      { result := 1, errMsg := "get trans err" }) }

/-- The body of the loop over requests, from a message to its response or first wait. `idle` is
the size of `prepareTaskStack`, `fuel` bounds the chain walk of one `ReadData`. -/
def onMessage (self : Host) (idle fuel : Nat) (v : Vars) : ReqMsg → Db Seg
  | .rpcRequest req =>
    match req.requestType with
    | .begin => serveBegin v req
    | .prepare => servePrepare self idle v req
    | .commit => if v.beginTs = "" then refuse v {} "has no begin trans!" else respond v {}
    | .get =>
      if v.beginTs = "" then refuse v {} "has no begin trans!"
      else serveGet self fuel v req { key := req.key }
    | .delete | .update | .insert =>
      if v.beginTs = "" then refuse v {} "has no begin trans!"
      else serveWrite self v req { beginTs := v.beginTs }
    | .rollback => respond v {}
  | .transStateRequest req => serveTransState v req
  | .other => .ret { vars := v, next := .leave }

def onTimeout (self : Host) (fuel : Nat) (v : Vars) : Wait → Db Seg
  | .idle => .ret { vars := v, next := .wait .idle }
  | .lock req res =>
    if req.requestType = .get then serveGet self fuel v req res else serveWrite self v req res
  | .read req res => readRound self fuel v req res

/-- A wait ends by an event on the connection: `goto Response` with the response as it is. -/
def onEvent : Wait → Option RpcRes
  | .idle => none
  | .lock _ res => some res
  | .read _ res => some res

/-- The clean-up behind the loop over requests. -/
def onClose (self : Host) (idle : Nat) (v : Vars) : Db (Option TaskState) :=
  if v.beginTs = "" then .ret none else startCleanTrans self idle v.beginTs

end Tpc
