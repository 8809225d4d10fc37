import Tpc.Storage

/-! `prepare_routine` of `storageServ.cpp`, cut at its socket calls, and the functions of
`Core/Storage.cpp` that hand a transaction to it. `co_resume` runs a task up to its first socket
call inside the caller, so `startCleanTrans` contains that part of the task. -/

namespace Tpc
open Durable

/-- A `prepare_routine` inside its polling loop: `trans` is its copy of the record, `i` the
position in `trans_list`, `reply` the answer of the peer at `i` that is on its way. -/
structure Polling where
  beginTs : String
  trans : Trans
  i : Nat
  maxCommitTs : String
  nPrepared : Nat
  reply : Option TransStateRes := none
deriving DecidableEq, Repr

inductive TaskState
  /-- on `prepareTaskStack` -/
  | idle
  | polling (p : Polling)
  /-- the coroutine left its loop by `break` -/
  | ended
deriving DecidableEq, Repr

/-- The number of entries of the node itself that the `for` loop passes before its next socket
call. -/
def ownRun (self : Host) (l : List TransList) : Nat :=
  (l.takeWhile fun e => e.host.hashId = self.hashId).length

def decideCommit (p : Polling) (commitTs : String) : Db TaskState := do
  if ← dbPut (makeTrans p.beginTs)
      (.trans { p.trans with state := .commited, commitTrans := commitTs }) then
    return .idle
  else .abort

def decideRollback (p : Polling) : Db TaskState := do
  if ← dbPut (makeTrans p.beginTs) (.trans { p.trans with state := .rollback }) then return .idle
  else .abort

/-- One pass of the `while` loop, up to its first socket call. -/
def pollRound (self : Host) (beginTs : String) (trans : Trans) : Db TaskState := do
  let maxCommitTs ← if trans.selfCommitTs = "" then readTS else pure trans.selfCommitTs
  let n := ownRun self trans.transList
  let p : Polling :=
    { beginTs := beginTs, trans := trans, i := n, maxCommitTs := maxCommitTs, nPrepared := n }
  if n < trans.transList.length then return .polling p
  else decideCommit p maxCommitTs

/-- The `for` loop from position `p.i` on, up to its next socket call. -/
def pollNext (self : Host) (p : Polling) : Db TaskState :=
  let n := ownRun self (p.trans.transList.drop p.i)
  let p : Polling := { p with i := p.i + n, nPrepared := p.nPrepared + n, reply := none }
  if p.i < p.trans.transList.length then return .polling p
  else if p.nPrepared = p.trans.transList.length then decideCommit p p.maxCommitTs
  else pollRound self p.beginTs p.trans

/-- The task goes on after the answer of the peer at `p.i`. -/
def onTransStateRes (self : Host) (p : Polling) (res : TransStateRes) : Db TaskState :=
  let trans := { p.trans with
    transList := p.trans.transList.modify p.i fun e => { e with state := res.transStat } }
  let p := { p with trans := trans }
  match res.transStat with
  | .begin => pollNext self { p with i := p.i + 1 }
  | .prepared =>
    pollNext self { p with
      i := p.i + 1
      nPrepared := p.nPrepared + 1
      maxCommitTs := if p.maxCommitTs < res.commitTs then res.commitTs else p.maxCommitTs }
  | .commited =>
    if res.commitTs < p.maxCommitTs ∧ p.trans.selfCommitTs ≠ "" then .abort
    else decideCommit p res.commitTs
  | .rollback => decideRollback p

/-- `prepare_routine` from a `begin_ts` just handed over to its first socket call. An empty one
counts as none, and the task goes back onto the stack. -/
def prepareRoutine (self : Host) (beginTs : String) : Db TaskState := do
  if beginTs = "" then return .idle
  else
    match ← dbGet (makeTrans beginTs) with
    | .found r =>
      let trans := r.toTrans
      if trans.state ≠ .prepared then return .idle
      else pollRound self beginTs trans
    | _ => return .ended

/-- `idle` is the size of `prepareTaskStack`; `top()` of an empty stack is undefined behaviour and
taken as the end of the process. The result is the task that was resumed, if any. -/
def startCleanTrans (self : Host) (idle : Nat) (beginTs : String) : Db (Option TaskState) := do
  match ← dbGet (makeTrans beginTs) with
  | .found r =>
    let trans := r.toTrans
    match trans.state with
    | .begin =>
      if ← dbPut (makeTrans beginTs) (.trans { trans with state := .rollback }) then return none
      else .abort
    | .prepared =>
      if idle = 0 then .abort
      else return some (← prepareRoutine self beginTs)
    | _ => return none
  | _ => return none

/-- The keys that an iterator meets from `Seek(prefix)` on while they start with the prefix. -/
def transEntries (l : List (String × Record)) : List (String × Record) :=
  (l.dropWhile fun e => e.1 < makeTrans "").takeWhile fun e =>
    (makeTrans "").toList.isPrefixOf e.1.toList

def startUpLoop (self : Host) : Nat → List (String × Record) → Db (List TaskState)
  | _, [] => return []
  | idle, (key, r) :: rest => do
    let trans := r.toTrans
    match trans.state with
    | .begin =>
      if ← dbPut key (.trans { trans with state := .rollback }) then startUpLoop self idle rest
      else .abort
    | .prepared =>
      match ← startCleanTrans self idle (parseTrans key) with
      | none => startUpLoop self idle rest
      | some .idle => startUpLoop self idle rest
      | some t => return t :: (← startUpLoop self (idle - 1) rest)
    | _ => startUpLoop self idle rest

/-- The tasks that were resumed and are not on the stack again. -/
def startUpClean (self : Host) (idle : Nat) : Db (List TaskState) :=
  .scan fun l => startUpLoop self idle (transEntries l)

end Tpc
