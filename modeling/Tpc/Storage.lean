import Tpc.Records

/-! `Core/Storage.cpp` without its start-up and clean-up functions: each function is a program over
the database of its node, with the return codes of the source. -/

namespace Tpc
open Durable

/-- A client session of one `logicServ` process. -/
structure CoordId where
  serv : Nat
  session : Nat
deriving DecidableEq, Repr

/-- An operating system process, with a clock of its own. -/
inductive Proc
  | storage (h : Host)
  | logic (serv : Nat)
deriving DecidableEq, Repr

structure ReadRes where
  code : Int
  value : String := ""
  retBeginTs : String := ""
  retStartTs : String := ""
  retCommitTs : String := ""
deriving DecidableEq, Repr

/-- What a history records of the handlers, next to clock readings and lost processes. -/
inductive Event
  /-- `addLock` returned 0 -/
  | locked (h : Host) (key beginTs : String)
  /-- `addData` returned 0 -/
  | wrote (h : Host) (key beginTs : String) (type : RequestType) (value : String)
  /-- a `readData` for transaction `beginTs`, called with `inBeginTs` -/
  | read (h : Host) (beginTs key : String) (forUpdate : Bool) (inBeginTs : String) (res : ReadRes)
  | begun (c : CoordId) (beginTs : String)
  /-- the participants of a Commit request are fixed -/
  | prepare (c : CoordId) (beginTs startTs : String) (hosts : List Host)
  /-- an answer is counted as the answer to Prepare -/
  | answered (c : CoordId) (beginTs : String) (h : Host) (result : Nat)
  | replied (c : CoordId) (type : RequestType) (beginTs : String) (res : CliRes)
  /-- the client sent more bytes before it had its reply -/
  | early (c : CoordId)
deriving DecidableEq, Repr

abbrev Db := Prog String Record Timeval Event

abbrev Hist := List (Entry Proc Timeval Event)

abbrev DbWorld := World String Record Proc Timeval Event

def dbGet (key : String) : Db (Got Record) := .get key .ret

def dbPut (key : String) (r : Record) : Db Bool := .put key r .ret

def readTS : Db String := .clock fun tv => .ret (getTS tv)

def note (e : Event) : Db Unit := .tell e (.ret ())

def addTrans (beginTs : String) : Db Int := do
  match ← dbGet (makeTrans beginTs) with
  | .notFound =>
    if ← dbPut (makeTrans beginTs) (.trans { state := .begin }) then return 0
    else return -2
  | _ => return -1

def addLock (key beginTs : String) : Db Int := do
  match ← dbGet (makeLock key) with
  | .found r =>
    let lock := r.toLock
    if lock.trans ≠ beginTs then
      match ← dbGet (makeTrans lock.trans) with
      | .found r =>
        let trans := r.toTrans
        if trans.state = .rollback ∨ trans.state = .commited then
          if ← dbPut (makeLock key) (.lock { trans := beginTs }) then return 0
          else return -2
        else return -1
      | _ => return -11
    else return 0
  | .notFound =>
    if ← dbPut (makeLock key) (.lock { trans := beginTs }) then return 0
    else return -2
  | .error => return 0

def addData (key value beginTs : String) (type : RequestType) : Db Int := do
  match ← dbGet (makeDataEntry key) with
  | .found r =>
    let data := r.toData
    if data.curVersion = beginTs then
      if ← dbPut (makeDataEntry key) (.data { data with state := type, value := value }) then
        return 0
      else return -1
    else
      if ← dbPut (makeData key data.curVersion) (.data data) then
        let dataEntry : Data :=
          { state := type, value := value, next := data.curVersion, curVersion := beginTs }
        if ← dbPut (makeDataEntry key) (.data dataEntry) then return 0
        else return -2
      else return -2
  | _ =>
    let data : Data := { state := type, value := value, next := "", curVersion := beginTs }
    if ← dbPut (makeDataEntry key) (.data data) then return 0
    else return -3

def preparedTrans (selfHashId : Nat) (rpcReq : RpcReq) (trans : Trans) : Trans :=
  { trans with
    state := .prepared
    startTrans := rpcReq.startTs
    transList := trans.transList ++ rpcReq.transList.map fun host =>
      { host := host, state := if host.hashId = selfHashId then .prepared else .begin } }

def updateTransPrepared (selfHashId : Nat) (beginTs : String) (rpcReq : RpcReq) : Db Int := do
  match ← dbGet (makeTrans beginTs) with
  | .found r =>
    let trans := r.toTrans
    if trans.state ≠ .begin then return -2
    else
      if ← dbPut (makeTrans beginTs) (.trans (preparedTrans selfHashId rpcReq trans)) then return 0
      else return -3
  | _ => return -1

/-- `status.code()` is 1 for a missing record; 5 stands for every other failing status. -/
def updateTransSelfCommitTs (beginTs selfCommitTs : String) : Db Int := do
  match ← dbGet (makeTrans beginTs) with
  | .found r =>
    let trans := r.toTrans
    if trans.state ≠ .prepared then return -2
    else
      if ← dbPut (makeTrans beginTs) (.trans { trans with selfCommitTs := selfCommitTs }) then
        return 0
      else return 5
  | .notFound => return 1
  | .error => return 5

/-- The loop of `ReadData` from the version `loopBeginTs` on, the entry when it is empty. -/
def readData (beginTs key : String) : Nat → String → Db ReadRes
  | 0, _ => .spin
  | fuel + 1, loopBeginTs => do
    let datakey := if loopBeginTs = "" then makeDataEntry key else makeData key loopBeginTs
    match ← dbGet datakey with
    | .found r =>
      let data := r.toData
      if data.curVersion = beginTs then
        return { code := if data.state = .delete then 33 else 0,
                 value := data.value, retBeginTs := data.curVersion }
      else
        match ← dbGet (makeTrans data.curVersion) with
        | .found r =>
          let trans := r.toTrans
          let older : Db ReadRes :=
            if data.next = "" then return { code := 99 } else readData beginTs key fuel data.next
          match trans.state with
          | .begin => older
          | .prepared =>
            if trans.startTrans < beginTs then
              return { code := 66, retBeginTs := data.curVersion, retStartTs := trans.startTrans,
                       retCommitTs := trans.commitTrans }
            else older
          | .commited =>
            if trans.commitTrans < beginTs then
              return { code := if data.state = .delete then 33 else 0,
                       value := data.value, retBeginTs := data.curVersion,
                       retStartTs := trans.startTrans, retCommitTs := trans.commitTrans }
            else older
          | .rollback => older
        | _ => return { code := -1 }
    | .notFound => return { code := 99 }
    | .error => .abort

end Tpc
