import Tpc.StorageServ

/-! The session state of `logicServ.cpp` and the replies of its `readwrite_routine`. The routine is
cut at its socket calls; the cuts are the values of `CoordPc`. -/

namespace Tpc

inductive Stat
  | init
  | hasBegin
deriving DecidableEq, Repr

structure StorageCl where
  fd : Option Nat := none
  stat : Stat := .init
deriving DecidableEq, Repr

inductive CoordPc
  /-- the poll and the read at the head of the loop over client requests -/
  | top
  /-- in `getFd`, after sending Begin to `host` for the request `req` -/
  | beginSent (host : Host) (req : CliReq)
  /-- in the wait loop after sending the operation to `host` -/
  | opSent (host : Host) (req : CliReq)
  /-- in Commit, with Prepare still to be sent to `todo`; with nothing to send, in the loop that
  collects the answers -/
  | preparing (todo : List Host) (msg : RpcReq)
  /-- `storageCl` points to the table that Rollback has freed; its further use is undefined -/
  | dangling
  | closed
deriving DecidableEq, Repr

/-- A client session; the table is indexed by the hosts of the configuration. -/
structure Coord where
  beginTs : String := ""
  startTs : String := ""
  storageCl : Host → StorageCl := fun _ => {}
  pc : CoordPc := .top
  /-- the client has closed its end -/
  gone : Bool := false

structure Config where
  hosts : List Host
  hashId_nodup : (hosts.map Host.hashId).Nodup

namespace Config

theorem hosts_nodup (cfg : Config) : cfg.hosts.Nodup := .of_map _ cfg.hashId_nodup

theorem hashId_inj (cfg : Config) {h h' : Host} (hh : h ∈ cfg.hosts) (hh' : h' ∈ cfg.hosts)
    (he : h.hashId = h'.hashId) : h = h' := List.inj_on_of_nodup_map cfg.hashId_nodup hh hh' he

def hostOf (cfg : Config) (key : String) : Option Host := cfg.hosts[getHash key cfg.hosts.length]?

theorem mem_hosts_of_hostOf {cfg : Config} {key : String} {h : Host} (hh : cfg.hostOf key = some h) :
    h ∈ cfg.hosts := List.mem_of_getElem? hh

end Config

namespace Coord

def participants (cfg : Config) (co : Coord) : List Host :=
  cfg.hosts.filter fun h => (co.storageCl h).fd.isSome && (co.storageCl h).stat = .hasBegin

def setSlot (co : Coord) (h : Host) (sl : StorageCl) : Coord :=
  { co with storageCl := Function.update co.storageCl h sl }

end Coord

def beginReq (beginTs : String) : RpcReq := { requestType := .begin, beginTs := beginTs }

def opReq (beginTs : String) (req : CliReq) : RpcReq :=
  { requestType := req.requestType, beginTs := beginTs, key := req.key, value := req.value,
    getForUpdate := req.getForUpdate }

def prepareReq (beginTs startTs : String) (hosts : List Host) : RpcReq :=
  { requestType := .prepare, beginTs := beginTs, startTs := startTs, transList := hosts }

/-- The reply to an operation, from the storage node's message; a message of another type has an
empty `rpc_response`. -/
def opReply : ResMsg → CliRes
  | .rpcResponse res =>
    { result := res.result, errMsg := res.errMsg, key := res.key, value := res.value,
      beginTs := res.beginTs, startTs := res.startTs, commitTs := res.commitTs }
  | .transStateResponse _ => {}

end Tpc
