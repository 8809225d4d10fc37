import Mathlib.Algebra.Group.Int.Defs
import Mathlib.Algebra.Group.Nat.Defs
import Tpc.Lib.Durable

/-! The messages of `rpc.proto` and `config.proto`, the records of `storage.proto` and the keys
under which a storage node keeps them. Every message is kept decoded: the JSON codec is taken to
round-trip. A field that is not set has the value proto2 reads for it, for an enumeration the
first constructor. -/

namespace Tpc

inductive RequestType
  | begin
  | prepare
  | commit
  | rollback
  | delete
  | insert
  | update
  | get
deriving DecidableEq, Repr

inductive TransState
  | begin
  | prepared
  | commited
  | rollback
deriving DecidableEq, Repr

structure Host where
  hashId : Nat
  host : String
  port : Nat
deriving DecidableEq, Repr

structure RpcReq where
  requestType : RequestType := .begin
  beginTs : String := ""
  key : String := ""
  value : String := ""
  startTs : String := ""
  transList : List Host := []
  getForUpdate : Nat := 0
deriving DecidableEq, Repr

structure RpcRes where
  result : Nat := 0
  errMsg : String := ""
  beginTs : String := ""
  key : String := ""
  value : String := ""
  startTs : String := ""
  commitTs : String := ""
deriving DecidableEq, Repr

structure CliReq where
  requestType : RequestType := .begin
  key : String := ""
  value : String := ""
  getForUpdate : Nat := 0
deriving DecidableEq, Repr

structure CliRes where
  result : Nat := 0
  errMsg : String := ""
  beginTs : String := ""
  key : String := ""
  value : String := ""
  startTs : String := ""
  commitTs : String := ""
deriving DecidableEq, Repr

structure TransStateReq where
  beginTs : String := ""
deriving DecidableEq, Repr

structure TransStateRes where
  transStat : TransState := .begin
  commitTs : String := ""
  result : Nat := 0
  errMsg : String := ""
deriving DecidableEq, Repr

structure Data where
  state : RequestType := .begin
  value : String := ""
  next : String := ""
  curVersion : String := ""
deriving DecidableEq, Repr

structure Lock where
  trans : String := ""
deriving DecidableEq, Repr

structure TransList where
  host : Host
  state : TransState := .begin
deriving DecidableEq, Repr

structure Trans where
  state : TransState := .begin
  commitTrans : String := ""
  startTrans : String := ""
  transList : List TransList := []
  selfCommitTs : String := ""
deriving DecidableEq, Repr

inductive Record
  | trans (t : Trans)
  | lock (l : Lock)
  | data (d : Data)
deriving DecidableEq, Repr

namespace Record

/-- Reading a value as a transaction record; the fields of another message do not match. -/
def toTrans : Record → Trans
  | trans t => t
  | _ => {}

def toLock : Record → Lock
  | lock l => l
  | _ => {}

def toData : Record → Data
  | data d => d
  | _ => {}

end Record

def makeTrans (ts : String) : String := "trans_" ++ ts

/-- `key.substr(strlen("trans_"))` -/
def parseTrans (key : String) : String := String.ofList (key.toList.drop 6)

def makeLock (key : String) : String := "lock_" ++ key

def makeDataEntry (key : String) : String := "data_" ++ key ++ "_entry"

def makeData (key beginTs : String) : String := "data_" ++ key ++ "_" ++ beginTs

structure Timeval where
  sec : Nat
  usec : Nat
deriving DecidableEq, Repr

def getTS (tv : Timeval) : String := "ts" ++ toString (tv.sec * 1000000 * 10 + tv.usec)

/-- The sum of the bytes of a key, each a signed `char`, in `unsigned int` arithmetic. -/
def byteSum (key : String) : Nat :=
  (key.toList.flatMap String.utf8EncodeChar).foldl
    (fun n b => (n + if b.toNat < 128 then b.toNat else b.toNat + (2 ^ 32 - 256)) % 2 ^ 32) 0

def getHash (key : String) (size : Nat) : Nat := byteSum key % size

def toUInt32 (ret : Int) : Nat := (ret % 2 ^ 32).toNat

example : getHash "b" 2 = 0 ∧ getHash "a" 2 = 1 := by decide

end Tpc
