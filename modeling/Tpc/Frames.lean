import Mathlib.Data.List.TakeWhile
import Tpc.Keys
import Tpc.Notes

/-! Which keys the functions of a storage node write: the handlers of operations leave the
transaction records alone, all other code leaves the locks and the versions alone. -/

namespace Tpc
open Durable

def TransKey (k : String) : Prop := ∃ T, k = makeTrans T

theorem only_ite {α : Type} {D : String → Prop} {S : α → Prop} {c : Prop} [Decidable c]
    {p q : Db α} : (if c then p else q).Only D S ↔ if c then p.Only D S else q.Only D S := by
  split_ifs <;> rfl

theorem makeTrans_of_mem_transEntries {l : List (String × Record)} {e : String × Record}
    (h : e ∈ transEntries l) : ∃ T, e.1 = makeTrans T := by
  have hp := List.mem_takeWhile_imp (p := fun e : String × Record =>
    (makeTrans "").toList.isPrefixOf e.1.toList) h
  obtain ⟨t, ht⟩ := List.isPrefixOf_iff_prefix.mp hp
  refine ⟨String.ofList t, String.toList_inj.mp ?_⟩
  rw [← ht]
  simp [makeTrans]

section Trans

variable {D : String → Prop} (hD : ∀ T, D (makeTrans T))

include hD

theorem addTrans_only (T : String) : (addTrans T).Only D fun _ => True := by
  simp [addTrans, dbGet, dbPut, Prog.bind, Prog.Only, forall_got, hD]

theorem updateTransPrepared_only (id : Nat) (T : String) (req : RpcReq) :
    (updateTransPrepared id T req).Only D fun _ => True := by
  simp [updateTransPrepared, dbGet, dbPut, Prog.bind, Prog.Only, forall_got, only_ite, hD]

theorem updateTransSelfCommitTs_only (T ts : String) :
    (updateTransSelfCommitTs T ts).Only D fun _ => True := by
  simp [updateTransSelfCommitTs, dbGet, dbPut, Prog.bind, Prog.Only, forall_got, only_ite, hD]

theorem decideCommit_only (p : Polling) (ts : String) :
    (decideCommit p ts).Only D fun _ => True := by
  simp [decideCommit, dbPut, Prog.bind, Prog.Only, hD]

theorem decideRollback_only (p : Polling) : (decideRollback p).Only D fun _ => True := by
  simp [decideRollback, dbPut, Prog.bind, Prog.Only, hD]

theorem pollRound_only (self : Host) (T : String) (trans : Trans) :
    (pollRound self T trans).Only D fun _ => True := by
  simp only [pollRound, Prog.bind_eq]
  split_ifs <;> simp [readTS, Prog.bind, Prog.Only, decideCommit_only hD]

theorem pollNext_only (self : Host) (p : Polling) : (pollNext self p).Only D fun _ => True := by
  simp only [pollNext]
  split_ifs
  · trivial
  · exact decideCommit_only hD _ _
  · exact pollRound_only hD _ _ _

theorem onTransStateRes_only (self : Host) (p : Polling) (res : TransStateRes) :
    (onTransStateRes self p res).Only D fun _ => True := by
  simp only [onTransStateRes]
  cases res.transStat with
  | begin => exact pollNext_only hD _ _
  | prepared => exact pollNext_only hD _ _
  | commited =>
    simp only
    split_ifs
    · trivial
    · exact decideCommit_only hD _ _
  | rollback => exact decideRollback_only hD _

theorem prepareRoutine_only (self : Host) (T : String) :
    (prepareRoutine self T).Only D fun _ => True := by
  rw [prepareRoutine]
  split_ifs
  · trivial
  simp only [dbGet, Prog.bind_eq, Prog.bind, Prog.Only, forall_got]
  refine ⟨trivial, trivial, fun r => ?_⟩
  split_ifs
  · trivial
  · exact pollRound_only hD _ _ _

theorem startCleanTrans_only (self : Host) (idle : Nat) (T : String) :
    (startCleanTrans self idle T).Only D fun _ => True := by
  simp only [startCleanTrans, dbGet, Prog.bind_eq, Prog.bind, Prog.Only, forall_got]
  refine ⟨trivial, trivial, fun r => ?_⟩
  cases r.toTrans.state with
  | begin => simp [dbPut, Prog.bind, Prog.Only, hD]
  | prepared =>
    simp only
    split_ifs
    · trivial
    · exact Prog.only_bind (prepareRoutine_only hD self T) fun _ _ => trivial
  | commited => trivial
  | rollback => trivial

theorem startUpLoop_only (self : Host) (l : List (String × Record))
    (hl : ∀ e ∈ l, ∃ T, e.1 = makeTrans T) (idle : Nat) :
    (startUpLoop self idle l).Only D fun _ => True := by
  induction l generalizing idle with
  | nil => simp [startUpLoop, Prog.Only]
  | cons e l ih =>
    obtain ⟨key, r⟩ := e
    obtain ⟨T, rfl⟩ : ∃ T, key = makeTrans T := hl _ (.head _)
    have ih := ih fun e he => hl e (.tail _ he)
    simp only [startUpLoop]
    cases r.toTrans.state with
    | begin => simp [dbPut, Prog.bind, Prog.Only, ih, hD]
    | prepared =>
      refine Prog.only_bind (startCleanTrans_only hD self idle _) fun o _ => ?_
      rcases o with - | (- | p | -)
      · exact ih idle
      · exact ih idle
      · exact Prog.only_bind (ih (idle - 1)) fun _ _ => trivial
      · exact Prog.only_bind (ih (idle - 1)) fun _ _ => trivial
    | commited => exact ih idle
    | rollback => exact ih idle

omit hD in
theorem startUpClean_only (self : Host) (idle : Nat) :
    (startUpClean self idle).Only TransKey fun _ => True :=
  fun _ => startUpLoop_only (fun T => ⟨T, rfl⟩) self _
    (fun _ he => makeTrans_of_mem_transEntries he) idle

theorem onClose_only (self : Host) (idle : Nat) (v : Vars) :
    (onClose self idle v).Only D fun _ => True := by
  simp only [onClose]
  split_ifs
  · trivial
  · exact startCleanTrans_only hD _ _ _

theorem serveBegin_only (v : Vars) (req : RpcReq) : (serveBegin v req).Only D fun _ => True := by
  simp only [serveBegin]
  split_ifs
  · trivial
  · refine Prog.only_bind (addTrans_only hD _) fun ret _ => ?_
    split_ifs <;> trivial

theorem servePrepare_only (self : Host) (idle : Nat) (v : Vars) (req : RpcReq) :
    (servePrepare self idle v req).Only D fun _ => True := by
  simp only [servePrepare]
  split_ifs
  · trivial
  · trivial
  · refine Prog.only_bind (updateTransPrepared_only hD _ _ _) fun ret _ => ?_
    split_ifs
    · trivial
    · intro tv
      change ((updateTransSelfCommitTs v.beginTs (getTS tv)).bind _).Only D _
      refine Prog.only_bind (updateTransSelfCommitTs_only hD _ _) fun ret _ => ?_
      split_ifs
      · trivial
      · exact Prog.only_bind (startCleanTrans_only hD _ _ _) fun _ _ => trivial

end Trans

section Access

variable {D : String → Prop} {self : Host} {fuel : Nat} {v : Vars} {req : RpcReq} {res : RpcRes}

theorem addLock_only {key : String} (hD : D (makeLock key)) (T : String) :
    (addLock key T).Only D fun _ => True := by
  simp only [addLock, dbGet, dbPut, Prog.bind_eq, Prog.bind, Prog.Only, forall_got]
  refine ⟨trivial, by simp [Prog.Only, hD], fun r => ?_⟩
  split_ifs <;> simp [Prog.Only, forall_got, only_ite, hD]

theorem addData_only {key : String} (hD : D (makeDataEntry key)) (hD' : ∀ v, D (makeData key v))
    (value T : String) (type : RequestType) :
    (addData key value T type).Only D fun _ => True := by
  simp only [addData, dbGet, dbPut, Prog.bind_eq, Prog.bind, Prog.Only, forall_got]
  refine ⟨by simp [Prog.Only, hD], by simp [Prog.Only, hD], fun r => ?_⟩
  split_ifs <;> simp [Prog.Only, hD, hD']

theorem readData_only (T key : String) (fuel : Nat) (loopBeginTs : String) :
    (readData T key fuel loopBeginTs).Only D fun _ => True := by
  induction fuel generalizing loopBeginTs with
  | zero => trivial
  | succ fuel ih =>
    simp only [readData, dbGet, Prog.bind_eq, Prog.bind, Prog.Only, forall_got]
    refine ⟨trivial, trivial, fun r => ?_⟩
    by_cases hT : r.toData.curVersion = T
    · rw [if_pos hT]
      trivial
    · rw [if_neg hT]
      simp only [Prog.Only, forall_got]
      refine ⟨trivial, trivial, fun t => ?_⟩
      cases t.toTrans.state <;> simp [only_ite, ih, Prog.Only]

def Seg.Keeps (v : Vars) (seg : Seg) : Prop := seg.vars = v ∧ seg.task = none

theorem readSeg_keeps (v : Vars) (req : RpcReq) (res : RpcRes) (r : ReadRes) :
    (readSeg v req res r).Keeps v := by
  unfold readSeg
  split_ifs <;> exact ⟨rfl, rfl⟩

theorem readRound_only : (readRound self fuel v req res).Only D (Seg.Keeps v) := by
  have go : ∀ ts, ((readData ts req.key fuel "").bind fun r =>
      (note (.read self v.beginTs req.key (req.getForUpdate ≠ 0) ts r)).bind fun _ =>
        Prog.ret (readSeg v req res r)).Only D (Seg.Keeps v) :=
    fun ts => Prog.only_bind (readData_only _ _ _ _) fun r _ => readSeg_keeps v req res r
  simp only [readRound]
  split_ifs
  · exact fun tv => go (getTS tv)
  · exact go v.beginTs

theorem serveGet_only (hD : D (makeLock req.key)) :
    (serveGet self fuel v req res).Only D (Seg.Keeps v) := by
  simp only [serveGet]
  split_ifs
  · refine Prog.only_bind (addLock_only hD _) fun ret _ => ?_
    split_ifs
    · exact ⟨rfl, rfl⟩
    · exact readRound_only
  · exact readRound_only

theorem serveWrite_only (hD : D (makeLock req.key)) (hD' : D (makeDataEntry req.key))
    (hD'' : ∀ v, D (makeData req.key v)) : (serveWrite self v req res).Only D (Seg.Keeps v) := by
  simp only [serveWrite]
  refine Prog.only_bind (addLock_only hD _) fun ret _ => ?_
  split_ifs
  · exact ⟨rfl, rfl⟩
  · change ((addData req.key req.value v.beginTs req.requestType).bind _).Only D _
    refine Prog.only_bind (addData_only hD' hD'' _ _ _) fun ret _ => ?_
    split_ifs
    · exact ⟨rfl, rfl⟩
    · exact ⟨rfl, rfl⟩

end Access

def RpcReq.IsOp (req : RpcReq) : Prop := req.requestType ≠ .begin ∧ req.requestType ≠ .prepare

theorem onMessage_only {self : Host} {idle fuel : Nat} {v : Vars} {req : RpcReq} (h : req.IsOp) :
    (onMessage self idle fuel v (.rpcRequest req)).Only (fun k => ¬ TransKey k) (Seg.Keeps v) := by
  have hlock : ∀ k, ¬ TransKey (makeLock k) := fun k ⟨T, hT⟩ => makeLock_ne_makeTrans k T hT
  have hentry : ∀ k, ¬ TransKey (makeDataEntry k) :=
    fun k ⟨T, hT⟩ => makeDataEntry_ne_makeTrans k T hT
  have hdata : ∀ k v, ¬ TransKey (makeData k v) :=
    fun k v ⟨T, hT⟩ => makeData_ne_makeTrans k v T hT
  simp only [onMessage]
  cases hr : req.requestType with
  | begin => exact absurd hr h.1
  | prepare => exact absurd hr h.2
  | commit => exact (by split_ifs <;> exact ⟨rfl, rfl⟩)
  | rollback => exact ⟨rfl, rfl⟩
  | get =>
    simp only
    split_ifs
    · exact ⟨rfl, rfl⟩
    · exact serveGet_only (hlock _)
  | delete | insert | update =>
    simp only
    split_ifs
    · exact ⟨rfl, rfl⟩
    · exact serveWrite_only (hlock _) (hentry _) (hdata _)

theorem onTimeout_only {self : Host} {fuel : Nat} {v : Vars} {wt : Wait} :
    (onTimeout self fuel v wt).Only (fun k => ¬ TransKey k) (Seg.Keeps v) := by
  have hlock : ∀ k, ¬ TransKey (makeLock k) := fun k ⟨T, hT⟩ => makeLock_ne_makeTrans k T hT
  have hentry : ∀ k, ¬ TransKey (makeDataEntry k) :=
    fun k ⟨T, hT⟩ => makeDataEntry_ne_makeTrans k T hT
  have hdata : ∀ k v, ¬ TransKey (makeData k v) :=
    fun k v ⟨T, hT⟩ => makeData_ne_makeTrans k v T hT
  cases wt with
  | idle => exact ⟨rfl, rfl⟩
  | lock req res =>
    simp only [onTimeout]
    split_ifs
    · exact serveGet_only (hlock _)
    · exact serveWrite_only (hlock _) (hentry _) (hdata _)
  | read req res => exact readRound_only

end Tpc
