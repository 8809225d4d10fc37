import Tpc.StorageServ

/-! The notes that the functions of a storage node leave in a history. -/

namespace Tpc
open Durable

variable {N : Event → Prop}

theorem forall_got {V : Type} {P : Got V → Prop} :
    (∀ r, P r) ↔ P .error ∧ P .notFound ∧ ∀ v, P (.found v) := by
  constructor
  · exact fun h => ⟨h _, h _, fun v => h _⟩
  · rintro ⟨he, hn, hf⟩ r
    cases r with
    | error => exact he
    | notFound => exact hn
    | found v => exact hf v

theorem tells_ite {α : Type} {c : Prop} [Decidable c] {p q : Db α} :
    (if c then p else q).Tells N ↔ if c then p.Tells N else q.Tells N := by
  split_ifs <;> rfl

theorem addTrans_tells (T : String) : (addTrans T).Tells N := by
  simp [addTrans, dbGet, dbPut, Prog.bind, Prog.Tells, forall_got]

theorem addLock_tells (key T : String) : (addLock key T).Tells N := by
  simp only [addLock, dbGet, dbPut, Prog.bind_eq, Prog.bind, Prog.Tells, forall_got]
  refine ⟨trivial, by simp [Prog.Tells], fun r => ?_⟩
  split_ifs <;> simp [Prog.Tells, forall_got, tells_ite]

theorem addData_tells (key value T : String) (type : RequestType) :
    (addData key value T type).Tells N := by
  simp only [addData, dbGet, dbPut, Prog.bind_eq, Prog.bind, Prog.Tells, forall_got]
  refine ⟨by simp [Prog.Tells], by simp [Prog.Tells], fun r => ?_⟩
  split_ifs <;> simp [Prog.Tells]

theorem updateTransPrepared_tells (id : Nat) (T : String) (req : RpcReq) :
    (updateTransPrepared id T req).Tells N := by
  simp [updateTransPrepared, dbGet, dbPut, Prog.bind, Prog.Tells, forall_got, tells_ite]

theorem updateTransSelfCommitTs_tells (T ts : String) :
    (updateTransSelfCommitTs T ts).Tells N := by
  simp [updateTransSelfCommitTs, dbGet, dbPut, Prog.bind, Prog.Tells, forall_got, tells_ite]

theorem readData_tells (T key : String) (fuel : Nat) (loopBeginTs : String) :
    (readData T key fuel loopBeginTs).Tells N := by
  induction fuel generalizing loopBeginTs with
  | zero => trivial
  | succ fuel ih =>
    simp only [readData, dbGet, Prog.bind_eq, Prog.bind, Prog.Tells, forall_got]
    refine ⟨trivial, trivial, fun r => ?_⟩
    by_cases hT : r.toData.curVersion = T
    · rw [if_pos hT]
      trivial
    · rw [if_neg hT]
      simp only [Prog.Tells, forall_got]
      refine ⟨trivial, trivial, fun t => ?_⟩
      cases t.toTrans.state <;> simp [tells_ite, ih, Prog.Tells]

theorem decideCommit_tells (p : Polling) (ts : String) : (decideCommit p ts).Tells N := by
  simp [decideCommit, dbPut, Prog.bind, Prog.Tells]

theorem decideRollback_tells (p : Polling) : (decideRollback p).Tells N := by
  simp [decideRollback, dbPut, Prog.bind, Prog.Tells]

theorem pollRound_tells (self : Host) (T : String) (trans : Trans) :
    (pollRound self T trans).Tells N := by
  simp only [pollRound, Prog.bind_eq]
  split_ifs <;> simp [readTS, Prog.bind, Prog.Tells, decideCommit_tells]

theorem pollNext_tells (self : Host) (p : Polling) : (pollNext self p).Tells N := by
  simp only [pollNext]
  split_ifs
  · trivial
  · exact decideCommit_tells _ _
  · exact pollRound_tells _ _ _

theorem onTransStateRes_tells (self : Host) (p : Polling) (res : TransStateRes) :
    (onTransStateRes self p res).Tells N := by
  simp only [onTransStateRes]
  cases res.transStat with
  | begin => exact pollNext_tells _ _
  | prepared => exact pollNext_tells _ _
  | commited =>
    simp only
    split_ifs
    · trivial
    · exact decideCommit_tells _ _
  | rollback => exact decideRollback_tells _

theorem prepareRoutine_tells (self : Host) (T : String) : (prepareRoutine self T).Tells N := by
  rw [prepareRoutine]
  split_ifs
  · trivial
  simp only [dbGet, Prog.bind_eq, Prog.bind, Prog.Tells, forall_got]
  refine ⟨trivial, trivial, fun r => ?_⟩
  split_ifs
  · trivial
  · exact pollRound_tells _ _ _

theorem startCleanTrans_tells (self : Host) (idle : Nat) (T : String) :
    (startCleanTrans self idle T).Tells N := by
  simp only [startCleanTrans, dbGet, Prog.bind_eq, Prog.bind, Prog.Tells, forall_got]
  refine ⟨trivial, trivial, fun r => ?_⟩
  cases r.toTrans.state with
  | begin => simp [dbPut, Prog.bind, Prog.Tells]
  | prepared =>
    simp only
    split_ifs
    · trivial
    · exact Prog.tells_bind (prepareRoutine_tells self T) fun _ => trivial
  | commited => trivial
  | rollback => trivial

theorem startUpLoop_tells (self : Host) (l : List (String × Record)) (idle : Nat) :
    (startUpLoop self idle l).Tells N := by
  induction l generalizing idle with
  | nil => simp [startUpLoop, Prog.Tells]
  | cons e l ih =>
    obtain ⟨key, r⟩ := e
    simp only [startUpLoop]
    cases r.toTrans.state with
    | begin => simp [dbPut, Prog.bind, Prog.Tells, ih]
    | prepared =>
      refine Prog.tells_bind (startCleanTrans_tells self idle _) fun o => ?_
      rcases o with - | (- | p | -)
      · exact ih idle
      · exact ih idle
      · exact Prog.tells_bind (ih (idle - 1)) fun _ => trivial
      · exact Prog.tells_bind (ih (idle - 1)) fun _ => trivial
    | commited => exact ih idle
    | rollback => exact ih idle

theorem startUpClean_tells (self : Host) (idle : Nat) : (startUpClean self idle).Tells N :=
  fun l => startUpLoop_tells self (transEntries l) idle

theorem onClose_tells (self : Host) (idle : Nat) (v : Vars) : (onClose self idle v).Tells N := by
  simp only [onClose]
  split_ifs
  · trivial
  · exact startCleanTrans_tells _ _ _

theorem serveBegin_tells (v : Vars) (req : RpcReq) : (serveBegin v req).Tells N := by
  simp only [serveBegin]
  split_ifs
  · trivial
  · refine Prog.tells_bind (addTrans_tells _) fun ret => ?_
    split_ifs <;> trivial

theorem servePrepare_tells (self : Host) (idle : Nat) (v : Vars) (req : RpcReq) :
    (servePrepare self idle v req).Tells N := by
  simp only [servePrepare]
  split_ifs
  · trivial
  · trivial
  · refine Prog.tells_bind (updateTransPrepared_tells _ _ _) fun ret => ?_
    split_ifs
    · trivial
    · refine Prog.tells_bind (fun _ => trivial) fun ts => ?_
      refine Prog.tells_bind (updateTransSelfCommitTs_tells _ ts) fun ret => ?_
      split_ifs
      · trivial
      · exact Prog.tells_bind (startCleanTrans_tells _ _ _) fun _ => trivial

theorem serveTransState_tells (v : Vars) (req : TransStateReq) :
    (serveTransState v req).Tells N := by
  simp [serveTransState, dbGet, Prog.bind, Prog.Tells, forall_got]

theorem readRound_tells {self : Host} {fuel : Nat} {v : Vars} {req : RpcReq} {res : RpcRes}
    (hN : ∀ ts r, N (.read self v.beginTs req.key (req.getForUpdate ≠ 0) ts r)) :
    (readRound self fuel v req res).Tells N := by
  have go : ∀ ts, ((readData ts req.key fuel "").bind fun r =>
      (note (.read self v.beginTs req.key (req.getForUpdate ≠ 0) ts r)).bind fun _ =>
        Prog.ret (readSeg v req res r)).Tells N :=
    fun ts => Prog.tells_bind (readData_tells _ _ _ _) fun r => ⟨hN ts r, trivial⟩
  simp only [readRound]
  split_ifs
  · exact fun tv => go (getTS tv)
  · exact go v.beginTs

theorem serveGet_tells {self : Host} {fuel : Nat} {v : Vars} {req : RpcReq} {res : RpcRes}
    (hL : N (.locked self req.key v.beginTs))
    (hN : ∀ ts r, N (.read self v.beginTs req.key (req.getForUpdate ≠ 0) ts r)) :
    (serveGet self fuel v req res).Tells N := by
  simp only [serveGet]
  split_ifs
  · refine Prog.tells_bind (addLock_tells _ _) fun ret => ?_
    split_ifs
    · trivial
    · exact ⟨hL, readRound_tells hN⟩
  · exact readRound_tells hN

theorem serveWrite_tells {self : Host} {v : Vars} {req : RpcReq} {res : RpcRes}
    (hL : N (.locked self req.key v.beginTs))
    (hW : N (.wrote self req.key v.beginTs req.requestType req.value)) :
    (serveWrite self v req res).Tells N := by
  simp only [serveWrite]
  refine Prog.tells_bind (addLock_tells _ _) fun ret => ?_
  split_ifs
  · trivial
  · refine ⟨hL, ?_⟩
    simp only [Prog.bind]
    refine Prog.tells_bind (addData_tells _ _ _ _) fun ret => ?_
    split_ifs
    · trivial
    · exact ⟨hW, trivial⟩

def Event.Of (h : Host) : Event → Prop
  | .locked h' .. => h' = h
  | .wrote h' .. => h' = h
  | .read h' .. => h' = h
  | _ => False

theorem onMessage_tells (self : Host) (idle fuel : Nat) (v : Vars) (msg : ReqMsg) :
    (onMessage self idle fuel v msg).Tells (Event.Of self) := by
  cases msg with
  | rpcRequest req =>
    simp only [onMessage]
    cases req.requestType with
    | begin => exact serveBegin_tells _ _
    | prepare => exact servePrepare_tells _ _ _ _
    | commit => exact (by split_ifs <;> trivial)
    | rollback => trivial
    | get =>
      simp only
      split_ifs
      · trivial
      · exact serveGet_tells rfl fun _ _ => rfl
    | delete | insert | update =>
      simp only
      split_ifs
      · trivial
      · exact serveWrite_tells rfl rfl
  | transStateRequest req => exact serveTransState_tells _ _
  | other => trivial

theorem onTimeout_tells (self : Host) (fuel : Nat) (v : Vars) (wt : Wait) :
    (onTimeout self fuel v wt).Tells (Event.Of self) := by
  cases wt with
  | idle => trivial
  | lock req res =>
    simp only [onTimeout]
    split_ifs
    · exact serveGet_tells rfl fun _ _ => rfl
    · exact serveWrite_tells rfl rfl
  | read req res => exact readRound_tells fun _ _ => rfl

end Tpc
