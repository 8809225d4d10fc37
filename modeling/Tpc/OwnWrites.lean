import Tpc.Dated
import Tpc.Waits

/-! Reads of a transaction's own writes. A plain Get reads under the name of its transaction, a Get
that takes the lock under a fresh timestamp, to which the transaction's own version is one of a
transaction that is still running. -/

namespace Tpc
open Durable

variable {n : Host} {key T : String}

def lastWrite (n : Host) (key T : String) (l : Hist) : Option Write :=
  (writes n l).find? fun a => a.key = key ∧ a.beginTs = T

/-- A transaction has the lock of the key that it wrote, and its write is the newest version. -/
def Held (st : Db.Store) (a : Write) : Prop :=
  lockOf st a.key = some a.beginTs ∧ ∃ d, entryOf st a.key = some d ∧ d.curVersion = a.beginTs ∧
    d.value = a.value ∧ d.state = a.type

/-- No handler is granted the lock by a failing read, unless it serves `T`, which has the lock, or
another transaction while `T` does not have it. -/
def LockRead (n : Host) (key T : String) (s : Sys) (ℓ : Label) : Prop :=
  ∀ σ req fates, Locks s σ req fates ℓ → σ.host = n → req.key = key → fates.head? = some .fail →
    (σ.vars.beginTs = T ↔ lockOf (s.node n).store key = some T)

section Lock

variable {cfg : Config} {s s' : Sys} {ℓ : Label} {U : String} {fates : List Fate}
  {st st' : Db.Store}

theorem LockBy.own (hl : LockBy fates key U st st') (hlock : lockOf st key = some T)
    (hT : ¬ PastBegin st T) (hf : fates.head? = some .fail → (U = T ↔ lockOf st key = some T)) :
    U = T := by
  rw [LockBy] at hl
  split_ifs at hl with hfail
  · exact (hf hfail).mpr hlock
  cases hl with
  | held h => exact Option.some.inj (h.symm.trans hlock)
  | unread h => exact h.elim
  | taken hfree =>
    rcases hfree with hnone | ⟨V, t, hV, -, ht, hfin⟩
    · simp [hnone] at hlock
    · obtain rfl := Option.some.inj (hV.symm.trans hlock)
      refine absurd ⟨t, ht, fun hs => ?_⟩ hT
      rcases hfin with hfin | hfin
      · simp [hs] at hfin
      · simp [hs] at hfin

theorem LockBy.lockOf (hl : LockBy fates key T st st')
    (hf : fates.head? = some .fail → lockOf st key = some T) : lockOf st' key = some T := by
  rw [LockBy] at hl
  split_ifs at hl with hfail
  · rw [← hl]
    exact hf hfail
  · exact lockOf_of_granted hl

theorem HalfWritten.entryOf_eq {k : String} (h : HalfWritten st key T st')
    (hts : ∀ k d, entryOf st k = some d → IsTS d.curVersion) : entryOf st' k = entryOf st k := by
  cases h with
  | nothing => rfl
  | kept d hd => exact entryOf_insert_version (hts _ d hd)

theorem Written.entryOf_ne {u : Prop} {value k : String} {type : RequestType}
    (h : Written u st key value T type st')
    (hts : ∀ k d, entryOf st k = some d → IsTS d.curVersion) (hk : k ≠ key) :
    entryOf st' k = entryOf st k := by
  cases h with
  | again => rw [entryOf_insert_entry, if_neg hk]
  | pushed d hd => rw [entryOf_insert_entry, if_neg hk, entryOf_insert_version (hts _ d hd)]
  | first => rw [entryOf_insert_entry, if_neg hk]

theorem lastWrite_eq {l l' : Hist} (h : writes n l' = writes n l) :
    lastWrite n key T l' = lastWrite n key T l := by
  rw [lastWrite, h, lastWrite]

theorem lastWrite_cons {l l' : Hist} {a : Write} (h : writes n l' = a :: writes n l) :
    lastWrite n key T l' =
      if a.key = key ∧ a.beginTs = T then some a else lastWrite n key T l := by
  rw [lastWrite, h, List.find?_cons, lastWrite]
  split_ifs with ha
  · simp [ha]
  · simp only [ha, decide_false]

theorem lastWrite_names {l : Hist} {a : Write} (h : lastWrite n key T l = some a) :
    a.key = key ∧ a.beginTs = T := by
  simpa using List.find?_some h

def Holds (n : Host) (key T : String) (s : Sys) : Prop :=
  ¬ PastBegin (s.node n).store T → ∀ a, lastWrite n key T s.hist = some a → Held (s.node n).store a

theorem Holds.step (h : Holds n key T s) (hd : Dated s) (hs : Tpc.step cfg s ℓ = some s')
    (hc : LockRead n key T s ℓ) : Holds n key T s' := by
  intro hT a ha
  have hT₀ : ¬ PastBegin (s.node n).store T := fun hp => hT (past_step hs hp)
  have hts : ∀ k d, entryOf (s.node n).store k = some d → IsTS d.curVersion := hd.entry n
  -- what `T` holds, a grant does not take away
  have granted : ∀ {σ req fates st b}, Locks s σ req fates ℓ → σ.host = n →
      LockBy fates req.key σ.vars.beginTs (s.node n).store st →
      lastWrite n key T s.hist = some b → Held st b := by
    intro σ req fates st b hlocks hn hl hb
    obtain ⟨hlock, hentry⟩ := h hT₀ b hb
    refine ⟨?_, by simpa only [hl.entryOf_eq] using hentry⟩
    obtain ⟨rfl, rfl⟩ := lastWrite_names hb
    by_cases hk : b.key = req.key
    · rw [hk] at hlock ⊢
      have hf : fates.head? = some .fail → _ := hc σ req fates hlocks hn hk.symm
      rw [hk] at hf
      rw [hl.own hlock hT₀ hf] at hl
      exact hl.lockOf fun _ => hlock
    · rw [hl.lockOf_ne hk]
      exact hlock
  cases store_move closed_true hs trivial n with
  | frame hf hw =>
    obtain ⟨hlock, hentry⟩ := h hT₀ a (lastWrite_eq hw ▸ ha)
    rw [Held, Tpc.lockOf, entryOf, dataAt, hf _ (by rintro ⟨U, hU⟩; simp at hU),
      hf _ (by rintro ⟨U, hU⟩; simp at hU)]
    exact ⟨hlock, hentry⟩
  | locks σ req fates hlocks hn hl hw => exact granted hlocks hn hl (lastWrite_eq hw ▸ ha)
  | breaks σ req fates st hlocks hn hl hhalf hw =>
    obtain ⟨hlock, hentry⟩ := granted hlocks hn hl (lastWrite_eq hw ▸ ha)
    rw [Held, hhalf.lockOf_eq, hhalf.entryOf_eq fun k d he => hts k d (hl.entryOf_eq k ▸ he)]
    exact ⟨hlock, hentry⟩
  | writes σ req fates st hlocks hn hl hwritten hw =>
    rw [lastWrite_cons hw] at ha
    split_ifs at ha with hown
    · obtain rfl := Option.some.inj ha
      obtain ⟨hk, hσT⟩ := hown
      refine ⟨?_, hwritten.entry⟩
      rw [hwritten.lockOf_eq]
      refine hl.lockOf fun hfail => ?_
      have hf := (hc σ req fates hlocks hn hk hfail).mp hσT
      rwa [← hk, ← hσT] at hf
    · obtain ⟨hlock, hentry⟩ := granted hlocks hn hl ha
      obtain ⟨hak, haT⟩ := lastWrite_names ha
      have hk : a.key ≠ req.key := by
        intro hk
        obtain ⟨hlock₀, -⟩ := h hT₀ a ha
        have hf : fates.head? = some .fail → _ := hc σ req fates hlocks hn (hk.symm.trans hak)
        rw [hk, haT] at hlock₀
        rw [← hak, hk] at hf
        exact hown ⟨hk.symm.trans hak, hl.own hlock₀ hT₀ hf⟩
      rw [Held, hwritten.lockOf_eq, hwritten.entryOf_ne (fun k d he => hts k d (hl.entryOf_eq k ▸ he)) hk]
      exact ⟨hlock, hentry⟩

theorem Reach.holds (hs : Reach cfg (LockRead n key T) s) : Holds n key T s := by
  induction hs with
  | init =>
    intro _ a ha
    cases ha
  | step hr hc hstep ih => exact ih.step hr.dated hstep hc

end Lock

/-- The response reports the write: its value, or that the key is deleted. -/
def Reports (res : RpcRes) (a : Write) : Prop :=
  res.beginTs = a.beginTs ∧
    if a.type = .delete then res.result = 33 else res.result = 0 ∧ res.value = a.value

/-- The Get passes the name of its own transaction to `ReadData`. -/
def ReadsAs (T : String) (req : RpcReq) (clocks : List Timeval) : Prop :=
  req.getForUpdate = 0 ∨ clocks.head?.map getTS = some T

section Read

variable {me : Proc} {ts : String} {fuel : Nat} {v : Vars} {req : RpcReq} {res m : RpcRes} {r : ReadRes}
  {fates : List Fate} {clocks : List Timeval} {w w' : DbWorld} {seg : Seg} {a : Write} {d : Data}

/-- The newest version is the reader's own. -/
theorem readData_own (hd : entryOf w.store key = some d) (hT : d.curVersion = T)
    (h : (readData T key fuel "").run me fates clocks w = (.done r, w')) : r = ownRes d := by
  cases fuel with
  | zero => cases h
  | succ fuel =>
    rcases read_cases w (makeDataEntry key) with ⟨-, hl⟩ | ⟨x, hr, hl⟩
    · rw [entryOf, dataAt_of_lookup_none hl] at hd
      cases hd
    rw [entryOf, dataAt_of_lookup hl] at hd
    obtain rfl := Option.some.inj hd
    simp only [readData, dbGet, Prog.bind_eq, Prog.bind, Prog.run, if_true] at h
    split at h
    · simp only [hr, hT, if_true, Prog.pure_eq, Prog.run, Prod.mk.injEq, Outcome.done.injEq] at h
      rw [← h.1, ownRes, hT]
    · cases h
    · cases h

theorem readData_others (hT : ∃ t, transOf w.store T = some t ∧ t.state = .begin) (hts : ts ≠ T)
    (hne : T ≠ "") (fuel : Nat) (loopBeginTs : String) :
    (readData ts key fuel loopBeginTs).wp me (fun _ => True)
      (fun r _ => toUInt32 r.code = 0 ∨ toUInt32 r.code = 33 → r.retBeginTs ≠ T) (fun _ => True) w := by
  have none : ∀ {r : ReadRes}, r.retBeginTs = "" → toUInt32 r.code = 0 ∨ toUInt32 r.code = 33 →
      r.retBeginTs ≠ T := fun hr _ => by rw [hr]; exact hne.symm
  induction fuel generalizing loopBeginTs w with
  | zero => trivial
  | succ fuel ih =>
    simp only [readData, dbGet, Prog.bind_eq, Prog.bind, Prog.wp, forall_true_left, true_and]
    rcases read_cases w (if loopBeginTs = "" then makeDataEntry key
      else makeData key loopBeginTs) with ⟨hr, -⟩ | ⟨x, hr, -⟩
    · rw [hr]
      exact none rfl
    simp only [hr]
    refine Prog.wp_ite.mpr ⟨fun hx => ?_, fun hx => ⟨fun _ => trivial, fun _ => none rfl, ?_⟩⟩
    · rintro - rfl
      exact hts hx.symm
    rcases read_cases w (makeTrans x.toData.curVersion) with ⟨hr', -⟩ | ⟨y, hr', hl'⟩
    · rw [hr']
      exact none rfl
    have older : (if x.toData.next = "" then Prog.ret { code := 99 }
        else readData ts key fuel x.toData.next).wp me (fun _ => True)
          (fun r _ => toUInt32 r.code = 0 ∨ toUInt32 r.code = 33 → r.retBeginTs ≠ T)
          (fun _ => True) w :=
      Prog.wp_ite.mpr ⟨fun _ => none rfl, fun _ => ih hT _⟩
    -- a version of `T` belongs to a transaction that is running
    have other : y.toTrans.state ≠ .begin → x.toData.curVersion ≠ T := by
      rintro hs rfl
      obtain ⟨t, ht, hb⟩ := hT
      rw [transOf_of_lookup hl'] at ht
      obtain rfl := Option.some.inj ht
      exact hs hb
    simp only [hr']
    cases hs : y.toTrans.state with
    | begin | rollback => exact older
    | prepared | commited =>
      exact Prog.wp_ite.mpr ⟨fun _ _ => other (by simp [hs]), fun _ => older⟩

theorem not_reports (hr : toUInt32 r.code = 0 ∨ toUInt32 r.code = 33 → r.retBeginTs ≠ a.beginTs)
    (hm : (readSeg v req res r).next = .response (.rpcResponse m)) : ¬ Reports m a := by
  rintro ⟨hT, hres⟩
  have hres : r.code ≠ 0 → m.result = 0 ∨ m.result = 33 := fun _ => by
    split_ifs at hres
    · exact .inr hres
    · exact .inl hres.1
  unfold readSeg at hm
  split_ifs at hm with h0 h99 h66 h33
  · cases hm
    exact hr (hres h0) hT
  · cases hm
    exact hr (hres h0) hT
  · cases hm
    exact hr (hres h0) hT
  · cases hm
    exact hr (.inl (by simp [not_not.mp h0, toUInt32])) hT

theorem reports_ownRes (hT : d.curVersion = a.beginTs) (hval : d.value = a.value)
    (htype : d.state = a.type)
    (hm : (readSeg v req res (ownRes d)).next = .response (.rpcResponse m)) :
    Reports m a ↔ res.result = 0 ∨ a.type = .delete := by
  unfold readSeg ownRes at hm
  by_cases hdel : d.state = .delete
  · simp [hdel] at hm
    rw [← hm]
    simp [Reports, hT, ← htype, hdel, toUInt32]
  · simp [hdel] at hm
    rw [← hm]
    simp [Reports, hT, hval, ← htype, hdel]

theorem readRound_reports {self : Host} (ha : Held w.store a) (hkey : a.key = req.key)
    (hv : a.beginTs = v.beginTs) (hT : ∃ t, transOf w.store v.beginTs = some t ∧ t.state = .begin)
    (hne : v.beginTs ≠ "")
    (h : (readRound self fuel v req res).run me fates clocks w = (.done seg, w'))
    (hm : seg.next = .response (.rpcResponse m)) :
    Reports m a ↔ (res.result = 0 ∨ a.type = .delete) ∧ ReadsAs v.beginTs req clocks := by
  obtain ⟨-, d, hd, hcur, hval, htype⟩ := ha
  rw [hkey] at hd
  rw [hv] at hcur
  have go : ∀ (w₁ : DbWorld) {ts fs cs}, w₁.store = w.store → ((readData ts req.key fuel "").bind fun r =>
      (note (.read self v.beginTs req.key (req.getForUpdate ≠ 0) ts r)).bind fun _ =>
        .ret (readSeg v req res r)).run me fs cs w₁ = (.done seg, w') →
      (Reports m a ↔ (res.result = 0 ∨ a.type = .delete) ∧ ts = v.beginTs) := by
    intro w₁ ts fs cs hw₁ hrun
    obtain ⟨r, w₂, hread, hrest⟩ := Prog.run_bind_done hrun
    obtain rfl := (Outcome.done.inj (Prod.mk.inj hrest).1).symm
    by_cases hts : ts = v.beginTs
    · subst hts
      obtain rfl := readData_own (hw₁ ▸ hd) hcur hread
      rw [reports_ownRes (hcur.trans hv.symm) hval htype hm]
      simp
    · have hwp : (readData ts req.key fuel "").wp me (fun _ => True) _ _ w₁ :=
        readData_others (hw₁ ▸ hT) hts hne fuel ""
      have hsat : Outcome.Sat _ _ ((readData ts req.key fuel "").run me fs cs w₁) :=
        Prog.sat_of_wp closed_true hwp trivial
      rw [hread] at hsat
      simp only [hts, and_false, iff_false]
      exact not_reports (by rw [hv]; exact hsat) hm
  simp only [readRound, Prog.bind_eq] at h
  by_cases hf : req.getForUpdate = 0
  · rw [if_neg (not_not.mpr hf)] at h
    rw [go w rfl h]
    simp [ReadsAs, hf]
  · rw [if_pos hf] at h
    cases clocks with
    | nil =>
      simp only [readTS, Prog.bind, Prog.run] at h
      split_ifs at h <;> cases h
    | cons tv clocks =>
      rw [go (w.log (.clock me tv)) rfl h]
      simp [ReadsAs, hf]

theorem serveGet_locked {self : Host} (hlock : lockOf w.store req.key = some v.beginTs)
    (h : (serveGet self fuel v req res).run me fates clocks w = (.done seg, w')) :
    ∃ fs w₁, w₁.store = w.store ∧
      (readRound self fuel v req res).run me fs clocks w₁ = (.done seg, w') := by
  by_cases hf : req.getForUpdate = 0
  · rw [serveGet, if_neg (not_not.mpr hf)] at h
    exact ⟨fates, w, rfl, h⟩
  have granted : ∀ (w₁ : DbWorld) {fs : List Fate}, w₁.store = w.store →
      (getRest self fuel v req res 0).run me fs clocks w₁ = (.done seg, w') →
      ∃ fs w₁, w₁.store = w.store ∧
        (readRound self fuel v req res).run me fs clocks w₁ = (.done seg, w') := by
    intro w₁ fs hw₁ hrun
    rw [getRest, if_neg (not_not.mpr rfl)] at hrun
    exact ⟨fs, w₁.log (.note (.locked self req.key v.beginTs)), hw₁, hrun⟩
  rw [serveGet_eq hf, addLock_eq] at h
  simp only [Prog.bind, Prog.run] at h
  split at h
  · rcases read_cases w (makeLock req.key) with ⟨-, hl⟩ | ⟨x, hr, hl⟩
    · rw [lockOf_of_lookup_none hl] at hlock
      cases hlock
    rw [lockOf_of_lookup hl] at hlock
    rw [hr, lockNext, if_neg (not_not.mpr (Option.some.inj hlock))] at h
    exact granted w rfl h
  · exact granted (w.log _) rfl h
  · cases h

end Read

def Wait.Filled : Wait → Prop
  | .idle => True
  | .lock req res => req.requestType = .get → res.result = 0 ∧ res.beginTs = ""
  | .read _ res => res.result = 66

def Seg.Filled (seg : Seg) : Prop := ∀ wt, seg.next = .wait wt → wt.Filled

section Filled

variable {cfg : Config} {s s' : Sys} {ℓ : Label} {self : Host} {idle fuel : Nat} {v : Vars}
  {req : RpcReq} {res : RpcRes}

theorem readRound_filled : (readRound self fuel v req res).Only (fun _ => True) Seg.Filled := by
  have go : ∀ ts, ((readData ts req.key fuel "").bind fun r =>
      (note (.read self v.beginTs req.key (req.getForUpdate ≠ 0) ts r)).bind fun _ =>
        Prog.ret (readSeg v req res r)).Only (fun _ => True) Seg.Filled := by
    refine fun ts => Prog.only_bind (readData_only _ _ _ _) fun r _ wt hwt => ?_
    obtain ⟨-, res', rfl, h66, -⟩ := readSeg_round hwt
    exact h66
  simp only [readRound]
  split_ifs
  · exact fun tv => go (getTS tv)
  · exact go v.beginTs

theorem serveGet_filled (h : res.result = 0 ∧ res.beginTs = "") :
    (serveGet self fuel v req res).Only (fun _ => True) Seg.Filled := by
  simp only [serveGet]
  split_ifs
  · refine Prog.only_bind (addLock_only trivial _) fun ret _ => ?_
    split_ifs
    · rintro wt ⟨⟩ -
      exact h
    · exact readRound_filled
  · exact readRound_filled

theorem serveWrite_filled (h : req.requestType ≠ .get) :
    (serveWrite self v req res).Only (fun _ => True) Seg.Filled := by
  simp only [serveWrite]
  refine Prog.only_bind (addLock_only trivial _) fun ret _ => ?_
  split_ifs
  · rintro wt ⟨⟩ hget
    exact absurd hget h
  · change ((addData req.key req.value v.beginTs req.requestType).bind _).Only _ _
    refine Prog.only_bind (addData_only trivial (fun _ => trivial) _ _ _) fun ret _ => ?_
    split_ifs
    · rintro wt ⟨⟩
    · rintro wt ⟨⟩

theorem onTimeout_filled {wt : Wait} (h : wt.Filled) :
    (onTimeout self fuel v wt).Only (fun _ => True) Seg.Filled := by
  cases wt with
  | idle =>
    rintro wt ⟨⟩
    trivial
  | lock req res =>
    simp only [onTimeout]
    split_ifs with hget
    · exact serveGet_filled (h hget)
    · exact serveWrite_filled hget
  | read req res => exact readRound_filled

theorem onMessage_filled {m : RpcReq} :
    (onMessage self idle fuel v (.rpcRequest m)).Only (fun _ => True) Seg.Filled := by
  have answers : ∀ {v' res'}, (respond v' res').Only (fun _ => True) Seg.Filled := by
    rintro v' res' wt ⟨⟩
  simp only [onMessage]
  cases hr : m.requestType with
  | begin =>
    simp only [serveBegin]
    split_ifs
    · exact answers
    · refine Prog.only_bind (addTrans_only (fun _ => trivial) _) fun ret _ => ?_
      split_ifs
      · exact answers
      · exact answers
  | prepare =>
    simp only [servePrepare]
    split_ifs
    · exact answers
    · exact answers
    · refine Prog.only_bind (updateTransPrepared_only (fun _ => trivial) _ _ _) fun ret _ => ?_
      split_ifs
      · exact answers
      · intro tv
        change ((updateTransSelfCommitTs v.beginTs (getTS tv)).bind _).Only _ _
        refine Prog.only_bind (updateTransSelfCommitTs_only (fun _ => trivial) _ _) fun ret _ => ?_
        split_ifs
        · trivial
        · refine Prog.only_bind (startCleanTrans_only (fun _ => trivial) _ _ _) fun _ _ => ?_
          rintro wt ⟨⟩
  | rollback => exact answers
  | commit =>
    simp only
    split_ifs
    · exact answers
    · exact answers
  | get =>
    simp only
    split_ifs
    · exact answers
    · exact serveGet_filled ⟨rfl, rfl⟩
  | insert | update | delete =>
    simp only
    split_ifs
    · exact answers
    · exact serveWrite_filled (by simp [hr])

def AllFilled (s : Sys) : Prop := ∀ x σ, s.sess x = some σ → σ.wait.Filled

theorem AllFilled.lost (h : AllFilled s) (n : Host) (w : DbWorld) : AllFilled (s.lost n w) := by
  intro x σ hσ
  obtain ⟨τ, hτ, rfl⟩ := Option.map_eq_some_iff.mp hσ
  split_ifs
  · trivial
  · exact h x τ hτ

theorem AllFilled.setSess (h : AllFilled s) {x : Nat} {τ : Session}
    (hs : s'.sess = Function.update s.sess x (some τ)) (hτ : τ.wait.Filled) : AllFilled s' := by
  intro y σ hσ
  rw [hs, Function.update_apply] at hσ
  split_ifs at hσ
  · obtain rfl := Option.some.inj hσ
    exact hτ
  · exact h y σ hσ

theorem AllFilled.serve (h : AllFilled s) {x : Nat} {σ : Session} {env : Env} {p : Db Seg}
    (hp : p.Only (fun _ => True) Seg.Filled) (hs : s.serve x σ env p = some s') : AllFilled s' := by
  obtain ⟨-, ⟨seg, w, hseg, rfl⟩ | ⟨w, -, rfl⟩⟩ := serve_inv (A := fun _ => True)
    (Q := fun seg _ => seg.Filled) (R := fun _ => True) (by
      rintro o rfl -
      have hwp : p.wp (.storage σ.host) (fun _ => True) _ _ (s.world σ.host) :=
        Prog.wp_only hp fun _ _ => rfl
      exact (Prog.sat_of_wp closed_true hwp trivial).mono (fun _ _ h => h.1) fun _ _ => trivial)
    hs trivial
  · refine h.setSess (x := x) rfl ?_
    rcases after_wait σ seg rfl with hidle | hwt
    · rw [hidle]
      trivial
    · exact hseg _ hwt
  · exact h.lost σ.host w

theorem AllFilled.recv (h : AllFilled s) {x : Nat} {env : Env}
    (hs : Tpc.step cfg s (.recv x env) = some s') : AllFilled s' := by
  simp only [Tpc.step] at hs
  split at hs
  · cases hs
  split at hs
  · exact h.serve onMessage_filled hs
  · cases hs

theorem AllFilled.timeout (h : AllFilled s) {x : Nat} {env : Env}
    (hs : Tpc.step cfg s (.timeout x env) = some s') : AllFilled s' := by
  simp only [Tpc.step] at hs
  split at hs
  · cases hs
  rename_i σ hσ
  split_ifs at hs
  exact h.serve (onTimeout_filled (h x σ hσ)) hs

theorem AllFilled.step (h : AllFilled s) (hsl : ∀ c, Slotted cfg s c)
    (hs : Tpc.step cfg s ℓ = some s') : AllFilled s' := by
  rcases step_cases closed_true hs trivial with hn | ⟨c, hc⟩
  · cases hn with
    | recv => exact h.recv hs
    | timeout => exact h.timeout hs
    | @event x σ res hσ =>
      refine h.setSess (x := x) rfl ?_
      rw [answer_wait]
      trivial
    | @hangup x => exact h.setSess (x := x) rfl trivial
    | taskSkip | taskRecv | taskAsk | startUp => exact h
    | @lost _ n w => exact h.lost n w
    | @cut x a b σ hσ => exact h.setSess (x := x) rfl (h x σ hσ)
  · intro x σ' hσ'
    cases hσ : s.sess x with
    | none =>
      obtain ⟨k, T, rfl⟩ := hc.opens (hsl c).table hσ hσ'
      rw [send_wait]
      trivial
    | some σ =>
      obtain ⟨τ, hτ, ht⟩ := hc.touches hσ
      obtain rfl := Option.some.inj (hτ.symm.trans hσ')
      rw [ht.vars.2]
      exact h x σ hσ

theorem Reach.filled {C : Sys → Label → Prop} (hs : Reach cfg C s) : AllFilled s := by
  induction hs with
  | init => exact fun x σ hσ => by cases hσ
  | step hr _ hstep ih => exact ih.step hr.slotted hstep

end Filled

def Session.GoesOn (σ : Session) (x : Nat) (req : RpcReq) : Label → Prop
  | .recv y _ => y = x ∧ σ.toServ.head? = some req
  | .timeout y _ | .event y => y = x ∧ σ.wait.req? = some req
  | _ => False

/-- The Get of `T` is answered after its first `ReadData`, or the write is a Delete, and that
`ReadData` has the name of `T`. -/
def ReadsOwn (T : String) (type : RequestType) (σ : Session) (req : RpcReq) : Label → Prop
  | .recv _ env => ReadsAs T req env.clocks
  | .timeout _ env => ((∀ res, σ.wait ≠ .read req res) ∨ type = .delete) ∧ ReadsAs T req env.clocks
  | _ => False

section Answer

variable {cfg : Config} {s s' : Sys} {ℓ : Label} {x : Nat} {σ σ' : Session} {seg : Seg} {r r' : ResMsg}
  {a : Write} {req : RpcReq} {m : RpcRes} {env : Env} {p : Db Seg}

theorem response_of_answer (h : (σ.answer r).toCl = σ.toCl ++ [r']) : r = r' := by
  unfold Session.answer at h
  split_ifs at h
  · simp at h
  · simpa using h

theorem response_of_after (h : (σ.after seg).toCl = σ.toCl ++ [r]) : seg.next = .response r := by
  unfold Session.after at h
  split at h
  · rename_i r' hr
    rw [hr, response_of_answer h]
  · simp at h
  · simp at h

theorem serve_response {τ : Session} (hs : s.serve x τ env p = some s') (hσ : s.sess x = some σ)
    (hτ : τ.toCl = σ.toCl) (hσ' : s'.sess x = some σ') (hm : σ'.toCl = σ.toCl ++ [r]) :
    ∃ seg w, p.run (.storage τ.host) env.fates env.clocks (s.world τ.host) = (.done seg, w) ∧
      seg.next = .response r := by
  have inv := serve_inv (A := fun _ => True) (R := fun _ => True)
    (Q := fun seg w => p.run (.storage τ.host) env.fates env.clocks (s.world τ.host) = (.done seg, w))
    (by
      rintro o rfl -
      exact Outcome.sat_of_done fun _ _ h => h) hs trivial
  obtain ⟨-, ⟨seg, w, hrun, rfl⟩ | ⟨w, -, rfl⟩⟩ := inv
  · have hself : (s.served x τ seg w).sess x = some (τ.after seg) := Function.update_self ..
    obtain rfl := Option.some.inj (hself.symm.trans hσ')
    exact ⟨seg, w, hrun, response_of_after (by rw [hm, hτ])⟩
  · obtain ⟨ρ, hρ, rfl⟩ := Option.map_eq_some_iff.mp hσ'
    obtain rfl := Option.some.inj (hσ.symm.trans hρ)
    split_ifs at hm
    · simp [Session.stop] at hm
    · simp at hm

end Answer

theorem own_write_read (cfg : Config) {n : Host} {key T : String} {s s' : Sys} {ℓ : Label} {x : Nat}
    {σ σ' : Session} {t : Trans} {a : Write} {req : RpcReq} {m : RpcRes}
    (hs : Reach cfg (LockRead n key T) s) (ht : transOf (s.node n).store T = some t)
    (hbegin : t.state = .begin) (ha : lastWrite n key T s.hist = some a) (hσ : s.sess x = some σ)
    (hn : σ.host = n) (hT : σ.vars.beginTs = T) (hreq : req.requestType = .get) (hkey : req.key = key)
    (hℓ : σ.GoesOn x req ℓ) (hstep : step cfg s ℓ = some s') (hσ' : s'.sess x = some σ')
    (hm : σ'.toCl = σ.toCl ++ [.rpcResponse m]) :
    Reports m a ↔ ReadsOwn T a.type σ req ℓ := by
  subst hn hT hkey
  have hpast : ¬ PastBegin (s.node σ.host).store σ.vars.beginTs := by
    rintro ⟨t', ht', hne⟩
    obtain rfl := Option.some.inj (ht.symm.trans ht')
    exact hne hbegin
  have hheld := hs.holds hpast a ha
  obtain ⟨hak, haT⟩ := lastWrite_names ha
  have hne : σ.vars.beginTs ≠ "" := by
    obtain ⟨-, d, hd, hcur, -⟩ := hheld
    rw [← haT, ← hcur]
    exact (hs.dated.entry _ _ d hd).ne_empty
  -- a handler that has the lock, and has filled in `res`
  have get : ∀ {res seg w} {env : Env}, (serveGet σ.host env.fuel σ.vars req res).run (.storage σ.host)
      env.fates env.clocks (s.world σ.host) = (.done seg, w) →
      seg.next = .response (.rpcResponse m) → res.result = 0 →
      (Reports m a ↔ ReadsAs σ.vars.beginTs req env.clocks) := by
    intro res seg w env hrun hnext h0
    have hlock : lockOf (s.world σ.host).store req.key = some σ.vars.beginTs := by
      have h := hheld.1
      rwa [hak, haT] at h
    obtain ⟨fs, w₁, hw₁, hrun⟩ := serveGet_locked hlock hrun
    rw [readRound_reports (hw₁ ▸ hheld) hak haT (hw₁ ▸ ⟨t, ht, hbegin⟩) hne hrun hnext]
    simp [h0]
  have hfilled := hs.filled x σ hσ
  cases ℓ with
  | recv y env =>
    obtain ⟨rfl, hhead⟩ := hℓ
    obtain ⟨rest, hto⟩ := List.head?_eq_some_iff.mp hhead
    simp only [step, hσ, hto] at hstep
    split at hstep
    · rename_i m' rest' _ _ hm'
      obtain ⟨rfl, rfl⟩ := List.cons.inj hm'
      obtain ⟨seg, w, hrun, hnext⟩ := serve_response hstep hσ rfl hσ' hm
      simp only [onMessage, hreq, if_neg hne] at hrun
      exact get hrun hnext rfl
    · cases hstep
  | timeout y env =>
    obtain ⟨rfl, hwait⟩ := hℓ
    simp only [step, hσ] at hstep
    split_ifs at hstep
    obtain ⟨seg, w, hrun, hnext⟩ := serve_response hstep hσ rfl hσ' hm
    rcases hw : σ.wait with _ | ⟨req', res⟩ | ⟨req', res⟩
    · simp [hw, Wait.req?] at hwait
    · rw [hw] at hwait hrun hfilled
      obtain rfl := Option.some.inj hwait
      rw [onTimeout, if_pos hreq] at hrun
      rw [get hrun hnext (hfilled hreq).1]
      simp [ReadsOwn, hw]
    · rw [hw] at hwait hrun hfilled
      obtain rfl := Option.some.inj hwait
      have h66 : res.result = 66 := hfilled
      rw [readRound_reports hheld hak haT ⟨t, ht, hbegin⟩ hne hrun hnext]
      simp [ReadsOwn, hw, h66]
  | event y =>
    obtain ⟨rfl, hwait⟩ := hℓ
    simp only [step, hσ] at hstep
    split_ifs at hstep
    obtain ⟨res, hres, rfl⟩ := Option.map_eq_some_iff.mp hstep
    have hself : (s.setSess y (({ σ with wait := .idle } : Session).answer (.rpcResponse res))).sess y =
      some (({ σ with wait := .idle } : Session).answer (.rpcResponse res)) := Function.update_self ..
    obtain rfl := Option.some.inj (hself.symm.trans hσ')
    obtain rfl := ResMsg.rpcResponse.inj (response_of_answer hm)
    simp only [ReadsOwn, iff_false]
    rintro ⟨hres₁, hres₂⟩
    rcases hw : σ.wait with _ | ⟨req', res'⟩ | ⟨req', res'⟩
    · simp [hw, Wait.req?] at hwait
    · rw [hw] at hwait hres hfilled
      obtain rfl := Option.some.inj hwait
      obtain rfl := Option.some.inj hres
      exact hne (haT ▸ hres₁ ▸ (hfilled hreq).2)
    · rw [hw] at hres hfilled
      obtain rfl := Option.some.inj hres
      have h66 : res'.result = 66 := hfilled
      simp [h66] at hres₂
  | _ => exact hℓ.elim

def firstCallOk : Label → Bool
  | .recv _ env | .timeout _ env => env.fates.head? ≠ some .fail
  | _ => true

theorem lockRead_of_firstCallOk {n : Host} {key T : String} {s : Sys} {ℓ : Label}
    (h : firstCallOk ℓ = true) : LockRead n key T s ℓ := by
  rintro σ req fates (⟨-, -, -, -, -, -⟩ | ⟨-, -, -, -⟩) - - hfail
  · simp [firstCallOk, hfail] at h
  · simp [firstCallOk, hfail] at h

def readsBack (getForUpdate : Nat) : List Label :=
  [.request (client 0) { requestType := .begin } (atUsec 100) 0 true true,
   .request (client 0) { requestType := .insert, key := "b", value := "v" } (atUsec 0) 0 true true,
   .recv 0 {}, .beginAnswer (client 0) true, .recv 0 {}, .opAnswer (client 0),
   .request (client 0) { requestType := .get, key := "b", getForUpdate := getForUpdate } (atUsec 0) 0
     true true]

def readBackReq (getForUpdate : Nat) : RpcReq :=
  opReq "ts100" { requestType := .get, key := "b", getForUpdate := getForUpdate }

def insertedB : Write := { key := "b", beginTs := "ts100", type := .insert, value := "v" }

theorem readsBack_run {C : Sys → Label → Prop} [∀ s ℓ, Decidable (C s ℓ)] {f : Nat} {m : RpcRes}
    (hrun : ((steps twoHosts C {} (readsBack f)).map fun s =>
        (decide (transOf (s.node hostA).store "ts100" = some {} ∧
            lastWrite hostA "b" "ts100" s.hist = some insertedB),
          decide ((s.sess 0).map (fun σ => (σ.host, σ.vars.beginTs, σ.toServ, σ.toCl)) =
            some (hostA, "ts100", [readBackReq f], [])),
          (step twoHosts s (.recv 0 { fuel := 1, clocks := [atUsec 105] })).map fun s =>
            (s.sess 0).map Session.toCl)) = some (true, true, some (some [.rpcResponse m]))) :
    ∃ s s' σ σ', Reach twoHosts C s ∧ transOf (s.node hostA).store "ts100" = some {} ∧
      lastWrite hostA "b" "ts100" s.hist = some insertedB ∧ s.sess 0 = some σ ∧ σ.host = hostA ∧
      σ.vars.beginTs = "ts100" ∧ σ.toServ.head? = some (readBackReq f) ∧
      step twoHosts s (.recv 0 { fuel := 1, clocks := [atUsec 105] }) = some s' ∧
      s'.sess 0 = some σ' ∧ σ'.toCl = σ.toCl ++ [.rpcResponse m] := by
  obtain ⟨s, hs, hf⟩ := reach_of_map hrun
  obtain ⟨hfacts, hf⟩ := Prod.mk.inj hf
  obtain ⟨ht, hw⟩ := of_decide_eq_true hfacts
  obtain ⟨hσ, hstep⟩ := Prod.mk.inj hf
  obtain ⟨σ, hσ, he⟩ := Option.map_eq_some_iff.mp (of_decide_eq_true hσ)
  obtain ⟨s', hstep, hσ'⟩ := Option.map_eq_some_iff.mp hstep
  obtain ⟨σ', hσ', hcl'⟩ := Option.map_eq_some_iff.mp hσ'
  obtain ⟨hhost, he⟩ := Prod.mk.inj he
  obtain ⟨hT, he⟩ := Prod.mk.inj he
  obtain ⟨hto, hcl⟩ := Prod.mk.inj he
  exact ⟨s, s', σ, σ', hs, ht, hw, hσ, hhost, hT, by rw [hto]; rfl, hstep, hσ', by rw [hcl', hcl]; rfl⟩

theorem own_write_read_insert : ∃ σ : Session,
    Reports { key := "b", value := "v", beginTs := "ts100" } insertedB ↔
      ReadsOwn "ts100" .insert σ (readBackReq 0) (.recv 0 { fuel := 1, clocks := [atUsec 105] }) := by
  obtain ⟨s, s', σ, σ', hs, ht, hw, hσ, hn, hT, hto, hstep, hσ', hm⟩ :=
    readsBack_run (C := fun _ ℓ => firstCallOk ℓ = true) (f := 0)
      (m := { key := "b", value := "v", beginTs := "ts100" }) (by decide +kernel)
  exact ⟨σ, own_write_read twoHosts (hs.mono fun _ _ h => lockRead_of_firstCallOk h) ht rfl hw hσ hn hT
    rfl rfl ⟨rfl, hto⟩ hstep hσ' hm⟩

/-- The Get that takes the lock does not find the key. -/
theorem own_write_not_read :
    ¬ ∀ (n : Host) (key T : String) (s s' : Sys) (ℓ : Label) (x : Nat) (σ σ' : Session) (t : Trans)
      (a : Write) (req : RpcReq) (m : RpcRes),
      Reach twoHosts anyStep s → transOf (s.node n).store T = some t → t.state = .begin →
      lastWrite n key T s.hist = some a → s.sess x = some σ → σ.host = n → σ.vars.beginTs = T →
      req.requestType = .get → req.key = key → σ.GoesOn x req ℓ → step twoHosts s ℓ = some s' →
      s'.sess x = some σ' → σ'.toCl = σ.toCl ++ [.rpcResponse m] → Reports m a := by
  intro h
  obtain ⟨s, s', σ, σ', hs, ht, hw, hσ, hn, hT, hto, hstep, hσ', hm⟩ :=
    readsBack_run (C := anyStep) (f := 1)
      (m := { key := "b", result := 99, errMsg := "data not found" }) (by decide +kernel)
  have hr := h hostA "b" "ts100" s s' (.recv 0 { fuel := 1, clocks := [atUsec 105] }) 0 σ σ' {} insertedB
    (readBackReq 1) _ hs ht rfl hw hσ hn hT rfl rfl ⟨rfl, hto⟩ hstep hσ' hm
  exact absurd hr.1 (by decide)

end Tpc
