import Tpc.Access
import Tpc.Runs

/-! What the replies of a storage node promise: the reply to a refused Begin, and the reply that
acknowledges an operation which takes a lock. -/

namespace Tpc
open Durable

/-- A session without a transaction: its requests are refused, and neither they nor its end touch
a record, whatever the node holds by then. -/
def OwnsNothing (self : Host) (v : Vars) : Prop :=
  (∀ req : RpcReq, req.requestType ∈ [.get, .insert, .update, .delete, .prepare] →
    ∀ idle fuel fates clocks w,
      (onMessage self idle fuel v (.rpcRequest req)).run (Proc.storage self) fates clocks w =
        (.done { vars := v, next := .response (.rpcResponse
          { result := 1, errMsg := "has no begin trans!" }) }, w)) ∧
  ∀ idle fates clocks w,
    ((onClose self idle v).run (Proc.storage self) fates clocks w).2.store = w.store

def runningWorld (T : String) : DbWorld := ⟨(∅ : Db.Store).insert (makeTrans T) (.trans {}), []⟩

theorem ownsNothing_iff (self : Host) (v : Vars) : OwnsNothing self v ↔ v.beginTs = "" := by
  constructor
  · rintro ⟨-, hclose⟩
    by_contra hv
    -- the end of the session rolls back the transaction it does not own
    have hread : (runningWorld v.beginTs).read (makeTrans v.beginTs) = .found (.trans {}) := by
      rw [World.read, runningWorld, AList.lookup_insert]
    have h := hclose 1 [] [] (runningWorld v.beginTs)
    simp only [onClose, if_neg hv, startCleanTrans, dbGet, dbPut, Prog.bind_eq, Prog.bind, Prog.run,
      List.headD_nil, hread, Record.toTrans] at h
    have ht := congrArg (fun st : Db.Store => transOf st v.beginTs) h
    change transOf (((∅ : Db.Store).insert _ _).insert _ _) _ =
      transOf ((∅ : Db.Store).insert _ _) _ at ht
    rw [transOf_insert_self, transOf_insert_self] at ht
    simp [Record.toTrans] at ht
  · intro hv
    constructor
    · intro req hreq idle fuel fates clocks w
      simp only [List.mem_cons, List.not_mem_nil, or_false] at hreq
      rcases hreq with h | h | h | h | h <;>
        simp only [onMessage, servePrepare, h, hv, if_pos, refuse, respond, Prog.run]
    · intro idle fates clocks w
      simp only [onClose, hv, if_pos, Prog.run]

/-- A Begin that `addTrans` refuses changes nothing, but the session owns its transaction
afterwards, unless that has no name. -/
theorem refused_begin_iff (self : Host) (idle fuel : Nat) (v : Vars) (req : RpcReq)
    (fates : List Fate) (clocks : List Timeval) (w : DbWorld) (seg : Seg) (res : RpcRes)
    (hv : v.beginTs = "") (hreq : req.requestType = .begin)
    (hrun : ((onMessage self idle fuel v (.rpcRequest req)).run (.storage self) fates clocks w).1 =
      .done seg) (hseg : seg.next = .response (.rpcResponse res)) (hres : res.result ≠ 0) :
    ((onMessage self idle fuel v (.rpcRequest req)).run (.storage self) fates clocks w).2.store =
        w.store ∧
      (OwnsNothing self seg.vars ↔ req.beginTs = "") := by
  have hwp : (serveBegin v req).wp (Proc.storage self) (fun _ => True) _ _ w :=
    serveBegin_wp v req
  have hsat : Outcome.Sat _ _ ((serveBegin v req).run (Proc.storage self) fates clocks w) :=
    Prog.sat_of_wp closed_true hwp trivial
  have hmsg : onMessage self idle fuel v (.rpcRequest req) = serveBegin v req := by
    simp only [onMessage, hreq]
  rw [hmsg] at hrun ⊢
  rcases hr : (serveBegin v req).run (Proc.storage self) fates clocks w with ⟨o, w'⟩
  rw [hr] at hrun hsat
  obtain rfl : o = .done seg := hrun
  rw [ownsNothing_iff]
  change BeginEnd _ v req w.store seg w'.store at hsat
  change w'.store = w.store ∧ _
  generalize w'.store = st' at hsat ⊢
  cases hsat with
  | refused res' hne => exact absurd hv hne
  | begun =>
    obtain rfl : {} = res := by simpa using hseg
    exact absurd rfl hres
  | failed ret => exact ⟨rfl, Iff.rfl⟩

theorem refused_begin_iff_running :
    ((onMessage hostA 1 0 {} (.rpcRequest (beginReq "ts1"))).run (Proc.storage hostA) [] []
        (runningWorld "ts1")).2.store = (runningWorld "ts1").store ∧
      (OwnsNothing hostA { beginTs := "ts1" } ↔ "ts1" = "") :=
  refused_begin_iff hostA 1 0 {} (beginReq "ts1") [] [] (runningWorld "ts1")
    { vars := { beginTs := "ts1" }
      next := .response (.rpcResponse { result := 4294967295, errMsg := "addTrans err " }) }
    { result := 4294967295, errMsg := "addTrans err " } rfl rfl (by decide +kernel) rfl (by decide)

def sameTs : List Label :=
  [.request (client 0) { requestType := .begin } (atUsec 100) 0 true true,
   .request (client 0) { requestType := .update, key := "b" } (atUsec 0) 0 true true,
   .recv 0 {}, .beginAnswer (client 0) true, .recv 0 {}, .opAnswer (client 0),
   .request (client 1) { requestType := .begin } (atUsec 100) 1 true true,
   .request (client 1) { requestType := .get, key := "b" } (atUsec 0) 1 true true]

/-- The second Begin is refused, yet its session has the transaction of the first one. -/
theorem refused_begin_not_harmless :
    ¬ ∀ (s s' : Sys) (x : Nat) (env : Env) (σ σ' : Session) (req : RpcReq) (res : RpcRes),
      Reach twoHosts anyStep s → s.sess x = some σ → σ.toServ = [req] →
      req.requestType = .begin → σ.vars.beginTs = "" →
      step twoHosts s (.recv x env) = some s' → s'.sess x = some σ' →
      σ'.toCl = [.rpcResponse res] → res.result ≠ 0 → OwnsNothing σ'.host σ'.vars := by
  intro h
  have hrun : ((steps twoHosts anyStep {} sameTs).map fun s =>
      ((s.sess 1).map fun σ => (σ.toServ, σ.vars.beginTs),
        (step twoHosts s (.recv 1 {})).bind fun s => (s.sess 1).map fun σ =>
          (σ.toCl, σ.vars.beginTs))) =
      some (some ([beginReq "ts100"], ""),
        some ([.rpcResponse { result := 4294967295, errMsg := "addTrans err " }], "ts100")) := by
    decide +kernel
  obtain ⟨s, hs, hf⟩ := reach_of_map hrun
  obtain ⟨h1, h2⟩ := Prod.mk.inj hf
  obtain ⟨σ, hσ, hσ'⟩ := Option.map_eq_some_iff.mp h1
  obtain ⟨s', hstep, hτ⟩ := Option.bind_eq_some_iff.mp h2
  obtain ⟨τ, hτ, hτ'⟩ := Option.map_eq_some_iff.mp hτ
  obtain ⟨hto, hv⟩ := Prod.mk.inj hσ'
  obtain ⟨hcl, hv'⟩ := Prod.mk.inj hτ'
  have howns := h s s' 1 {} σ τ _ _ hs hσ hto rfl hv hstep hτ hcl (by decide)
  rw [ownsNothing_iff, hv'] at howns
  exact absurd howns (by decide)

/-- The end of the refused session rolls back the transaction of the first one, which is alive. -/
example : ((steps twoHosts anyStep {}
      (sameTs ++ [.recv 1 {}, .beginAnswer (client 1) true, .hangup 1 {}])).map fun s =>
    ((s.sess 0).map fun σ => (σ.live, σ.vars.beginTs),
      (transOf (s.node hostA).store "ts100").map Trans.state)) =
    some (some (true, "ts100"), some .rollback) := by
  decide +kernel

/-- What other sessions do to the store while a handler waits: none of them locks for `T`. -/
def Others (T : String) (st st' : Db.Store) : Prop :=
  ∀ key, lockOf st' key = some T → lockOf st key = some T

inductive Waiting (self : Host) (v : Vars) (req : RpcReq) : Wait → Db.Store → Prop
  | first {idle fuel : Nat} {fates : List Fate} {clocks : List Timeval} {w w' : DbWorld}
      {seg : Seg} {wt : Wait} :
      (onMessage self idle fuel v (.rpcRequest req)).run (Proc.storage self) fates clocks w =
        (.done seg, w') → seg.next = .wait wt → Waiting self v req wt w'.store
  | others {st st' : Db.Store} {wt : Wait} : Waiting self v req wt st → Others v.beginTs st st' →
      Waiting self v req wt st'
  | again {fuel : Nat} {fates : List Fate} {clocks : List Timeval} {w w' : DbWorld} {seg : Seg}
      {wt wt' : Wait} : Waiting self v req wt w.store →
      (onTimeout self fuel v wt).run (Proc.storage self) fates clocks w = (.done seg, w') →
      seg.next = .wait wt' → Waiting self v req wt' w'.store

/-- The handler of `req` sends `res` in a segment with the given fates, or after a socket event;
`st` and `st'` are the database before and after. -/
inductive Sends (self : Host) (v : Vars) (req : RpcReq) :
    Option (List Fate) → Db.Store → Db.Store → RpcRes → Prop
  | atOnce {idle fuel : Nat} {fates : List Fate} {clocks : List Timeval} {w w' : DbWorld}
      {seg : Seg} {res : RpcRes} :
      (onMessage self idle fuel v (.rpcRequest req)).run (Proc.storage self) fates clocks w =
        (.done seg, w') → seg.next = .response (.rpcResponse res) →
      Sends self v req (some fates) w.store w'.store res
  | later {fuel : Nat} {fates : List Fate} {clocks : List Timeval} {w w' : DbWorld} {seg : Seg}
      {wt : Wait} {res : RpcRes} : Waiting self v req wt w.store →
      (onTimeout self fuel v wt).run (Proc.storage self) fates clocks w = (.done seg, w') →
      seg.next = .response (.rpcResponse res) → Sends self v req (some fates) w.store w'.store res
  | event {st : Db.Store} {wt : Wait} {res : RpcRes} : Waiting self v req wt st →
      onEvent wt = some res → Sends self v req none st st res

/-- Insert, Update and Delete take the lock, and a Get that asks for it. -/
def RpcReq.TakesLock (req : RpcReq) : Prop :=
  req.requestType ∈ [.insert, .update, .delete] ∨ (req.requestType = .get ∧ req.getForUpdate ≠ 0)

def Performed (T : String) (req : RpcReq) (st : Db.Store) : Prop :=
  lockOf st req.key = some T ∧ (req.requestType ≠ .get → ∃ d, entryOf st req.key = some d ∧
    d.curVersion = T ∧ d.value = req.value ∧ d.state = req.requestType)

/-- The response does not stem from a socket event, and its segment did not fail to read the lock,
or the lock was the transaction's before. -/
def LockChecked (T : String) (req : RpcReq) (st : Db.Store) : Option (List Fate) → Prop
  | none => False
  | some fates => fates.head? ≠ some .fail ∨ lockOf st req.key = some T

section Acknowledged

variable {self : Host} {v : Vars} {req : RpcReq}

theorem lockOf_of_granted {key T : String} {st st' : Db.Store} (h : Granted False key T st st') :
    lockOf st' key = some T := by
  cases h with
  | held h => exact h
  | taken h => rw [lockStore, lockOf_insert_lock, if_pos rfl]; rfl
  | unread h => exact h.elim

theorem Written.entry {u : Prop} {st st' : Db.Store} {key value T : String} {type : RequestType}
    (h : Written u st key value T type st') :
    ∃ d, entryOf st' key = some d ∧ d.curVersion = T ∧ d.value = value ∧ d.state = type := by
  have top : ∀ (st : Db.Store) (d : Data),
      entryOf (st.insert (makeDataEntry key) (.data d)) key = some d := by
    intro st d
    rw [entryOf, dataAt_insert, if_pos rfl]
    rfl
  cases h with
  | again d hd hT => exact ⟨_, top _ _, hT, rfl, rfl⟩
  | pushed d hd hT => exact ⟨_, top _ _, rfl, rfl, rfl⟩
  | first h => exact ⟨_, top _ _, rfl, rfl, rfl⟩

inductive FromLock (self : Host) (v : Vars) (req : RpcReq) : RpcRes → Db Seg → Prop
  | get {fuel : Nat} {res : RpcRes} : req.requestType = .get → req.getForUpdate ≠ 0 →
      res.result = 0 → FromLock self v req res (serveGet self fuel v req res)
  | write {res : RpcRes} : res.result = 0 → FromLock self v req res (serveWrite self v req res)

theorem FromLock.result {res : RpcRes} {p : Db Seg} (h : FromLock self v req res p) :
    res.result = 0 := by
  cases h with
  | get _ _ h0 => exact h0
  | write h0 => exact h0

theorem fromLock_onMessage (idle fuel : Nat) (hv : v.beginTs ≠ "") (hreq : req.TakesLock) :
    ∃ res, FromLock self v req res (onMessage self idle fuel v (.rpcRequest req)) := by
  rcases hreq with h | ⟨h, hf⟩
  · simp only [List.mem_cons, List.not_mem_nil, or_false] at h
    rcases h with h | h | h <;>
      (simp only [onMessage, h, if_neg hv]; exact ⟨_, .write rfl⟩)
  · simp only [onMessage, h, if_neg hv]
    exact ⟨_, .get h hf rfl⟩

theorem fromLock_onTimeout {fuel : Nat} {res : RpcRes} (hreq : req.TakesLock)
    (h0 : res.result = 0) : FromLock self v req res (onTimeout self fuel v (.lock req res)) := by
  simp only [onTimeout]
  by_cases h : req.requestType = .get
  · rw [if_pos h]
    rcases hreq with hreq | hreq
    · simp [h] at hreq
    · exact .get h hreq.2 h0
  · rw [if_neg h]
    exact .write h0

def LockOutcome (v : Vars) (req : RpcReq) (res : RpcRes) (how : Option (List Fate))
    (st : Db.Store) (seg : Seg) (st' : Db.Store) : Prop :=
  (seg.next = .wait (.lock req res) ∧ lockOf st' req.key ≠ some v.beginTs) ∨
  (∃ res', seg.next = .wait (.read req res') ∧ res'.result = 66) ∨
  ∃ res', seg.next = .response (.rpcResponse res') ∧
    (res'.result = 0 → (Performed v.beginTs req st' ↔ LockChecked v.beginTs req st how))

section Outcome

variable {G : Db.Store → Db.Store → Prop} {me : Proc} {A : Hist → Prop} {w w' : DbWorld}
  {seg : Seg} {res : RpcRes} {how : Option (List Fate)}

theorem lockOutcome_of_wait (h : LockWait A me req.key v.beginTs w w')
    (hseg : seg.next = .wait (.lock req res)) :
    LockOutcome v req res how w.store seg w'.store := by
  obtain ⟨hw, -, -, hne⟩ := h
  exact .inl ⟨hseg, hw ▸ hne⟩

theorem lockOutcome_of_write
    (hG : ∀ st, G w.store st → (lockOf st req.key = some v.beginTs ↔
      LockChecked v.beginTs req w.store how))
    (h : WriteEnd A G me self v req res w seg w') :
    LockOutcome v req res how w.store seg w'.store := by
  cases h with
  | waits _ h => exact lockOutcome_of_wait h rfl
  | fails w₁ _ ret _ hret => exact .inr (.inr ⟨_, rfl, fun h0 => absurd h0 hret.toUInt32_ne_zero⟩)
  | writes w₁ _ m hl hw =>
    refine .inr (.inr ⟨_, rfl, fun _ => ?_⟩)
    rw [← hG _ hl.1, ← hw.lockOf_eq]
    exact ⟨fun h => h.1, fun h => ⟨h, fun _ => hw.entry⟩⟩

theorem lockOutcome_of_get {fuel : Nat} (hget : req.requestType = .get)
    (hG : ∀ st, G w.store st → (lockOf st req.key = some v.beginTs ↔
      LockChecked v.beginTs req w.store how))
    (h : GetEnd A G me self fuel v req res w seg w') :
    LockOutcome v req res how w.store seg w'.store := by
  cases h with
  | waits _ h => exact lockOutcome_of_wait h rfl
  | reads w₁ seg _ hl hr =>
    obtain ⟨hw, l, ts, m, r, -, -, -, -, rfl⟩ := hr
    rcases readSeg_next v req res r with ⟨res', hn⟩ | hn
    · refine .inr (.inr ⟨res', hn, fun _ => ?_⟩)
      rw [← hG _ hl.1, hw]
      exact ⟨fun h => h.1, fun h => ⟨h, fun hne => absurd hget hne⟩⟩
    · exact .inr (.inl hn)

end Outcome

theorem lockOf_of_lockBy {fates : List Fate} {st st' : Db.Store}
    (h : LockBy fates req.key v.beginTs st st') :
    lockOf st' req.key = some v.beginTs ↔ LockChecked v.beginTs req st (some fates) := by
  unfold LockBy at h
  split_ifs at h with hf
  · subst h
    exact ⟨.inr, fun h => h.resolve_left fun hne => hne hf⟩
  · exact ⟨fun _ => .inl hf, fun _ => lockOf_of_granted h⟩

theorem FromLock.outcome {res : RpcRes} {p : Db Seg} (h : FromLock self v req res p)
    {fates : List Fate} {clocks : List Timeval} {w w' : DbWorld} {seg : Seg}
    (hrun : p.run (Proc.storage self) fates clocks w = (.done seg, w')) :
    LockOutcome v req res (some fates) w.store seg w'.store := by
  cases h with
  | get hget hf h0 =>
    have h := serveGet_sat closed_true hf hrun trivial
    exact lockOutcome_of_get hget (fun _ => lockOf_of_lockBy) h
  | write h0 =>
    have h := serveWrite_sat closed_true hrun trivial
    exact lockOutcome_of_write (fun _ => lockOf_of_lockBy) h

theorem waiting_inv (hv : v.beginTs ≠ "") (hreq : req.TakesLock) {wt : Wait} {st : Db.Store}
    (h : Waiting self v req wt st) :
    (∃ res, wt = .lock req res ∧ res.result = 0 ∧ lockOf st req.key ≠ some v.beginTs) ∨
      ∃ res, wt = .read req res ∧ res.result = 66 := by
  have next : ∀ {res p fates clocks w w' seg wt}, FromLock self v req res p → res.result = 0 →
      p.run (Proc.storage self) fates clocks w = (.done seg, w') → seg.next = .wait wt →
      (∃ res, wt = .lock req res ∧ res.result = 0 ∧ lockOf w'.store req.key ≠ some v.beginTs) ∨
        ∃ res, wt = .read req res ∧ res.result = 66 := by
    intro res p fates clocks w w' seg wt hp h0 hrun hwt
    rcases hp.outcome hrun with ⟨hn, hl⟩ | ⟨res', hn, h66⟩ | ⟨res', hn, -⟩
    · rw [hn] at hwt
      injection hwt with hwt
      exact .inl ⟨res, hwt.symm, h0, hl⟩
    · rw [hn] at hwt
      injection hwt with hwt
      exact .inr ⟨res', hwt.symm, h66⟩
    · simp [hn] at hwt
  induction h with
  | @first idle fuel fates clocks w w' seg wt hrun hwt =>
    obtain ⟨res, hp⟩ := fromLock_onMessage (v := v) idle fuel hv hreq
    exact next hp hp.result hrun hwt
  | others _ ho ih =>
    rcases ih with ⟨res, hwt, h0, hl⟩ | h
    · exact .inl ⟨res, hwt, h0, fun hl' => hl (ho _ hl')⟩
    · exact .inr h
  | again _ hrun hwt ih =>
    rcases ih with ⟨res, rfl, h0, -⟩ | ⟨res, rfl, -⟩
    · exact next (fromLock_onTimeout hreq h0) h0 hrun hwt
    · have hr := readRound_sat closed_true hrun trivial
      obtain ⟨-, l, ts, m, r, -, -, -, -, rfl⟩ := hr
      rcases readSeg_next v req res r with ⟨res', hn⟩ | ⟨res', hn, h66⟩
      · simp [hn] at hwt
      · rw [hn] at hwt
        injection hwt with hwt
        exact .inr ⟨res', hwt.symm, h66⟩

/-- When an operation that takes the lock is acknowledged, it was performed, except when the
response stems from a socket event or from a segment that could not read the lock. -/
theorem acknowledged_iff (self : Host) (v : Vars) (req : RpcReq) (how : Option (List Fate))
    (st st' : Db.Store) (res : RpcRes)
    (hv : v.beginTs ≠ "") (hreq : req.TakesLock) (h : Sends self v req how st st' res)
    (h0 : res.result = 0) :
    Performed v.beginTs req st' ↔ LockChecked v.beginTs req st how := by
  have ends : ∀ {res₀ p fates clocks w w' seg}, FromLock self v req res₀ p →
      p.run (Proc.storage self) fates clocks w = (.done seg, w') →
      seg.next = .response (.rpcResponse res) →
      (Performed v.beginTs req w'.store ↔ LockChecked v.beginTs req w.store (some fates)) := by
    intro res₀ p fates clocks w w' seg hp hrun hres
    rcases hp.outcome hrun with ⟨hn, -⟩ | ⟨res', hn, -⟩ | ⟨res', hn, hiff⟩
    · simp [hn] at hres
    · simp [hn] at hres
    · obtain rfl : res' = res := by simpa [hn] using hres
      exact hiff h0
  cases h with
  | @atOnce idle fuel fates clocks w w' seg res hrun hres =>
    obtain ⟨res₀, hp⟩ := fromLock_onMessage (v := v) idle fuel hv hreq
    exact ends hp hrun hres
  | later hw hrun hres =>
    rcases waiting_inv hv hreq hw with ⟨res₀, rfl, hr0, -⟩ | ⟨res₀, rfl, h66⟩
    · exact ends (fromLock_onTimeout hreq hr0) hrun hres
    · -- the result of an earlier round stays in the response
      have hr := readRound_sat closed_true hrun trivial
      obtain ⟨-, l, ts, m, r, -, -, -, hcode, rfl⟩ := hr
      have hc : r.code = 0 ∨ r.code = 33 ∨ r.code = 66 ∨ r.code = 99 ∨ r.code = -1 := by
        rcases hcode with hc | ⟨hc, -⟩
        · exact readOf_code hc
        · simp [hc]
      have h00 := (readSeg_response hc hres h0).2
      rw [h66] at h00
      exact absurd h00 (by decide)
  | event hw he =>
    rcases waiting_inv hv hreq hw with ⟨res₀, rfl, -, hl⟩ | ⟨res₀, rfl, h66⟩
    · exact ⟨fun h => absurd h.1 hl, False.elim⟩
    · obtain rfl : res₀ = res := by simpa [onEvent] using he
      rw [h66] at h0
      exact absurd h0 (by decide)

end Acknowledged

def insertReq : RpcReq := { requestType := .insert, key := "b", value := "v" }

def heldStore (t : Trans) : Db.Store :=
  ((∅ : Db.Store).insert (makeTrans "ts100") (.trans t)).insert (makeLock "b") (.lock { trans := "ts100" })

/-- An Insert waits for `ts100` and goes on when `ts100` is committed. -/
theorem acknowledged_iff_insert : ∃ st,
    Sends hostA { beginTs := "ts105" } insertReq (some [])
      (heldStore { state := .commited, commitTrans := "ts103" }) st { beginTs := "ts105" } ∧
    Performed "ts105" insertReq st := by
  have hwait : Waiting hostA { beginTs := "ts105" } insertReq (.lock insertReq { beginTs := "ts105" })
      (heldStore {}) :=
    @Waiting.first hostA { beginTs := "ts105" } insertReq 0 0 [] [] ⟨heldStore {}, []⟩ ⟨heldStore {}, []⟩
      { vars := { beginTs := "ts105" }, next := .wait (.lock insertReq { beginTs := "ts105" }) } _
      (Prod.ext (by decide +kernel) rfl) rfl
  have hothers : Others "ts105" (heldStore {})
      (heldStore { state := .commited, commitTrans := "ts103" }) := by
    intro key hl
    simpa only [heldStore, lockOf_insert_lock, lockOf_insert_trans] using hl
  have hsends := @Sends.later hostA { beginTs := "ts105" } insertReq 0 [] []
    ⟨heldStore { state := .commited, commitTrans := "ts103" }, []⟩ _
    { vars := { beginTs := "ts105" }, next := .response (.rpcResponse { beginTs := "ts105" }) } _ _
    (hwait.others hothers) (Prod.ext (by decide +kernel) rfl) rfl
  exact ⟨_, hsends, (acknowledged_iff hostA { beginTs := "ts105" } insertReq (some []) _ _ _ (by decide)
    (.inl (by decide)) hsends rfl).mpr (.inl (by decide))⟩

/-- The first client holds the lock of a key that the second one inserts, and the second client
sends its next request without waiting for its reply. -/
def earlyBytes : List Label :=
  [.request (client 0) { requestType := .begin } (atUsec 100) 0 true true,
   .request (client 0) { requestType := .update, key := "b" } (atUsec 0) 0 true true,
   .recv 0 {}, .beginAnswer (client 0) true, .recv 0 {}, .opAnswer (client 0),
   .request (client 1) { requestType := .begin } (atUsec 101) 1 true true,
   .request (client 1) { requestType := .insert, key := "b", value := "v" } (atUsec 0) 1 true true,
   .recv 1 {}, .beginAnswer (client 1) true, .recv 1 {}, .clientEvent (client 1),
   .request (client 1) { requestType := .get, key := "b" } (atUsec 0) 1 true true]

theorem event_acknowledges_nothing :
    ¬ ∀ (s s' : Sys) (x : Nat) (σ σ' : Session) (req : RpcReq) (res₀ res : RpcRes),
      Reach twoHosts anyStep s → s.sess x = some σ → σ.wait = .lock req res₀ →
      σ.vars.beginTs ≠ "" → req.TakesLock → step twoHosts s (.event x) = some s' →
      s'.sess x = some σ' → σ'.toCl = [.rpcResponse res] → res.result = 0 →
      Performed σ.vars.beginTs req (s'.node hostA).store := by
  intro h
  have hrun : ((steps twoHosts anyStep {} earlyBytes).map fun s =>
      ((s.sess 1).map fun σ => (σ.wait, σ.vars.beginTs),
        (step twoHosts s (.event 1)).bind fun s => (s.sess 1).map fun σ =>
          (σ.toCl, lockOf (s.node hostA).store "b"))) =
      some (some (.lock (opReq "ts101" { requestType := .insert, key := "b", value := "v" })
          { beginTs := "ts101" }, "ts101"),
        some ([.rpcResponse { beginTs := "ts101" }], some "ts100")) := by
    decide +kernel
  obtain ⟨s, hs, hf⟩ := reach_of_map hrun
  obtain ⟨h1, h2⟩ := Prod.mk.inj hf
  obtain ⟨σ, hσ, hσ'⟩ := Option.map_eq_some_iff.mp h1
  obtain ⟨s', hstep, hτ⟩ := Option.bind_eq_some_iff.mp h2
  obtain ⟨τ, hτ, hτ'⟩ := Option.map_eq_some_iff.mp hτ
  obtain ⟨hwt, hv⟩ := Prod.mk.inj hσ'
  obtain ⟨hcl, hlock⟩ := Prod.mk.inj hτ'
  have hp := h s s' 1 σ τ _ _ _ hs hσ hwt (by rw [hv]; decide) (.inl (by decide)) hstep hτ hcl rfl
  have hl := hp.1
  rw [hv] at hl
  exact absurd (hlock.symm.trans hl) (by decide)

end Tpc
