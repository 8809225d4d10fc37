import Tpc.Steps

/-! What one step of the system does to the locks and the versions of a node: nothing, or what one
handler of a request does from its `addLock` on. -/

namespace Tpc
open Durable

structure Write where
  key : String
  beginTs : String
  type : RequestType
  value : String
deriving DecidableEq, Repr

def Event.write? (n : Host) : Event → Option Write
  | .wrote h key beginTs type value => if h = n then some ⟨key, beginTs, type, value⟩ else none
  | _ => none

def writes (n : Host) (l : Hist) : List Write :=
  l.filterMap fun
    | .note e => e.write? n
    | _ => none

section Writes

variable {n : Host} {me : Proc} {N : Event → Prop} {l l' : Hist}

theorem writes_note (e : Event) : writes n (.note e :: l) = (e.write? n).toList ++ writes n l := by
  simp only [writes, List.filterMap_cons]
  cases e.write? n <;> rfl

theorem writes_grown (h : Grown me N l l') (hN : ∀ e, N e → e.write? n = none) :
    writes n l' = writes n l := by
  obtain ⟨new, rfl, hnew⟩ := h
  rw [writes, List.filterMap_append, List.filterMap_eq_nil_iff.mpr, List.nil_append, writes]
  intro e he
  cases e with
  | note e => exact hN e (hnew _ he)
  | _ => rfl

theorem writes_silent (h : Silent me l l') : writes n l' = writes n l :=
  writes_grown h fun _ h => h.elim

end Writes

section Frame

variable {u : Prop} {key T : String} {fates : List Fate} {st st' : Db.Store}

theorem Granted.lookup_ne (h : Granted u key T st st') {k : String} (hk : k ≠ makeLock key) :
    st'.lookup k = st.lookup k := by
  cases h with
  | held | unread => rfl
  | taken => exact AList.lookup_insert_ne hk

theorem LockBy.lookup_ne (h : LockBy fates key T st st') {k : String} (hk : k ≠ makeLock key) :
    st'.lookup k = st.lookup k := by
  rw [LockBy] at h
  split_ifs at h
  · rw [h]
  · exact h.lookup_ne hk

theorem LockBy.transOf_eq (h : LockBy fates key T st st') (U : String) :
    transOf st' U = transOf st U := by
  rw [transOf, h.lookup_ne (by simp)]
  rfl

theorem LockBy.entryOf_eq (h : LockBy fates key T st st') (k : String) :
    entryOf st' k = entryOf st k := by
  rw [entryOf, dataAt, h.lookup_ne (by simp)]
  rfl

theorem LockBy.lockOf_ne (h : LockBy fates key T st st') {k : String} (hk : k ≠ key) :
    lockOf st' k = lockOf st k := by
  rw [lockOf, h.lookup_ne (by simpa using hk)]
  rfl

end Frame

/-- In the step, a handler of `req` calls `addLock`, on the connection `σ`. -/
inductive Locks (s : Sys) (σ : Session) (req : RpcReq) (fates : List Fate) : Label → Prop
  | recv {x fuel : Nat} {clocks : List Timeval} {rest : List RpcReq} : s.sess x = some σ →
      σ.live = true → σ.toServ = req :: rest → σ.vars.beginTs ≠ "" → req.Accesses →
      (req.requestType = .get → req.getForUpdate ≠ 0) →
      Locks s σ req fates (.recv x ⟨fates, clocks, fuel⟩)
  | timeout {x fuel : Nat} {clocks : List Timeval} {res : RpcRes} : s.sess x = some σ →
      σ.live = true → σ.wait = .lock req res →
      (req.requestType = .get → req.getForUpdate ≠ 0) →
      Locks s σ req fates (.timeout x ⟨fates, clocks, fuel⟩)

inductive StoreMove (A : Hist → Prop) (s : Sys) (n : Host) (ℓ : Label) (s' : Sys) : Prop
  | frame : (∀ k, ¬ TransKey k → (s'.node n).store.lookup k = (s.node n).store.lookup k) →
      writes n s'.hist = writes n s.hist → StoreMove A s n ℓ s'
  | locks (σ : Session) (req : RpcReq) (fates : List Fate) : Locks s σ req fates ℓ → σ.host = n →
      LockBy fates req.key σ.vars.beginTs (s.node n).store (s'.node n).store →
      writes n s'.hist = writes n s.hist → StoreMove A s n ℓ s'
  | breaks (σ : Session) (req : RpcReq) (fates : List Fate) (st : Db.Store) :
      Locks s σ req fates ℓ → σ.host = n →
      LockBy fates req.key σ.vars.beginTs (s.node n).store st →
      HalfWritten st req.key σ.vars.beginTs (s'.node n).store →
      writes n s'.hist = writes n s.hist → StoreMove A s n ℓ s'
  | writes (σ : Session) (req : RpcReq) (fates : List Fate) (st : Db.Store) :
      Locks s σ req fates ℓ → σ.host = n →
      LockBy fates req.key σ.vars.beginTs (s.node n).store st →
      Written (MayFail A) st req.key req.value σ.vars.beginTs req.requestType
        (s'.node n).store →
      writes n s'.hist = ⟨req.key, σ.vars.beginTs, req.requestType, req.value⟩ :: writes n s.hist →
      StoreMove A s n ℓ s'

section StoreMove

variable {cfg : Config} {A : Hist → Prop} {s s' : Sys} {n : Host} {ℓ : Label} {σ : Session}
  {req : RpcReq} {fates : List Fate} {w : DbWorld}

theorem LockEnd.writes {G : Db.Store → Db.Store → Prop} {me : Proc} {self : Host} {key T : String}
    {w w' : DbWorld} (h : LockEnd G me self key T w w') : writes n w'.hist = writes n w.hist := by
  obtain ⟨-, m, hm, he⟩ := h
  rw [he, writes_note, writes_silent hm]
  rfl

theorem ReadEnd.writes {me : Proc} {self : Host} {fuel : Nat} {v : Vars} {res : RpcRes}
    {w w' : DbWorld} {seg : Seg} (h : ReadEnd A me self fuel v req res w seg w') :
    writes n w'.hist = writes n w.hist := by
  obtain ⟨-, l, ts, m, r, hl, hm, he, -, -⟩ := h
  rw [he, writes_note, writes_silent hm]
  rcases hl with ⟨-, -, rfl⟩ | ⟨-, tv, -, rfl⟩
  · rfl
  · rfl

theorem StoreMove.of_ran {N : Event → Prop} (hst : (s'.node n).store = w.store)
    (hw : s'.hist = w.hist) (hN : ∀ e, N e → e.write? n = none)
    (hr : Ran n N TransKey (s.world n) w) : StoreMove A s n ℓ s' :=
  .frame (fun k hk => by rw [hst]; exact hr.frame k hk) (by rw [hw]; exact writes_grown hr.grown hN)

theorem StoreMove.of_access {fuel : Nat} {res : RpcRes} {seg : Seg}
    (hst : (s'.node n).store = w.store) (hw : s'.hist = w.hist)
    (hl : (req.requestType = .get → req.getForUpdate ≠ 0) → Locks s σ req fates ℓ) (hn : σ.host = n)
    (h : AccessEnd A fates n fuel σ.vars req res (s.world n) seg w) :
    StoreMove A s n ℓ s' := by
  cases h with
  | reads _ _ hr =>
    refine .frame (fun k _ => by rw [hst, hr.1]; rfl) ?_
    rw [hw]
    exact hr.writes
  | gets _ hf hg =>
    have hl := hl fun _ => hf
    cases hg with
    | waits _ hwait =>
      refine .frame (fun k _ => by rw [hst, hwait.1]; rfl) ?_
      rw [hw]
      exact writes_silent hwait.2.1
    | reads w₁ _ _ hlock hr =>
      refine .locks σ req fates hl hn ?_ ?_
      · rw [hst, hr.1]
        exact hlock.1
      · rw [hw, hr.writes]
        exact hlock.writes
  | writes hne hwr =>
    have hl := hl fun he => absurd he hne
    cases hwr with
    | waits _ hwait =>
      refine .frame (fun k _ => by rw [hst, hwait.1]; rfl) ?_
      rw [hw]
      exact writes_silent hwait.2.1
    | fails w₁ _ ret hlock _ hhalf hm _ =>
      refine .breaks σ req fates w₁.store hl hn hlock.1 (hst ▸ hhalf) ?_
      rw [hw, writes_silent hm]
      exact hlock.writes
    | writes w₁ _ m hlock hwritten hm he =>
      refine .writes σ req fates w₁.store hl hn hlock.1 (hst ▸ hwritten) ?_
      rw [hw, he, writes_note, writes_silent hm, Event.write?, if_pos rfl, hlock.writes]
      rfl

theorem StoreMove.of_dies (hst : (s'.node n).store = w.store) (hw : s'.hist = w.hist)
    (hl : Locks s σ req fates ℓ) (hn : σ.host = n)
    (h : AccessDies fates n σ.vars req (s.world n) w) : StoreMove A s n ℓ s' := by
  cases h with
  | before he hm =>
    refine .frame (fun k _ => by rw [hst, he]; rfl) ?_
    rw [hw]
    exact writes_silent hm
  | after w₁ hlock hm hhalf =>
    refine .breaks σ req fates w₁.store hl hn hlock.1 (hst ▸ hhalf) ?_
    rw [hw, writes_silent hm]
    exact hlock.writes

theorem StoreMove.of_ne {h : Host} (hne : n ≠ h) (hst : (s'.node n).store = (s.node n).store)
    (hg : Grown (.storage h) (Event.Of h) s.hist s'.hist) : StoreMove A s n ℓ s' := by
  refine .frame (fun k _ => by rw [hst]) (writes_grown hg fun e he => ?_)
  cases e with
  | wrote h' key T type value =>
    obtain rfl : h' = h := he
    exact if_neg (Ne.symm hne)
  | _ => rfl

theorem respond_of_not_accesses (self : Host) (idle fuel : Nat) {v : Vars} (hop : req.IsOp)
    (h : v.beginTs = "" ∨ ¬ req.Accesses) :
    ∃ res, onMessage self idle fuel v (.rpcRequest req) = respond v res := by
  simp only [onMessage]
  cases hr : req.requestType with
  | begin => exact absurd hr hop.1
  | prepare => exact absurd hr hop.2
  | rollback => exact ⟨_, rfl⟩
  | commit =>
    simp only
    split_ifs
    · exact ⟨_, rfl⟩
    · exact ⟨_, rfl⟩
  | get | insert | update | delete =>
    have hv : v.beginTs = "" := h.resolve_right fun h => h (by simp [RpcReq.Accesses, hr])
    simp only [if_pos hv]
    exact ⟨_, rfl⟩

theorem onMessage_plainGet {self : Host} {idle fuel : Nat} {v : Vars} (hget : req.requestType = .get)
    (hf : req.getForUpdate = 0) (hv : v.beginTs ≠ "") :
    onMessage self idle fuel v (.rpcRequest req) =
      readRound self fuel v req { key := req.key } := by
  simp [onMessage, hget, hv, serveGet, hf]

theorem onTimeout_plainGet {self : Host} {fuel : Nat} {v : Vars} {res : RpcRes}
    (hget : req.requestType = .get) (hf : req.getForUpdate = 0) :
    onTimeout self fuel v (.lock req res) = readRound self fuel v req res := by
  simp [onTimeout, hget, serveGet, hf]

theorem readRound_frame (hA : Closed A) {self : Host} {fuel : Nat} {v : Vars} {res : RpcRes}
    {clocks : List Timeval} {o : Outcome Seg × DbWorld}
    (ho : (readRound self fuel v req res).run (.storage self) fates clocks w = o) (ha : A o.2.hist) :
    Outcome.Sat (fun _ w' => w'.store = w.store ∧ writes n w'.hist = writes n w.hist)
      (fun w' => w'.store = w.store ∧ writes n w'.hist = writes n w.hist) o :=
  (readRound_sat hA ho ha).mono (fun _ _ h => ⟨h.1, h.writes⟩) fun _ h => ⟨h.1, writes_silent h.2⟩

theorem onMessage_ran {self : Host} {idle fuel : Nat} {v : Vars} (hop : ¬ req.IsOp) {w : DbWorld} :
    (onMessage self idle fuel v (.rpcRequest req)).wp (.storage self) A
      (fun _ w' => Ran self (fun _ => False) TransKey w w')
      (fun w' => Ran self (fun _ => False) TransKey w w') w := by
  have hD : ∀ T, TransKey (makeTrans T) := fun T => ⟨T, rfl⟩
  have ran : ∀ {p : Db Seg} {S : Seg → Prop}, p.Tells (fun _ => False) → p.Only TransKey S →
      p.wp (.storage self) A (fun _ w' => Ran self (fun _ => False) TransKey w w')
        (fun w' => Ran self (fun _ => False) TransKey w w') w :=
    fun ht ho => Prog.wp_mono (fun _ _ h => h.2) (fun _ h => h) (wp_ran ht ho)
  simp only [onMessage]
  cases hr : req.requestType with
  | begin => exact ran (serveBegin_tells v req) (serveBegin_only hD v req)
  | prepare => exact ran (servePrepare_tells self idle v req) (servePrepare_only hD self idle v req)
  | _ => exact absurd ⟨by simp [hr], by simp [hr]⟩ hop

theorem StoreMove.recv (hA : Closed A) {x : Nat} {env : Env}
    (hs : step cfg s (.recv x env) = some s') (ha : A s'.hist) (n : Host) :
    StoreMove A s n (.recv x env) s' := by
  simp only [step] at hs
  split at hs
  · cases hs
  rename_i σ hσ
  split at hs
  case h_2 => cases hs
  rename_i m rest hlive hwait hm
  have sat : ∀ {Q : DbWorld → Prop},
      (∀ o, (onMessage σ.host (s.idle σ.host) env.fuel σ.vars (.rpcRequest m)).run (.storage σ.host)
          env.fates env.clocks (s.world σ.host) = o → A o.2.hist →
        Outcome.Sat (fun _ w => Q w) Q o) →
      ∃ w, Q w ∧ s'.hist = w.hist ∧
        ∀ n, (s'.node n).store = if n = σ.host then w.store else (s.node n).store := by
    intro Q h
    obtain ⟨-, ⟨seg, w, hw, rfl⟩ | ⟨w, hw, rfl⟩⟩ :=
      serve_inv (σ := { σ with toServ := rest }) h hs ha
    · exact ⟨w, hw, rfl, served_store s x { σ with toServ := rest } seg w⟩
    · exact ⟨w, hw, rfl, lost_store s w σ.host⟩
  by_cases hn : n = σ.host
  · subst hn
    by_cases hop : m.IsOp
    · by_cases hacc : σ.vars.beginTs ≠ "" ∧ m.Accesses
      · by_cases hplain : m.requestType = .get ∧ m.getForUpdate = 0
        · obtain ⟨w, ⟨hw, hwr⟩, hhist, hst⟩ := sat (Q := fun w => w.store = (s.world σ.host).store ∧
            Tpc.writes σ.host w.hist = Tpc.writes σ.host s.hist) (by
              rw [onMessage_plainGet hplain.1 hplain.2 hacc.1]
              exact fun o => readRound_frame hA)
          exact .frame (fun k _ => by rw [hst, if_pos rfl, hw]; rfl) (by rw [hhist]; exact hwr)
        have hl : Locks s σ m env.fates (.recv x env) :=
          .recv hσ hlive hm hacc.1 hacc.2 fun hg hf => hplain ⟨hg, hf⟩
        obtain ⟨w, hw, hhist, hst⟩ := sat (Q := fun w => (∃ seg, OpEnd A env.fates σ.host env.fuel
          σ.vars m (s.world σ.host) seg w) ∨ AccessDies env.fates σ.host σ.vars m (s.world σ.host) w)
          fun o ho ha => (op_end hA hop ho ha).mono (fun seg _ h => .inl ⟨seg, h⟩) fun _ h => .inr h
        have hst := (hst σ.host).trans (if_pos rfl)
        rcases hw with ⟨seg, hend⟩ | hdies
        · cases hend with
          | answers res => exact .frame (fun k _ => by rw [hst]; rfl) (by rw [hhist]; rfl)
          | accesses res _ _ hend => exact .of_access hst hhist (fun _ => hl) rfl hend
        · exact .of_dies hst hhist hl rfl hdies
      · obtain ⟨res, hres⟩ := respond_of_not_accesses σ.host (s.idle σ.host) env.fuel hop
          (not_and_or.mp hacc |>.imp not_not.mp id)
        obtain ⟨w, rfl, hhist, hst⟩ := sat (Q := fun w => w = s.world σ.host) (by
          rw [hres]
          rintro o rfl -
          rfl)
        exact .frame (fun k _ => by rw [hst, if_pos rfl]; rfl) (by rw [hhist]; rfl)
    · obtain ⟨w, hran, hhist, hst⟩ := sat
        (Q := fun w => Ran σ.host (fun _ => False) TransKey (s.world σ.host) w) (by
          rintro o rfl ha
          exact Prog.sat_of_wp hA (onMessage_ran hop) ha)
      exact .of_ran ((hst σ.host).trans (if_pos rfl)) hhist (fun _ h => h.elim) hran
  · obtain ⟨w, hw, hhist, hst⟩ := sat
      (Q := fun w => Grown (.storage σ.host) (Event.Of σ.host) s.hist w.hist) (by
      rintro o rfl ha
      exact Prog.sat_of_wp hA (Prog.wp_grown (onMessage_tells σ.host (s.idle σ.host) env.fuel σ.vars
        (.rpcRequest m)) (.refl _ _ s.hist)) ha)
    exact .of_ne hn ((hst n).trans (if_neg hn)) (hhist ▸ hw)

theorem StoreMove.of_node {h : Host} (hw : s'.hist = w.hist)
    (hst : ∀ n, (s'.node n).store = if n = h then w.store else (s.node n).store)
    (hg : Grown (.storage h) (Event.Of h) s.hist w.hist)
    (own : (s'.node h).store = w.store → StoreMove A s h ℓ s') (n : Host) :
    StoreMove A s n ℓ s' := by
  by_cases hn : n = h
  · subst hn
    exact own ((hst n).trans (if_pos rfl))
  · exact .of_ne hn ((hst n).trans (if_neg hn)) (hw ▸ hg)

theorem StoreMove.of_trans {h : Host} (hw : s'.hist = w.hist)
    (hst : ∀ n, (s'.node n).store = if n = h then w.store else (s.node n).store)
    (hr : Ran h (fun _ => False) TransKey (s.world h) w) (n : Host) : StoreMove A s n ℓ s' :=
  .of_node hw hst (hr.grown.mono fun _ h => h.elim)
    (fun hst => .of_ran hst hw (fun _ h => h.elim) hr) n

theorem StoreMove.timeout (hA : Closed A) {x : Nat} {env : Env}
    (hs : step cfg s (.timeout x env) = some s') (ha : A s'.hist) (n : Host) :
    StoreMove A s n (.timeout x env) s' := by
  simp only [step] at hs
  split at hs
  · cases hs
  rename_i σ hσ
  split_ifs at hs with hc
  obtain ⟨hlive, hwait⟩ := hc
  have sat : ∀ {Q : Seg → DbWorld → Prop} {R : DbWorld → Prop},
      (∀ o, (onTimeout σ.host env.fuel σ.vars σ.wait).run (.storage σ.host) env.fates env.clocks
        (s.world σ.host) = o → A o.2.hist → Outcome.Sat Q R o) →
      (∀ seg w, Q seg w → (s'.node σ.host).store = w.store → s'.hist = w.hist →
        StoreMove A s σ.host (.timeout x env) s') →
      (∀ w, R w → (s'.node σ.host).store = w.store → s'.hist = w.hist →
        StoreMove A s σ.host (.timeout x env) s') → StoreMove A s n (.timeout x env) s' := by
    intro Q R h hQ hR
    have grown : ∀ o, (onTimeout σ.host env.fuel σ.vars σ.wait).run (.storage σ.host) env.fates
        env.clocks (s.world σ.host) = o → A o.2.hist → Outcome.Sat
          (fun _ w => Grown (.storage σ.host) (Event.Of σ.host) s.hist w.hist)
          (fun w => Grown (.storage σ.host) (Event.Of σ.host) s.hist w.hist) o := by
      rintro o rfl ha
      exact Prog.sat_of_wp (A := A) hA (Prog.wp_grown (onTimeout_tells σ.host env.fuel σ.vars σ.wait)
        (.refl _ _ s.hist)) ha
    obtain ⟨-, ⟨seg, w, ⟨hw, hg⟩, rfl⟩ | ⟨w, ⟨hw, hg⟩, rfl⟩⟩ :=
      serve_inv (fun o ho ha => (h o ho ha).and (grown o ho ha)) hs ha
    · exact .of_node rfl (served_store s x σ seg w) hg
        (fun hst => hQ seg w hw hst rfl) n
    · exact .of_node rfl (lost_store s w σ.host) hg
        (fun hst => hR w hw hst rfl) n
  have reads : (∀ o, (onTimeout σ.host env.fuel σ.vars σ.wait).run (.storage σ.host) env.fates
      env.clocks (s.world σ.host) = o → A o.2.hist → Outcome.Sat
        (fun _ w => w.store = (s.world σ.host).store ∧
          Tpc.writes σ.host w.hist = Tpc.writes σ.host s.hist)
        (fun w => w.store = (s.world σ.host).store ∧
          Tpc.writes σ.host w.hist = Tpc.writes σ.host s.hist) o) →
      StoreMove A s n (.timeout x env) s' := fun h =>
    sat h (fun _ _ h hst hw => .frame (fun k _ => by rw [hst, h.1]; rfl) (by rw [hw]; exact h.2))
      (fun _ h hst hw => .frame (fun k _ => by rw [hst, h.1]; rfl) (by rw [hw]; exact h.2))
  cases hwt : σ.wait with
  | idle => exact absurd hwt hwait
  | lock req res =>
    by_cases hplain : req.requestType = .get ∧ req.getForUpdate = 0
    · refine reads (fun o => ?_)
      rw [hwt, onTimeout_plainGet hplain.1 hplain.2]
      exact readRound_frame hA
    have hl : Locks s σ req env.fates (.timeout x env) :=
      .timeout hσ hlive hwt fun hg hf => hplain ⟨hg, hf⟩
    refine sat (Q := AccessEnd A env.fates σ.host env.fuel σ.vars req res (s.world σ.host))
      (R := AccessDies env.fates σ.host σ.vars req (s.world σ.host)) (fun o ho ha => ?_)
      (fun _ _ h hst hw => .of_access hst hw (fun _ => hl) rfl h)
      (fun _ h hst hw => .of_dies hst hw hl rfl h)
    rw [hwt] at ho
    simp only [onTimeout] at ho
    split_ifs at ho with hreq
    · exact serveGet_end hA hreq ho ha
    · exact serveWrite_end hA hreq ho ha
  | read req res =>
    refine reads (fun o => ?_)
    rw [hwt]
    exact readRound_frame hA

theorem Dies.storeMove {h : Host} (hd : Dies s h w ℓ) (hre : ∀ x env, ℓ ≠ .recv x env)
    (hti : ∀ x env, ℓ ≠ .timeout x env) (n : Host) : StoreMove A s n ℓ (s.lost h w) := by
  refine .of_node rfl (lost_store s w h) hd.grown (fun hst => ?_) n
  cases hd with
  | same he hg =>
    exact .of_ran hst rfl (fun _ h => h.elim) ⟨hg, fun k _ => by rw [he]; rfl⟩
  | @recv x env => exact absurd rfl (hre x env)
  | @timeout x env => exact absurd rfl (hti x env)
  | startUp _ _ hr => exact .of_ran hst rfl (fun _ h => h.elim) hr

theorem NodeStep.storeMove (hs : NodeStep A s ℓ s') (hre : ∀ x env, ℓ ≠ .recv x env)
    (hti : ∀ x env, ℓ ≠ .timeout x env) (n : Host) : StoreMove A s n ℓ s' := by
  cases hs with
  | @recv x env => exact absurd rfl (hre x env)
  | @timeout x env => exact absurd rfl (hti x env)
  | event | cut => exact .frame (fun _ _ => rfl) rfl
  | @hangup x env σ o w _ _ _ _ _ _ hr =>
    exact .of_trans rfl (hungUp_store s x σ w · o) hr n
  | @taskSkip h i env p t w _ _ _ hr =>
    exact .of_trans rfl (tasked_store s w h · i t) hr n
  | @taskRecv h i env p res t w _ _ _ _ hr =>
    exact .of_trans rfl (tasked_store s w h · i t) hr n
  | @taskAsk h peer i env p o w _ _ _ _ hw _ hg =>
    exact .frame (fun k _ => by rw [asked_store s w h n peer i _ hw]) (writes_silent hg)
  | @startUp h env ts w _ _ hr =>
    exact .of_trans rfl (started_store s w h · ts) hr n
  | lost hd => exact hd.storeMove hre hti n

theorem CoordStep.writes {c : CoordId} (hs : CoordStep cfg s c ℓ s') :
    writes n s'.hist = writes n s.hist := by
  cases hs with
  | leavesOp h req =>
    cases (s.coord c).gone <;> rfl
  | collects h msg x σ rest m => cases m <;> rfl
  | _ => rfl

/-- What a step does to the locks and the versions of a node. -/
theorem store_move (hA : Closed A) (hs : step cfg s ℓ = some s') (ha : A s'.hist) (n : Host) :
    StoreMove A s n ℓ s' := by
  rcases step_cases hA hs ha with hn | ⟨c, hc⟩
  · cases ℓ with
    | recv x env => exact .recv hA hs ha n
    | timeout x env => exact .timeout hA hs ha n
    | _ => exact hn.storeMove (fun _ _ => by simp) (fun _ _ => by simp) n
  · exact .frame (fun k _ => by rw [hc.node_eq]) hc.writes

end StoreMove

end Tpc
