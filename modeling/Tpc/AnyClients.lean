import Tpc.Chains
import Tpc.Steps

/-! Storage nodes whose clients are any programs at all: they connect, send any requests and close,
so a `begin_ts` may be presented many times. What keeps the chains of such nodes free of cycles. -/

namespace Tpc
open Durable

def Label.OfNode : Label → Bool
  | .recv .. | .timeout .. | .event .. | .hangup .. | .taskSkip .. | .taskAsk .. | .taskRecv ..
  | .crash .. | .startUp .. | .cut .. => true
  | _ => false

inductive OpenLabel
  | serv (ℓ : Label)
  | connect (x : Nat) (h : Host) (c : CoordId)
  | send (x : Nat) (m : RpcReq)
  | close (x : Nat)
deriving Repr

def openStep (cfg : Config) (s : Sys) : OpenLabel → Option Sys
  | .serv ℓ => if ℓ.OfNode then step cfg s ℓ else none
  | .connect x h c => if s.sess x = none then some (s.setSess x { host := h, owner := c }) else none
  | .send x m => (s.sess x).map fun σ => s.setSess x (σ.send m)
  | .close x => (s.sess x).map fun σ => s.setSess x { σ with clClosed := true }

/-- The states that storage nodes reach with any clients, in steps that satisfy `C`. -/
inductive OpenReach (cfg : Config) (C : Sys → Label → Prop) : Sys → Prop
  | init : OpenReach cfg C {}
  | step {s s' : Sys} {ℓ : OpenLabel} : OpenReach cfg C s → (∀ ℓ', ℓ = .serv ℓ' → C s ℓ') →
      openStep cfg s ℓ = some s' → OpenReach cfg C s'

def openSteps (cfg : Config) (C : Sys → Label → Prop) [∀ s ℓ, Decidable (C s ℓ)] :
    Sys → List OpenLabel → Option Sys
  | s, [] => some s
  | s, .serv ℓ :: ls =>
    if C s ℓ then (openStep cfg s (.serv ℓ)).bind fun s => openSteps cfg C s ls else none
  | s, ℓ :: ls => (openStep cfg s ℓ).bind fun s => openSteps cfg C s ls

theorem openReach_of_steps {cfg : Config} {C : Sys → Label → Prop} [∀ s ℓ, Decidable (C s ℓ)]
    {ls : List OpenLabel} {s s' : Sys} (hs : OpenReach cfg C s)
    (h : openSteps cfg C s ls = some s') : OpenReach cfg C s' := by
  induction ls generalizing s with
  | nil =>
    obtain rfl := Option.some.inj h
    exact hs
  | cons ℓ ls ih =>
    cases ℓ with
    | serv ℓ =>
      rw [openSteps] at h
      split_ifs at h with hc
      obtain ⟨s₁, h₁, h₂⟩ := Option.bind_eq_some_iff.mp h
      exact ih (.step hs (by rintro ℓ' ⟨⟩; exact hc) h₁) h₂
    | connect | send | close =>
      obtain ⟨s₁, h₁, h₂⟩ := Option.bind_eq_some_iff.mp h
      exact ih (.step hs (by simp) h₁) h₂

theorem OpenReach.mono {cfg : Config} {C D : Sys → Label → Prop} (hC : ∀ s ℓ, C s ℓ → D s ℓ) {s : Sys}
    (h : OpenReach cfg C s) : OpenReach cfg D s := by
  induction h with
  | init => exact .init
  | step _ hc hs ih => exact .step ih (fun ℓ' he => hC _ _ (hc ℓ' he)) hs

theorem nodeStep_of_label {A : Hist → Prop} (hA : Closed A) {cfg : Config} {s s' : Sys} {ℓ : Label}
    (hℓ : ℓ.OfNode = true) (hs : Tpc.step cfg s ℓ = some s') (ha : A s'.hist) : NodeStep A s ℓ s' := by
  cases ℓ with
  | recv x env => exact node_recv hA hs ha
  | timeout x env => exact node_timeout hA hs ha
  | event x => exact node_event hs
  | hangup x env => exact node_hangup hA hs ha
  | taskSkip h i env => exact node_taskSkip hA hs ha
  | taskAsk h peer i env => exact node_taskAsk hA hs ha
  | taskRecv h i env => exact node_taskRecv hA hs ha
  | crash h => exact node_crash hs
  | startUp h env => exact node_startUp hA hs ha
  | cut x a b => exact node_cut hs
  | _ => cases hℓ

def Below (st : Db.Store) (key T : String) : Prop :=
  ∃ l, Chain st key l ∧ ∃ d ∈ l.tail, d.curVersion = T

/-- `addLock` returns 0 when no further call fails. -/
def Grants (fates : List Fate) (st : Db.Store) (key T : String) : Prop :=
  fates.head? = some .fail ∨ lockOf st key = some T ∨ LockFree st key T

def WritesBelow (fates : List Fate) (st : Db.Store) (v : Vars) (req : RpcReq) : Prop :=
  req.Accesses ∧ req.requestType ≠ .get ∧ Grants fates st req.key v.beginTs ∧
    Below st req.key v.beginTs

/-- Transactions are begun under timestamps, and no write is granted to a transaction whose version
is no longer the newest one. -/
def StaysAbove (s : Sys) : Label → Prop
  | .recv x env => ∀ σ m rest, s.sess x = some σ → σ.toServ = m :: rest →
      (m.requestType = .begin → m.beginTs ≠ "" → IsTS m.beginTs) ∧
      ¬ WritesBelow env.fates (s.node σ.host).store σ.vars m
  | .timeout x env => ∀ σ req res, s.sess x = some σ → σ.wait = .lock req res →
      ¬ WritesBelow env.fates (s.node σ.host).store σ.vars req
  | _ => True

def Chained (st : Db.Store) : Prop := ∀ key, ∃ l, ProperChain st key l

section Chained

variable {me : Proc} {A : Hist → Prop} {self : Host} {fuel : Nat} {v : Vars} {req : RpcReq}
  {res : RpcRes} {fates : List Fate} {w w' : DbWorld} {seg : Seg} {st st' : Db.Store}

theorem chained_empty : Chained ∅ := fun _ => ⟨[], .empty rfl, by simp, by simp⟩

theorem Chained.frame (h : Chained st)
    (he : ∀ k k', k' = makeDataEntry k ∨ (∃ v, k' = makeData k v) → st'.lookup k' = st.lookup k') :
    Chained st' := by
  intro key
  obtain ⟨l, hl⟩ := h key
  refine ⟨l, hl.chain.congr ?_ fun d _ => ?_, hl.distinct, hl.isTS⟩
  · rw [entryOf, dataAt, he key _ (.inl rfl)]
    rfl
  · rw [dataAt, he key _ (.inr ⟨_, rfl⟩)]
    rfl

theorem Chained.ran (h : Chained w.store) {N : Event → Prop} (hr : Ran self N TransKey w w') :
    Chained w'.store := by
  refine h.frame fun k k' hk => hr.frame k' ?_
  rintro ⟨T, rfl⟩
  rcases hk with hk | ⟨v, hk⟩
  · exact makeTrans_ne_makeDataEntry _ _ hk
  · exact makeTrans_ne_makeData _ _ _ hk

theorem Chained.insert_trans (h : Chained st) (T : String) (r : Record) :
    Chained (st.insert (makeTrans T) r) := by
  refine h.frame fun k k' hk => AList.lookup_insert_ne ?_
  rintro rfl
  rcases hk with hk | ⟨v, hk⟩
  · exact makeTrans_ne_makeDataEntry _ _ hk
  · exact makeTrans_ne_makeData _ _ _ hk

theorem Chained.granted {u : Prop} {key T : String} (h : Chained st) (hg : Granted u key T st st') :
    Chained st' := by
  cases hg with
  | held => exact h
  | taken =>
    refine h.frame fun k k' hk => AList.lookup_insert_ne ?_
    rintro rfl
    rcases hk with hk | ⟨v, hk⟩
    · exact makeLock_ne_makeDataEntry _ _ hk
    · exact makeLock_ne_makeData _ _ _ hk
  | unread => exact h

theorem Chained.of_key {key : String} (h : Chained st) (ho : SameOthers key st st')
    (hk : ∃ l, ProperChain st' key l) : Chained st' := by
  intro k'
  by_cases he : k' = key
  · rwa [he]
  · obtain ⟨l, hl⟩ := h k'
    exact ⟨l, (ho.chain_iff he hl.isTS).mpr hl.chain, hl.distinct, hl.isTS⟩

theorem Chained.halfWritten {key T : String} (h : Chained st) (hw : HalfWritten st key T st') :
    Chained st' := by
  obtain ⟨l, hl⟩ := h key
  exact h.of_key (hl.others_halfWritten hw) ⟨l, hl.halfWritten hw⟩

theorem Chained.written {u : Prop} {key value T : String} {type : RequestType} (h : Chained st)
    (hT : IsTS T) (hb : ¬ Below st key T) (hw : Written u st key value T type st') :
    Chained st' := by
  obtain ⟨l, hl⟩ := h key
  have htail : ∀ d ∈ l.tail, d.curVersion ≠ T := fun d hd he => hb ⟨l, hl.chain, d, hd, he⟩
  refine h.of_key (hl.others_written hw) ?_
  rcases hl.written hT htail hw with hn | ⟨-, hn⟩
  · exact ⟨_, hn⟩
  · exact ⟨_, hn⟩

theorem Chained.lockBy {key T : String} (h : Chained st) (hg : LockBy fates key T st st') :
    Chained st' := by
  unfold LockBy at hg
  split_ifs at hg
  · exact hg ▸ h
  · exact h.granted hg

theorem grants_of_lockBy {key T : String} (hg : LockBy fates key T st st') :
    Grants fates st key T := by
  unfold LockBy at hg
  split_ifs at hg with hf
  · exact .inl hf
  · cases hg with
    | held hl => exact .inr (.inl hl)
    | taken hl => exact .inr (.inr hl)
    | unread hu => exact hu.elim

theorem below_of_lockBy {key T : String} (hg : LockBy fates key T st st') (hb : Below st' key T) :
    Below st key T := by
  obtain ⟨l, hl, hd⟩ := hb
  unfold LockBy at hg
  split_ifs at hg
  · exact ⟨l, hg ▸ hl, hd⟩
  · cases hg with
    | held => exact ⟨l, hl, hd⟩
    | taken =>
      refine ⟨l, hl.congr ?_ fun d _ => ?_, hd⟩
      · simp [entryOf, dataAt, lockStore]
      · simp [dataAt, lockStore]
    | unread hu => exact hu.elim

theorem Chained.access (h : Chained w.store) (hT : IsTS v.beginTs)
    (hreq : req.Accesses)
    (hc : ¬ WritesBelow fates w.store v req)
    (ha : AccessEnd A fates self fuel v req res w seg w') : Chained w'.store := by
  cases ha with
  | reads _ _ hr =>
    rw [hr.1]
    exact h
  | gets _ _ hg =>
    cases hg with
    | waits _ hw =>
      rw [hw.1]
      exact h
    | reads w₁ _ _ hl hr =>
      rw [hr.1]
      exact h.lockBy hl.1
  | writes hne hw =>
    cases hw with
    | waits _ hw =>
      rw [hw.1]
      exact h
    | fails w₁ _ ret hl _ hw => exact (h.lockBy hl.1).halfWritten hw
    | writes w₁ _ m hl hw =>
      refine (h.lockBy hl.1).written hT (fun hb => hc ⟨hreq, hne, grants_of_lockBy hl.1, ?_⟩) hw
      exact below_of_lockBy hl.1 hb

theorem Chained.accessDies (h : Chained w.store) (ha : AccessDies fates self v req w w') :
    Chained w'.store := by
  cases ha with
  | before hw =>
    rw [hw]
    exact h
  | after w₁ hl _ hw => exact (h.lockBy hl.1).halfWritten hw

theorem Chained.prepareLost {B : Prop} {l l' : Hist} (h : Chained st)
    (hp : PrepareLost B self l l' v req st st') : Chained st' := by
  cases hp with
  | before => exact h
  | between => exact h.insert_trans _ _
  | after => exact h.insert_trans _ _

end Chained

structure Linked (s : Sys) : Prop where
  chained : ∀ n, Chained (s.node n).store
  vars : ∀ x σ, s.sess x = some σ → σ.vars.beginTs ≠ "" → IsTS σ.vars.beginTs
  waits : ∀ x σ req, s.sess x = some σ → σ.wait.req? = some req →
    σ.vars.beginTs ≠ "" ∧ req.Accesses

section Linked

variable {A : Hist → Prop} {s s' : Sys} {ℓ : Label}

theorem Linked.set {x : Nat} {τ : Session} (h : Linked s)
    (hsess : s'.sess = Function.update s.sess x (some τ))
    (hst : ∀ n, Chained (s'.node n).store) (hv : τ.vars.beginTs ≠ "" → IsTS τ.vars.beginTs)
    (hw : ∀ req, τ.wait.req? = some req → τ.vars.beginTs ≠ "" ∧ req.Accesses) : Linked s' := by
  have cases_sess : ∀ {y σ}, s'.sess y = some σ → σ = τ ∨ s.sess y = some σ := by
    intro y σ hσ
    rw [hsess, Function.update_apply] at hσ
    split_ifs at hσ
    · exact .inl (Option.some.inj hσ).symm
    · exact .inr hσ
  refine ⟨hst, fun y σ hσ => ?_, fun y σ req hσ => ?_⟩
  · rcases cases_sess hσ with rfl | hσ
    · exact hv
    · exact h.vars y σ hσ
  · rcases cases_sess hσ with rfl | hσ
    · exact hw req
    · exact h.waits y σ req hσ

theorem chained_of_node {h : Host} {st : Db.Store} (hs : ∀ n, Chained (s.node n).store)
    (hst : ∀ n, (s'.node n).store = if n = h then st else (s.node n).store) (hc : Chained st) :
    ∀ n, Chained (s'.node n).store := by
  intro n
  rw [hst]
  split_ifs
  · exact hc
  · exact hs n

theorem Linked.lost (h : Linked s) {n : Host} {w : DbWorld} (hc : Chained w.store) :
    Linked (s.lost n w) := by
  have cases_sess : ∀ {y σ}, (s.lost n w).sess y = some σ →
      ∃ τ, s.sess y = some τ ∧ (σ = τ ∨ σ = τ.stop) := by
    intro y σ hσ
    obtain ⟨τ, hτ, rfl⟩ := Option.map_eq_some_iff.mp hσ
    refine ⟨τ, hτ, ?_⟩
    split_ifs
    · exact .inr rfl
    · exact .inl rfl
  refine ⟨chained_of_node h.chained (lost_store s w n) hc, fun y σ hσ => ?_, fun y σ req hσ hw => ?_⟩
  · obtain ⟨τ, hτ, rfl | rfl⟩ := cases_sess hσ
    · exact h.vars y σ hτ
    · exact h.vars y τ hτ
  · obtain ⟨τ, hτ, rfl | rfl⟩ := cases_sess hσ
    · exact h.waits y σ req hτ hw
    · cases hw

def SegOk (seg : Seg) : Prop :=
  (seg.vars.beginTs ≠ "" → IsTS seg.vars.beginTs) ∧
    ∀ wt req, seg.next = .wait wt → wt.req? = some req → seg.vars.beginTs ≠ "" ∧ req.Accesses

theorem Linked.served (h : Linked s) {x : Nat} {σ : Session} {seg : Seg} {w : DbWorld}
    (hc : Chained w.store) (hseg : SegOk seg) : Linked (s.served x σ seg w) := by
  refine h.set (x := x) rfl (chained_of_node h.chained (served_store s x σ seg w) hc) ?_ ?_
  · rw [after_vars]
    exact hseg.1
  · intro req hreq
    rw [after_vars]
    rcases after_wait σ seg rfl with hidle | hn
    · rw [hidle] at hreq
      cases hreq
    · exact hseg.2 _ req hn hreq

theorem Linked.recv (h : Linked s) {x : Nat} {env : Env} {σ : Session} {m : RpcReq}
    {rest : List RpcReq} {seg : Seg} {w : DbWorld} (hσ : s.sess x = some σ)
    (hto : σ.toServ = m :: rest) (hc : StaysAbove s (.recv x env))
    (hend : Handled A env.fates σ.host (s.idle σ.host) env.fuel σ.vars m (s.world σ.host) seg w) :
    Chained w.store ∧ SegOk seg := by
  obtain ⟨hts, hbelow⟩ := hc σ m rest hσ hto
  have hw : Chained (s.world σ.host).store := h.chained σ.host
  cases hend with
  | begin hreq hend hr =>
    refine ⟨hw.ran hr, ?_⟩
    generalize w.store = st at hend
    cases hend with
    | refused => exact ⟨h.vars x σ hσ, by simp⟩
    | begun => exact ⟨hts hreq, by simp⟩
    | failed => exact ⟨hts hreq, by simp⟩
  | prepare _ hend hr =>
    refine ⟨hw.ran hr, ?_⟩
    generalize w.store = st at hend
    cases hend with
    | refused => exact ⟨h.vars x σ hσ, by simp⟩
    | votes => exact ⟨fun hne => absurd rfl hne, by simp⟩
  | op _ hend hk hr =>
    cases hend with
    | answers => exact ⟨hw, h.vars x σ hσ, by simp⟩
    | accesses res hv hacc ha =>
      refine ⟨hw.access (h.vars x σ hσ hv) hacc hbelow ha, ?_⟩
      rw [SegOk, hk.1]
      refine ⟨h.vars x σ hσ, fun wt req hn hreq => ⟨hv, ?_⟩⟩
      obtain rfl := Option.some.inj (hreq.symm.trans (ha.wait hn))
      exact hacc

theorem Linked.timeout (h : Linked s) {x : Nat} {env : Env} {σ : Session} {seg : Seg} {w : DbWorld}
    (hσ : s.sess x = some σ) (hc : StaysAbove s (.timeout x env))
    (hend : TimedOut A env.fates σ.host env.fuel σ.vars (s.world σ.host) σ.wait seg w)
    (hk : seg.Keeps σ.vars) : Chained w.store ∧ SegOk seg := by
  have hw : Chained (s.world σ.host).store := h.chained σ.host
  rw [SegOk, hk.1]
  generalize hwt : σ.wait = wt at hend
  cases hend with
  | @lock req res _ _ ha =>
    obtain ⟨hv, hacc⟩ := h.waits x σ req hσ (by rw [hwt]; rfl)
    refine ⟨hw.access (h.vars x σ hσ hv) hacc (hc σ req res hσ hwt) ha, h.vars x σ hσ, ?_⟩
    intro wt req' hn hreq
    obtain rfl := Option.some.inj (hreq.symm.trans (ha.wait hn))
    exact ⟨hv, hacc⟩
  | @read req res _ _ hr =>
    obtain ⟨hv, hacc⟩ := h.waits x σ req hσ (by rw [hwt]; rfl)
    obtain ⟨hst, l, ts, m, r, -, -, -, -, rfl⟩ := hr
    refine ⟨by rw [hst]; exact hw, h.vars x σ hσ, fun wt req' hn hreq => ?_⟩
    obtain rfl := Option.some.inj (hreq.symm.trans (readSeg_wait hn))
    exact ⟨hv, hacc⟩

theorem Linked.dies (h : Linked s) {n : Host} {w : DbWorld} (hd : Dies s n w ℓ) :
    Chained w.store := by
  cases hd with
  | same hw => exact hw ▸ h.chained n
  | recv _ _ _ _ hd =>
    cases hd with
    | same hw => exact hw ▸ h.chained n
    | prepare _ hp => exact Chained.prepareLost (h.chained n) hp
    | op _ ha => exact Chained.accessDies (h.chained n) ha
  | timeout _ _ _ _ ha => exact Chained.accessDies (h.chained n) ha
  | startUp _ _ hr => exact Chained.ran (h.chained n) hr

theorem Linked.node (h : Linked s) (hs : NodeStep A s ℓ s') (hc : StaysAbove s ℓ) : Linked s' := by
  cases hs with
  | recv hσ _ _ hto _ hend =>
    obtain ⟨hw, hseg⟩ := h.recv hσ hto hc hend
    exact h.served hw hseg
  | timeout hσ _ _ hend hk =>
    obtain ⟨hw, hseg⟩ := h.timeout hσ hc hend hk
    exact h.served hw hseg
  | @event x σ res hσ =>
    refine h.set (x := x) rfl h.chained ?_ ?_
    · rw [answer_vars]
      exact h.vars x σ hσ
    · rw [answer_wait]
      simp [Wait.req?]
  | @hangup x env σ o w hσ _ _ _ _ _ hr =>
    refine h.set (x := x) rfl (chained_of_node h.chained (hungUp_store s x σ w · o)
      (Chained.ran (h.chained σ.host) hr)) (h.vars x σ hσ) ?_
    simp [Session.stop, Wait.req?]
  | @taskSkip n i env p t w _ _ _ hr =>
    exact ⟨chained_of_node h.chained (tasked_store s w n · i t) (Chained.ran (h.chained n) hr),
      h.vars, h.waits⟩
  | @taskRecv n i env p res t w _ _ _ _ hr =>
    exact ⟨chained_of_node h.chained (tasked_store s w n · i t) (Chained.ran (h.chained n) hr),
      h.vars, h.waits⟩
  | @taskAsk n peer i env p o w _ _ _ _ hw =>
    refine ⟨fun k => ?_, h.vars, h.waits⟩
    rw [asked_store s w n k peer i _ hw]
    exact h.chained k
  | @startUp n env ts w _ _ hr =>
    exact ⟨chained_of_node h.chained (started_store s w n · ts) (Chained.ran (h.chained n) hr),
      h.vars, h.waits⟩
  | lost hd => exact h.lost (h.dies hd)
  | @cut x a b σ hσ => exact h.set (x := x) rfl h.chained (h.vars x σ hσ) fun req => h.waits x σ req hσ

theorem OpenReach.linked {cfg : Config} (hs : OpenReach cfg StaysAbove s) : Linked s := by
  induction hs with
  | init => exact ⟨fun _ => chained_empty, fun x σ hσ => by simp at hσ, fun x σ req hσ => by simp at hσ⟩
  | @step s s' ℓ hr hc hstep ih =>
    cases ℓ with
    | serv ℓ =>
      simp only [openStep] at hstep
      split_ifs at hstep with hℓ
      exact ih.node (nodeStep_of_label closed_true hℓ hstep trivial) (hc ℓ rfl)
    | connect x n c =>
      simp only [openStep] at hstep
      split_ifs at hstep
      obtain rfl := Option.some.inj hstep
      exact ih.set (x := x) rfl ih.chained (by simp) (by simp [Wait.req?])
    | send x m =>
      obtain ⟨σ, hσ, rfl⟩ := Option.map_eq_some_iff.mp hstep
      refine ih.set (x := x) rfl ih.chained ?_ ?_
      · rw [send_vars]
        exact ih.vars x σ hσ
      · rw [send_vars, send_wait]
        exact fun req => ih.waits x σ req hσ
    | close x =>
      obtain ⟨σ, hσ, rfl⟩ := Option.map_eq_some_iff.mp hstep
      exact ih.set (x := x) rfl ih.chained (ih.vars x σ hσ) fun req => ih.waits x σ req hσ

end Linked

section Reads

variable {me : Proc} {T key : String} {clocks : List Timeval}

theorem readData_version_ends {fuel : Nat} {loopBeginTs : String} {fates : List Fate} {w : DbWorld}
    {o : Option Data}
    (hd : dataAt w.store (if loopBeginTs = "" then makeDataEntry key else makeData key loopBeginTs) =
      o)
    (older : ∀ d, o = some d → ∀ fs w', w'.store = w.store →
      ((if d.next = "" then .ret { code := 99 } else readData T key fuel d.next).run me fs clocks
        w').1 ≠ .running) :
    ((readData T key (fuel + 1) loopBeginTs).run me fates clocks w).1 ≠ .running := by
  simp only [readData, dbGet, Prog.bind_eq, Prog.bind, Prog.run, headD_eq_fate]
  cases fate fates 0 with
  | fail => simp
  | crash => simp
  | ok =>
    rcases read_cases w (if loopBeginTs = "" then makeDataEntry key
      else makeData key loopBeginTs) with ⟨hr, hl⟩ | ⟨r, hr, hl⟩
    · simp [hr, Prog.run]
    rw [dataAt_of_lookup hl] at hd
    have older := fun fs w' hw => older r.toData hd.symm fs w' hw
    simp only [hr]
    by_cases hT : r.toData.curVersion = T
    · simp [hT, Prog.run]
    simp only [if_neg hT, Prog.run, headD_eq_fate]
    cases fate fates.tail 0 with
    | fail => simp [Prog.run]
    | crash => simp
    | ok =>
      rcases read_cases w (makeTrans r.toData.curVersion) with ⟨hr', -⟩ | ⟨r', hr', -⟩
      · simp [hr', Prog.run]
      simp only [hr']
      cases r'.toTrans.state with
      | begin => exact older _ w rfl
      | rollback => exact older _ w rfl
      | prepared =>
        by_cases hlt : r'.toTrans.startTrans < T
        · simp [hlt, Prog.run]
        · simp only [if_neg hlt]
          exact older _ w rfl
      | commited =>
        by_cases hlt : r'.toTrans.commitTrans < T
        · simp [hlt, Prog.run]
        · simp only [if_neg hlt]
          exact older _ w rfl

theorem readData_links_ends {st : Db.Store} {v : String} {l : List Data} (h : Links st key v l) :
    ∀ fuel fates (w : DbWorld), w.store = st → l.length ≤ fuel →
      ((if v = "" then .ret { code := 99 } else readData T key fuel v).run me fates clocks w).1 ≠
        .running := by
  induction h with
  | last => simp [Prog.run]
  | @older v d l hv hd hc _ ih =>
    intro fuel fates w hw hf
    obtain ⟨n, rfl⟩ : ∃ n, fuel = n + 1 := Nat.exists_eq_succ_of_ne_zero (by simp at hf; omega)
    rw [if_neg hv]
    refine readData_version_ends (o := some d) (by rw [hw, if_neg hv, hd]) fun e he fs w' hw' => ?_
    obtain rfl := Option.some.inj he
    exact ih n fs w' (hw'.trans hw) (by simpa using hf)

/-- `ReadData` stops within as many iterations as there are versions, whatever calls fail. -/
theorem readData_chain_ends {l : List Data} {fuel : Nat} {fates : List Fate} {w : DbWorld}
    (h : Chain w.store key l) (hpos : 0 < fuel) (hf : l.length ≤ fuel) :
    ((readData T key fuel "").run me fates clocks w).1 ≠ .running := by
  obtain ⟨n, rfl⟩ := Nat.exists_eq_succ_of_ne_zero hpos.ne'
  cases h with
  | empty hn =>
    have hn' : dataAt w.store (makeDataEntry key) = none := hn
    exact readData_version_ends hn' (by simp)
  | @entry d l hd hl =>
    refine readData_version_ends (o := some d) hd fun e he fs w' hw' => ?_
    obtain rfl := Option.some.inj he
    exact readData_links_ends hl n fs w' hw' (by simpa using hf)

end Reads

/-- Where no write goes below, the versions of every key form a finite list without repetitions, and
`ReadData` stops within as many iterations as it has entries. -/
theorem chain_reads_end {cfg : Config} {s : Sys} (hs : OpenReach cfg StaysAbove s) (n : Host)
    (key : String) :
    ∃ l, ProperChain (s.node n).store key l ∧
      ∀ (me : Proc) T fates clocks fuel (w : DbWorld), w.store = (s.node n).store → 0 < fuel →
        l.length ≤ fuel → ((readData T key fuel "").run me fates clocks w).1 ≠ .running := by
  obtain ⟨l, hl⟩ := hs.linked.chained n key
  refine ⟨l, hl, fun me T fates clocks fuel w hw hpos hf => ?_⟩
  exact readData_chain_ends (hw ▸ hl.chain) hpos hf

def updatesOnce (x : Nat) (T : String) : List OpenLabel :=
  [.connect x hostA (client x), .send x (beginReq T), .serv (.recv x {}),
   .send x (opReq T { requestType := .update, key := "b" }), .serv (.recv x {}),
   .close x, .serv (.hangup x {})]

def firstUpdates (s : Sys) : Label → Bool
  | .recv x _ => (entryOf (s.node hostA).store "b").map Data.next ∈ [none, some ""] ∧
      ((s.sess x).map fun σ => (σ.host, σ.toServ)) ∈ ["ts1", "ts2"].flatMap fun T =>
        [some (hostA, [beginReq T]), some (hostA, [opReq T { requestType := .update, key := "b" }])]
  | .hangup .. => true
  | _ => false

theorem Chain.tail_of_last {st : Db.Store} {key : String} {l : List Data} (h : Chain st key l)
    (hlast : (entryOf st key).map Data.next ∈ [none, some ""]) : l.tail = [] := by
  cases h with
  | empty => rfl
  | @entry d l hd hl =>
    have hnext : d.next = "" := by simpa [hd] using hlast
    rw [hnext] at hl
    cases hl with
    | last => rfl
    | older hv => exact absurd rfl hv

theorem staysAbove_of_firstUpdates {s : Sys} {ℓ : Label} (h : firstUpdates s ℓ = true) :
    StaysAbove s ℓ := by
  cases ℓ with
  | recv x env =>
    intro σ m rest hσ hm
    simp only [firstUpdates, decide_eq_true_eq] at h
    obtain ⟨hlast, hto⟩ := h
    rw [hσ] at hto
    have hto : σ.host = hostA ∧ ∃ T, (T = "ts1" ∨ T = "ts2") ∧
        (m = beginReq T ∨ m = opReq T { requestType := .update, key := "b" }) := by
      simp only [Option.map_some, hm, List.flatMap_cons, List.flatMap_nil, List.append_nil,
        List.cons_append, List.nil_append, List.mem_cons, Option.some.injEq, Prod.mk.injEq,
        List.cons.injEq, List.not_mem_nil, or_false] at hto
      rcases hto with ⟨hh, rfl, -⟩ | ⟨hh, rfl, -⟩ | ⟨hh, rfl, -⟩ | ⟨hh, rfl, -⟩
      · exact ⟨hh, _, .inl rfl, .inl rfl⟩
      · exact ⟨hh, _, .inl rfl, .inr rfl⟩
      · exact ⟨hh, _, .inr rfl, .inl rfl⟩
      · exact ⟨hh, _, .inr rfl, .inr rfl⟩
    obtain ⟨hh, T, hT, rfl | rfl⟩ := hto
    · have hts : IsTS T := by
        rcases hT with rfl | rfl
        · exact ⟨⟨0, 1⟩, rfl⟩
        · exact ⟨⟨0, 2⟩, rfl⟩
      exact ⟨fun _ _ => hts, fun hw => by simpa [RpcReq.Accesses, beginReq] using hw.1⟩
    · refine ⟨fun h => by simp [opReq] at h, ?_⟩
      rintro ⟨-, -, -, l, hl, d, hd, -⟩
      -- no version lies below the newest one
      have hnil : l.tail = [] := hl.tail_of_last (by rw [hh]; exact hlast)
      rw [hnil] at hd
      cases hd
  | hangup => trivial
  | _ => cases h

theorem chain_reads_end_once : ∃ s : Sys,
    (entryOf (s.node hostA).store "b").map Data.next = some "ts1" ∧
    ∃ l, ProperChain (s.node hostA).store "b" l ∧
      ∀ (me : Proc) T fates clocks fuel (w : DbWorld), w.store = (s.node hostA).store → 0 < fuel →
        l.length ≤ fuel → ((readData T "b" fuel "").run me fates clocks w).1 ≠ .running := by
  have hrun : ((openSteps twoHosts (fun s ℓ => firstUpdates s ℓ = true) {}
      (updatesOnce 0 "ts1" ++ updatesOnce 1 "ts2")).map
        fun s => (entryOf (s.node hostA).store "b").map Data.next) = some (some "ts1") := by
    decide +kernel
  obtain ⟨s, hs, hf⟩ := Option.map_eq_some_iff.mp hrun
  have hreach := (openReach_of_steps .init hs).mono fun _ _ h => staysAbove_of_firstUpdates h
  exact ⟨s, hf, chain_reads_end hreach hostA "b"⟩

/-- `ts1` updates the key, then `ts2`, then a second session of `ts1`, whose Begin is refused; the
update of `ts3` writes the new version of `ts1` over the old one. -/
def begunTwice : List OpenLabel :=
  updatesOnce 0 "ts1" ++ updatesOnce 1 "ts2" ++ updatesOnce 2 "ts1" ++ updatesOnce 3 "ts3"

/-- The versions of `ts1` and `ts2` lead to each other, and no reader takes either. -/
theorem chain_read_spins :
    ¬ ∀ (s : Sys) (n : Host) (key T : String), OpenReach twoHosts anyStep s →
      ∃ fuel, ((readData T key fuel "").run (Proc.storage n) [] []
        ⟨(s.node n).store, []⟩).1 ≠ .running := by
  intro h
  have hrun : ((openSteps twoHosts anyStep {} begunTwice).map fun s =>
      ([makeDataEntry "b", makeData "b" "ts1", makeData "b" "ts2"].map fun k =>
          dataAt (s.node hostA).store k,
        ["ts1", "ts2", "ts3"].map fun T =>
          (transOf (s.node hostA).store T).map Trans.state)) =
      some ([some { state := .update, next := "ts1", curVersion := "ts3" },
          some { state := .update, next := "ts2", curVersion := "ts1" },
          some { state := .update, next := "ts1", curVersion := "ts2" }],
        [some .rollback, some .rollback, some .rollback]) := by
    decide +kernel
  obtain ⟨s, hs, hf⟩ := Option.map_eq_some_iff.mp hrun
  obtain ⟨hd, ht⟩ := Prod.mk.inj hf
  simp only [List.map_cons, List.map_nil, List.cons.injEq, and_true] at hd ht
  obtain ⟨hd3, hd1, hd2⟩ := hd
  obtain ⟨⟨t1, ht1, hs1⟩, ⟨t2, ht2, hs2⟩, t3, ht3, hs3⟩ :
      (∃ t, transOf (s.node hostA).store "ts1" = some t ∧ t.state = .rollback) ∧
      (∃ t, transOf (s.node hostA).store "ts2" = some t ∧ t.state = .rollback) ∧
      ∃ t, transOf (s.node hostA).store "ts3" = some t ∧ t.state = .rollback := by
    simpa [Option.map_eq_some_iff] using ht
  -- from either version on, every fuel is used up
  have loops : ∀ fuel, readOf (s.node hostA).store "ts9" "b" fuel "ts1" = none ∧
      readOf (s.node hostA).store "ts9" "b" fuel "ts2" = none := by
    intro fuel
    induction fuel with
    | zero => exact ⟨rfl, rfl⟩
    | succ fuel ih =>
      constructor
      · simp [readOf, hd1, ht1, hs1, ih.2]
      · simp [readOf, hd2, ht2, hs2, ih.1]
  obtain ⟨fuel, hfuel⟩ := h s hostA "b" "ts9" (openReach_of_steps .init hs)
  refine hfuel ?_
  have hnone : readOf (s.node hostA).store "ts9" "b" fuel "" = none := by
    cases fuel with
    | zero => rfl
    | succ fuel => simp [readOf, hd3, ht3, hs3, (loops fuel).1]
  rw [readData_run (by simp), hnone]

end Tpc
