import Tpc.Pool
import Tpc.Routing
import Tpc.StartUp
import Tpc.Unplanned

/-! Locks are never left behind: whoever holds one has finished, or is still running on a connection to
the node, or is prepared there and has a task. -/

namespace Tpc
open Durable

def RunsOn (s : Sys) (n : Host) (T : String) (x : Nat) : Prop :=
  ∃ σ, s.sess x = some σ ∧ σ.host = n ∧ σ.live = true ∧ σ.vars.beginTs = T

def CarriedAt (s : Sys) (n : Host) (T : String) : Prop := ∀ t, (s.node n).up = true →
  transOf (s.node n).store T = some t → t.state = .begin → T ≠ "" ∧ ∃ x, RunsOn s n T x

def Carried (s : Sys) : Prop := ∀ n T, CarriedAt s n T

section Records

variable {A : Hist → Prop} {me : Proc} {self : Host} {l l' : Hist} {idle : Nat} {T U : String}
  {st st' : Db.Store} {w : DbWorld} {o : Option TaskState}

theorem startCleanTrans_past (hA : ¬ MayFail A) (self : Host) (idle : Nat) (T : String) :
    (startCleanTrans self idle T).wp me A
      (fun _ w' => ∀ t, transOf w'.store T = some t → t.state ≠ .begin) (fun _ => True) w := by
  simp only [startCleanTrans, dbGet, Prog.bind_eq, Prog.bind, Prog.wp]
  refine ⟨fun _ => trivial, fun ha => absurd ⟨_, _, ha⟩ hA, ?_⟩
  rcases read_cases w (makeTrans T) with ⟨hr, hl⟩ | ⟨r, hr, hl⟩
  · simp only [hr]
    intro t ht
    simp [transOf_of_lookup_none hl] at ht
  · have ht := transOf_of_lookup hl
    simp only [hr]
    have same : r.toTrans.state ≠ .begin → ∀ t, transOf w.store T = some t → t.state ≠ .begin := by
      intro hne t ht'
      obtain rfl := Option.some.inj (ht.symm.trans ht')
      exact hne
    cases hs : r.toTrans.state with
    | begin =>
      simp only [dbPut, Prog.bind, Prog.wp]
      refine ⟨fun _ => trivial, fun _ _ => trivial, fun t ht' => ?_⟩
      obtain rfl := Option.some.inj ((transOf_insert_self _ _ _).symm.trans ht')
      exact TransState.noConfusion
    | prepared =>
      have hne : r.toTrans.state ≠ .begin := by simp [hs]
      simp only
      split_ifs
      · exact fun _ => trivial
      · rw [Prog.wp_bind]
        refine Prog.wp_mono ?_ (fun _ _ => trivial) (prepareRoutine_wp self T (List.suffix_refl _) ht hs)
        rintro task w' (⟨-, -, hw⟩ | ⟨-, hw⟩ | hr)
        · rw [Prog.pure_eq, Prog.wp, hw]
          exact same hne
        · rw [Prog.pure_eq, Prog.wp, hw]
          exact same hne
        · obtain ⟨t', ht', hne'⟩ := hr.past ⟨_, ht, hne⟩
          rw [Prog.pure_eq, Prog.wp]
          intro t ht
          obtain rfl := Option.some.inj (ht'.symm.trans ht)
          exact hne'
    | commited => exact same (by simp [hs])
    | rollback => exact same (by simp [hs])

theorem TaskEnd.past {t : Trans} {task : TaskState} (h : TaskEnd T t st task st')
    (ht : transOf st T = some t) (hne : t.state ≠ .begin) : PastBegin st' T := by
  cases h with
  | asks => exact ⟨t, ht, hne⟩
  | commits => exact ⟨_, transOf_insert_self _ _ _, nofun⟩
  | rollsBack => exact ⟨_, transOf_insert_self _ _ _, nofun⟩

theorem UpEnd.running {es : List (String × Record)} {ts : List TaskState}
    (h : UpEnd self l l' idle es st ts st') (hes : Lists es st) {t : Trans}
    (ht : transOf st' T = some t) : t.state ≠ .begin := by
  have hrep := h.repairs hes.nodup fun e he => hes.lookup he
  cases hr : st.lookup (makeTrans T) with
  | none =>
    have hlookup : st'.lookup (makeTrans T) = none := by
      rw [hrep.others _ fun hm => ?_, hr]
      obtain ⟨e, he, hk⟩ := List.mem_map.mp hm
      rw [← hk, hes.lookup he] at hr
      cases hr
    simp [transOf_of_lookup_none hlookup] at ht
  | some r =>
    by_cases hs : r.toTrans.state = .prepared
    · obtain ⟨t', ht', hne⟩ := h.past ⟨_, transOf_of_lookup hr, by simp [hs]⟩
      obtain rfl := Option.some.inj (ht.symm.trans ht')
      exact hne
    · have hlookup := hrep.settled T r ((hes.mem T r).mpr hr) hs
      obtain rfl := Option.some.inj ((transOf_of_lookup hlookup).symm.trans ht)
      by_cases hb : r.toTrans.state = .begin
      · rw [recovered_of_begin hb]
        exact nofun
      · rwa [recovered, if_neg hb]

theorem CleanEnd.transOf_ne (h : CleanEnd self l l' idle T st o st') (hU : U ≠ T) :
    transOf st' U = transOf st U := by
  rw [transOf, h.lookup_ne (by simpa using hU)]
  rfl

end Records

section Steps

variable {cfg : Config} {A : Hist → Prop} {s s' : Sys} {c : CoordId} {ℓ : Label} {n : Host} {T : String}
  {x y : Nat} {σ : Session}

theorem hangup_past (hA : Closed A) (hfail : ¬ MayFail A) {env : Env}
    (hs : step cfg s (.hangup x env) = some s') (ha : A s'.hist) (hσ : s.sess x = some σ)
    (hT : σ.vars.beginTs ≠ "") : (s'.node σ.host).up = false ∨
      ∀ t, transOf (s'.node σ.host).store σ.vars.beginTs = some t → t.state ≠ .begin := by
  simp only [step, hσ] at hs
  split_ifs at hs
  have hpast : (startCleanTrans σ.host (s.idle σ.host) σ.vars.beginTs).wp (.storage σ.host) A
      (fun _ w' => ∀ t, transOf w'.store σ.vars.beginTs = some t → t.state ≠ .begin) (fun _ => True)
      (s.world σ.host) := startCleanTrans_past hfail _ _ _
  have hclose : onClose σ.host (s.idle σ.host) σ.vars =
      startCleanTrans σ.host (s.idle σ.host) σ.vars.beginTs := if_neg hT
  rw [hclose] at hs
  obtain ⟨-, ⟨o, w, hw, rfl⟩ | ⟨w, -, rfl⟩⟩ := exec_inv
    (by rintro o rfl ha; exact Prog.sat_of_wp hA hpast ha) (by intros; rfl) hs ha
  · refine .inr ?_
    change ∀ t, transOf ((s.hungUp x σ o w).node σ.host).store σ.vars.beginTs = some t → t.state ≠ .begin
    rw [hungUp_store, if_pos rfl]
    exact hw
  · exact .inl (by simp [Sys.lose, setNode_node])

theorem RunsOn.of_ne {τ : Session} (h : RunsOn s n T x) (he : s'.sess = Function.update s.sess y (some τ))
    (hne : x ≠ y) : RunsOn s' n T x := by
  obtain ⟨σ, hσ, hrest⟩ := h
  exact ⟨σ, by rw [he, Function.update_of_ne hne, hσ], hrest⟩

theorem RunsOn.of_same {τ : Session} (h : RunsOn s n T x)
    (he : s'.sess = Function.update s.sess y (some τ)) (hσ : s.sess y = some σ) (hhost : τ.host = σ.host)
    (hlive : τ.live = σ.live) (hv : τ.vars.beginTs = σ.vars.beginTs) : RunsOn s' n T x := by
  by_cases hne : x = y
  · subst hne
    obtain ⟨ρ, hρ, hn, hl, hT⟩ := h
    obtain rfl := Option.some.inj (hσ.symm.trans hρ)
    exact ⟨τ, by rw [he, Function.update_self], hhost.trans hn, hlive.trans hl, hv.trans hT⟩
  · exact h.of_ne he hne

theorem RunsOn.eq (h : RunsOn s n T y) (hσ : s.sess y = some σ) : σ.host = n ∧ σ.vars.beginTs = T := by
  obtain ⟨ρ, hρ, hn, -, hT⟩ := h
  obtain rfl := Option.some.inj (hσ.symm.trans hρ)
  exact ⟨hn, hT⟩

theorem CarriedAt.of_same (h : CarriedAt s n T) (hup : (s'.node n).up = (s.node n).up)
    (he : transOf (s'.node n).store T = transOf (s.node n).store T)
    (hkeep : ∀ x, T ≠ "" → RunsOn s n T x → RunsOn s' n T x) : CarriedAt s' n T := by
  intro t hup' ht hb
  obtain ⟨hne, x, hx⟩ := h t (hup ▸ hup') (he ▸ ht) hb
  exact ⟨hne, x, hkeep x hne hx⟩

theorem CarriedAt.of_past (h : PastBegin (s.node n).store T) : CarriedAt s n T := by
  intro t _ ht hb
  obtain ⟨t', ht', hne⟩ := h
  obtain rfl := Option.some.inj (ht.symm.trans ht')
  exact absurd hb hne

theorem CarriedAt.tasked (h : CarriedAt s n T) {k : Host} {i : Nat} {p : Polling} {w : DbWorld}
    {task : TaskState} (htasks : Tasks s) (hp : (s.node k).task i = .polling p)
    (hend : ∀ r, Copy p.trans r → TaskEnd p.beginTs r (s.node k).store task w.store) :
    CarriedAt (s.tasked k i task w) n T := by
  obtain ⟨r, hr, hs₀, hc, -⟩ := (htasks k).task i p hp
  have hst := tasked_store s w k n i task
  by_cases hn : n = k
  · rw [if_pos hn] at hst
    subst hn
    by_cases hT : T = p.beginTs
    · subst hT
      refine .of_past ?_
      rw [hst]
      exact (hend r hc).past hr (by simp [hs₀])
    · exact h.of_same (by simp) (by rw [hst, (hend r hc).others hT]) fun _ _ hx => hx
  · rw [if_neg hn] at hst
    exact h.of_same (by simp) (by rw [hst]) fun _ _ hx => hx

theorem CarriedAt.recv (h : CarriedAt s n T) (hd : Dated s) {fates : List Fate} {fuel : Nat} {m : RpcReq}
    {rest : List RpcReq} {seg : Seg} {w : DbWorld} (hσ : s.sess y = some σ) (hlive : σ.live = true)
    (hm : σ.toServ = m :: rest)
    (hh : Handled A fates σ.host (s.idle σ.host) fuel σ.vars m (s.world σ.host) seg w) :
    CarriedAt (s.served y { σ with toServ := rest } seg w) n T := by
  set σ₁ : Session := { σ with toServ := rest } with hσ₁
  have hsess : (s.served y σ₁ seg w).sess = Function.update s.sess y (some (σ₁.after seg)) := rfl
  have hst := served_store s y σ₁ seg w n
  have same : seg.vars.beginTs = σ.vars.beginTs → ∀ x, T ≠ "" → RunsOn s n T x →
      RunsOn (s.served y σ₁ seg w) n T x := fun hv x _ hx =>
    hx.of_same hsess hσ (by simp [hσ₁]) (by simp [hσ₁]) (by simp [hv])
  have none : σ.vars.beginTs = "" → ∀ x, T ≠ "" → RunsOn s n T x →
      RunsOn (s.served y σ₁ seg w) n T x := by
    refine fun hv x hne hx => hx.of_ne hsess ?_
    rintro rfl
    exact hne ((hx.eq hσ).2.symm.trans hv)
  by_cases hn : n = σ₁.host
  · rw [if_pos hn] at hst
    subst hn
    have old := fun he hkeep =>
      (h.of_same (by simp) (hst ▸ he) hkeep : CarriedAt (s.served y σ₁ seg w) σ₁.host T)
    cases hh with
    | begin hreq hend =>
      change BeginEnd A σ.vars m (s.node σ.host).store seg w.store at hend
      generalize w.store = st at hend hst old
      cases hend with
      | refused => exact old rfl (same rfl)
      | failed _ hv => exact old rfl (none hv)
      | begun hv =>
        by_cases hT : T = m.beginTs
        · subst hT
          intro t _ _ _
          refine ⟨(hd.begins y σ m hσ (by simp [hm]) hreq).ne_empty, y, _,
            Function.update_self .., ?_⟩
          simp [hσ₁, hlive]
        · exact old (by rw [transOf_insert_trans, if_neg hT]) (none hv)
    | prepare _ hend =>
      change PrepareEnd _ σ.host s.hist w.hist (s.idle σ.host) σ.vars m (s.node σ.host).store seg
        w.store at hend
      generalize w.store = st at hend hst old
      cases hend with
      | refused => exact old rfl (same rfl)
      | votes t₀ ts o _ _ _ _ _ _ hc =>
        by_cases hT : T = σ.vars.beginTs
        · subst hT
          refine .of_past ?_
          rw [hst]
          exact hc.past ⟨_, transOf_insert_self _ _ _, nofun⟩
        · refine old ?_ fun x _ hx => hx.of_ne hsess ?_
          · rw [hc.transOf_ne hT, votedStore, transOf_insert_trans, if_neg hT]
          · rintro rfl
            exact hT (hx.eq hσ).2.symm
    | op _ _ hkeep hr =>
      exact old (transOf_of_frame hr.frame not_not_transKey T) (same (by rw [hkeep.1]))
  · rw [if_neg hn] at hst
    refine h.of_same (by simp) (by rw [hst]) fun x _ hx => hx.of_ne hsess ?_
    rintro rfl
    exact hn (hx.eq hσ).1.symm

theorem CarriedAt.hungUp (h : CarriedAt s n T) {w : DbWorld} {o : Option TaskState}
    (hσ : s.sess y = some σ) (hothers : ∀ U, U ≠ σ.vars.beginTs →
      transOf w.store U = transOf (s.node σ.host).store U)
    (hpast : σ.vars.beginTs ≠ "" → ((s.hungUp y σ o w).node σ.host).up = false ∨
      ∀ t, transOf ((s.hungUp y σ o w).node σ.host).store σ.vars.beginTs = some t → t.state ≠ .begin)
    (hidle : σ.vars.beginTs = "" → w.store = (s.node σ.host).store) :
    CarriedAt (s.hungUp y σ o w) n T := by
  have hsess : (s.hungUp y σ o w).sess = Function.update s.sess y (some σ.stop) := rfl
  have hst := hungUp_store s y σ w n o
  by_cases hn : n = σ.host ∧ T = σ.vars.beginTs ∧ T ≠ ""
  · obtain ⟨rfl, rfl, hne⟩ := hn
    intro t hup ht hb
    rcases hpast hne with hdown | hpast
    · exact absurd (hup.symm.trans hdown) (by decide)
    · exact absurd hb (hpast t ht)
  · refine h.of_same (by simp) ?_ fun x hne hx => hx.of_ne hsess ?_
    · rw [hst]
      split_ifs with hh
      · subst hh
        by_cases hT : T = σ.vars.beginTs
        · have hT0 : σ.vars.beginTs = "" := by
            by_contra hne
            exact hn ⟨rfl, hT, hT ▸ hne⟩
          rw [hidle hT0]
        · exact hothers T hT
      · rfl
    · rintro rfl
      obtain ⟨hh, hT⟩ := hx.eq hσ
      exact hn ⟨hh.symm, hT.symm, hne⟩

theorem Carried.node (h : Carried s) (hfail : ¬ MayFail A) (hA : Closed A) (htasks : Tasks s)
    (hd : Dated s) (hs : NodeStep A s ℓ s') (hstep : step cfg s ℓ = some s') (ha : A s'.hist) :
    Carried s' := by
  intro n T
  have h := h n T
  cases hs with
  | recv hσ hlive _ hm _ hh => exact h.recv hd hσ hlive hm hh
  | @timeout y env σ seg w hσ hlive _ _ hkeep hr =>
    refine h.of_same (by simp) ?_ fun x _ hx =>
      hx.of_same (τ := σ.after seg) rfl hσ (by simp) (by simp) (by simp [hkeep.1])
    rw [served_store]
    split_ifs with hn
    · subst hn
      exact transOf_of_frame hr.frame not_not_transKey T
    · rfl
  | @event y σ res hσ hlive =>
    refine h.of_same rfl rfl fun x _ hx => hx.of_same
      (τ := ({ σ with wait := .idle } : Session).answer (.rpcResponse res)) rfl hσ ?_ ?_ ?_
    · simp
    · simp
    · simp
  | @hangup y env σ o w hσ _ _ _ _ hend =>
    refine h.hungUp hσ (fun U hU => ?_) (hangup_past hA hfail hstep ha hσ) fun hv => ?_
    · rcases hend with ⟨-, -, hw⟩ | ⟨-, hc⟩
      · rw [hw]
      · exact hc.transOf_ne hU
    · rcases hend with ⟨-, -, hw⟩ | ⟨hne, -⟩
      · exact hw
      · exact absurd hv hne
  | @taskSkip k i env p task w hp _ hend =>
    exact h.tasked htasks hp fun r hc => NextEnd.taskEnd (p := { p with i := p.i + 1 }) hc hend
  | taskRecv hp _ _ hend => exact h.tasked htasks hp fun r hc => hend.taskEnd hc
  | @taskAsk k peer i env p o w _ _ _ _ hw =>
    refine h.of_same (asked_up ..) ?_ fun x _ hx => hx
    rw [asked_store s w k n peer i _ hw]
  | @startUp k env ts w hdown hend =>
    have hst := started_store s w k n ts
    by_cases hn : n = k
    · rw [if_pos hn] at hst
      subst hn
      intro t _ ht hb
      rw [hst] at ht
      exact absurd hb (hend.running (lists_transEntries (s.world n)) ht)
    · rw [if_neg hn] at hst
      exact h.of_same (by rw [started_node, Function.update_of_ne hn]) (by rw [hst]) fun x _ hx => hx
  | @lost _ k w =>
    by_cases hn : n = k
    · intro t hup _ _
      exact absurd hn (lost_up hup)
    · have hstore := lost_store s w k n
      rw [if_neg hn] at hstore
      refine h.of_same (by rw [lost_node, Function.update_of_ne hn]) (by rw [hstore]) fun x _ hx => ?_
      obtain ⟨σ, hσ, hhost, hrest⟩ := hx
      exact ⟨σ, lost_sess w hσ (hhost ▸ hn), hhost, hrest⟩
  | @cut y a b σ hσ => exact h.of_same rfl rfl fun x _ hx => hx.of_same rfl hσ rfl rfl rfl

theorem Carried.coord (h : Carried s) (hs : CoordStep cfg s c ℓ s') : Carried s' := by
  intro n T t hup ht hb
  rw [hs.node_eq] at hup ht
  obtain ⟨hne, x, σ, hσ, hhost, hlive, hT⟩ := h n T t hup ht hb
  obtain ⟨σ', hσ', hto⟩ := hs.touches hσ
  exact ⟨hne, x, σ', hσ', hto.host.trans hhost, hto.live.trans hlive, (congrArg _ hto.vars.1).trans hT⟩

def LocksNamed (s : Sys) : Prop := ∀ n key T, lockOf (s.node n).store key = some T →
  transOf (s.node n).store T ≠ none

theorem StoreMove.holder (hm : StoreMove A s n ℓ s') {key : String}
    (h : lockOf (s'.node n).store key = some T) : lockOf (s.node n).store key = some T ∨
      ∃ σ req fates, Locks s σ req fates ℓ ∧ σ.host = n ∧ σ.vars.beginTs = T := by
  have new : ∀ {σ req fates st}, Locks s σ req fates ℓ → σ.host = n →
      LockBy fates req.key σ.vars.beginTs (s.node n).store st → lockOf st key = some T →
      lockOf (s.node n).store key = some T ∨
        ∃ σ req fates, Locks s σ req fates ℓ ∧ σ.host = n ∧ σ.vars.beginTs = T := by
    intro σ req fates st hl hn hg h
    by_cases hk : req.key = key
    · subst hk
      unfold LockBy at hg
      split_ifs at hg
      · exact .inl (hg ▸ h)
      cases hg with
      | held => exact .inl h
      | taken =>
        rw [lockStore, lockOf_insert_lock, if_pos rfl] at h
        exact .inr ⟨σ, req, fates, hl, hn, Option.some.inj h⟩
      | unread hf => exact hf.elim
    · exact .inl (hg.lockOf_ne (Ne.symm hk) ▸ h)
  cases hm with
  | frame hf =>
    rw [lockOf, hf _ (by rintro ⟨T, hT⟩; simp at hT)] at h
    exact .inl h
  | locks σ req fates hl hn hg => exact new hl hn hg h
  | breaks σ req fates st hl hn hg hh => exact new hl hn hg (hh.lockOf_eq key ▸ h)
  | writes σ req fates st hl hn hg hw => exact new hl hn hg (hw.lockOf_eq key ▸ h)

theorem LocksNamed.step (h : LocksNamed s) (hr : Recorded s) (hd : Dated s) (hk : ∀ T, Keeps T s s')
    (hs : step cfg s ℓ = some s') : LocksNamed s' := by
  intro n key T hl
  rcases (store_move closed_true hs trivial n).holder hl with hl | ⟨σ, req, fates, hlocks, rfl, rfl⟩
  · exact (hk T).known n (h n key T hl)
  · refine (hk _).known _ ?_
    cases hlocks with
    | recv hσ hlive _ hT => exact hr _ σ hσ hlive hT
    | timeout hσ hlive hw => exact hr _ σ hσ hlive (hd.waits _ σ req hσ (by rw [hw]; rfl))

end Steps

section Runs

variable {cfg : Config} {C : Sys → Label → Prop} {s : Sys} {n : Host} {key T : String}

theorem Reach.carried (hr : Reach cfg C s) (hdb : NoDbError s.hist) (hu : DistinctBegin s.hist) :
    Recorded s ∧ Carried s ∧ LocksNamed s := by
  induction hr with
  | init =>
    refine ⟨fun x σ hσ => by simp at hσ, fun n T t _ ht => ?_, fun n key T hl => ?_⟩
    · simp [transOf] at ht
    · simp [lockOf] at hl
  | @step s s' ℓ hr _ hstep ih =>
    have hu₀ := closed_distinctBegin _ _ (step_hist hstep) hu
    obtain ⟨hrec, hcar, hlocks⟩ := ih (closed_noDbError _ _ (step_hist hstep) hdb) hu₀
    have hsafe := hr.safe hu₀
    have hkeeps : ∀ T, Keeps T s s' := fun T => .of_later (hsafe.later hstep hu T)
    refine ⟨?_, ?_, hlocks.step hrec hr.dated hkeeps hstep⟩
    · rcases step_cases closed_noDbError hstep hdb with hn | ⟨c, hc⟩
      · exact hrec.node not_mayFail hkeeps hn
      · exact hrec.coord (hr.slotted c).table hc
    · rcases step_cases closed_noDbError hstep hdb with hn | ⟨c, hc⟩
      · exact hcar.node not_mayFail closed_noDbError hsafe.tasks hr.dated hn hstep hdb
      · exact hcar.coord hc

/-- Whoever holds a lock on a running node has finished, runs on an open connection, or is prepared
and has a task. -/
theorem locks_never_leak (hs : Reach cfg PoolSpared s) (hdb : NoDbError s.hist)
    (hu : DistinctBegin s.hist) (hup : (s.node n).up = true)
    (hl : lockOf (s.node n).store key = some T) :
    ∃ t, transOf (s.node n).store T = some t ∧ (t.Finished ∨
      t.state = .begin ∧ (∃ x, RunsOn s n T x) ∨ t.state = .prepared ∧ (s.node n).WorksOn T) := by
  obtain ⟨-, hcar, hlocks⟩ := hs.carried hdb hu
  obtain ⟨t, ht⟩ := Option.ne_none_iff_exists'.mp (hlocks n key T hl)
  refine ⟨t, ht, ?_⟩
  cases hst : t.state with
  | begin => exact .inr (.inl ⟨rfl, (hcar n T t hup ht hst).2⟩)
  | prepared =>
    have hprep : isPrepared (s.node n).store T = true := isPrepared_iff.mpr ⟨t, ht, hst⟩
    exact .inr (.inr ⟨rfl, (hs.tended n).2 hup T hprep⟩)
  | commited => exact .inl (.inr hst)
  | rollback => exact .inl (.inl hst)

end Runs

def twoHolders : List Label :=
  preparedAgain ++
  [.request (client 1) { requestType := .begin } (atUsec 120) 0 true true,
   .request (client 1) { requestType := .update, key := "d" } (atUsec 0) 2 true true,
   .recv 2 {}, .beginAnswer (client 1) true, .recv 2 {}]

theorem locks_never_leak_two : ∃ s : Sys,
    (∃ t, transOf (s.node hostB).store "ts100" = some t ∧ (t.Finished ∨
      t.state = .begin ∧ (∃ x, RunsOn s hostB "ts100" x) ∨
      t.state = .prepared ∧ (s.node hostB).WorksOn "ts100")) ∧
    ∃ t, transOf (s.node hostA).store "ts120" = some t ∧ (t.Finished ∨
      t.state = .begin ∧ (∃ x, RunsOn s hostA "ts120" x) ∨
      t.state = .prepared ∧ (s.node hostA).WorksOn "ts120") := by
  have hrun : ((steps twoHosts PoolSpared {} twoHolders).map fun s =>
      (decide (NoDbError s.hist ∧ DistinctBegin s.hist ∧ (s.node hostA).up = true ∧
          (s.node hostB).up = true),
        lockOf (s.node hostB).store "a", lockOf (s.node hostA).store "d")) =
      some (true, some "ts100", some "ts120") := by
    decide +kernel
  obtain ⟨s, hs, hf⟩ := reach_of_map hrun
  simp only [Prod.mk.injEq, decide_eq_true_eq] at hf
  obtain ⟨⟨hdb, hu, hA, hB⟩, ha, hd⟩ := hf
  exact ⟨s, locks_never_leak hs hdb hu hB ha, locks_never_leak hs hdb hu hA hd⟩

end Tpc
