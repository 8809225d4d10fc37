import Tpc.Replay

/-! How long a decision takes: where no participant is in the state Begin any more, a task decides after
two answers of each, and one more for each round in which it did not reach one of them. -/

namespace Tpc
open Durable PollCommit

def Polling.clean (p : Polling) : Bool :=
  p.nPrepared = p.i && p.reply.all fun res => res.transStat ≠ .begin

/-- The answers up to the end of this round, or of the next one if this one is in vain. -/
def Polling.left (p : Polling) : Nat :=
  (if p.clean then 1 else 2) * p.trans.transList.length - p.i

def Polling.rest (p : Polling) : Nat :=
  (if p.nPrepared = p.i then 1 else 2) * p.trans.transList.length - p.i

section Left

variable {self : Host} {p : Polling} {T : String} {trans : Trans} {res : TransStateRes} {me : Proc}
  {A : Hist → Prop} {w : DbWorld}

theorem left_of_asking (h : p.reply = none) : p.left = p.rest := by
  simp [Polling.left, Polling.rest, Polling.clean, h]

theorem left_answered (h : p.reply = none) (hres : res.transStat ≠ .begin) :
    ({ p with reply := some res } : Polling).left = p.left := by
  simp [Polling.left, Polling.clean, h, hres]

theorem left_ge (p : Polling) : p.trans.transList.length - p.i ≤ p.left := by
  unfold Polling.left
  split_ifs <;> omega

theorem left_pos (hlt : p.i < p.trans.transList.length) : 0 < p.left := by
  unfold Polling.left
  split_ifs <;> omega

theorem left_le : p.left ≤ 2 * p.trans.transList.length := by
  unfold Polling.left
  split_ifs <;> omega

theorem decideCommit_idle (p : Polling) (commitTs : String) (Q : Polling → Prop) :
    (decideCommit p commitTs).wp me A (fun t _ => ∀ q, t = .polling q → Q q) (fun _ => True) w := by
  simp [decideCommit, dbPut, Prog.bind, Prog.wp]

theorem decideRollback_idle (p : Polling) (Q : Polling → Prop) :
    (decideRollback p).wp me A (fun t _ => ∀ q, t = .polling q → Q q) (fun _ => True) w := by
  simp [decideRollback, dbPut, Prog.bind, Prog.wp]

theorem pollRound_left (self : Host) (T : String) (trans : Trans) :
    (pollRound self T trans).wp me A
      (fun t _ => ∀ q, t = .polling q → q.left ≤ trans.transList.length) (fun _ => True) w := by
  have go : ∀ (m : String) (w' : DbWorld), Prog.wp me A
      (fun t _ => ∀ q, t = .polling q → q.left ≤ trans.transList.length) (fun _ => True)
      (if ownRun self trans.transList < trans.transList.length then
        .ret (.polling (firstPolling self T trans m))
      else decideCommit (firstPolling self T trans m) m) w' := by
    intro m w'
    split_ifs with hlt
    · intro q hq
      obtain rfl := TaskState.polling.inj hq
      simp [Polling.left, Polling.clean, firstPolling]
    · exact decideCommit_idle _ m _
  by_cases he : trans.selfCommitTs = ""
  · simp only [pollRound, if_pos he, readTS, Prog.bind_eq, Prog.bind, Prog.wp]
    exact ⟨fun _ => trivial, fun tv _ => go (getTS tv) _⟩
  · simp only [pollRound, if_neg he, Prog.pure_eq, Prog.bind_eq, Prog.bind]
    exact go trans.selfCommitTs w

theorem pass_le (hi : p.i ≤ p.trans.transList.length) : (p.pass self).i ≤ p.trans.transList.length := by
  have hrun := ownRun_le self (p.trans.transList.drop p.i)
  rw [List.length_drop] at hrun
  simp only [Polling.pass]
  omega

theorem pass_rest : (p.pass self).rest ≤ p.rest := by
  have hiff : (p.pass self).nPrepared = (p.pass self).i ↔ p.nPrepared = p.i := by
    simp [Polling.pass]
  have hle : p.i ≤ (p.pass self).i := Nat.le_add_right _ _
  unfold Polling.rest
  simp only [hiff]
  exact Nat.sub_le_sub_left hle _

theorem pollNext_left (hi : p.i ≤ p.trans.transList.length) :
    (pollNext self p).wp me A (fun t _ => ∀ q, t = .polling q → q.left ≤ p.rest) (fun _ => True) w := by
  have hpass : (p.pass self).i ≤ p.trans.transList.length := pass_le hi
  simp only [pollNext]
  split_ifs with hlt hc
  · intro q hq
    obtain rfl := TaskState.polling.inj hq
    exact (left_of_asking rfl).le.trans pass_rest
  · exact decideCommit_idle _ _ _
  · refine Prog.wp_mono (fun t w' h q hq => (h q hq).trans ?_) (fun _ h => h) (pollRound_left self _ _)
    have hne : p.nPrepared ≠ p.i := fun he => hc (by simp only [Polling.pass] at hpass; omega)
    rw [Polling.rest, if_neg hne]
    omega

theorem onTransStateRes_left (hlt : p.i < p.trans.transList.length) (hc : p.nPrepared ≤ p.i)
    (hres : p.reply = some res) :
    (onTransStateRes self p res).wp me A (fun t _ => ∀ q, t = .polling q → q.left < p.left)
      (fun _ => True) w := by
  have hlen := heard_length p res
  -- the loop goes on after the answer
  have next : ∀ n m, (if p.clean then 1 else 2) = (if n = p.i + 1 then 1 else 2) →
      (pollNext self { p.heard res with i := p.i + 1, nPrepared := n, maxCommitTs := m }).wp me A
        (fun t _ => ∀ q, t = .polling q → q.left < p.left) (fun _ => True) w := by
    intro n m hround
    have hle : p.i + 1 ≤ (p.heard res).trans.transList.length := by omega
    refine Prog.wp_mono (fun t w' h q hq => (h q hq).trans_lt ?_) (fun _ h => h)
      (pollNext_left (p := { p.heard res with i := p.i + 1, nPrepared := n, maxCommitTs := m }) hle)
    simp only [Polling.rest, Polling.left, hlen, hround]
    split_ifs <;> omega
  simp only [onTransStateRes]
  cases hs : res.transStat with
  | begin =>
    have hvain : p.clean = false := by simp [Polling.clean, hres, hs]
    have hne : p.nPrepared ≠ p.i + 1 := by omega
    simpa only [Polling.heard, hs] using next p.nPrepared p.maxCommitTs (by simp [hvain, hne])
  | prepared =>
    have hround : p.clean = decide (p.nPrepared + 1 = p.i + 1) := by simp [Polling.clean, hres, hs]
    simpa only [Polling.heard, hs] using next (p.nPrepared + 1) _ (by simp [hround])
  | commited =>
    simp only
    split_ifs
    · exact fun _ => trivial
    · exact decideCommit_idle _ _ _
  | rollback => exact decideRollback_idle _ _

theorem skip_left (hlt : p.i < p.trans.transList.length) (hc : p.nPrepared ≤ p.i) :
    (pollNext self { p with i := p.i + 1 }).wp me A
      (fun t _ => ∀ q, t = .polling q → q.left ≤ p.left + p.trans.transList.length)
      (fun _ => True) w := by
  refine Prog.wp_mono (fun t w' h q hq => (h q hq).trans ?_) (fun _ h => h)
    (pollNext_left (p := { p with i := p.i + 1 }) hlt)
  have hge := left_ge p
  have hne : p.nPrepared ≠ p.i + 1 := by omega
  simp only [Polling.rest, if_neg hne]
  omega

end Left

def Label.hears (h : Host) (i : Nat) : Label → Bool
  | .taskRecv k j _ => k = h ∧ j = i
  | _ => false

def Label.skips (h : Host) (i : Nat) : Label → Bool
  | .taskSkip k j _ => k = h ∧ j = i
  | _ => false

inductive TaskMove (A : Hist → Prop) (s : Sys) (h : Host) (i : Nat) (p : Polling) (ℓ : Label) (s' : Sys) :
    Prop
  | lost : (s'.node h).up = false → TaskMove A s h i p ℓ s'
  | restarts (env : Env) : ℓ = .startUp h env → TaskMove A s h i p ℓ s'
  | stays : ℓ.hears h i = false → (s'.node h).task i = .polling p → TaskMove A s h i p ℓ s'
  | asks (peer : Host) (o : Option Trans) : ℓ.hears h i = false →
      (p.trans.transList[p.i]?).map (·.host) = some peer → p.reply = none →
      o = transOf (s.node peer).store p.beginTs ∨ o = none ∧ MayFail A →
      (s'.node h).task i = .polling { p with reply := some (stateRes o) } → TaskMove A s h i p ℓ s'
  | works (t : Trans) (task : TaskState) : transOf (s.node h).store p.beginTs = some t →
      Copy p.trans t → TaskEnd p.beginTs t (s.node h).store task (s'.node h).store →
      (s'.node h).task i = task →
      (∀ q, task = .polling q → q.left + (ℓ.hears h i).toNat ≤
        p.left + (ℓ.skips h i).toNat * p.trans.transList.length) → TaskMove A s h i p ℓ s'

section Moves

variable {cfg : Config} {A : Hist → Prop} {s s' : Sys} {h k : Host} {i j : Nat} {p : Polling} {ℓ : Label}

theorem NodeOk.resume_task {l : Hist} {n : Node} (hn : NodeOk l h n) (hi : n.task i = .polling p)
    (t : TaskState) : (n.resume t).task i = .polling p := by
  unfold Node.resume
  split
  · exact hi
  split
  · exact hi
  · rename_i j rest hj
    have hidle : n.task j = .idle := hn.idle j (by simp [hj])
    have hne : i ≠ j := by
      rintro rfl
      simp [hi] at hidle
    exact (Function.update_of_ne hne ..).trans hi

theorem asked_node {peer : Host} {w : DbWorld} {t : TaskState} (hw : w.store = (s.node peer).store) :
    ((s.setWorld peer w).setNode h (((s.setWorld peer w).node h).setTask i t)).node =
      Function.update s.node h ((s.node h).setTask i t) := by
  have hsame : (s.setWorld peer w).node = s.node := by
    simp [Sys.setWorld, Sys.setNode, hw]
  rw [Sys.setNode, hsame]

theorem NodeStep.task (ht : Tasks s) (hs : NodeStep A s ℓ s') (hi : (s.node h).task i = .polling p)
    (hhears : ℓ.hears h i = false) (hskips : ℓ.skips h i = false) : TaskMove A s h i p ℓ s' := by
  -- node `k` changes
  have one : ∀ {k : Host} {n : Node}, s'.node = Function.update s.node k n →
      (h = k → TaskMove A s h i p ℓ s') → TaskMove A s h i p ℓ s' := by
    intro k n hn hk
    by_cases he : h = k
    · exact hk he
    · refine .stays hhears ?_
      rw [hn, Function.update_of_ne he]
      exact hi
  -- a task of `k` is resumed
  have resumes : ∀ {k : Host} {st : Db.Store} {t : TaskState},
      s'.node = Function.update s.node k (({ s.node k with store := st } : Node).resume t) →
      TaskMove A s h i p ℓ s' := by
    intro k st t hn
    refine one hn fun he => .stays hhears ?_
    subst he
    rw [hn, Function.update_self, resume_write]
    exact (ht h).resume_task hi t
  -- another task of `k` makes a segment
  have sets : ∀ {k : Host} {j : Nat} (st : Db.Store) {t : TaskState}, ¬ (k = h ∧ j = i) →
      s'.node = Function.update s.node k (({ s.node k with store := st } : Node).setTask j t) →
      TaskMove A s h i p ℓ s' := by
    intro k j st t hne hn
    refine one hn fun he => .stays hhears ?_
    subst he
    rw [hn, Function.update_self, setTask_task, Function.update_of_ne fun he => hne ⟨rfl, he.symm⟩]
    exact hi
  cases hs with
  | @recv x env σ m rest seg w => exact resumes (served_node x { σ with toServ := rest } seg w)
  | @timeout x env σ seg w => exact resumes (served_node x σ seg w)
  | @hangup x env σ o w => exact resumes (hungUp_node x σ o w)
  | event | cut => exact .stays hhears hi
  | @taskSkip k j env q t w =>
    exact sets w.store (by simpa [Label.skips] using hskips) (tasked_node k j t w)
  | @taskRecv k j env q res t w =>
    exact sets w.store (by simpa [Label.hears] using hhears) (tasked_node k j t w)
  | @taskAsk k peer j env q o w hq hpeer hreply _ hw ho =>
    have hn := asked_node (h := k) (i := j) (t := .polling { q with reply := some (stateRes o) }) hw
    by_cases hme : k = h ∧ j = i
    · obtain ⟨rfl, rfl⟩ := hme
      obtain rfl := TaskState.polling.inj (hq.symm.trans hi)
      refine .asks peer o hhears hpeer hreply ho ?_
      rw [hn, Function.update_self, setTask_task, Function.update_self]
    · exact sets (s.node k).store hme hn
  | @startUp k env ts w =>
    refine one (started_node k ts w) fun he => .restarts env ?_
    rw [he]
  | @lost ℓ k w =>
    refine one (lost_node k w) fun he => .lost ?_
    rw [he, lost_node, Function.update_self]

theorem runTask_move (hA : Closed A) {env : Env} {b : Db TaskState} {t : Trans} {n : Nat}
    (hend : b.wp (.storage h) A (fun task w => TaskEnd p.beginTs t (s.node h).store task w.store)
      (fun _ => True) (s.world h))
    (hleft : b.wp (.storage h) A (fun task _ => ∀ q, task = .polling q → q.left + (ℓ.hears h i).toNat ≤ n)
      (fun _ => True) (s.world h))
    (hn : n = p.left + (ℓ.skips h i).toNat * p.trans.transList.length)
    (ht : transOf (s.node h).store p.beginTs = some t) (hc : Copy p.trans t)
    (hs : s.runTask h i env b = some s') (ha : A s'.hist) : TaskMove A s h i p ℓ s' := by
  obtain ⟨-, ⟨task, w, ⟨hend, hleft⟩, rfl⟩ | ⟨w, -, rfl⟩⟩ := exec_inv
    (by rintro o rfl ha; exact Prog.sat_of_wp hA (Prog.wp_and hend hleft) ha) (by intros; rfl) hs ha
  · have hnode := tasked_node (s := s) h i task w
    refine .works t task ht hc ?_ ?_ fun q hq => hn ▸ hleft q hq
    · change TaskEnd p.beginTs t (s.node h).store task ((s.tasked h i task w).node h).store
      rw [hnode, Function.update_self, setTask_store]
      exact hend
    · change ((s.tasked h i task w).node h).task i = task
      rw [hnode, Function.update_self, setTask_task, Function.update_self]
  · exact .lost (by simp [Sys.lose, setNode_node])

theorem task_move (hA : Closed A) (ht : Tasks s) (hc : p.nPrepared ≤ p.i) (hs : step cfg s ℓ = some s')
    (ha : A s'.hist) (hi : (s.node h).task i = .polling p) : TaskMove A s h i p ℓ s' := by
  obtain ⟨t, htr, -, hcopy, hlt⟩ := (ht h).task i p hi
  have others : ℓ.hears h i = false → ℓ.skips h i = false → TaskMove A s h i p ℓ s' := by
    intro hhears hskips
    rcases step_cases hA hs ha with hn | ⟨c, hc⟩
    · exact hn.task ht hi hhears hskips
    · exact .stays hhears (by rw [hc.node_eq]; exact hi)
  cases ℓ with
  | taskSkip k j env =>
    by_cases hme : k = h ∧ j = i
    · obtain ⟨rfl, rfl⟩ := hme
      simp only [step, hi] at hs
      refine runTask_move hA (n := p.left + p.trans.transList.length) ?_ ?_ ?_ htr hcopy hs ha
      · refine Prog.wp_mono (fun task w hw => ?_) (fun _ _ => trivial)
          (pollNext_wp k _ (List.suffix_refl _))
        exact NextEnd.taskEnd (p := { p with i := p.i + 1 }) hcopy hw
      · simpa [Label.hears] using skip_left hlt hc
      · simp [Label.skips]
    · exact others rfl (by simpa [Label.skips] using hme)
  | taskRecv k j env =>
    by_cases hme : k = h ∧ j = i
    · obtain ⟨rfl, rfl⟩ := hme
      simp only [step, hi] at hs
      split at hs
      · rename_i res hres
        refine runTask_move hA (n := p.left) ?_ ?_ ?_ htr hcopy hs ha
        · refine Prog.wp_mono (fun task w hw => ?_) (fun _ _ => trivial)
            (onTransStateRes_wp k p res (List.suffix_refl _))
          exact hw.taskEnd hcopy
        · refine Prog.wp_mono (fun task w hw q hq => ?_) (fun _ h => h) (onTransStateRes_left hlt hc hres)
          have hhears : (Label.taskRecv k j env).hears k j = true := by simp [Label.hears]
          rw [hhears]
          exact hw q hq
        · simp [Label.skips]
      · cases hs
    · exact others (by simpa [Label.hears] using hme) rfl
  | _ => exact others rfl rfl

end Moves

def Decided (s : Sys) (h : Host) (T : String) : Prop :=
  ∃ t, transOf (s.node h).store T = some t ∧ t.Finished

section Runs

variable {cfg : Config} {s s' : Sys} {h : Host} {i : Nat} {p : Polling} {ℓ : Label} {ls : List Label}

theorem TaskEnd.decided {T : String} {t : Trans} {st st' : Db.Store} {task : TaskState}
    (hend : TaskEnd T t st task st') (hidle : ∀ q, task ≠ .polling q) :
    ∃ t', transOf st' T = some t' ∧ t'.Finished := by
  cases hend with
  | asks q => exact absurd rfl (hidle q)
  | commits trans commitTs => exact ⟨_, transOf_insert_self _ _ _, .inr rfl⟩
  | rollsBack trans => exact ⟨_, transOf_insert_self _ _ _, .inl rfl⟩

theorem TaskEnd.hosts {T : String} {t : Trans} {st st' : Db.Store} {q : Polling}
    (hend : TaskEnd T t st (.polling q) st') :
    q.trans.transList.map (·.host) = t.transList.map (·.host) := by
  cases hend with
  | asks _ _ hc => exact hc.hosts

theorem Safe.count_le (h' : Safe cfg s) (hu : DistinctBegin s.hist)
    (hi : (s.node h).task i = .polling p) : p.nPrepared ≤ p.i := by
  obtain ⟨L, hL⟩ := h'.disc.exists_onlyPlan hu p.beginTs
  have hpoll : (s.view p.beginTs).poll h i =
      some ⟨p.i, p.nPrepared, p.trans.selfCommitTs, p.maxCommitTs, p.reply.map answerOf⟩ := by
    change pollOf p.beginTs ((s.node h).task i) = _
    rw [hi]
    exact if_pos rfl
  exact ((h'.inv _ L hL).poll h i _ hpoll).count_le

theorem left_step (hsafe : Safe cfg s) (hu : DistinctBegin s.hist) (hs : step cfg s ℓ = some s')
    (hdb : NoDbError s'.hist) (hi : (s.node h).task i = .polling p)
    (hpast : ∀ e ∈ p.trans.transList, PastBegin (s.node e.host).store p.beginTs)
    (hup : (s'.node h).up = true) (hstart : ∀ env, ℓ ≠ .startUp h env) :
    Decided s' h p.beginTs ∨ ∃ q, (s'.node h).task i = .polling q ∧ q.beginTs = p.beginTs ∧
      q.trans.transList.map (·.host) = p.trans.transList.map (·.host) ∧
      q.left + (ℓ.hears h i).toNat ≤ p.left + (ℓ.skips h i).toNat * p.trans.transList.length := by
  cases task_move closed_noDbError hsafe.tasks (hsafe.count_le hu hi) hs hdb hi with
  | lost hdown => exact absurd (hup.symm.trans hdown) (by decide)
  | restarts env he => exact absurd he (hstart env)
  | stays hhears hi' =>
    refine .inr ⟨p, hi', rfl, rfl, ?_⟩
    rw [hhears]
    exact Nat.le_add_right _ _
  | asks peer o hhears hpeer hreply ho hi' =>
    refine .inr ⟨_, hi', rfl, rfl, ?_⟩
    rw [hhears, left_answered hreply]
    · exact Nat.le_add_right _ _
    · obtain ⟨e, he, rfl⟩ := Option.map_eq_some_iff.mp hpeer
      obtain ⟨t, ht, hne⟩ := hpast e (List.mem_of_getElem? he)
      obtain rfl := ho.resolve_right fun h => not_mayFail h.2
      rw [ht]
      exact hne
  | works t task ht hcopy hend hi' hleft =>
    by_cases hidle : ∀ q, task ≠ .polling q
    · exact .inl (hend.decided hidle)
    · push Not at hidle
      obtain ⟨q, rfl⟩ := hidle
      exact .inr ⟨q, hi', hend.polling rfl, hend.hosts.trans hcopy.hosts.symm, hleft q rfl⟩

theorem steps_cons (h : steps cfg anyStep s (ℓ :: ls) = some s') :
    ∃ s₁, step cfg s ℓ = some s₁ ∧ steps cfg anyStep s₁ ls = some s' := by
  have hbind : (step cfg s ℓ).bind (fun s => steps cfg anyStep s ls) = some s' := by
    rw [steps] at h
    split_ifs at h
    exact h
  exact Option.bind_eq_some_iff.mp hbind

theorem up_of_step (hs : step cfg s ℓ = some s') (hup : (s'.node h).up = true)
    (hstart : ∀ env, ℓ ≠ .startUp h env) : (s.node h).up = true := by
  rcases step_cases closed_true hs trivial with hn | ⟨c, hc⟩
  · cases hn with
    | recv | timeout | hangup | taskSkip | taskRecv => simpa using hup
    | event | cut => exact hup
    | taskAsk => rwa [asked_up] at hup
    | @startUp k env ts w =>
      rw [started_node, Function.update_apply] at hup
      split_ifs at hup with he
      · exact absurd (by rw [he]) (hstart env)
      · exact hup
    | @lost _ k w =>
      rw [lost_node, Function.update_apply] at hup
      split_ifs at hup
      exact hup
  · rwa [← hc.node_eq]

theorem up_of_steps (hrun : steps cfg anyStep s ls = some s') (hup : (s'.node h).up = true)
    (hstart : ∀ env, .startUp h env ∉ ls) : (s.node h).up = true := by
  induction ls generalizing s with
  | nil =>
    obtain rfl := Option.some.inj hrun
    exact hup
  | cons ℓ ls ih =>
    obtain ⟨s₁, h₁, hrest⟩ := steps_cons hrun
    have hup₁ := ih hrest fun env hm => hstart env (.tail _ hm)
    exact up_of_step h₁ hup₁ fun env he => hstart env (he ▸ .head _)

theorem left_run (hs : Reach cfg anyStep s) (hrun : steps cfg anyStep s ls = some s')
    (hdb : NoDbError s'.hist) (hu : DistinctBegin s'.hist) (hi : (s.node h).task i = .polling p)
    (hpast : ∀ e ∈ p.trans.transList, PastBegin (s.node e.host).store p.beginTs)
    (hup : (s'.node h).up = true) (hstart : ∀ env, .startUp h env ∉ ls) :
    Decided s' h p.beginTs ∨ ∃ q, (s'.node h).task i = .polling q ∧ q.beginTs = p.beginTs ∧
      q.left + ls.countP (Label.hears h i) ≤
        p.left + ls.countP (Label.skips h i) * p.trans.transList.length := by
  induction ls generalizing s p with
  | nil =>
    obtain rfl := Option.some.inj hrun
    exact .inr ⟨p, hi, rfl, Nat.le_add_right _ _⟩
  | cons ℓ ls ih =>
    obtain ⟨s₁, h₁, hrest⟩ := steps_cons hrun
    have hs₁ : Reach cfg anyStep s₁ := hs.step trivial h₁
    have hr : Run cfg anyStep s₁ s' := run_of_steps hrest
    have hdb₁ := closed_noDbError _ _ hr.hist hdb
    have hu₁ := closed_distinctBegin _ _ hr.hist hu
    have hu₀ := closed_distinctBegin _ _ (step_hist h₁) hu₁
    have hstart' : ∀ env, .startUp h env ∉ ls := fun env hm => hstart env (.tail _ hm)
    have hup₁ := up_of_steps hrest hup hstart'
    rcases left_step (hs.safe hu₀) hu₀ h₁ hdb₁ hi hpast hup₁
      (fun env he => hstart env (he ▸ .head _)) with ⟨t, ht, hf⟩ | ⟨q, hq, hT, hhosts, hleft⟩
    · obtain ⟨-, hl⟩ := (hs₁.safe hu₁).run hr hu
      obtain ⟨t', ht', he, -⟩ := finished_later (hl p.beginTs) ht hf
      exact .inl ⟨t', ht', hf.imp he.trans he.trans⟩
    · have hlen : q.trans.transList.length = p.trans.transList.length := by
        simpa using congrArg List.length hhosts
      have hpast₁ : ∀ e ∈ q.trans.transList, PastBegin (s₁.node e.host).store q.beginTs := by
        intro e he
        have hm : e.host ∈ p.trans.transList.map (·.host) := hhosts ▸ List.mem_map_of_mem he
        obtain ⟨e', he', heq⟩ := List.mem_map.mp hm
        rw [hT, ← heq]
        exact past_step h₁ (hpast e' he')
      refine (ih hs₁ hrest hq hpast₁ hstart').imp (by rw [hT]; exact id) ?_
      rintro ⟨r, hr, hrT, hle⟩
      refine ⟨r, hr, hrT.trans hT, ?_⟩
      rw [hlen] at hle
      rw [List.countP_cons, List.countP_cons]
      have hmul := Nat.add_mul (ls.countP (Label.skips h i)) (ℓ.skips h i).toNat p.trans.transList.length
      have hhears : (if ℓ.hears h i = true then 1 else 0) = (ℓ.hears h i).toNat := by
        cases ℓ.hears h i <;> rfl
      have hskips : (if ℓ.skips h i = true then 1 else 0) = (ℓ.skips h i).toNat := by
        cases ℓ.skips h i <;> rfl
      rw [hhears, hskips, hmul]
      omega

theorem PastBegin.voted {T : String} {n : Host} (h : PastBegin (s.node n).store T) :
    Voted s n T ∨ ∃ t, transOf (s.node n).store T = some t ∧ t.state = .rollback := by
  obtain ⟨t, ht, hne⟩ := h
  have hview : (s.view T).vote n = voteOf (some t) := by
    rw [← ht]
    rfl
  cases hs : t.state with
  | begin => exact absurd hs hne
  | prepared => exact .inl ⟨t.selfCommitTs, by rw [hview, voteOf_of_prepared hs]; rfl⟩
  | commited => exact .inl ⟨t.selfCommitTs, by rw [hview, voteOf_commited hs]; rfl⟩
  | rollback => exact .inr ⟨t, ht, hs⟩

/-- The decision is the one that all votes make. -/
theorem Reach.verdict (hs : Reach cfg anyStep s) (hr : Run cfg anyStep s s') (hu : DistinctBegin s'.hist)
    (hi : (s.node h).task i = .polling p)
    (hpast : ∀ e ∈ p.trans.transList, PastBegin (s.node e.host).store p.beginTs) {t : Trans}
    (ht : transOf (s'.node h).store p.beginTs = some t) (hf : t.Finished) :
    t.state = .commited ↔ ∀ e ∈ p.trans.transList, Voted s e.host p.beginTs := by
  have hsafe := hs.safe (closed_distinctBegin _ _ hr.hist hu)
  obtain ⟨hsafe', hl⟩ := hsafe.run hr hu
  constructor
  · intro hc e he
    refine (hpast e he).voted.resolve_right ?_
    rintro ⟨t₀, ht₀, hr₀⟩
    obtain ⟨t₁, ht₁, hs₁, -⟩ := finished_later (hl p.beginTs) ht₀ (.inl hr₀)
    exact hsafe'.agree hu ht ht₁ hc (hs₁.trans hr₀)
  · intro hv
    obtain ⟨t₀, ht₀, hs₀, hc₀, -⟩ := (hsafe.tasks h).task i p hi
    obtain ⟨c, hplan, hmem⟩ := ((hsafe.tasks h).record _ _ ht₀).of_prepared hs₀
    rw [← hc₀.hosts] at hplan hmem
    obtain ⟨L, hL⟩ := hsafe'.disc.exists_onlyPlan hu p.beginTs
    obtain rfl := hL c _ _ (hr.hist.subset hplan)
    have hv' : ∀ n ∈ p.trans.transList.map (·.host), Voted s' n p.beginTs := by
      intro n hn
      obtain ⟨e, he, rfl⟩ := List.mem_map.mp hn
      exact (Keeps.of_later (hl p.beginTs)).voted e.host (hv e he)
    obtain ⟨t₁, ht₁, hs₁⟩ := hsafe'.holds hL hv' hmem
    obtain rfl := Option.some.inj (ht.symm.trans ht₁)
    rcases hs₁ with hs₁ | hs₁
    · simp [Trans.Finished, hs₁] at hf
    · exact hs₁

end Runs

/-- Where no participant of a transaction is in the state Begin any more, a task that polls for it has
committed it if all of them have voted and rolled it back otherwise, or has heard fewer answers than
two of each participant and one more for each failed attempt to reach one: as long as its process is
running, and whatever happens to the other nodes and sessions. -/
theorem decides_within (cfg : Config) {s s' : Sys} {ls : List Label} (hs : Reach cfg anyStep s)
    (hrun : steps cfg anyStep s ls = some s') (hdb : NoDbError s'.hist) (hu : DistinctBegin s'.hist)
    {h : Host} {i : Nat} {p : Polling} (hi : (s.node h).task i = .polling p)
    (hpast : ∀ e ∈ p.trans.transList, PastBegin (s.node e.host).store p.beginTs)
    (hup : (s'.node h).up = true) (hstart : ∀ env, .startUp h env ∉ ls) :
    (∃ t, transOf (s'.node h).store p.beginTs = some t ∧ t.Finished ∧
      (t.state = .commited ↔ ∀ e ∈ p.trans.transList, Voted s e.host p.beginTs)) ∨
    ∃ q, (s'.node h).task i = .polling q ∧ q.beginTs = p.beginTs ∧
      ls.countP (Label.hears h i) <
        (2 + ls.countP (Label.skips h i)) * p.trans.transList.length := by
  have hr : Run cfg anyStep s s' := run_of_steps hrun
  rcases left_run hs hrun hdb hu hi hpast hup hstart with ⟨t, ht, hf⟩ | ⟨q, hq, hT, hleft⟩
  · exact .inl ⟨t, ht, hf, hs.verdict hr hu hi hpast ht hf⟩
  · refine .inr ⟨q, hq, hT, ?_⟩
    obtain ⟨-, -, -, -, hlt⟩ := (((hs.run hr).safe hu).tasks h).task i q hq
    have hpos := left_pos hlt
    have hle : p.left ≤ 2 * p.trans.transList.length := left_le
    rw [Nat.add_mul]
    omega

def bothPrepare : List Label :=
  toCommit ++ [.recv 0 { clocks := [atUsec 102] }, .recv 1 { clocks := [atUsec 103] }]

def oneAsks : List Label := [.taskSkip hostB 99 {}, .taskAsk hostA hostB 99 {}, .taskRecv hostA 99 {}]

def pollsB : Polling where
  beginTs := "ts100"
  trans := {
    state := .prepared
    startTrans := "ts101"
    transList := [{ host := hostA, state := .prepared }, { host := hostB }]
    selfCommitTs := "ts102" }
  i := 1
  maxCommitTs := "ts102"
  nPrepared := 1

theorem decides_within_one : ∃ (s' : Sys) (t : Trans), transOf (s'.node hostA).store "ts100" = some t ∧
    t.state = .commited ∧ (s'.node hostA).task 99 = .idle := by
  have hrun : ((steps twoHosts anyStep {} bothPrepare).bind fun s =>
      (steps twoHosts anyStep s oneAsks).map fun s' =>
        decide (((NoDbError s'.hist ∧ DistinctBegin s'.hist) ∧ (s.node hostA).task 99 = .polling pollsB) ∧
          (∀ n ∈ [hostA, hostB], ((s.view "ts100").vote n).self?.isSome = true ∧
            (transOf (s.node n).store "ts100").map Trans.state = some .prepared) ∧
          (s'.node hostA).up = true ∧ (s'.node hostA).task 99 = .idle)) = some true := by
    decide +kernel
  obtain ⟨s, hs, hrest⟩ := Option.bind_eq_some_iff.mp hrun
  obtain ⟨s', hs', hf⟩ := Option.map_eq_some_iff.mp hrest
  obtain ⟨⟨⟨hdb, hu⟩, hi⟩, hprepared, hup, hidle⟩ := of_decide_eq_true hf
  have hpast : ∀ e ∈ pollsB.trans.transList, PastBegin (s.node e.host).store pollsB.beginTs := by
    intro e he
    obtain ⟨t, ht, hp⟩ := Option.map_eq_some_iff.mp (hprepared e.host (List.mem_map_of_mem he)).2
    exact ⟨t, ht, by simp [hp]⟩
  have hvoted : ∀ e ∈ pollsB.trans.transList, Voted s e.host pollsB.beginTs := by
    intro e he
    exact Option.isSome_iff_exists.mp (hprepared e.host (List.mem_map_of_mem he)).1
  rcases decides_within twoHosts (reach_of_steps .init hs) hs' hdb hu hi hpast hup (by simp [oneAsks])
    with ⟨t, ht, -, hc⟩ | ⟨q, hq, -, -⟩
  · exact ⟨s', t, ht, hc.mpr hvoted, hidle⟩
  · simp [hidle] at hq

end Tpc
