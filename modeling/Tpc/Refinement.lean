import Tpc.Sessions

/-! The storage nodes refine `PollCommit`: for every transaction the records of the nodes are the
votes, and the tasks that run `prepare_routine` are the polls. -/

namespace Tpc
open Durable PollCommit

def voteOf : Option Trans → Vote String
  | none => .absent
  | some t =>
    match t.state with
    | .begin => .running
    | .prepared => .prepared t.selfCommitTs
    | .commited => .commited t.selfCommitTs t.commitTrans
    | .rollback => if t.transList = [] then .aborted else .rolledBack t.selfCommitTs

def answerOf (res : TransStateRes) : Answer String :=
  match res.transStat with
  | .begin => .wait
  | .prepared => .yes res.commitTs
  | .commited => .commited res.commitTs
  | .rollback => .rolledBack

def pollOf (T : String) : TaskState → Option (Poll String)
  | .polling p =>
    if p.beginTs = T then
      some ⟨p.i, p.nPrepared, p.trans.selfCommitTs, p.maxCommitTs, p.reply.map answerOf⟩
    else none
  | _ => none

def Sys.view (s : Sys) (T : String) : State Host Nat String :=
  ⟨fun h => voteOf (transOf (s.node h).store T), fun h i => pollOf T ((s.node h).task i)⟩

theorem answerOf_stateRes (o : Option Trans) : answerOf (stateRes o) = (voteOf o).answer := by
  cases o with
  | none => rfl
  | some t =>
    cases hs : t.state with
    | begin => simp [stateRes, voteOf, answerOf, hs, Vote.answer]
    | prepared => simp [stateRes, voteOf, answerOf, hs, Vote.answer]
    | commited => simp [stateRes, voteOf, answerOf, hs, Vote.answer]
    | rollback =>
      simp only [stateRes, voteOf, answerOf, hs]
      split_ifs <;> rfl

inductive RecForm (l : Hist) (h : Host) (T : String) : Trans → Prop
  | running : RecForm l h T {}
  | aborted : RecForm l h T { state := .rollback }
  | planned {c : CoordId} {t : Trans} {L : List Host} : Planned l c T t.startTrans L → h ∈ L →
      t.transList.map (·.host) = L → t.state ≠ .begin → RecForm l h T t

structure Copy (c t : Trans) : Prop where
  self : c.selfCommitTs = t.selfCommitTs
  start : c.startTrans = t.startTrans
  hosts : c.transList.map (·.host) = t.transList.map (·.host)

def TaskOk (st : Db.Store) (p : Polling) : Prop :=
  ∃ t, transOf st p.beginTs = some t ∧ t.state = .prepared ∧ Copy p.trans t ∧
    p.i < p.trans.transList.length

def NoTask (n : Node) (T : String) : Prop := ∀ i p, n.task i = .polling p → p.beginTs ≠ T

structure NodeOk (l : Hist) (h : Host) (n : Node) : Prop where
  record : ∀ T t, transOf n.store T = some t → RecForm l h T t
  task : ∀ i p, n.task i = .polling p → TaskOk n.store p
  unique : ∀ i j p q, n.task i = .polling p → n.task j = .polling q → p.beginTs = q.beginTs → i = j
  stack : n.prepareTask.Nodup
  idle : ∀ i ∈ n.prepareTask, n.task i = .idle

def Tasks (s : Sys) : Prop := ∀ h, NodeOk s.hist h (s.node h)

theorem Tasks.prepared {s : Sys} (ht : Tasks s) : TasksPrepared s := fun h i p hp => by
  obtain ⟨t, hr, hs, -⟩ := (ht h).task i p hp
  exact ⟨t, hr, hs⟩

theorem RecForm.mono {l l' : Hist} (hl : l ⊆ l') {h : Host} {T : String} {t : Trans}
    (hr : RecForm l h T t) : RecForm l' h T t := by
  cases hr with
  | running => exact .running
  | aborted => exact .aborted
  | planned hp hh hm hs => exact .planned (hl hp) hh hm hs

theorem RecForm.of_prepared {l : Hist} {h : Host} {T : String} {t : Trans} (hr : RecForm l h T t)
    (hs : t.state = .prepared) :
    ∃ c, Planned l c T t.startTrans (t.transList.map (·.host)) ∧ h ∈ t.transList.map (·.host) := by
  cases hr with
  | running => cases hs
  | aborted => cases hs
  | planned hp hh hm _ =>
    subst hm
    exact ⟨_, hp, hh⟩

theorem RecForm.decided {l : Hist} {h : Host} {T : String} {t t' : Trans} (hr : RecForm l h T t)
    (hs : t.state = .prepared) (hc : Copy t' t) (hne : t'.state ≠ .begin) : RecForm l h T t' := by
  obtain ⟨c, hp, hh⟩ := hr.of_prepared hs
  rw [← hc.hosts] at hp hh
  rw [← hc.start] at hp
  exact .planned hp hh rfl hne

namespace NodeOk

variable {l l' : Hist} {h : Host} {n : Node}

theorem mono (hl : l ⊆ l') (hn : NodeOk l h n) : NodeOk l' h n :=
  { hn with record := fun T t ht => (hn.record T t ht).mono hl }

theorem noTask (hn : NodeOk l h n) {T : String}
    (hT : ∀ t, transOf n.store T = some t → t.state ≠ .prepared) : NoTask n T := by
  rintro i p hp rfl
  obtain ⟨t, ht, hs, -⟩ := hn.task i p hp
  exact hT t ht hs

theorem write (hn : NodeOk l h n) {T : String} {st : Db.Store} (hT : NoTask n T)
    (hothers : ∀ U, U ≠ T → transOf st U = transOf n.store U)
    (hrec : ∀ t, transOf st T = some t → RecForm l h T t) : NodeOk l h { n with store := st } where
  record := by
    intro U t ht
    by_cases hU : U = T
    · subst hU
      exact hrec t ht
    · exact hn.record U t ((hothers U hU).symm.trans ht)
  task := by
    intro i p hp
    obtain ⟨t, ht, hrest⟩ := hn.task i p hp
    exact ⟨t, (hothers _ (hT i p hp)).trans ht, hrest⟩
  unique := hn.unique
  stack := hn.stack
  idle := hn.idle

theorem resume (hn : NodeOk l h n) {t : TaskState}
    (ht : ∀ p, t = .polling p → TaskOk n.store p ∧ NoTask n p.beginTs) : NodeOk l h (n.resume t) := by
  by_cases hidle : t = .idle
  · subst hidle
    exact hn
  cases hstack : n.prepareTask with
  | nil =>
    have he : n.resume t = n := by
      cases t <;> simp_all [Node.resume]
    rwa [he]
  | cons i rest =>
    have he : n.resume t = { n with prepareTask := rest, task := Function.update n.task i t } := by
      cases t <;> simp_all [Node.resume]
    have hnodup := hn.stack
    rw [hstack, List.nodup_cons] at hnodup
    have cases_task : ∀ {j p}, Function.update n.task i t j = .polling p →
        (j = i ∧ t = .polling p) ∨ (j ≠ i ∧ n.task j = .polling p) := by
      intro j p hp
      rw [Function.update_apply] at hp
      split_ifs at hp with hj
      · exact .inl ⟨hj, hp⟩
      · exact .inr ⟨hj, hp⟩
    rw [he]
    refine ⟨hn.record, fun j p hp => ?_, fun j k p q hp hq hpq => ?_, hnodup.2, fun j hj => ?_⟩
    · rcases cases_task hp with ⟨-, rfl⟩ | ⟨-, hp⟩
      · exact (ht p rfl).1
      · exact hn.task j p hp
    · rcases cases_task hp with ⟨hji, htp⟩ | ⟨-, hp'⟩
      · rcases cases_task hq with ⟨hki, -⟩ | ⟨-, hq'⟩
        · rw [hji, hki]
        · exact absurd hpq.symm ((ht p htp).2 k q hq')
      · rcases cases_task hq with ⟨-, htq⟩ | ⟨-, hq'⟩
        · exact absurd hpq ((ht q htq).2 j p hp')
        · exact hn.unique j k p q hp' hq' hpq
    · have hne : j ≠ i := fun e => hnodup.1 (e ▸ hj)
      change Function.update n.task i t j = .idle
      rw [Function.update_of_ne hne]
      exact hn.idle j (by rw [hstack]; exact .tail _ hj)

theorem setPolling (hn : NodeOk l h n) {i : Nat} {p q : Polling} (hp : n.task i = .polling p)
    (hpq : q.beginTs = p.beginTs) (hq : TaskOk n.store q) : NodeOk l h (n.setTask i (.polling q)) := by
  have cases_task : ∀ {j r}, (n.setTask i (.polling q)).task j = .polling r →
      ∃ r', n.task j = .polling r' ∧ r'.beginTs = r.beginTs := by
    intro j r hr
    simp only [Node.setTask, Function.update_apply] at hr
    split_ifs at hr with hj
    · obtain rfl := TaskState.polling.inj hr
      exact ⟨p, by rw [hj, hp], hpq.symm⟩
    · exact ⟨r, hr, rfl⟩
  refine ⟨hn.record, fun j r hr => ?_, fun j k r r' hr hr' he => ?_, hn.stack, fun j hj => ?_⟩
  · simp only [Node.setTask, Function.update_apply] at hr
    split_ifs at hr with hj
    · obtain rfl := TaskState.polling.inj hr
      exact hq
    · exact hn.task j r hr
  · obtain ⟨u, hu, hue⟩ := cases_task hr
    obtain ⟨u', hu', hue'⟩ := cases_task hr'
    exact hn.unique j k u u' hu hu' (by rw [hue, hue', he])
  · have hne : j ≠ i := by
      rintro rfl
      have hidle := hn.idle j hj
      rw [hp] at hidle
      cases hidle
    simp only [Node.setTask, Function.update_of_ne hne]
    exact hn.idle j hj

theorem setIdle (hn : NodeOk l h n) {i : Nat} {p : Polling} (hp : n.task i = .polling p) :
    NodeOk l h (n.setTask i .idle) := by
  have cases_task : ∀ {j r}, (n.setTask i .idle).task j = .polling r → j ≠ i ∧ n.task j = .polling r := by
    intro j r hr
    simp only [Node.setTask, Function.update_apply] at hr
    split_ifs at hr with hj
    exact ⟨hj, hr⟩
  refine ⟨hn.record, fun j r hr => hn.task j r (cases_task hr).2,
    fun j k r r' hr hr' => hn.unique j k r r' (cases_task hr).2 (cases_task hr').2, ?_, fun j hj => ?_⟩
  · refine List.nodup_cons.mpr ⟨fun hi => ?_, hn.stack⟩
    have hidle := hn.idle i hi
    rw [hp] at hidle
    cases hidle
  · simp only [Node.setTask, Function.update_apply]
    split_ifs with hji
    · rfl
    · rcases List.mem_cons.mp hj with hj | hj
      · exact absurd hj hji
      · exact hn.idle j hj

theorem noTask_setIdle (hn : NodeOk l h n) {i : Nat} {p : Polling} (hp : n.task i = .polling p) :
    NoTask (n.setTask i .idle) p.beginTs := by
  intro j q hq he
  simp only [Node.setTask, Function.update_apply] at hq
  split_ifs at hq with hj
  exact hj (hn.unique j i q p hq hp he)

end NodeOk

inductive TaskEnd (T : String) (t : Trans) (st : Db.Store) : TaskState → Db.Store → Prop
  | asks (p : Polling) : p.beginTs = T → Copy p.trans t → p.i < p.trans.transList.length →
      TaskEnd T t st (.polling p) st
  | commits (trans : Trans) (commitTs : String) : Copy trans t →
      TaskEnd T t st .idle (commitStore st T trans commitTs)
  | rollsBack (trans : Trans) : Copy trans t → TaskEnd T t st .idle (rollbackStore st T trans)

theorem Copy.refl (t : Trans) : Copy t t := ⟨rfl, rfl, rfl⟩

theorem map_host_modify (l : List TransList) (i : Nat) (state : TransState) :
    (l.modify i fun e => { e with state := state }).map (·.host) = l.map (·.host) := by
  induction l generalizing i with
  | nil => simp
  | cons e l ih =>
    cases i with
    | zero => simp
    | succ i => simp [ih]

theorem Copy.heard {p : Polling} {t : Trans} (hc : Copy p.trans t) (res : TransStateRes) :
    Copy (p.heard res).trans t := ⟨hc.self, hc.start, (map_host_modify _ _ _).trans hc.hosts⟩

theorem heard_length (p : Polling) (res : TransStateRes) :
    (p.heard res).trans.transList.length = p.trans.transList.length := by
  simp [Polling.heard]

section TaskEnd

variable {self : Host} {l l' : Hist} {T : String} {t : Trans} {st st' : Db.Store} {task : TaskState}

theorem RoundEnd.taskEnd {trans : Trans} (hc : Copy trans t)
    (h : RoundEnd self l l' T trans st task st') : TaskEnd T t st task st' := by
  cases h with
  | asks m _ hlt => exact .asks _ rfl hc hlt
  | decides m => exact .commits trans m hc

theorem NextEnd.taskEnd {p : Polling} (hc : Copy p.trans t)
    (h : NextEnd self l l' p st task st') : TaskEnd p.beginTs t st task st' := by
  cases h with
  | asks hlt => exact .asks _ rfl hc hlt
  | decides => exact .commits p.trans _ hc
  | again _ _ _ hr => exact hr.taskEnd hc

theorem ResEnd.taskEnd {p : Polling} {res : TransStateRes} (hc : Copy p.trans t)
    (h : ResEnd self l l' p res st task st') : TaskEnd p.beginTs t st task st' := by
  cases h with
  | skips _ _ _ hn =>
    exact NextEnd.taskEnd (p := { p.heard res with i := p.i + 1 }) (hc.heard res) hn
  | counts _ _ _ hn =>
    exact NextEnd.taskEnd (p := { p.heard res with
      i := p.i + 1, nPrepared := p.nPrepared + 1, maxCommitTs := max p.maxCommitTs res.commitTs })
      (hc.heard res) hn
  | commits => exact .commits _ _ (hc.heard res)
  | rollsBack => exact .rollsBack _ (hc.heard res)

theorem RecForm.of_taskEnd {h : Host} (hr : RecForm l h T t) (hs : t.state = .prepared)
    (ht : transOf st T = some t) (hend : TaskEnd T t st task st') :
    ∀ t', transOf st' T = some t' → RecForm l h T t' := by
  intro t' ht'
  cases hend with
  | asks =>
    obtain rfl := Option.some.inj (ht.symm.trans ht')
    exact hr
  | commits trans c hc =>
    rw [commitStore, transOf_insert_self] at ht'
    obtain rfl := Option.some.inj ht'
    exact hr.decided hs ⟨hc.self, hc.start, hc.hosts⟩ (by simp [Record.toTrans])
  | rollsBack trans hc =>
    rw [rollbackStore, transOf_insert_self] at ht'
    obtain rfl := Option.some.inj ht'
    exact hr.decided hs ⟨hc.self, hc.start, hc.hosts⟩ (by simp [Record.toTrans])

theorem TaskEnd.others (hend : TaskEnd T t st task st') {U : String} (hU : U ≠ T) :
    transOf st' U = transOf st U := by
  cases hend with
  | asks => rfl
  | commits => exact transOf_commitStore_of_ne _ hU
  | rollsBack => exact transOf_rollbackStore_of_ne hU

theorem NodeOk.start {n : Node} (hn : NodeOk l self n) (hT : NoTask n T)
    (ht : transOf n.store T = some t) (hs : t.state = .prepared)
    (hend : TaskEnd T t n.store task st') :
    NodeOk l self (({ n with store := st' } : Node).resume task) := by
  have hw := hn.write hT (fun U hU => hend.others hU)
    ((hn.record T t ht).of_taskEnd hs ht hend)
  refine hw.resume fun p hp => ?_
  subst hp
  cases hend with
  | asks _ hpT hc hlt =>
    subst hpT
    exact ⟨⟨t, ht, hs, hc, hlt⟩, hT⟩

theorem NodeOk.tasked {n : Node} (hn : NodeOk l self n) {i : Nat} {p : Polling}
    (hp : n.task i = .polling p) (ht : transOf n.store p.beginTs = some t) (hs : t.state = .prepared)
    (hend : TaskEnd p.beginTs t n.store task st') :
    NodeOk l self (({ n with store := st' } : Node).setTask i task) := by
  have hrec := (hn.record p.beginTs t ht).of_taskEnd hs ht hend
  have hothers : ∀ U, U ≠ p.beginTs → transOf st' U = transOf n.store U := fun U hU => hend.others hU
  have idle : NodeOk l self { n.setTask i .idle with store := st' } :=
    (hn.setIdle hp).write (hn.noTask_setIdle hp) hothers hrec
  cases hend with
  | asks q hq hc hlt => exact hn.setPolling hp hq ⟨t, by rw [hq]; exact ht, hs, hc, hlt⟩
  | commits => exact idle
  | rollsBack => exact idle

end TaskEnd

def withNode (a : State Host Nat String) (h : Host) (n : Node) (T : String) : State Host Nat String :=
  ⟨Function.update a.vote h (voteOf (transOf n.store T)),
    Function.update a.poll h fun i => pollOf T (n.task i)⟩

section WithNode

variable {a : State Host Nat String} {h : Host} {n n' : Node} {T : String}

@[simp] theorem withNode_vote : (withNode a h n T).vote h = voteOf (transOf n.store T) :=
  Function.update_self ..

@[simp] theorem withNode_poll (i : Nat) : (withNode a h n T).poll h i = pollOf T (n.task i) := by
  simp [withNode]

theorem withNode_congr (hv : transOf n'.store T = transOf n.store T)
    (hp : ∀ i, pollOf T (n'.task i) = pollOf T (n.task i)) : withNode a h n' T = withNode a h n T := by
  unfold withNode
  rw [hv, funext hp]

theorem withNode_write (st : Db.Store) :
    withNode a h { n with store := st } T = (withNode a h n T).setVote h (voteOf (transOf st T)) := by
  simp [withNode, State.setVote]

theorem withNode_task {i : Nat} {t : TaskState} (hs : n'.store = n.store)
    (ht : n'.task = Function.update n.task i t) :
    withNode a h n' T = (withNode a h n T).setPoll h i (pollOf T t) := by
  unfold withNode State.setPoll
  simp only [hs, ht, Function.update_self, Function.update_idem]
  congr 2
  funext j
  by_cases hj : j = i
  · simp [hj]
  · simp [hj]

theorem Sys.view_eq (s : Sys) (h : Host) (T : String) :
    s.view T = withNode (s.view T) h (s.node h) T := by
  simp [withNode, Sys.view]

theorem view_update {s s' : Sys} (hn : s'.node = Function.update s.node h n) :
    s'.view T = withNode (s.view T) h n T := by
  unfold Sys.view withNode
  rw [hn]
  congr 1
  · funext m
    by_cases hm : m = h
    · subst hm
      simp
    · simp [hm]
  · funext m
    by_cases hm : m = h
    · subst hm
      simp
    · simp [hm]

theorem pollOf_of_noTask (hT : NoTask n T) (i : Nat) : pollOf T (n.task i) = none := by
  unfold pollOf
  split
  · rename_i p hp
    exact if_neg (hT i p hp)
  · rfl

theorem resume_task {l : Hist} (hn : NodeOk l h n) (t : TaskState)
    (ht : t ≠ .idle → n.prepareTask ≠ []) :
    ∃ i, n.task i = .idle ∧ (n.resume t).task = Function.update n.task i t ∨
      t = .idle ∧ n.resume t = n := by
  by_cases hidle : t = .idle
  · exact ⟨0, .inr ⟨hidle, by rw [hidle]; rfl⟩⟩
  · obtain ⟨i, rest, hstack⟩ := List.exists_cons_of_ne_nil (ht hidle)
    refine ⟨i, .inl ⟨hn.idle i (by simp [hstack]), ?_⟩⟩
    cases t <;> simp_all [Node.resume]

end WithNode

def OnlyPlan (l : Hist) (T : String) (L : List Host) : Prop :=
  ∀ c st L', Planned l c T st L' → L' = L

structure Moves (B : Prop) (l l' : Hist) (h : Host) (n n' : Node) : Prop where
  ok : NodeOk l h n'
  steps : ∀ a T L, OnlyPlan l T L → Steps B (Fresh l l') L (withNode a h n T) (withNode a h n' T)

theorem Moves.trans {B : Prop} {l l' : Hist} {h : Host} {n n₁ n₂ : Node} (h₁ : Moves B l l' h n n₁)
    (h₂ : Moves B l l' h n₁ n₂) : Moves B l l' h n n₂ :=
  ⟨h₂.ok, fun a T L hL => (h₁.steps a T L hL).trans (h₂.steps a T L hL)⟩

section Moves

variable {B : Prop} {l l' : Hist} {h : Host} {n : Node}

theorem Moves.refl (hn : NodeOk l h n) : Moves B l l' h n n := ⟨hn, fun _ _ _ _ => .refl⟩

theorem Moves.write (hn : NodeOk l h n) {T : String} {st : Db.Store} (hT : NoTask n T)
    (hothers : ∀ U, U ≠ T → transOf st U = transOf n.store U)
    (hrec : ∀ t, transOf st T = some t → RecForm l h T t)
    (hstep : ∀ a L, OnlyPlan l T L →
      Steps B (Fresh l l') L (withNode a h n T) ((withNode a h n T).setVote h (voteOf (transOf st T)))) :
    Moves B l l' h n { n with store := st } := by
  refine ⟨hn.write hT hothers hrec, fun a U L hL => ?_⟩
  rw [withNode_write st]
  by_cases hU : U = T
  · subst hU
    exact hstep a L hL
  · rw [hothers U hU, State.setVote_eq_self withNode_vote]

theorem Moves.of_trans_eq (hn : NodeOk l h n) {st : Db.Store}
    (hst : ∀ T, transOf st T = transOf n.store T) : Moves B l l' h n { n with store := st } where
  ok := by
    refine ⟨fun T t ht => hn.record T t ((hst T).symm.trans ht), fun i p hp => ?_, hn.unique, hn.stack,
      hn.idle⟩
    obtain ⟨t, ht, hrest⟩ := hn.task i p hp
    exact ⟨t, (hst _).trans ht, hrest⟩
  steps a T L hL := by rw [withNode_write st, hst, State.setVote_eq_self withNode_vote]

end Moves

theorem ownRun_le (self : Host) (l : List TransList) : ownRun self l ≤ l.length :=
  (List.takeWhile_prefix _).length_le

theorem getElem?_ownRun {self : Host} {l : List TransList}
    (hown : ∀ m ∈ l.map (·.host), m.hashId = self.hashId → m = self) {j : Nat}
    (hj : j < ownRun self l) : (l.map (·.host))[j]? = some self := by
  induction l generalizing j with
  | nil => simp [ownRun] at hj
  | cons e l ih =>
    unfold ownRun at hj
    rw [List.takeWhile_cons] at hj
    split_ifs at hj with he
    · cases j with
      | zero => simpa using hown e.host (by simp) (by simpa using he)
      | succ j =>
        have hj' : j < ownRun self l := by simpa [ownRun] using hj
        simpa using ih (fun m hm => hown m (List.mem_map.mpr (by
          obtain ⟨x, hx, rfl⟩ := List.mem_map.mp hm
          exact ⟨x, .tail _ hx, rfl⟩))) hj'
    · simp at hj

section Rounds

variable {B : Prop} {self : Host} {l l' : Hist} {L : List Host} {a : State Host Nat String} {i : Nat}
  {st st' : Db.Store} {task : TaskState}

def Polling.poll (p : Polling) : Poll String :=
  ⟨p.i, p.nPrepared, p.trans.selfCommitTs, p.maxCommitTs, none⟩

theorem pass_steps {p : Polling} (hL : p.trans.transList.map (·.host) = L)
    (hown : ∀ m ∈ L, m.hashId = self.hashId → m = self) (hp : a.poll self i = some p.poll) :
    Steps B (Fresh l l') L a (a.setPoll self i (some (p.pass self).poll)) := by
  refine Steps.own_run hp rfl fun j hj => ?_
  have hdrop : ∀ m ∈ (p.trans.transList.drop p.i).map (·.host), m.hashId = self.hashId → m = self := by
    intro m hm
    obtain ⟨e, he, rfl⟩ := List.mem_map.mp hm
    exact hown _ (hL ▸ List.mem_map_of_mem (List.mem_of_mem_drop he))
  have hrun := getElem?_ownRun hdrop hj
  rw [List.map_drop, List.getElem?_drop, hL] at hrun
  exact hrun

theorem decide_steps {p : Polling} (st : Db.Store) (T : String)
    (hp : a.poll self i = some p.poll) (hi : p.i = L.length) (hc : p.nPrepared = L.length) :
    Steps B (Fresh l l') L a ((a.setVote self
      (voteOf (transOf (commitStore st T p.trans p.maxCommitTs) T))).setPoll self i none) := by
  have hv : voteOf (transOf (commitStore st T p.trans p.maxCommitTs) T) =
      .commited p.trans.selfCommitTs p.maxCommitTs := by
    rw [commitStore, transOf_insert_self]
    rfl
  rw [hv]
  exact .single (.decide hp hi hc)

theorem RoundEnd.steps {T : String} {trans : Trans} (h : RoundEnd self l l' T trans st task st')
    (hL : trans.transList.map (·.host) = L) (hown : ∀ m ∈ L, m.hashId = self.hashId → m = self)
    (hv : a.vote self = voteOf (transOf st T))
    (hopen : ∀ m, Opening (Fresh l l') trans.selfCommitTs m → Steps B (Fresh l l') L a
      (a.setPoll self i (some ⟨0, 0, trans.selfCommitTs, m, none⟩))) :
    Steps B (Fresh l l') L a
      ((a.setVote self (voteOf (transOf st' T))).setPoll self i (pollOf T task)) := by
  have first : ∀ m, Opening (Fresh l l') trans.selfCommitTs m → Steps B (Fresh l l') L a
      (a.setPoll self i (some (firstPolling self T trans m).poll)) := by
    intro m ho
    let p : Polling := { beginTs := T, trans := trans, i := 0, maxCommitTs := m, nPrepared := 0 }
    have hpass : Steps B (Fresh l l') L (a.setPoll self i (some p.poll)) _ :=
      pass_steps (p := p) (i := i) hL hown (by rw [State.setPoll_poll, if_pos ⟨rfl, rfl⟩])
    rw [State.setPoll_setPoll] at hpass
    refine (hopen m ho).trans ?_
    have he : (p.pass self).poll = (firstPolling self T trans m).poll := by
      simp [p, Polling.pass, Polling.poll, firstPolling]
    rwa [he] at hpass
  cases h with
  | asks m ho hlt =>
    rw [← hv, State.setVote_eq_self rfl]
    have hp : pollOf T (.polling (firstPolling self T trans m)) =
        some (firstPolling self T trans m).poll := by
      simp [pollOf, firstPolling, Polling.poll]
    rw [hp]
    exact first m ho
  | decides m ho hlt =>
    have hfull : ownRun self trans.transList = L.length := by
      rw [← hL, List.length_map]
      exact le_antisymm (ownRun_le self _) (not_lt.mp hlt)
    refine (first m ho).trans ?_
    have hd : Steps B (Fresh l l') L
        (a.setPoll self i (some (firstPolling self T trans m).poll)) _ :=
      decide_steps (p := firstPolling self T trans m) st T
        (by rw [State.setPoll_poll, if_pos ⟨rfl, rfl⟩]) hfull hfull
    rwa [State.setPoll_setVote, State.setPoll_setPoll] at hd

theorem NextEnd.steps {p : Polling} (h : NextEnd self l l' p st task st')
    (hL : p.trans.transList.map (·.host) = L) (hown : ∀ m ∈ L, m.hashId = self.hashId → m = self)
    (hle : p.i ≤ L.length) (hv : a.vote self = voteOf (transOf st p.beginTs))
    (hp : a.poll self i = some p.poll) :
    Steps B (Fresh l l') L a
      ((a.setVote self (voteOf (transOf st' p.beginTs))).setPoll self i (pollOf p.beginTs task)) := by
  have hpass : Steps B (Fresh l l') L a (a.setPoll self i (some (p.pass self).poll)) :=
    pass_steps hL hown hp
  cases h with
  | asks hlt =>
    rw [← hv, State.setVote_eq_self rfl]
    have hq : pollOf p.beginTs (.polling (p.pass self)) = some (p.pass self).poll := by
      simp [pollOf, Polling.pass, Polling.poll]
    rw [hq]
    exact hpass
  | decides hlt hc =>
    have hlen : p.trans.transList.length = L.length := by rw [← hL, List.length_map]
    have hfull : (p.pass self).i = L.length := by
      have hrun := ownRun_le self (p.trans.transList.drop p.i)
      rw [List.length_drop, hlen] at hrun
      rw [hlen] at hlt
      simp only [Polling.pass] at hlt ⊢
      omega
    have hd : Steps B (Fresh l l') L (a.setPoll self i (some (p.pass self).poll)) _ :=
      decide_steps (p := p.pass self) st p.beginTs (by rw [State.setPoll_poll, if_pos ⟨rfl, rfl⟩])
        hfull (hc.trans hlen)
    rw [State.setPoll_setVote, State.setPoll_setPoll] at hd
    exact hpass.trans hd
  | again _ _ hlt hr =>
    exact hr.steps hL hown hv fun m ho => .single (.round hp ho)

theorem ResEnd.steps {p : Polling} {res : TransStateRes} (h : ResEnd self l l' p res st task st')
    (hL : p.trans.transList.map (·.host) = L) (hown : ∀ m ∈ L, m.hashId = self.hashId → m = self)
    (hlt : p.i < L.length) (hv : a.vote self = voteOf (transOf st p.beginTs))
    (hp : a.poll self i = some { p.poll with reply := some (answerOf res) }) :
    Steps B (Fresh l l') L a
      ((a.setVote self (voteOf (transOf st' p.beginTs))).setPoll self i (pollOf p.beginTs task)) := by
  have hheard : (p.heard res).trans.transList.map (·.host) = L := (map_host_modify _ _ _).trans hL
  -- after the next position is reached the loop goes on
  have next : ∀ (q : Polling), q.trans = (p.heard res).trans → q.beginTs = p.beginTs → q.i = p.i + 1 →
      Steps B (Fresh l l') L a (a.setPoll self i (some q.poll)) → NextEnd self l l' q st task st' →
      Steps B (Fresh l l') L a
        ((a.setVote self (voteOf (transOf st' p.beginTs))).setPoll self i (pollOf p.beginTs task)) := by
    intro q hqt hqT hqi hq hn
    have hs := hn.steps (B := B) (a := a.setPoll self i (some q.poll)) (i := i)
      (by rw [hqt]; exact hheard) hown (by omega) (by rw [hqT]; exact hv)
      (by rw [State.setPoll_poll, if_pos ⟨rfl, rfl⟩])
    rw [State.setPoll_setVote, State.setPoll_setPoll, hqT] at hs
    exact hq.trans hs
  cases h with
  | skips _ _ _ hn =>
    exact next { p.heard res with i := p.i + 1 } rfl rfl rfl (.single (.skip hp hlt)) hn
  | counts _ _ hs hn =>
    refine next { p.heard res with
      i := p.i + 1, nPrepared := p.nPrepared + 1, maxCommitTs := max p.maxCommitTs res.commitTs }
      rfl rfl rfl (.single (.yes hp ?_ hlt)) hn
    simp [answerOf, hs]
  | commits hs =>
    have hc : voteOf (transOf (commitStore st p.beginTs (p.heard res).trans res.commitTs) p.beginTs) =
        .commited p.trans.selfCommitTs res.commitTs := by
      rw [commitStore, transOf_insert_self]
      rfl
    rw [hc]
    exact .single (.adopt hp (by simp [answerOf, hs]))
  | rollsBack hs =>
    have hne : (p.heard res).trans.transList ≠ [] := by
      intro he
      rw [he] at hheard
      rw [← hheard] at hlt
      simp at hlt
    have hr : voteOf (transOf (rollbackStore st p.beginTs (p.heard res).trans) p.beginTs) =
        .rolledBack p.trans.selfCommitTs := by
      rw [rollbackStore, transOf_insert_self]
      exact if_neg hne
    rw [hr]
    exact .single (.undo hp (by simp [answerOf, hs]))

end Rounds

theorem RecForm.of_begin {l : Hist} {h : Host} {T : String} {t : Trans} (hr : RecForm l h T t)
    (hs : t.state = .begin) : t = {} := by
  cases hr with
  | running => rfl
  | aborted => cases hs
  | planned _ _ _ hne => exact absurd hs hne

theorem voteOf_of_prepared {t : Trans} (hs : t.state = .prepared) :
    voteOf (some t) = .prepared t.selfCommitTs := by
  simp [voteOf, hs]

/-- Hosts with the hash id of `h` in a plan are `h`. -/
def OwnHash (l : Hist) (h : Host) : Prop :=
  ∀ c T st L, Planned l c T st L → h ∈ L → ∀ m ∈ L, m.hashId = h.hashId → m = h

theorem RoundEnd.polling {self : Host} {l l' : Hist} {T : String} {trans : Trans} {st st' : Db.Store}
    {task : TaskState} {p : Polling} (h : RoundEnd self l l' T trans st task st')
    (hp : task = .polling p) : p.beginTs = T := by
  cases h with
  | asks m =>
    obtain rfl := TaskState.polling.inj hp
    rfl
  | decides => cases hp

theorem CleanEnd.polling {self : Host} {l l' : Hist} {idle : Nat} {T : String} {st st' : Db.Store}
    {o : Option TaskState} {p : Polling} (h : CleanEnd self l l' idle T st o st')
    (hp : o.getD .idle = .polling p) : p.beginTs = T := by
  cases h with
  | nothing => cases hp
  | aborts => cases hp
  | resumes t task _ _ _ _ hr => exact hr.polling hp
  | declines => cases hp
  | ends => cases hp

theorem pollOf_of_ne {T : String} {t : TaskState} (h : ∀ p, t = .polling p → p.beginTs ≠ T) :
    pollOf T t = none := by
  cases t with
  | idle => rfl
  | polling p => exact if_neg (h p rfl)
  | ended => rfl

section Nodes

variable {B : Prop} {l l' : Hist} {h : Host} {n : Node} {a : State Host Nat String} {T : String}

theorem withNode_resume (hn : NodeOk l h n) {t : TaskState} (ht : t ≠ .idle → n.prepareTask ≠ [])
    (hp : pollOf T t = none) : withNode a h (n.resume t) T = withNode a h n T := by
  refine withNode_congr (by rw [resume_store]) fun j => ?_
  obtain ⟨i, ⟨hi, htask⟩ | ⟨-, he⟩⟩ := resume_task hn t ht
  · rw [htask, Function.update_apply]
    split_ifs with hj
    · rw [hp, hj, hi]
      rfl
    · rfl
  · rw [he]

theorem Moves.start (hn : NodeOk l h n) (hown : OwnHash l h) (hT : NoTask n T) {t : Trans}
    {task : TaskState} {st' : Db.Store} (hidle : n.prepareTask ≠ [])
    (ht : transOf n.store T = some t) (hs : t.state = .prepared)
    (hr : RoundEnd h l l' T t n.store task st') :
    Moves B l l' h n (({ n with store := st' } : Node).resume task) := by
  have hend := hr.taskEnd (.refl t)
  have hw : NodeOk l h { n with store := st' } := hn.write hT (fun U hU => hend.others hU)
    ((hn.record T t ht).of_taskEnd hs ht hend)
  refine ⟨hn.start hT ht hs hend, fun a U L hL => ?_⟩
  by_cases hU : U = T
  · subst hU
    obtain ⟨c, hplan, hself⟩ := (hn.record U t ht).of_prepared hs
    have hhosts := hL c _ _ hplan
    have hvote : (withNode a h n U).vote h = .prepared t.selfCommitTs := by
      rw [withNode_vote, ht, voteOf_of_prepared hs]
    have hnone : ∀ j, (withNode a h n U).poll h j = none := fun j => by
      rw [withNode_poll, pollOf_of_noTask hT]
    have hsteps : ∀ i, Steps B (Fresh l l') L (withNode a h n U)
        (((withNode a h n U).setVote h (voteOf (transOf st' U))).setPoll h i (pollOf U task)) :=
      fun i => hr.steps hhosts (fun m hm => hown c _ _ _ hplan hself m (hhosts ▸ hm)) withNode_vote
        fun m ho => .single (.start hvote hnone ho)
    obtain ⟨i, ⟨-, htask⟩ | ⟨rfl, he⟩⟩ := resume_task hw task fun _ => hidle
    · rw [withNode_task (by rw [resume_store]) htask, withNode_write st']
      exact hsteps i
    · have h0 := hsteps 0
      rw [he, withNode_write st']
      rwa [State.setPoll_eq_self] at h0
      exact hnone 0
  · have hnone : pollOf U task = none :=
      pollOf_of_ne fun p hp => by rw [hr.polling hp]; exact Ne.symm hU
    rw [withNode_resume hw (fun _ => hidle) hnone, withNode_write st', hend.others hU,
      State.setVote_eq_self withNode_vote]

theorem Moves.abort (hn : NodeOk l h n) {t : Trans} (ht : transOf n.store T = some t)
    (hs : t.state = .begin) : Moves B l l' h n { n with store := rollbackStore n.store T t } := by
  obtain rfl := (hn.record T t ht).of_begin hs
  have hT : NoTask n T := hn.noTask fun t' ht' => by
    obtain rfl := Option.some.inj (ht.symm.trans ht')
    decide
  have hst : transOf (rollbackStore n.store T {}) T = some { state := .rollback } := by
    rw [rollbackStore, transOf_insert_self]
    rfl
  refine Moves.write hn hT (fun U hU => transOf_rollbackStore_of_ne hU) (fun t' ht' => ?_)
    fun a L _ => ?_
  · obtain rfl := Option.some.inj (hst.symm.trans ht')
    exact .aborted
  · rw [hst]
    refine .single (Step.abort ?_)
    rw [withNode_vote, ht]
    rfl

theorem Moves.clean (hn : NodeOk l h n) (hown : OwnHash l h) {o : Option TaskState} {st' : Db.Store}
    (hT : NoTask n T) (hc : CleanEnd h l l' n.prepareTask.length T n.store o st') :
    Moves B l l' h n (({ n with store := st' } : Node).resume (o.getD .idle)) := by
  have hne : n.prepareTask.length ≠ 0 → n.prepareTask ≠ [] := fun h e => h (by rw [e]; rfl)
  cases hc with
  | nothing => exact .refl hn
  | aborts t ht hs => exact .abort hn ht hs
  | resumes t task _ hi ht hs hr => exact .start hn hown hT (hne hi) ht hs hr
  | declines => exact .refl hn
  | ends t hi ht hs =>
    refine ⟨hn.resume (by simp), fun a U L hL => ?_⟩
    have he : withNode a h (n.resume .ended) U = withNode a h n U :=
      withNode_resume hn (fun _ => hne hi) rfl
    rw [show ({ n with store := n.store } : Node).resume ((some .ended : Option TaskState).getD .idle) =
      n.resume .ended from rfl, he]

theorem Moves.vote (hn : NodeOk l h n) (ht : transOf n.store T = some {}) {c : CoordId} {st s : String}
    {L : List Host} (hp : Planned l c T st L) (hh : h ∈ L) (hs : Fresh l l' s ∨ (B ∧ s = "")) :
    Moves B l l' h n { n with
      store := n.store.insert (makeTrans T)
        (.trans { preparedTrans h.hashId (prepareReq T st L) {} with selfCommitTs := s }) } ∧
    NoTask n T := by
  have hT : NoTask n T := hn.noTask fun t' ht' => by
    obtain rfl := Option.some.inj (ht.symm.trans ht')
    decide
  refine ⟨Moves.write hn hT (fun U hU => by rw [transOf_insert_trans, if_neg hU]) (fun t' ht' => ?_)
    fun a L' hL' => ?_, hT⟩
  · rw [transOf_insert_self] at ht'
    obtain rfl := Option.some.inj ht'
    refine .planned hp hh ?_ (by simp [preparedTrans, Record.toTrans])
    exact List.map_map.trans (List.map_id L)
  · rw [transOf_insert_self]
    refine .single (Step.prepare ?_ (hL' _ _ _ hp ▸ hh) hs)
    rw [withNode_vote, ht]
    rfl

theorem Moves.lose (hn : NodeOk l h n) (up : Bool) :
    Moves B l l' h n { store := n.store, up := up } where
  ok := {
    record := hn.record
    task := fun i p hp => by simp at hp
    unique := fun i j p q hp => by simp at hp
    stack := List.nodup_reverse.mpr List.nodup_range
    idle := fun i _ => rfl }
  steps a T L _ := by
    have he : withNode a h { store := n.store, up := up } T = (withNode a h n T).lose h := by
      simp [withNode, State.lose, pollOf]
    rw [he]
    exact .single .lose

theorem resume_write (n : Node) (st : Db.Store) (t : TaskState) :
    ({ n with store := st } : Node).resume t = { n.resume t with store := st } := by
  cases t with
  | idle => rfl
  | polling p => cases hs : n.prepareTask <;> simp [Node.resume, hs]
  | ended => cases hs : n.prepareTask <;> simp [Node.resume, hs]

theorem resume_length (n : Node) {t : TaskState} (ht : t ≠ .idle) :
    (n.resume t).prepareTask.length = n.prepareTask.length - 1 := by
  cases t with
  | idle => exact absurd rfl ht
  | polling p => cases hs : n.prepareTask <;> simp [Node.resume, hs]
  | ended => cases hs : n.prepareTask <;> simp [Node.resume, hs]

theorem resume_polling {t : TaskState} {j : Nat} {q : Polling}
    (hq : (n.resume t).task j = .polling q) : n.task j = .polling q ∨ t = .polling q := by
  by_cases ht : t = .idle
  · rw [ht] at hq
    exact .inl hq
  cases hs : n.prepareTask with
  | nil =>
    have he : n.resume t = n := by cases t <;> simp_all [Node.resume]
    rw [he] at hq
    exact .inl hq
  | cons i rest =>
    have he : (n.resume t).task = Function.update n.task i t := by
      cases t <;> simp_all [Node.resume]
    rw [he, Function.update_apply] at hq
    split_ifs at hq
    · exact .inr hq
    · exact .inl hq

def Listed (n : Node) (es : List (String × Record)) : Prop :=
  (es.map Prod.fst).Nodup ∧
    ∀ T r, (makeTrans T, r) ∈ es → transOf n.store T = some r.toTrans ∧ NoTask n T

theorem Listed.next {r : Record} {rest : List (String × Record)}
    (hes : Listed n ((makeTrans T, r) :: rest)) {n₁ : Node}
    (hrec : ∀ U, U ≠ T → transOf n₁.store U = transOf n.store U)
    (htask : ∀ j q, n₁.task j = .polling q → n.task j = .polling q ∨ q.beginTs = T) :
    Listed n₁ rest := by
  obtain ⟨hnodup, hes⟩ := hes
  obtain ⟨hnot, hnodup⟩ := List.nodup_cons.mp hnodup
  refine ⟨hnodup, fun U r' hU => ?_⟩
  have hne : U ≠ T := by
    rintro rfl
    exact hnot (List.mem_map.mpr ⟨_, hU, rfl⟩)
  obtain ⟨hr, hno⟩ := hes U r' (.tail _ hU)
  refine ⟨(hrec U hne).trans hr, fun j q hq => ?_⟩
  rcases htask j q hq with hq | hq
  · exact hno j q hq
  · rw [hq]
    exact hne.symm

theorem Moves.up (hn : NodeOk l h n) (hown : OwnHash l h) {idle : Nat} {es : List (String × Record)}
    {st st' : Db.Store} {ts : List TaskState} (hup : UpEnd h l l' idle es st ts st')
    (hst : n.store = st) (hidle : n.prepareTask.length = idle) (hes : Listed n es) :
    Moves B l l' h n (ts.foldl Node.resume { n with store := st' }) := by
  induction hup generalizing n with
  | nil idle st =>
    subst hst
    exact .refl hn
  | @aborts idle T r rest st ts st' hs _ ih =>
    subst hst
    obtain ⟨ht, -⟩ := hes.2 T r (.head _)
    have hm : Moves B l l' h n _ := .abort hn ht hs
    refine hm.trans (ih hm.ok rfl hidle (hes.next ?_ ?_))
    · exact fun U hU => transOf_rollbackStore_of_ne hU
    · exact fun j q hq => .inl hq
  | @cleans idle T r rest st st₁ o ts st' hs hc ho _ ih =>
    subst hst hidle
    obtain ⟨-, hT⟩ := hes.2 T r (.head _)
    have hm : Moves B l l' h n _ := .clean hn hown hT hc
    have he : ({ n with store := st₁ } : Node).resume (o.getD .idle) = { n with store := st₁ } := by
      rcases ho with rfl | rfl <;> rfl
    rw [he] at hm
    refine hm.trans (ih hm.ok rfl rfl (hes.next ?_ ?_))
    · exact fun U hU => hc.others hU
    · exact fun j q hq => .inl hq
  | @resumes idle T r rest st st₁ t ts st' hs hc ht _ ih =>
    subst hst hidle
    obtain ⟨-, hT⟩ := hes.2 T r (.head _)
    have hm : Moves B l l' h n _ := .clean hn hown hT hc
    have hrest := ih hm.ok (by rw [resume_store]) (resume_length _ ht) (hes.next ?_ ?_)
    · rw [List.foldl_cons, resume_write]
      rw [resume_write] at hm hrest
      exact hm.trans hrest
    · intro U hU
      rw [resume_store]
      exact hc.others hU
    · intro j q hq
      exact (resume_polling hq).imp id fun hq => hc.polling hq
  | @keeps idle T r rest st ts st' hs _ ih =>
    subst hst
    exact ih hn rfl hidle ⟨(List.nodup_cons.mp hes.1).2, fun U r' hU => hes.2 U r' (.tail _ hU)⟩

theorem setTask_task (n : Node) (i : Nat) (t : TaskState) :
    (n.setTask i t).task = Function.update n.task i t := by
  cases t <;> rfl

theorem TaskEnd.polling {t : Trans} {st st' : Db.Store} {task : TaskState} {p : Polling}
    (hend : TaskEnd T t st task st') (hp : task = .polling p) : p.beginTs = T := by
  cases hend with
  | asks q hq =>
    obtain rfl := TaskState.polling.inj hp
    exact hq
  | commits => cases hp
  | rollsBack => cases hp

theorem Moves.tasked (hn : NodeOk l h n) {i : Nat} {p : Polling} (hp : n.task i = .polling p) {t : Trans}
    {task : TaskState} {st' : Db.Store} (ht : transOf n.store p.beginTs = some t)
    (hs : t.state = .prepared) (hend : TaskEnd p.beginTs t n.store task st')
    (hsteps : ∀ a L, t.transList.map (·.host) = L →
      Steps B (Fresh l l') L (withNode a h n p.beginTs)
        (((withNode a h n p.beginTs).setVote h (voteOf (transOf st' p.beginTs))).setPoll h i
          (pollOf p.beginTs task))) :
    Moves B l l' h n (({ n with store := st' } : Node).setTask i task) := by
  refine ⟨hn.tasked hp ht hs hend, fun a U L hL => ?_⟩
  rw [withNode_task (n := { n with store := st' }) (by rw [setTask_store]) (setTask_task _ i task),
    withNode_write st']
  by_cases hU : U = p.beginTs
  · subst hU
    obtain ⟨c, hplan, -⟩ := (hn.record _ t ht).of_prepared hs
    exact hsteps a L (hL c _ _ hplan)
  · have hnew : pollOf U task = none := pollOf_of_ne fun q hq => by
      rw [hend.polling hq]
      exact Ne.symm hU
    have hold : (withNode a h n U).poll h i = none := by
      rw [withNode_poll, hp]
      exact if_neg (Ne.symm hU)
    rw [hend.others hU, State.setVote_eq_self withNode_vote, hnew, State.setPoll_eq_self hold]

theorem withNode_poll_of_task {i : Nat} {p : Polling} (hp : n.task i = .polling p) :
    (withNode a h n p.beginTs).poll h i = some { p.poll with reply := p.reply.map answerOf } := by
  rw [withNode_poll, hp]
  exact if_pos rfl

theorem Moves.taskSkip (hn : NodeOk l h n) (hown : OwnHash l h) {i : Nat} {p : Polling}
    (hp : n.task i = .polling p) {task : TaskState} {st' : Db.Store}
    (hend : NextEnd h l l' { p with i := p.i + 1 } n.store task st') :
    Moves B l l' h n (({ n with store := st' } : Node).setTask i task) := by
  obtain ⟨t, ht, hs, hc, hlt⟩ := hn.task i p hp
  have hte : TaskEnd p.beginTs t n.store task st' :=
    NextEnd.taskEnd (p := { p with i := p.i + 1 }) hc hend
  refine .tasked hn hp ht hs hte fun a L hL => ?_
  obtain ⟨c, hplan, hself⟩ := (hn.record _ t ht).of_prepared hs
  rw [hL] at hplan hself
  have hlen : p.trans.transList.length = L.length := by
    rw [← hL, ← hc.hosts, List.length_map]
  set b := withNode a h n p.beginTs with hb
  have hskip : Steps B (Fresh l l') L b
      (b.setPoll h i (some ({ p with i := p.i + 1 } : Polling).poll)) :=
    .single (.skip (withNode_poll_of_task hp) (hlen ▸ hlt))
  have hrest := NextEnd.steps (B := B) (p := { p with i := p.i + 1 }) hend
    (a := b.setPoll h i (some ({ p with i := p.i + 1 } : Polling).poll)) (i := i)
    (hc.hosts.trans hL) (hown c _ _ _ hplan hself) (hlen ▸ hlt)
    (by rw [State.setPoll_vote, hb, withNode_vote]) (by rw [State.setPoll_poll, if_pos ⟨rfl, rfl⟩])
  rw [State.setPoll_setVote, State.setPoll_setPoll] at hrest
  exact hskip.trans hrest

theorem Moves.taskRecv (hn : NodeOk l h n) (hown : OwnHash l h) {i : Nat} {p : Polling}
    (hp : n.task i = .polling p) {res : TransStateRes} (hres : p.reply = some res)
    {task : TaskState} {st' : Db.Store} (hend : ResEnd h l l' p res n.store task st') :
    Moves B l l' h n (({ n with store := st' } : Node).setTask i task) := by
  obtain ⟨t, ht, hs, hc, hlt⟩ := hn.task i p hp
  refine .tasked hn hp ht hs (hend.taskEnd hc) fun a L hL => ?_
  obtain ⟨c, hplan, hself⟩ := (hn.record _ t ht).of_prepared hs
  rw [hL] at hplan hself
  have hpoll := withNode_poll_of_task (a := a) (h := h) hp
  rw [hres] at hpoll
  exact hend.steps (hc.hosts.trans hL) (hown c _ _ _ hplan hself)
    (by rw [← hL, ← hc.hosts, List.length_map]; exact hlt) withNode_vote hpoll

end Nodes

/-- The step stops the process between the two writes of a Prepare request. -/
def Sys.cutsPrepare (s : Sys) : Label → Bool
  | .recv x env =>
    match s.sess x with
    | none => false
    | some σ =>
      match σ.toServ with
      | [] => false
      | m :: _ =>
        m.requestType = .prepare ∧ σ.vars.beginTs ≠ "" ∧ σ.vars.beginTs = m.beginTs ∧
          (transOf (s.node σ.host).store σ.vars.beginTs).map (·.state) = some .begin ∧
          cutShort env.fates
  | _ => false

/-- The step `s` to `s'` keeps the nodes well formed and shows as steps of `PollCommit`. -/
structure Refines (B : Prop) (s s' : Sys) : Prop where
  tasks : Tasks s'
  steps : ∀ T L, OnlyPlan s'.hist T L →
    Steps B (Fresh s.hist s'.hist) L (s.view T) (s'.view T)

section Refines

variable {B : Prop} {cfg : Config} {A : Hist → Prop} {s s' : Sys}

theorem OnlyPlan.mono {l l' : Hist} (hl : l ⊆ l') {T : String} {L : List Host}
    (h : OnlyPlan l' T L) : OnlyPlan l T L := fun c st L' hp => h c st L' (hl hp)

theorem Refines.of_moves (ht : Tasks s) (hl : s.hist ⊆ s'.hist) {h : Host} {n : Node}
    (hnode : s'.node = Function.update s.node h n) (hm : Moves B s.hist s'.hist h (s.node h) n) :
    Refines B s s' where
  tasks m := by
    rw [hnode, Function.update_apply]
    split_ifs with hmh
    · rw [hmh]
      exact hm.ok.mono hl
    · exact (ht m).mono hl
  steps T L hL := by
    have hs := hm.steps (s.view T) T L (hL.mono hl)
    rwa [← Sys.view_eq, ← view_update hnode] at hs

theorem Refines.of_node_eq (ht : Tasks s) (hl : s.hist ⊆ s'.hist) (hnode : s'.node = s.node) :
    Refines B s s' where
  tasks m := by
    rw [hnode]
    exact (ht m).mono hl
  steps T L _ := by
    have he : s'.view T = s.view T := by simp only [Sys.view, hnode]
    rw [he]

theorem Disc.ownHash (hd : Disc cfg s) (h : Host) : OwnHash s.hist h := by
  intro c T st L hp hh m hm he
  have hhosts := (hd.planned c T st L hp).2.2
  exact cfg.hashId_inj (hhosts m hm) (hhosts h hh) he

theorem served_node (x : Nat) (σ : Session) (seg : Seg) (w : DbWorld) :
    (s.served x σ seg w).node = Function.update s.node σ.host
      (({ s.node σ.host with store := w.store } : Node).resume (seg.task.getD .idle)) := by
  simp [Sys.served, Sys.setSess, Sys.setNode, Sys.setWorld]

theorem hungUp_node (x : Nat) (σ : Session) (t : Option TaskState) (w : DbWorld) :
    (s.hungUp x σ t w).node = Function.update s.node σ.host
      (({ s.node σ.host with store := w.store } : Node).resume (t.getD .idle)) := by
  simp [Sys.hungUp, Sys.setSess, Sys.setNode, Sys.setWorld]

theorem tasked_node (h : Host) (i : Nat) (t : TaskState) (w : DbWorld) :
    (s.tasked h i t w).node = Function.update s.node h
      (({ s.node h with store := w.store } : Node).setTask i t) := by
  simp [Sys.tasked, Sys.setNode, Sys.setWorld]

theorem lost_node (h : Host) (w : DbWorld) :
    (s.lost h w).node = Function.update s.node h { store := w.store, up := false } := by
  simp [Sys.lost, Sys.lose, Sys.setNode, Sys.setWorld]

theorem lost_sess {h : Host} {x : Nat} {σ : Session} (w : DbWorld) (hσ : s.sess x = some σ)
    (hne : σ.host ≠ h) : (s.lost h w).sess x = some σ := by
  change (s.sess x).map (fun σ => if σ.host = h then σ.stop else σ) = some σ
  rw [hσ, Option.map_some, if_neg hne]

theorem lost_up {h n : Host} {w : DbWorld} (hup : ((s.lost h w).node n).up = true) : n ≠ h := by
  rintro rfl
  rw [lost_node, Function.update_self] at hup
  cases hup

theorem started_node (h : Host) (ts : List TaskState) (w : DbWorld) :
    (s.started h ts w).node = Function.update s.node h
      (ts.foldl Node.resume { store := w.store }) := by
  simp [Sys.started, Sys.setNode, Sys.setWorld]

theorem Moves.of_ran {l l' : Hist} {h : Host} {n : Node} (hn : NodeOk l h n) {N : Event → Prop}
    {w w' : DbWorld} (hw : w.store = n.store) (hr : Ran h N (fun k => ¬ TransKey k) w w') :
    Moves B l l' h n { n with store := w'.store } :=
  .of_trans_eq hn fun T => by rw [transOf_of_frame hr.frame not_not_transKey, hw]

theorem BeginEnd.moves {l l' : Hist} {h : Host} {n : Node} (hn : NodeOk l h n) {v : Vars} {req : RpcReq}
    {seg : Seg} {st : Db.Store} (hend : BeginEnd A v req n.store seg st) :
    Moves B l l' h n (({ n with store := st } : Node).resume (seg.task.getD .idle)) := by
  cases hend with
  | refused => exact .refl hn
  | failed => exact .refl hn
  | begun _ hnone =>
    have hst : transOf (n.store.insert (makeTrans req.beginTs) (.trans {})) req.beginTs = some {} :=
      transOf_insert_self ..
    have hT : NoTask n req.beginTs := hn.noTask fun t ht => by simp [hnone] at ht
    refine Moves.write hn hT
      (fun U hU => by rw [transOf_insert_trans, if_neg hU]) (fun t ht => ?_) fun a L _ => ?_
    · obtain rfl := Option.some.inj (hst.symm.trans ht)
      exact .running
    · rw [hst]
      refine .single (Step.begin ?_)
      rw [withNode_vote, hnone]
      rfl

theorem PrepareEnd.moves {F : Prop} {l l' : Hist} {h : Host} {n : Node} (hn : NodeOk l h n)
    (hown : OwnHash l h) {v : Vars} {req : RpcReq} {c : CoordId} {T ts : String} {L : List Host}
    (hreq : req = prepareReq T ts L) (hp : Planned l c T ts L) (hh : h ∈ L) {seg : Seg}
    {st : Db.Store} (hend : PrepareEnd F h l l' n.prepareTask.length v req n.store seg st) :
    Moves B l l' h n (({ n with store := st } : Node).resume (seg.task.getD .idle)) := by
  cases hend with
  | refused => exact .refl hn
  | votes t s o st' _ hv ht hs hfresh hc =>
    obtain rfl := (hn.record _ t ht).of_begin hs
    obtain rfl : v.beginTs = T := hv.trans (by rw [hreq]; rfl)
    subst hreq
    obtain ⟨hm, hno⟩ := Moves.vote hn ht hp hh (.inl hfresh)
    exact hm.trans (.clean hm.ok hown hno hc)

theorem PrepareLost.moves {l l' : Hist} {h : Host} {n : Node} (hn : NodeOk l h n)
    {v : Vars} {req : RpcReq} {c : CoordId} {T ts : String} {L : List Host}
    (hreq : req = prepareReq T ts L) (hp : Planned l c T ts L) (hh : h ∈ L)
    {st : Db.Store} (hend : PrepareLost B h l l' v req n.store st) :
    Moves B l l' h n { n with store := st } := by
  cases hend with
  | before => exact .refl hn
  | between t hB _ hv ht hs =>
    obtain rfl := (hn.record _ t ht).of_begin hs
    obtain rfl : v.beginTs = T := hv.trans (by rw [hreq]; rfl)
    subst hreq
    exact (Moves.vote (s := "") hn ht hp hh (.inr ⟨hB, rfl⟩)).1
  | after t s _ hv ht hs hfresh =>
    obtain rfl := (hn.record _ t ht).of_begin hs
    obtain rfl : v.beginTs = T := hv.trans (by rw [hreq]; rfl)
    subst hreq
    exact (Moves.vote hn ht hp hh (.inl hfresh)).1

theorem recv_moves (hd : Disc cfg s) (ht : Tasks s) {x : Nat} {σ : Session} {m : RpcReq}
    {rest : List RpcReq} {fates : List Fate} {fuel : Nat} {seg : Seg} {w : DbWorld}
    (hσ : s.sess x = some σ) (hm : σ.toServ = m :: rest)
    (hh : Handled A fates σ.host (s.idle σ.host) fuel σ.vars m (s.world σ.host) seg w) :
    s.hist ⊆ w.hist ∧ Moves B s.hist w.hist σ.host (s.node σ.host)
      (({ s.node σ.host with store := w.store } : Node).resume (seg.task.getD .idle)) := by
  have hn := ht σ.host
  cases hh with
  | begin _ hend hr => exact ⟨hr.grown.suffix.subset, hend.moves hn⟩
  | prepare hreq hend hr =>
    have hmsg : MsgOk cfg s.hist σ m := hd.msg x σ m hσ (by rw [hm]; exact .head _)
    obtain ⟨T, ts, L, he, hp, hL⟩ := hmsg.of_prepare hreq
    exact ⟨hr.grown.suffix.subset, hend.moves hn (hd.ownHash σ.host) he hp hL⟩
  | op _ _ hk hr =>
    rw [hk.2]
    exact ⟨hr.grown.suffix.subset, .of_ran hn rfl hr⟩

theorem hangup_moves (hd : Disc cfg s) (ht : Tasks s) {x : Nat} {σ : Session}
    {o : Option TaskState} {w : DbWorld} (hσ : s.sess x = some σ) (hlive : σ.live = true)
    (hc : (σ.vars.beginTs = "" ∧ o = none ∧ w.store = (s.node σ.host).store) ∨
      (σ.vars.beginTs ≠ "" ∧ CleanEnd σ.host s.hist w.hist (s.idle σ.host) σ.vars.beginTs
        (s.node σ.host).store o w.store)) :
    Moves B s.hist w.hist σ.host (s.node σ.host)
      (({ s.node σ.host with store := w.store } : Node).resume (o.getD .idle)) := by
  have hn := ht σ.host
  rcases hc with ⟨-, rfl, hw⟩ | ⟨hne, hc⟩
  · rw [hw]
    exact .refl hn
  · refine .clean hn (hd.ownHash σ.host) (hn.noTask fun t ht' hs => ?_) hc
    rcases hd.rec_live x σ hσ hlive hne with h | h
    · rw [h] at ht'
      cases ht'
    · rw [h] at ht'
      obtain rfl := Option.some.inj ht'
      cases hs

theorem refines_taskAsk (ht : Tasks s) {h peer : Host} {i : Nat} {p : Polling} {o : Option Trans}
    {w : DbWorld} (hp : (s.node h).task i = .polling p)
    (hpeer : (p.trans.transList[p.i]?).map (·.host) = some peer)
    (hw : w.store = (s.node peer).store)
    (ho : o = transOf (s.node peer).store p.beginTs ∨ o = none ∧ MayFail A)
    (hg : Grown (.storage peer) (fun _ => False) s.hist w.hist) :
    Refines B s ((s.setWorld peer w).setNode h (((s.setWorld peer w).node h).setTask i
      (.polling { p with reply := some (stateRes o) }))) := by
  set q : Polling := { p with reply := some (stateRes o) } with hq
  have hsame : (s.setWorld peer w).node = s.node := by
    funext m
    rw [setWorld_node, hw]
    split_ifs with hm
    · rw [hm]
    · rfl
  have hnode : ((s.setWorld peer w).setNode h (((s.setWorld peer w).node h).setTask i
      (.polling q))).node = Function.update s.node h ((s.node h).setTask i (.polling q)) := by
    rw [hsame]
    simp [Sys.setNode, hsame]
  have hl : s.hist ⊆ w.hist := hg.suffix.subset
  obtain ⟨t, htr, hs, hc, hlt⟩ := (ht h).task i p hp
  refine ⟨fun m => ?_, fun T L hL => ?_⟩
  · rw [hnode, Function.update_apply]
    split_ifs with hm
    · subst hm
      have hok : NodeOk s.hist m ((s.node m).setTask i (.polling q)) :=
        (ht m).setPolling hp rfl ⟨t, htr, hs, hc, hlt⟩
      exact hok.mono hl
    · exact (ht m).mono hl
  · have hview := view_update (T := T) hnode
    have hset : withNode (s.view T) h ((s.node h).setTask i (.polling q)) T = _ :=
      withNode_task (n := s.node h) rfl (setTask_task _ i _)
    rw [hset, ← Sys.view_eq] at hview
    rw [hview]
    have hold : (s.view T).poll h i = pollOf T (.polling p) := by
      rw [← hp]
      rfl
    by_cases hT : p.beginTs = T
    · subst hT
      have hplan := ((ht h).record _ t htr).of_prepared hs
      obtain ⟨c, hplan, -⟩ := hplan
      have hhosts := hL c _ _ (hl hplan)
      rw [pollOf, if_pos rfl] at hold ⊢
      refine .single (Step.ask (m := peer) hold ?_ ?_)
      · rw [← hhosts, ← hc.hosts, List.getElem?_map]
        exact hpeer
      · rw [answerOf_stateRes]
        rcases ho with rfl | ⟨rfl, -⟩
        · exact .inr rfl
        · exact .inl rfl
    · rw [pollOf, if_neg hT] at hold ⊢
      rw [State.setPoll_eq_self hold]

theorem started_moves (hd : Disc cfg s) (ht : Tasks s) {h : Host} {es : List (String × Record)}
    {ts : List TaskState} {w : DbWorld} (hes : es <+: transEntries (s.world h).listing)
    (hend : UpEnd h s.hist w.hist ({ store := (s.node h).store } : Node).prepareTask.length es
      (s.node h).store ts w.store) :
    Moves B s.hist w.hist h { store := (s.node h).store }
      (ts.foldl Node.resume { store := w.store }) := by
  have hlose : Moves B s.hist w.hist h (s.node h) _ := .lose (ht h) true
  refine .up hlose.ok (hd.ownHash h) hend rfl rfl ⟨?_, fun T r hr => ?_⟩
  · have hsub := (hes.sublist.trans (transEntries_sublist _)).map Prod.fst
    exact (World.listing_keys_nodup _).sublist hsub
  · exact ⟨mem_transEntries (hes.subset hr), fun i p hp => by simp at hp⟩

theorem refines_lost (hd : Disc cfg s) (ht : Tasks s) {ℓ : Label} {h : Host} {w : DbWorld}
    (hdies : Dies s h w ℓ) : Refines (s.cutsPrepare ℓ = true) s (s.lost h w) := by
  have hn := ht h
  have lost : ∀ {n : Node}, s.hist ⊆ w.hist → n.store = w.store →
      Moves (s.cutsPrepare ℓ = true) s.hist w.hist h (s.node h) n →
      Refines (s.cutsPrepare ℓ = true) s (s.lost h w) := by
    intro n hl hst hm
    have hlose := hm.trans (.lose hm.ok false)
    rw [hst] at hlose
    exact .of_moves ht hl (lost_node h w) hlose
  cases hdies with
  | same hw hg => exact lost hg.suffix.subset hw.symm (.refl hn)
  | @recv x env σ m rest hσ _ hm hh hdies hg =>
    subst hh
    have hl := hg.suffix.subset
    cases hdies with
    | same hw => exact lost hl hw.symm (.refl hn)
    | prepare hreq hend =>
      have hmsg : MsgOk cfg s.hist σ m := hd.msg x σ m hσ (by rw [hm]; exact .head _)
      obtain ⟨T, ts, L, he, hp, hL⟩ := hmsg.of_prepare hreq
      have hcut : ∀ {st}, PrepareLost (cutShort env.fates = true) σ.host s.hist w.hist σ.vars m
          (s.node σ.host).store st → PrepareLost (s.cutsPrepare (.recv x env) = true) σ.host s.hist
          w.hist σ.vars m (s.node σ.host).store st := by
        intro st h
        cases h with
        | before => exact .before
        | between t hc hv hvm htr hs =>
          exact .between t (by simp [Sys.cutsPrepare, hσ, hm, hreq, hv, ← hvm, htr, hs, hc]) hv hvm htr hs
        | after t s hv hvm htr hs hf => exact .after t s hv hvm htr hs hf
      exact lost hl rfl ((hcut hend).moves hn he hp hL)
    | op _ _ hr => exact lost hl rfl (.of_ran hn rfl hr)
  | timeout _ _ _ _ _ hr => exact lost hr.grown.suffix.subset rfl (.of_ran hn rfl hr)
  | @startUp env hup hend hr =>
    obtain ⟨pre, ts, hpre, hend⟩ := hend
    exact lost hr.grown.suffix.subset (by rw [foldl_resume_store])
      ((Moves.lose hn true).trans (started_moves hd ht hpre hend))

/-- A step of a storage node shows as steps of `PollCommit`. -/
theorem refines_node (hd : Disc cfg s) (ht : Tasks s) {ℓ : Label} (hs : NodeStep A s ℓ s') :
    Refines (s.cutsPrepare ℓ = true) s s' := by
  cases hs with
  | recv hσ _ _ hm _ h =>
    obtain ⟨hl, hmoves⟩ := recv_moves hd ht hσ hm h
    exact .of_moves ht hl (served_node ..) hmoves
  | @timeout x env σ seg w hσ _ _ _ hk hr =>
    have hmoves : Moves (s.cutsPrepare (.timeout x env) = true) s.hist w.hist σ.host
        (s.node σ.host) _ := .of_ran (ht σ.host) rfl hr
    refine .of_moves ht hr.grown.suffix.subset (served_node ..) ?_
    rw [hk.2]
    exact hmoves
  | event => exact .of_node_eq ht (List.Subset.refl _) rfl
  | hangup hσ hlive _ _ _ hc hr =>
    exact .of_moves ht hr.grown.suffix.subset (hungUp_node ..) (hangup_moves hd ht hσ hlive hc)
  | taskSkip hp _ hend hr =>
    exact .of_moves ht hr.grown.suffix.subset (tasked_node ..)
      (.taskSkip (ht _) (hd.ownHash _) hp hend)
  | taskAsk hp hpeer _ _ hw ho hg => exact refines_taskAsk ht hp hpeer hw ho hg
  | taskRecv hp hres _ hend hr =>
    exact .of_moves ht hr.grown.suffix.subset (tasked_node ..)
      (.taskRecv (ht _) (hd.ownHash _) hp hres hend)
  | @startUp h env ts w hup hend hr =>
    refine .of_moves ht hr.grown.suffix.subset (started_node h ts w) ?_
    exact (Moves.lose (ht h) true).trans (started_moves hd ht (List.prefix_refl _) hend)
  | lost hdies => exact refines_lost hd ht hdies
  | cut => exact .of_node_eq ht (List.Subset.refl _) rfl

theorem refines_step (hA : Closed A) (hd : Disc cfg s) (ht : Tasks s) {ℓ : Label}
    (hs : step cfg s ℓ = some s') (ha : A s'.hist) : Refines (s.cutsPrepare ℓ = true) s s' := by
  rcases step_cases hA hs ha with hn | ⟨c, hc⟩
  · exact refines_node hd ht hn
  · exact .of_node_eq ht hc.hist.subset hc.node_eq

end Refines

structure Safe (cfg : Config) (s : Sys) : Prop where
  disc : Disc cfg s
  tasks : Tasks s
  inv : ∀ T L, OnlyPlan s.hist T L → Inv L (s.view T)

section Safe

variable {cfg : Config} {C : Sys → Label → Prop} {s s' : Sys} {ℓ : Label}

theorem safe_init (cfg : Config) : Safe cfg {} where
  disc := disc_init cfg
  tasks h := {
    record := fun T t ht => by simp [transOf] at ht
    task := fun i p hp => by simp at hp
    unique := fun i j p q hp => by simp at hp
    stack := List.nodup_reverse.mpr List.nodup_range
    idle := fun i _ => rfl }
  inv T L _ := inv_init (fun h => by simp [Sys.view, transOf, voteOf]) fun h i => rfl

theorem Safe.step (h : Safe cfg s) (hs : step cfg s ℓ = some s') (hu : DistinctBegin s'.hist) :
    Safe cfg s' := by
  have href := refines_step closed_distinctBegin h.disc h.tasks hs hu
  refine ⟨?_, href.tasks, fun T L hL => ?_⟩
  · rcases step_cases closed_distinctBegin hs hu with hn | ⟨c, hc⟩
    · exact h.disc.node h.tasks.prepared hn
    · exact h.disc.coord hu hc
  · exact (inv_steps (href.steps T L hL) (h.inv T L (hL.mono (step_hist hs).subset))).1

theorem Reach.safe (h : Reach cfg C s) (hu : DistinctBegin s.hist) : Safe cfg s := by
  induction h with
  | init => exact safe_init cfg
  | step _ _ hs ih => exact (ih (closed_distinctBegin _ _ (step_hist hs) hu)).step hs hu

theorem Disc.exists_onlyPlan (hd : Disc cfg s) (hu : DistinctBegin s.hist) (T : String) :
    ∃ L, OnlyPlan s.hist T L := by
  by_cases hp : ∃ c st L, Planned s.hist c T st L
  · obtain ⟨c, st, L, hp⟩ := hp
    refine ⟨L, fun c' st' L' hp' => ?_⟩
    obtain rfl := begun_unique hu (hd.planned c T st L hp).1 (hd.planned c' T st' L' hp').1
    exact (hd.plan_unique c T st' st L' L hp' hp).2
  · exact ⟨[], fun c st L hL => absurd ⟨c, st, L, hL⟩ hp⟩

theorem Safe.later (h : Safe cfg s) (hs : Tpc.step cfg s ℓ = some s') (hu : DistinctBegin s'.hist)
    (T : String) : Later (s.view T) (s'.view T) := by
  obtain ⟨L, hL⟩ := (h.step hs hu).disc.exists_onlyPlan hu T
  have href := refines_step closed_distinctBegin h.disc h.tasks hs hu
  exact (inv_steps (href.steps T L hL) (h.inv T L (hL.mono (step_hist hs).subset))).2

theorem Run.hist (hr : Run cfg C s s') : s.hist <:+ s'.hist := by
  induction hr with
  | refl => exact List.suffix_refl _
  | tail _ hs ih =>
    obtain ⟨_, -, hs⟩ := hs
    exact ih.trans (step_hist hs)

theorem Safe.run (h : Safe cfg s) (hr : Run cfg C s s') (hu : DistinctBegin s'.hist) :
    Safe cfg s' ∧ ∀ T, Later (s.view T) (s'.view T) := by
  induction hr with
  | refl => exact ⟨h, fun T => .refl _⟩
  | tail _ hs ih =>
    obtain ⟨ℓ, -, hs⟩ := hs
    obtain ⟨hsafe, hl⟩ := ih (closed_distinctBegin _ _ (step_hist hs) hu)
    exact ⟨hsafe.step hs hu, fun T => (hl T).trans (hsafe.later hs hu T)⟩

end Safe

end Tpc
