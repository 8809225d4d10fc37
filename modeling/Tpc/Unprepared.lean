import Tpc.Refinement

/-! Records that are not prepared stay so where no Prepare request can reach them. One under the empty
string never is. -/

namespace Tpc
open Durable

/-- The record of `T` is not one that a Prepare request or a decision to commit left behind. -/
def Unprepared (st : Db.Store) (T : String) : Prop :=
  ∀ t, transOf st T = some t → t.state = .begin ∨ t.state = .rollback

section Unprepared

variable {A : Hist → Prop} {self : Host} {l l' : Hist} {T U : String} {st st' : Db.Store}

theorem Unprepared.of_eq (h : Unprepared st U) (he : transOf st' U = transOf st U) :
    Unprepared st' U := fun t ht => h t (he.symm.trans ht)

theorem Unprepared.not_prepared (h : Unprepared st U) {t : Trans} (ht : transOf st T = some t)
    (hs : t.state = .prepared) : U ≠ T := by
  rintro rfl
  rcases h t ht with he | he <;> simp [hs] at he

theorem Unprepared.rollback (h : Unprepared st U) (t : Trans) : Unprepared (rollbackStore st T t) U := by
  by_cases hU : U = T
  · subst hU
    intro t' ht'
    rw [rollbackStore, transOf_insert_self] at ht'
    obtain rfl := Option.some.inj ht'
    exact .inr rfl
  · exact h.of_eq (transOf_rollbackStore_of_ne hU)

theorem CleanEnd.unprepared {idle : Nat} {o : Option TaskState}
    (hc : CleanEnd self l l' idle T st o st') (h : Unprepared st U) : Unprepared st' U := by
  cases hc with
  | nothing => exact h
  | aborts t => exact h.rollback t
  | resumes t task _ _ ht hs hr => exact h.of_eq (hr.others (h.not_prepared ht hs))
  | declines => exact h
  | ends => exact h

theorem UpEnd.unprepared {idle : Nat} {es : List (String × Record)} {ts : List TaskState}
    (hup : UpEnd self l l' idle es st ts st') (h : Unprepared st U) : Unprepared st' U := by
  induction hup with
  | nil => exact h
  | aborts _ _ ih => exact ih (h.rollback _)
  | cleans _ hc _ _ ih => exact ih (hc.unprepared h)
  | resumes _ hc _ _ ih => exact ih (hc.unprepared h)
  | keeps _ _ ih => exact ih h

theorem BeginEnd.unprepared {v : Vars} {req : RpcReq} {seg : Seg} (hb : BeginEnd A v req st seg st')
    (h : Unprepared st U) : Unprepared st' U := by
  cases hb with
  | refused => exact h
  | failed => exact h
  | begun =>
    intro t ht
    rw [transOf_insert_trans] at ht
    split_ifs at ht
    · obtain rfl := Option.some.inj ht
      exact .inl rfl
    · exact h t ht

theorem PrepareEnd.unprepared {B : Prop} {idle : Nat} {v : Vars} {req : RpcReq} {seg : Seg}
    (hp : PrepareEnd B self l l' idle v req st seg st') (h : Unprepared st U)
    (hU : v.beginTs ≠ "" → ¬ (v.beginTs = U ∧ req.beginTs = U)) : Unprepared st' U := by
  cases hp with
  | refused => exact h
  | votes t s o _ hv hreq _ _ _ hc =>
    have hne : U ≠ v.beginTs := fun he => hU hv ⟨he.symm, hreq.symm.trans he.symm⟩
    refine hc.unprepared (h.of_eq ?_)
    rw [votedStore, transOf_insert_trans, if_neg hne]

theorem PrepareLost.unprepared {B : Prop} {v : Vars} {req : RpcReq}
    (hp : PrepareLost B self l l' v req st st') (h : Unprepared st U)
    (hU : v.beginTs ≠ "" → ¬ (v.beginTs = U ∧ req.beginTs = U)) : Unprepared st' U := by
  cases hp with
  | before => exact h
  | between t _ hv hreq =>
    have hne : U ≠ v.beginTs := fun he => hU hv ⟨he.symm, hreq.symm.trans he.symm⟩
    exact h.of_eq (by rw [transOf_insert_trans, if_neg hne])
  | after t s hv hreq =>
    have hne : U ≠ v.beginTs := fun he => hU hv ⟨he.symm, hreq.symm.trans he.symm⟩
    exact h.of_eq (by rw [votedStore, transOf_insert_trans, if_neg hne])

theorem Handled.unprepared {fates : List Fate} {idle fuel : Nat} {v : Vars} {req : RpcReq}
    {w w' : DbWorld} {seg : Seg} (hh : Handled A fates self idle fuel v req w seg w')
    (h : Unprepared w.store U)
    (hU : req.requestType = .prepare → v.beginTs ≠ "" → ¬ (v.beginTs = U ∧ req.beginTs = U)) :
    Unprepared w'.store U := by
  cases hh with
  | begin _ hb => exact hb.unprepared h
  | prepare hreq hp => exact hp.unprepared h (hU hreq)
  | op _ _ _ hr => exact h.of_eq (transOf_of_frame hr.frame not_not_transKey U)

theorem HandlerDies.unprepared {fates : List Fate} {v : Vars} {req : RpcReq} {w w' : DbWorld}
    (hd : HandlerDies fates self v req w w') (h : Unprepared w.store U)
    (hU : req.requestType = .prepare → v.beginTs ≠ "" → ¬ (v.beginTs = U ∧ req.beginTs = U)) :
    Unprepared w'.store U := by
  cases hd with
  | same hw => exact h.of_eq (by rw [hw])
  | prepare hreq hp => exact hp.unprepared h (hU hreq)
  | op _ _ hr => exact h.of_eq (transOf_of_frame hr.frame not_not_transKey U)

end Unprepared

/-- A Prepare request for `T` is on its way to a coroutine of `h` that serves `T`. -/
def Sys.PrepareAhead (s : Sys) (T : String) (h : Host) : Prop :=
  ∃ x σ m, s.sess x = some σ ∧ σ.host = h ∧ σ.live = true ∧ σ.Trace T ∧ m ∈ σ.toServ ∧
    m.requestType = .prepare ∧ m.beginTs = T

theorem Tasks.noTask_of_unprepared {s : Sys} (ht : Tasks s) {T : String} {h : Host}
    (hu : Unprepared (s.node h).store T) : NoTask (s.node h) T := fun i p hp => by
  obtain ⟨t, htr, hs, -⟩ := (ht h).task i p hp
  exact (hu.not_prepared htr hs).symm

section NodeStep

variable {cfg : Config} {A : Hist → Prop} {s s' : Sys} {ℓ : Label} {T : String} {h : Host}

theorem Sys.PrepareAhead.of_head {x : Nat} {σ : Session} {m : RpcReq} {rest : List RpcReq}
    (hσ : s.sess x = some σ) (hlive : σ.live = true) (hm : σ.toServ = m :: rest)
    (hno : T ≠ "" → ¬ s.PrepareAhead T σ.host) (hreq : m.requestType = .prepare)
    (hne : σ.vars.beginTs ≠ "") : ¬ (σ.vars.beginTs = T ∧ m.beginTs = T) :=
  fun ⟨hv, hT⟩ => hno (hv ▸ hne) ⟨x, σ, m, hσ, rfl, hlive, .inl hv, by rw [hm]; exact .head _, hreq, hT⟩

theorem Dies.unprepared {n : Host} {w : DbWorld} (hd : Dies s n w ℓ)
    (hno : T ≠ "" → ¬ s.PrepareAhead T n) (h : Unprepared (s.node n).store T) : Unprepared w.store T := by
  cases hd with
  | same hw => exact h.of_eq (by rw [hw])
  | recv hσ hlive hm hhost hd =>
    subst hhost
    exact hd.unprepared h (Sys.PrepareAhead.of_head hσ hlive hm hno)
  | timeout _ _ _ _ _ hr => exact h.of_eq (transOf_of_frame hr.frame not_not_transKey T)
  | startUp _ hend =>
    obtain ⟨pre, ts, -, hend⟩ := hend
    exact hend.unprepared h

theorem NodeStep.unprepared (ht : NoTask (s.node h) T) (hs : NodeStep A s ℓ s')
    (hno : T ≠ "" → ¬ s.PrepareAhead T h) (hu : Unprepared (s.node h).store T) :
    Unprepared (s'.node h).store T := by
  -- only the store of `n` may change
  have one : ∀ {n : Host} {st : Db.Store},
      (s'.node h).store = (if h = n then st else (s.node h).store) →
      ((T ≠ "" → ¬ s.PrepareAhead T n) → NoTask (s.node n) T → Unprepared (s.node n).store T →
        Unprepared st T) →
      Unprepared (s'.node h).store T := by
    intro n st he hst
    rw [he]
    split_ifs with hn
    · subst hn
      exact hst hno ht hu
    · exact hu
  cases hs with
  | @recv x env σ m rest seg w hσ hlive _ hm _ hh =>
    exact one (served_store s x { σ with toServ := rest } seg w h) fun hno _ hu =>
      hh.unprepared hu (Sys.PrepareAhead.of_head hσ hlive hm hno)
  | @timeout x env σ seg w _ _ _ _ _ hr =>
    exact one (served_store s x σ seg w h) fun _ _ hu =>
      hu.of_eq (transOf_of_frame hr.frame not_not_transKey T)
  | event => exact hu
  | @hangup x env σ o w _ _ _ _ _ hc =>
    refine one (hungUp_store s x σ w h o) fun _ _ hu => ?_
    rcases hc with ⟨-, -, hw⟩ | ⟨-, hc⟩
    · rwa [hw]
    · exact hc.unprepared hu
  | @taskSkip n i env p t w hp _ hend =>
    exact one (tasked_store s w n h i t) fun _ hno hu =>
      hu.of_eq (hend.others (hno i p hp).symm)
  | @taskAsk n peer i env p o w _ _ _ _ hw =>
    rwa [asked_store s w n h peer i _ hw]
  | @taskRecv n i env p res t w hp _ _ hend =>
    exact one (tasked_store s w n h i t) fun _ hno hu =>
      hu.of_eq (hend.others (hno i p hp).symm)
  | @startUp n env ts w _ hend =>
    exact one (started_store s w n h ts) fun _ _ hu => hend.unprepared hu
  | @lost _ n w hd => exact one (lost_store s w n h) fun hno _ hu => hd.unprepared hno hu
  | cut => exact hu

end NodeStep

structure Named (n : Node) : Prop where
  unprepared : Unprepared n.store ""
  noTask : NoTask n ""

section Named

variable {self : Host} {l l' : Hist} {T : String} {st st' : Db.Store} {n : Node} {t : TaskState}

theorem NoTask.resume (h : NoTask n T) (ht : ∀ p, t = .polling p → p.beginTs ≠ T) :
    NoTask (n.resume t) T := fun _ p hp =>
  (resume_polling hp).elim (h _ p) fun he => ht p he

theorem NoTask.setTask (h : NoTask n T) {i : Nat} (ht : ∀ p, t = .polling p → p.beginTs ≠ T) :
    NoTask (n.setTask i t) T := by
  intro j p hp
  have htask : (n.setTask i t).task j = if j = i then t else n.task j := by
    cases t <;> exact Function.update_apply ..
  rw [htask] at hp
  split_ifs at hp
  · exact ht p hp
  · exact h j p hp

theorem CleanEnd.named {idle : Nat} {o : Option TaskState} (hc : CleanEnd self l l' idle T st o st')
    (hu : Unprepared st "") {p : Polling} (hp : o.getD .idle = .polling p) : p.beginTs ≠ "" := by
  rw [hc.polling hp]
  cases hc with
  | nothing => cases hp
  | aborts => cases hp
  | resumes t _ _ _ ht hs => exact (hu.not_prepared ht hs).symm
  | declines => cases hp
  | ends => cases hp

theorem UpEnd.named {idle : Nat} {es : List (String × Record)} {ts : List TaskState}
    (hup : UpEnd self l l' idle es st ts st') (hu : Unprepared st "") {p : Polling}
    (hp : .polling p ∈ ts) : p.beginTs ≠ "" := by
  induction hup with
  | nil => cases hp
  | aborts _ _ ih => exact ih (hu.rollback _) hp
  | cleans _ hc _ _ ih => exact ih (hc.unprepared hu) hp
  | resumes _ hc _ _ ih =>
    rcases List.mem_cons.mp hp with he | hp
    · exact hc.named hu (by rw [Option.getD_some, he])
    · exact ih (hc.unprepared hu) hp
  | keeps _ _ ih => exact ih hu hp

theorem NoTask.foldl_resume {ts : List TaskState} (h : NoTask n T)
    (ht : ∀ p, .polling p ∈ ts → p.beginTs ≠ T) : NoTask (ts.foldl Node.resume n) T := by
  induction ts generalizing n with
  | nil => exact h
  | cons t ts ih =>
    exact ih (h.resume fun p he => ht p (he ▸ .head _)) fun p hp => ht p (.tail _ hp)

theorem NextEnd.polling {p q : Polling} (h : NextEnd self l l' p st t st') (hq : t = .polling q) :
    q.beginTs = p.beginTs := by
  cases h with
  | asks =>
    obtain rfl := TaskState.polling.inj hq
    rfl
  | decides => cases hq
  | again _ _ _ hr => exact hr.polling hq

theorem ResEnd.polling {p q : Polling} {res : TransStateRes} (h : ResEnd self l l' p res st t st')
    (hq : t = .polling q) : q.beginTs = p.beginTs := by
  cases h with
  | skips _ _ _ hn => exact hn.polling hq
  | counts _ _ _ hn => exact hn.polling hq
  | commits => cases hq
  | rollsBack => cases hq

theorem Handled.named {A : Hist → Prop} {fates : List Fate} {idle fuel : Nat} {v : Vars} {req : RpcReq}
    {w w' : DbWorld} {seg : Seg} (hh : Handled A fates self idle fuel v req w seg w') {p : Polling}
    (hp : seg.task.getD .idle = .polling p) : p.beginTs ≠ "" := by
  cases hh with
  | begin _ hb =>
    generalize w'.store = st' at hb
    cases hb <;> cases hp
  | prepare _ hend =>
    generalize w'.store = st' at hend
    cases hend with
    | refused => cases hp
    | votes _ _ _ _ hv _ _ _ _ hc =>
      rw [hc.polling hp]
      exact hv
  | op _ _ hk =>
    rw [hk.2] at hp
    cases hp

end Named

section NamedStep

variable {cfg : Config} {A : Hist → Prop} {s s' : Sys} {ℓ : Label}

theorem noTask_of_node {T : String} {h : Host} {n' : Node} (hn : ∀ h, NoTask (s.node h) T)
    (hnode : s'.node = Function.update s.node h n') (ht : NoTask n' T) (g : Host) :
    NoTask (s'.node g) T := by
  rcases eq_or_ne g h with rfl | hg
  · rwa [hnode, Function.update_self]
  · rw [hnode, Function.update_of_ne hg]
    exact hn g

theorem NodeStep.noTask (hn : ∀ h, Named (s.node h)) (hs : NodeStep A s ℓ s') (g : Host) :
    NoTask (s'.node g) "" := by
  have hno : ∀ h, NoTask (s.node h) "" := fun h => (hn h).noTask
  have write : ∀ {h : Host} {st : Db.Store}, NoTask { s.node h with store := st } "" :=
    fun {h _} => hno h
  cases hs with
  | @recv x env σ m rest seg w _ _ _ _ _ hh =>
    exact noTask_of_node hno (served_node x { σ with toServ := rest } seg w)
      (write.resume fun p hp => hh.named hp) g
  | @timeout x env σ seg w _ _ _ _ hk =>
    refine noTask_of_node hno (served_node x σ seg w) (write.resume fun p hp => ?_) g
    rw [hk.2] at hp
    cases hp
  | event => exact hno g
  | @hangup x env σ o w _ _ _ _ _ hc =>
    refine noTask_of_node hno (hungUp_node x σ o w) (write.resume fun p hp => ?_) g
    rcases hc with ⟨-, rfl, -⟩ | ⟨-, hc⟩
    · cases hp
    · exact hc.named (hn σ.host).unprepared hp
  | @taskSkip h i env p t w hi _ hend =>
    refine noTask_of_node hno (tasked_node h i t w) (write.setTask fun q hq => ?_) g
    rw [hend.polling hq]
    exact hno h i p hi
  | @taskAsk h peer i env p o w hi _ _ _ hw =>
    have hnode : (s.setWorld peer w).node = s.node := by
      simp [Sys.setWorld, Sys.setNode, hw]
    rw [Sys.setNode, hnode]
    refine noTask_of_node hno rfl ((hno h).setTask fun q hq => ?_) g
    obtain rfl := TaskState.polling.inj hq
    exact hno h i p hi
  | @taskRecv h i env p res t w hi _ _ hend =>
    refine noTask_of_node hno (tasked_node h i t w) (write.setTask fun q hq => ?_) g
    rw [hend.polling hq]
    exact hno h i p hi
  | @startUp h env ts w _ hend =>
    refine noTask_of_node hno (started_node h ts w) (NoTask.foldl_resume ?_ fun p hp => ?_) g
    · intro i p hp
      cases hp
    · exact hend.named (hn h).unprepared hp
  | @lost ℓ h w _ =>
    refine noTask_of_node hno (lost_node h w) (fun i p hp => ?_) g
    cases hp
  | cut => exact hno g

theorem Reach.named {C : Sys → Label → Prop} (hr : Reach cfg C s) (h : Host) : Named (s.node h) := by
  induction hr generalizing h with
  | init =>
    refine ⟨fun t ht => ?_, fun i p hp => ?_⟩
    · simp [transOf] at ht
    · cases hp
  | @step s s' ℓ _ _ hs ih =>
    rcases step_cases closed_true hs trivial with hn | ⟨c, hc⟩
    · exact ⟨hn.unprepared (ih h).noTask (fun hT => absurd rfl hT) (ih h).unprepared, hn.noTask ih h⟩
    · rw [hc.node_eq]
      exact ih h

end NamedStep

end Tpc
