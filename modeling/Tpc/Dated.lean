import Tpc.Chains
import Tpc.Locking
import Tpc.Slots

/-! What names the transactions of a run: every one goes by a timestamp, and none returns to the state
Begin. Nothing is assumed of clients, clocks or failures. -/

namespace Tpc
open Durable

section Begins

variable {cfg : Config} {s s' : Sys} {c d : CoordId} {ℓ : Label} {x : Nat} {σ' : Session} {m : RpcReq}

theorem CoordStep.begin_of_mem (ht : Table cfg (s.coord c)) (hs : CoordStep cfg s c ℓ s')
    (hσ' : s'.sess x = some σ') (hm : m ∈ σ'.toServ) (hb : m.requestType = .begin) :
    (∃ σ, s.sess x = some σ ∧ m ∈ σ.toServ) ∨
      (s.coord c).beginTs ≠ "" ∧ m = beginReq (s.coord c).beginTs := by
  refine (hs.requests ht hσ' hm).imp_right fun h => ?_
  cases h with
  | begin _ _ hT => exact ⟨hT, rfl⟩
  | op _ _ _ _ _ _ hop => exact absurd hb hop.1
  | first _ _ _ _ _ _ _ hop => exact absurd hb hop.1
  | prepare => simp [prepareReq] at hb

theorem CoordStep.beginTs (ho : s.Owns c) (hs : CoordStep cfg s c ℓ s') (d : CoordId) :
    (s'.coord d).beginTs = (s.coord d).beginTs ∨ (s'.coord d).beginTs = "" ∨
      IsTS (s'.coord d).beginTs := by
  by_cases hd : d = c
  · subst hd
    cases hs with
    | begins tv => exact .inr (.inr ⟨tv, by simp⟩)
    | rollsBack | completes => exact .inr (.inl (by simp))
    | collects h msg x σ rest m => cases m <;> exact .inl (by simp)
    | leavesOp => exact .inl (by simp)
    | _ => exact .inl (by simp [Sys.sendBegin, Sys.sendOp, Sys.connect, Sys.drop])
  · exact .inl (by rw [(hs.apart ho hd).coord])

theorem Touches.vars {σ : Session} (h : Touches s c σ σ') : σ'.vars = σ.vars ∧ σ'.wait = σ.wait := by
  induction h with
  | same | reads => exact ⟨rfl, rfl⟩
  | sends | answers => exact ⟨by simp, by simp⟩
  | closes _ ih => exact ih

end Begins

structure Dated (s : Sys) : Prop where
  coord : ∀ c, (s.coord c).beginTs ≠ "" → IsTS (s.coord c).beginTs
  begins : ∀ x σ m, s.sess x = some σ → m ∈ σ.toServ → m.requestType = .begin → IsTS m.beginTs
  vars : ∀ x σ, s.sess x = some σ → σ.vars.beginTs ≠ "" → IsTS σ.vars.beginTs
  waits : ∀ x σ req, s.sess x = some σ → σ.wait.req? = some req → σ.vars.beginTs ≠ ""
  entry : ∀ n key d, entryOf (s.node n).store key = some d → IsTS d.curVersion

section Dated

variable {cfg : Config} {A : Hist → Prop} {s s' : Sys} {n : Host} {ℓ : Label} {x : Nat} {σ σ' : Session}

theorem SessStep.waits (h : SessStep A s x σ ℓ σ')
    (hw : ∀ req, σ.wait.req? = some req → σ.vars.beginTs ≠ "") {req : RpcReq}
    (hreq : σ'.wait.req? = some req) : σ'.vars.beginTs ≠ "" := by
  have after : ∀ {τ : Session} {seg : Seg}, (∀ wt, seg.next = .wait wt → wt.req? = some req →
      seg.vars.beginTs ≠ "") → (τ.after seg).wait.req? = some req → (τ.after seg).vars.beginTs ≠ "" := by
    intro τ seg hn hr
    rw [after_vars]
    rcases after_wait τ seg rfl with hidle | hwt
    · rw [hidle] at hr
      cases hr
    · exact hn _ hwt hr
  cases h with
  | same => exact hw req hreq
  | @serves env m rest seg w _ _ _ hh =>
    refine after (fun wt hn hwt => ?_) hreq
    cases hh with
    | begin _ hb =>
      generalize w.store = st at hb
      cases hb <;> cases hn
    | prepare _ hp =>
      generalize w.store = st at hp
      cases hp <;> cases hn
    | op _ ho hk =>
      cases ho with
      | answers => cases hn
      | accesses _ hv _ _ => rwa [hk.1]
  | @resumes _ m seg hm hv _ =>
    refine after (fun _ _ _ => ?_) hreq
    rw [hv]
    exact hw m hm
  | stops => cases hreq
  | closes => exact hw req hreq
  | cuts => exact hw req hreq

theorem SessStep.vars (h : SessStep A s x σ ℓ σ') :
    σ'.vars.beginTs = σ.vars.beginTs ∨ σ'.vars.beginTs = "" ∨
      ∃ m ∈ σ.toServ, m.requestType = .begin ∧ σ'.vars.beginTs = m.beginTs := by
  cases h with
  | serves _ _ hm hh =>
    rw [after_vars]
    exact hh.beginTs.imp id (.imp id fun h => ⟨_, by simp [hm], h.1, h.2⟩)
  | resumes _ hv => exact .inl (by rw [after_vars, hv])
  | _ => exact .inl rfl

theorem StoreMove.entry (hd : Dated s) (hm : StoreMove A s n ℓ s') {key : String} {d : Data}
    (h : entryOf (s'.node n).store key = some d) : IsTS d.curVersion := by
  have isTS : ∀ {σ req fates}, Locks s σ req fates ℓ → IsTS σ.vars.beginTs := by
    rintro σ req fates (⟨hσ, -, -, hv, -⟩ | ⟨hσ, -, hw, -⟩)
    · exact hd.vars _ σ hσ hv
    · exact hd.vars _ σ hσ (hd.waits _ σ req hσ (by rw [hw]; rfl))
  cases hm with
  | frame hf =>
    have he : entryOf (s'.node n).store key = entryOf (s.node n).store key := by
      rw [entryOf, dataAt, hf _ (by rintro ⟨T, hT⟩; simp at hT)]
      rfl
    exact hd.entry n key d (he ▸ h)
  | locks σ req fates _ _ hl => exact hd.entry n key d (hl.entryOf_eq key ▸ h)
  | breaks σ req fates st _ _ hl hh =>
    generalize (s'.node n).store = st' at hh h
    cases hh with
    | nothing => exact hd.entry n key d (hl.entryOf_eq key ▸ h)
    | kept e he =>
      rw [hl.entryOf_eq] at he
      rw [entryOf_insert_version (hd.entry n _ e he), hl.entryOf_eq] at h
      exact hd.entry n key d h
  | writes σ req fates st hlocks _ hl hw =>
    have hT := isTS hlocks
    have old : ∀ {k d}, entryOf st k = some d → IsTS d.curVersion := fun h =>
      hd.entry n _ _ (hl.entryOf_eq _ ▸ h)
    generalize hst : (s'.node n).store = st' at hw h
    cases hw with
    | again e he heT =>
      rw [entryOf_insert_entry] at h
      split_ifs at h
      · obtain rfl := Option.some.inj h
        show IsTS e.curVersion
        exact old he
      · exact old h
    | pushed e he heT =>
      rw [entryOf_insert_entry, entryOf_insert_version (old he)] at h
      split_ifs at h
      · obtain rfl := Option.some.inj h
        exact hT
      · exact old h
    | first =>
      rw [entryOf_insert_entry] at h
      split_ifs at h
      · obtain rfl := Option.some.inj h
        exact hT
      · exact old h

theorem Dated.step (hd : Dated s) (hsl : ∀ c, Slotted cfg s c) (hs : Tpc.step cfg s ℓ = some s') :
    Dated s' := by
  have entry : ∀ n key d, entryOf (s'.node n).store key = some d → IsTS d.curVersion :=
    fun n key d => (store_move closed_true hs trivial n).entry hd
  rcases step_cases closed_true hs trivial with hn | ⟨c, hc⟩
  · have inv : ∀ {x σ'}, s'.sess x = some σ' → ∃ σ, s.sess x = some σ ∧ SessStep _ s x σ ℓ σ' :=
      fun hσ' => hn.sess_inv hσ'
    refine ⟨by rw [hn.coord_eq]; exact hd.coord, ?_, ?_, ?_, entry⟩
    · intro x σ' m hσ' hm
      obtain ⟨σ, hσ, h⟩ := inv hσ'
      exact hd.begins x σ m hσ (h.mem hm)
    · intro x σ' hσ' hv
      obtain ⟨σ, hσ, h⟩ := inv hσ'
      rcases h.vars with he | he | ⟨m, hm, hreq, he⟩
      · rw [he] at hv ⊢
        exact hd.vars x σ hσ hv
      · exact absurd he hv
      · rw [he]
        exact hd.begins x σ m hσ hm hreq
    · intro x σ' req hσ' hreq
      obtain ⟨σ, hσ, h⟩ := inv hσ'
      exact h.waits (fun req => hd.waits x σ req hσ) hreq
  · have old : ∀ {x σ'}, s'.sess x = some σ' → (∃ σ, s.sess x = some σ ∧ σ'.vars = σ.vars ∧
        σ'.wait = σ.wait) ∨ σ'.vars = {} ∧ σ'.wait = .idle := by
      intro x σ' hσ'
      cases hσ : s.sess x with
      | none =>
        obtain ⟨h, T, rfl⟩ := hc.opens (hsl c).table hσ hσ'
        exact .inr ⟨by simp, by simp⟩
      | some σ =>
        obtain ⟨τ, hτ, ht⟩ := hc.touches hσ
        obtain rfl := Option.some.inj (hτ.symm.trans hσ')
        exact .inl ⟨σ, rfl, ht.vars⟩
    refine ⟨fun d hT => ?_, ?_, ?_, ?_, entry⟩
    · rcases hc.beginTs (hsl c).owns d with he | he | he
      · rw [he] at hT ⊢
        exact hd.coord d hT
      · exact absurd he hT
      · exact he
    · intro x σ' m hσ' hm hreq
      rcases hc.begin_of_mem (hsl c).table hσ' hm hreq with ⟨σ, hσ, hm⟩ | ⟨hT, rfl⟩
      · exact hd.begins x σ m hσ hm hreq
      · exact hd.coord c hT
    · intro x σ' hσ' hv
      rcases old hσ' with ⟨σ, hσ, he, -⟩ | ⟨he, -⟩
      · rw [he] at hv ⊢
        exact hd.vars x σ hσ hv
      · exact absurd (congrArg Vars.beginTs he) hv
    · intro x σ' req hσ' hreq
      rcases old hσ' with ⟨σ, hσ, he, hw⟩ | ⟨-, hw⟩
      · rw [hw] at hreq
        rw [he]
        exact hd.waits x σ req hσ hreq
      · rw [hw] at hreq
        cases hreq

theorem Reach.dated {C : Sys → Label → Prop} (hs : Reach cfg C s) : Dated s := by
  induction hs with
  | init => exact ⟨by simp, by simp, by simp, by simp, by simp [entryOf, dataAt]⟩
  | step hr _ hstep ih => exact ih.step hr.slotted hstep

end Dated

def PastBegin (st : Db.Store) (T : String) : Prop := ∃ t, transOf st T = some t ∧ t.state ≠ .begin

section PastBegin

variable {A : Hist → Prop} {self : Host} {l l' : Hist} {T U : String} {st st' : Db.Store}

theorem PastBegin.of_eq (h : PastBegin st T) (he : transOf st' T = transOf st T) : PastBegin st' T := by
  rwa [PastBegin, he]

theorem PastBegin.insert (h : PastBegin st T) {t : Trans} (ht : t.state ≠ .begin) :
    PastBegin (st.insert (makeTrans U) (.trans t)) T := by
  by_cases hU : T = U
  · subst hU
    exact ⟨t, transOf_insert_self _ _ _, ht⟩
  · exact h.of_eq (by rw [transOf_insert_trans, if_neg hU])

theorem RoundEnd.past {t : Trans} {task : TaskState} (hr : RoundEnd self l l' U t st task st')
    (h : PastBegin st T) : PastBegin st' T := by
  cases hr with
  | asks => exact h
  | decides => exact h.insert (by simp)

theorem NextEnd.past {p : Polling} {task : TaskState} (hn : NextEnd self l l' p st task st')
    (h : PastBegin st T) : PastBegin st' T := by
  cases hn with
  | asks => exact h
  | decides => exact h.insert (by simp)
  | again _ _ _ hr => exact hr.past h

theorem ResEnd.past {p : Polling} {res : TransStateRes} {task : TaskState}
    (hr : ResEnd self l l' p res st task st') (h : PastBegin st T) : PastBegin st' T := by
  cases hr with
  | skips _ _ _ hn => exact hn.past h
  | counts _ _ _ hn => exact hn.past h
  | commits => exact h.insert (by simp)
  | rollsBack => exact h.insert (by simp)

theorem CleanEnd.past {idle : Nat} {o : Option TaskState} (hc : CleanEnd self l l' idle U st o st')
    (h : PastBegin st T) : PastBegin st' T := by
  cases hc with
  | nothing | declines | ends => exact h
  | aborts => exact h.insert (by simp)
  | resumes _ _ _ _ _ _ hr => exact hr.past h

theorem UpEnd.past {idle : Nat} {es : List (String × Record)} {ts : List TaskState}
    (hup : UpEnd self l l' idle es st ts st') (h : PastBegin st T) : PastBegin st' T := by
  induction hup with
  | nil => exact h
  | aborts _ _ ih => exact ih (h.insert (by simp))
  | cleans _ hc _ _ ih => exact ih (hc.past h)
  | resumes _ hc _ _ ih => exact ih (hc.past h)
  | keeps _ _ ih => exact ih h

theorem BeginEnd.past {v : Vars} {req : RpcReq} {seg : Seg} (hb : BeginEnd A v req st seg st')
    (h : PastBegin st T) : PastBegin st' T := by
  cases hb with
  | refused | failed => exact h
  | begun _ hnone =>
    obtain ⟨t, ht, -⟩ := id h
    have hne : T ≠ req.beginTs := by
      rintro rfl
      simp [ht] at hnone
    exact h.of_eq (by rw [transOf_insert_trans, if_neg hne])

theorem PrepareEnd.past {B : Prop} {idle : Nat} {v : Vars} {req : RpcReq} {seg : Seg}
    (hp : PrepareEnd B self l l' idle v req st seg st') (h : PastBegin st T) : PastBegin st' T := by
  cases hp with
  | refused => exact h
  | votes t s o _ _ _ _ _ _ hc => exact hc.past (h.insert (by simp [preparedTrans]))

theorem PrepareLost.past {B : Prop} {v : Vars} {req : RpcReq}
    (hp : PrepareLost B self l l' v req st st') (h : PastBegin st T) : PastBegin st' T := by
  cases hp with
  | before => exact h
  | between => exact h.insert (by simp [preparedTrans])
  | after => exact h.insert (by simp [preparedTrans])

theorem Handled.past {fates : List Fate} {idle fuel : Nat} {v : Vars} {req : RpcReq}
    {w w' : DbWorld} {seg : Seg} (hh : Handled A fates self idle fuel v req w seg w')
    (h : PastBegin w.store T) : PastBegin w'.store T := by
  cases hh with
  | begin _ hb => exact hb.past h
  | prepare _ hp => exact hp.past h
  | op _ _ _ hr => exact h.of_eq (transOf_of_frame hr.frame not_not_transKey T)

theorem Dies.past {s : Sys} {n : Host} {w : DbWorld} {ℓ : Label} (hd : Dies s n w ℓ)
    (h : PastBegin (s.node n).store T) : PastBegin w.store T := by
  cases hd with
  | same he => rwa [he]
  | recv _ _ _ _ hd =>
    cases hd with
    | same he => rwa [he]
    | prepare _ hp => exact hp.past h
    | op _ _ hr => exact h.of_eq (transOf_of_frame hr.frame not_not_transKey T)
  | timeout _ _ _ _ _ hr => exact h.of_eq (transOf_of_frame hr.frame not_not_transKey T)
  | startUp _ hup =>
    obtain ⟨pre, ts, -, hup⟩ := hup
    exact hup.past h

theorem NodeStep.past {s s' : Sys} {n : Host} {ℓ : Label} (hs : NodeStep A s ℓ s')
    (h : PastBegin (s.node n).store T) : PastBegin (s'.node n).store T := by
  have one : ∀ {k : Host} {st : Db.Store},
      (s'.node n).store = (if n = k then st else (s.node n).store) →
      (PastBegin (s.node k).store T → PastBegin st T) → PastBegin (s'.node n).store T := by
    intro k st he hst
    rw [he]
    split_ifs with hn
    · subst hn
      exact hst h
    · exact h
  cases hs with
  | @recv x env σ m rest seg w _ _ _ _ _ hh =>
    exact one (served_store s x { σ with toServ := rest } seg w n) fun h => hh.past h
  | @timeout x env σ seg w _ _ _ _ _ hr =>
    exact one (served_store s x σ seg w n) fun h =>
      h.of_eq (transOf_of_frame hr.frame not_not_transKey T)
  | event | cut => exact h
  | @hangup x env σ o w _ _ _ _ _ hc =>
    refine one (hungUp_store s x σ w n o) fun h => ?_
    rcases hc with ⟨-, -, hw⟩ | ⟨-, hc⟩
    · rwa [hw]
    · exact hc.past h
  | @taskSkip k i env p t w _ _ hend => exact one (tasked_store s w k n i t) fun h => hend.past h
  | @taskAsk k peer i env p o w _ _ _ _ hw => rwa [asked_store s w k n peer i _ hw]
  | @taskRecv k i env p res t w _ _ _ hend => exact one (tasked_store s w k n i t) fun h => hend.past h
  | @startUp k env ts w _ hend => exact one (started_store s w k n ts) fun h => hend.past h
  | @lost _ k w hd => exact one (lost_store s w k n) fun h => hd.past h

theorem past_step {cfg : Config} {s s' : Sys} {n : Host} {ℓ : Label}
    (hs : step cfg s ℓ = some s') (h : PastBegin (s.node n).store T) : PastBegin (s'.node n).store T := by
  rcases step_cases closed_true hs trivial with hn | ⟨c, hc⟩
  · exact hn.past h
  · rwa [hc.node_eq]

end PastBegin

end Tpc
