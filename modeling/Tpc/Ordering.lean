import Tpc.Locking
import Tpc.Unplanned

/-! The version chains of a run without failing database calls whose clocks do not go back: every
transaction commits at a timestamp that was drawn after its end was planned, and it writes before. -/

namespace Tpc
open Durable PollCommit Versions

def HasPlan (l : Hist) (T : String) : Prop := ∃ c st L, Planned l c T st L

def AfterPlan (l : Hist) (T x : String) : Prop := ∃ m, m <:+ l ∧ HasPlan m T ∧ Fresh m l x

def BeforePlan (l : Hist) (T x : String) : Prop := ∃ m, m <:+ l ∧ ¬ HasPlan m T ∧ x ∈ clockTs m

section Readings

variable {l l' m : Hist} {T x y : String}

theorem HasPlan.mono (hl : l ⊆ l') (h : HasPlan l T) : HasPlan l' T := by
  obtain ⟨c, st, L, h⟩ := h
  exact ⟨c, st, L, hl h⟩

theorem AfterPlan.mono (hl : l <:+ l') (h : AfterPlan l T x) : AfterPlan l' T x := by
  obtain ⟨m, hm, hp, hf⟩ := h
  exact ⟨m, hm.trans hl, hp, hf.mono (List.suffix_refl m) hl⟩

theorem BeforePlan.mono (hl : l <:+ l') (h : BeforePlan l T x) : BeforePlan l' T x := by
  obtain ⟨m, hm, hp, hx⟩ := h
  exact ⟨m, hm.trans hl, hp, hx⟩

theorem mem_clockTs_mono (hl : l <:+ l') (h : x ∈ clockTs l) : x ∈ clockTs l' :=
  (hl.sublist.filterMap _).subset h

theorem Fresh.mem (h : Fresh m l x) : x ∈ clockTs l := by
  obtain ⟨p, tv, n, -, hn, rfl⟩ := h
  exact mem_clockTs_mono hn (List.mem_filterMap.mpr ⟨_, .head _, rfl⟩)

theorem AfterPlan.mem (h : AfterPlan l T x) : x ∈ clockTs l := by
  obtain ⟨m, -, -, hf⟩ := h
  exact hf.mem

theorem suffix_of_plan (hm : m <:+ l) (hl' : l' <:+ l) (hp : ¬ HasPlan m T) (hp' : HasPlan l' T) :
    m <:+ l' := by
  rcases List.suffix_or_suffix_of_suffix hm hl' with h | h
  · exact h
  · exact absurd (hp'.mono h.subset) hp

theorem Fresh.le (hc : ClockMono l) (h : Fresh m l y) (hx : x ∈ clockTs m) : x ≤ y := by
  obtain ⟨p, tv, n, hmn, hn, rfl⟩ := h
  have hc := closed_clockMono _ _ hn hc
  exact (List.pairwise_cons.mp hc).1 x (mem_clockTs_mono hmn hx)

theorem BeforePlan.le (hc : ClockMono l) (h : BeforePlan l T x) (h' : AfterPlan l T y) : x ≤ y := by
  obtain ⟨m, hm, hp, hx⟩ := h
  obtain ⟨n, hn, hp', hf⟩ := h'
  exact hf.le hc (mem_clockTs_mono (suffix_of_plan hm hn hp hp') hx)

end Readings

/-- Every timestamp in use for the commitment of a transaction was drawn after its end was
planned. -/
def Timed (s : Sys) : Prop := ∀ T, Bounded (AfterPlan s.hist T) (s.view T)

section Timed

variable {cfg : Config} {C : Sys → Label → Prop} {s s' : Sys} {n : Host} {ℓ : Label} {T : String}
  {t : Trans}

theorem Timed.step (h : Timed s) (hsafe : Safe cfg s) (hs : step cfg s ℓ = some s')
    (hu : DistinctBegin s'.hist) : Timed s' := by
  intro T
  have hl := step_hist hs
  have hsafe' := hsafe.step hs hu
  by_cases hp : HasPlan s.hist T
  · obtain ⟨L, hL⟩ := hsafe'.disc.exists_onlyPlan hu T
    have hsteps := (refines_step closed_true hsafe.disc hsafe.tasks hs trivial).steps T L hL
    exact ((h T).mono fun x hx => hx.mono hl).steps (fun x hx => ⟨s.hist, hl, hp, hx⟩) hsteps
      (hsafe.inv T L (hL.mono hl.subset))
  · rcases step_cases closed_true hs trivial with hn | ⟨c, hc⟩
    · obtain ⟨k, hg⟩ := hn.grown
      refine .of_nil (hsafe'.inv T [] fun c st L h => ?_)
      exact absurd ⟨c, st, L, hg.old_note (fun hn => hn) h⟩ hp
    · have hv : s'.view T = s.view T := by simp only [Sys.view, hc.node_eq]
      rw [hv]
      exact .of_nil (hsafe.inv T [] fun c st L h => absurd ⟨c, st, L, h⟩ hp)

theorem Reach.timed (hs : Reach cfg C s) (hu : DistinctBegin s.hist) : Timed s := by
  induction hs with
  | init => exact fun T => .of_nil ((safe_init cfg).inv T [] fun c st L h => by simp [Planned] at h)
  | step hr _ hstep ih =>
    have hu₀ := closed_distinctBegin _ _ (step_hist hstep) hu
    exact (ih hu₀).step (hr.safe hu₀) hstep hu

theorem Timed.commitTrans (h : Timed s) (ht : transOf (s.node n).store T = some t)
    (hc : t.state = .commited) : AfterPlan s.hist T t.commitTrans := by
  refine (h T).commited n t.selfCommitTs t.commitTrans ?_
  change voteOf (transOf (s.node n).store T) = _
  rw [ht]
  exact voteOf_commited hc

end Timed

section Lock

variable {cfg : Config} {s s' : Sys} {ℓ : Label} {σ : Session} {req : RpcReq} {fates : List Fate}
  {st : Db.Store}

theorem not_noDbError {env : Env} {x : Nat} {τ : Session} {key T : String}
    {f : Int → Db Seg} {p : Db Seg} (hp : p = (addLock key T).bind f)
    (hfail : env.fates.head? = some .fail) (hs : s.serve x τ env p = some s') :
    ¬ NoDbError s'.hist := by
  intro ha
  have sat : ∀ o, p.run (.storage τ.host) env.fates env.clocks (s.world τ.host) = o →
      NoDbError o.2.hist → Outcome.Sat (fun _ _ => False) (fun _ => False) o := by
    rintro o rfl ha
    refine absurd (ha (.dbError (.storage τ.host)) ?_) id
    obtain ⟨fs, hfs⟩ := List.head?_eq_some_iff.mp hfail
    rw [hp, addLock_eq, hfs]
    exact (Prog.hist_suffix ((lockNext key T .error).bind f) fs env.clocks
      ((s.world τ.host).log (.dbError (.storage τ.host)))).subset (.head _)
  obtain ⟨-, ⟨_, _, h, -⟩ | ⟨_, h, -⟩⟩ := serve_inv sat hs ha
  · exact h
  · exact h

theorem onMessage_locks (self : Host) (idle fuel : Nat) {v : Vars} (hv : v.beginTs ≠ "")
    (hacc : req.Accesses) (hget : req.requestType = .get → req.getForUpdate ≠ 0) :
    ∃ f, onMessage self idle fuel v (.rpcRequest req) = (addLock req.key v.beginTs).bind f := by
  simp only [onMessage]
  simp only [RpcReq.Accesses, List.mem_cons, List.not_mem_nil, or_false] at hacc
  rcases hacc with hr | hr | hr | hr
  · simp only [hr, if_neg hv]
    exact ⟨_, serveGet_eq (hget hr)⟩
  all_goals
    simp only [hr, if_neg hv]
    exact ⟨_, serveWrite_eq⟩

theorem onTimeout_locks (self : Host) (fuel : Nat) (v : Vars) (res : RpcRes)
    (hget : req.requestType = .get → req.getForUpdate ≠ 0) :
    ∃ f, onTimeout self fuel v (.lock req res) = (addLock req.key v.beginTs).bind f := by
  rw [onTimeout]
  split_ifs with hr
  · exact ⟨_, serveGet_eq (hget hr)⟩
  · exact ⟨_, serveWrite_eq⟩

theorem Locks.granted (hl : Locks s σ req fates ℓ) (hs : step cfg s ℓ = some s')
    (ha : NoDbError s'.hist) (hg : LockBy fates req.key σ.vars.beginTs (s.node σ.host).store st) :
    Granted False req.key σ.vars.beginTs (s.node σ.host).store st := by
  have hfail : fates.head? ≠ some .fail := by
    intro hfail
    cases hl with
    | @recv x fuel clocks rest hσ hlive hm hv hacc hget =>
      cases hw : σ.wait with
      | idle =>
        simp only [step, hσ, hlive, hw, hm] at hs
        obtain ⟨f, hf⟩ := onMessage_locks σ.host (s.idle σ.host) fuel hv hacc hget
        exact not_noDbError hf hfail hs ha
      | lock | read => simp [step, hσ, hlive, hw] at hs
    | @timeout x fuel clocks res hσ hlive hw hget =>
      rw [step] at hs
      simp only [hσ, hlive, hw, ne_eq, reduceCtorEq, not_false_eq_true, and_self, if_true] at hs
      obtain ⟨f, hf⟩ := onTimeout_locks σ.host fuel σ.vars res hget
      exact not_noDbError hf hfail hs ha
  rwa [LockBy, if_neg hfail] at hg

end Lock

def FinishedOn (st : Db.Store) (T : String) : Prop := ∃ t, transOf st T = some t ∧ t.Finished

structure RecordsLater (st st' : Db.Store) : Prop where
  known : ∀ T, transOf st T ≠ none → transOf st' T ≠ none
  finished : ∀ T t, transOf st T = some t → t.Finished → ∃ t', transOf st' T = some t' ∧
    t'.state = t.state ∧ (t.state = .commited → t'.commitTrans = t.commitTrans)

/-- Above a committed version stand versions of transactions whose end was planned later, and below
the newest version everybody has finished; the writer of the newest one has finished or holds the
lock. -/
structure Sorted (l : Hist) (st : Db.Store) (key : String) (vs : List Data) : Prop where
  proper : ProperChain st key vs
  record : ∀ d ∈ vs, transOf st d.curVersion ≠ none
  older : ∀ d ∈ vs.tail, FinishedOn st d.curVersion
  lock : ∀ d, vs.head? = some d → FinishedOn st d.curVersion ∨ lockOf st key = some d.curVersion
  commits : vs.Pairwise fun v w => ∀ t, transOf st w.curVersion = some t → t.state = .commited →
    BeforePlan l v.curVersion t.commitTrans

section Sorted

variable {l l' : Hist} {st st' : Db.Store} {key value T : String} {type : RequestType}
  {vs vs' : List Data}

theorem RecordsLater.of_eq (h : ∀ T, transOf st' T = transOf st T) : RecordsLater st st' :=
  ⟨fun T hT => by rwa [h], fun T t ht _ => ⟨t, by rw [h, ht], rfl, fun _ => rfl⟩⟩

theorem FinishedOn.later (hr : RecordsLater st st') (h : FinishedOn st T) : FinishedOn st' T := by
  obtain ⟨t, ht, hf⟩ := h
  obtain ⟨t', ht', hs, -⟩ := hr.finished T t ht hf
  exact ⟨t', ht', by rwa [Trans.Finished, hs]⟩

theorem Sorted.empty (hn : entryOf st key = none) : Sorted l st key [] :=
  ⟨⟨.empty hn, by simp, by simp⟩, by simp, by simp, by simp, .nil⟩

theorem Sorted.later (h : Sorted l st key vs) (hl : l <:+ l') (hr : RecordsLater st st')
    (hp : ProperChain st' key vs)
    (hlock : ∀ T, lockOf st key = some T → ¬ FinishedOn st T → lockOf st' key = some T) :
    Sorted l' st' key vs := by
  refine ⟨hp, fun d hd => hr.known _ (h.record d hd), fun d hd => (h.older d hd).later hr,
    fun d hd => ?_, ?_⟩
  · by_cases hf : FinishedOn st d.curVersion
    · exact .inl (hf.later hr)
    · exact .inr (hlock _ ((h.lock d hd).resolve_left hf) hf)
  · -- the writer of the lower version has finished, so that its record stays
    have step : ∀ v w : Data, FinishedOn st w.curVersion →
        (∀ t, transOf st w.curVersion = some t → t.state = .commited →
          BeforePlan l v.curVersion t.commitTrans) →
        ∀ t, transOf st' w.curVersion = some t → t.state = .commited →
          BeforePlan l' v.curVersion t.commitTrans := by
      rintro v w ⟨t, ht, hf⟩ hw t' ht' hs'
      obtain ⟨u, hu, hs, hc⟩ := hr.finished _ t ht hf
      obtain rfl := Option.some.inj (hu.symm.trans ht')
      have hs := hs.symm.trans hs'
      rw [hc hs]
      exact (hw t ht hs).mono hl
    cases vs with
    | nil => exact .nil
    | cons v vs =>
      have hc := List.pairwise_cons.mp h.commits
      refine .cons (fun w hw => step v w (h.older w hw) (hc.1 w hw)) ?_
      exact hc.2.imp_of_mem fun {a b} _ hb => step a b (h.older b hb)

theorem Sorted.mono (h : Sorted l st key vs) (hl : l <:+ l') : Sorted l' st key vs :=
  h.later hl (.of_eq fun _ => rfl) h.proper fun _ hU _ => hU

theorem ProperChain.frame (h : ProperChain st key vs)
    (he : st'.lookup (makeDataEntry key) = st.lookup (makeDataEntry key))
    (hv : ∀ v, st'.lookup (makeData key v) = st.lookup (makeData key v)) :
    ProperChain st' key vs := by
  refine ⟨h.chain.congr ?_ fun d _ => ?_, h.distinct, h.isTS⟩
  · rw [entryOf, dataAt, he]
    rfl
  · rw [dataAt, hv]
    rfl

/-- The lock of a key changes hands only when its holder has finished. -/
theorem Granted.lock (hg : Granted False key T st st') {U : String} (hU : lockOf st key = some U)
    (hf : ¬ FinishedOn st U) : lockOf st' key = some U := by
  cases hg with
  | held => exact hU
  | taken hfree =>
    rcases hfree with hn | ⟨V, t, hV, -, ht, htf⟩
    · simp [hn] at hU
    · obtain rfl := Option.some.inj (hU.symm.trans hV)
      exact absurd ⟨t, ht, htf⟩ hf
  | unread h => exact h.elim

theorem Sorted.granted {k : String} (h : Sorted l st k vs) (hg : Granted False key T st st') :
    Sorted l st' k vs := by
  refine h.later (List.suffix_refl l) (.of_eq fun U => ?_) (h.proper.frame ?_ fun v => ?_) ?_
  · rw [transOf, hg.lookup_ne (by simp)]
    rfl
  · exact hg.lookup_ne (by simp)
  · exact hg.lookup_ne (by simp)
  · intro U hU hf
    by_cases hk : k = key
    · subst hk
      exact hg.lock hU hf
    · rw [lockOf, hg.lookup_ne (by simpa using hk)]
      exact hU

theorem Sorted.same (h : Sorted l st key vs) (ht : ∀ U, transOf st' U = transOf st U)
    (hk : ∀ k, lockOf st' k = lockOf st k) (hp : ProperChain st' key vs) :
    Sorted l st' key vs :=
  h.later (List.suffix_refl l) (.of_eq ht) hp fun U hU _ => by rwa [hk]

theorem Sorted.halfWritten {k : String} (h : Sorted l st k vs) (hk : Sorted l st key vs')
    (hw : HalfWritten st key T st') : Sorted l st' k vs := by
  refine h.same hw.transOf_eq hw.lockOf_eq ?_
  by_cases he : k = key
  · subst he
    exact h.proper.halfWritten hw
  · exact ⟨((hk.proper.others_halfWritten hw).chain_iff he h.proper.isTS).mpr h.proper.chain,
      h.proper.distinct, h.proper.isTS⟩

theorem Sorted.others_written {k : String} (h : Sorted l st k vs) (hk : Sorted l st key vs')
    (he : k ≠ key) (hw : Written False st key value T type st') : Sorted l st' k vs :=
  h.same hw.transOf_eq hw.lockOf_eq
    ⟨((hk.proper.others_written hw).chain_iff he h.proper.isTS).mpr h.proper.chain,
      h.proper.distinct, h.proper.isTS⟩

theorem Sorted.written (h : Sorted l st key vs) (hT : IsTS T) (hheld : lockOf st key = some T)
    (hrec : transOf st T ≠ none) (hrun : ¬ FinishedOn st T) (hplan : ¬ HasPlan l T)
    (hread : ∀ U t, transOf st U = some t → t.state = .commited → t.commitTrans ∈ clockTs l)
    (hw : Written False st key value T type st') :
    Sorted l st' key (overwrite type value T vs) := by
  have htail : ∀ d ∈ vs.tail, d.curVersion ≠ T := fun d hd he => hrun (he ▸ h.older d hd)
  have hp := (h.proper.written hT htail hw).resolve_right fun h => h.1
  have hlock : lockOf st' key = some T := (hw.lockOf_eq key).trans hheld
  have hto : ∀ U, transOf st' U = transOf st U := hw.transOf_eq
  have hfin : ∀ {U}, FinishedOn st U → FinishedOn st' U := fun hf => hf.later (.of_eq hto)
  cases vs with
  | nil =>
    exact ⟨hp, by simpa [overwrite, hto] using hrec, by simp [overwrite],
      by simpa [overwrite] using .inr hlock, by simp [overwrite]⟩
  | cons d vs =>
    by_cases hd : d.curVersion = T
    · rw [overwrite_own hd] at hp ⊢
      refine ⟨hp, ?_, fun w hw => hfin (h.older w hw), ?_, ?_⟩
      · simp only [List.mem_cons, forall_eq_or_imp, hto]
        exact ⟨h.record d (.head _), fun w hw => h.record w (.tail _ hw)⟩
      · simp [hd, hlock]
      · have hc := List.pairwise_cons.mp h.commits
        simp only [hto]
        exact .cons hc.1 hc.2
    · rw [overwrite_other hd] at hp ⊢
      have hdone : FinishedOn st d.curVersion :=
        (h.lock d rfl).resolve_right fun he => hd (Option.some.inj (he.symm.trans hheld))
      refine ⟨hp, ?_, ?_, ?_, ?_⟩
      · simp only [List.mem_cons, forall_eq_or_imp, hto]
        exact ⟨hrec, h.record d (.head _), fun w hw => h.record w (.tail _ hw)⟩
      · rintro w (_ | ⟨_, hw⟩)
        · exact hfin hdone
        · exact hfin (h.older w hw)
      · simp [hlock]
      · simp only [hto]
        refine .cons (fun w _ t ht hs => ?_) h.commits
        exact ⟨l, List.suffix_refl l, hplan, hread w.curVersion t ht hs⟩

end Sorted

def AllSorted (s : Sys) : Prop := ∀ n key, ∃ vs, Sorted s.hist (s.node n).store key vs

section Runs

variable {cfg : Config} {C : Sys → Label → Prop} {s s' : Sys} {n : Host} {ℓ : Label} {σ : Session}
  {req : RpcReq} {fates : List Fate} {key : String} {vs : List Data} {x : Nat}

theorem Regular.running (h : Regular cfg s) (hσ : s.sess x = some σ) (hlive : σ.live = true)
    (hT : σ.vars.beginTs ≠ "") : transOf (s.node σ.host).store σ.vars.beginTs = some {} :=
  (h.safe.disc.rec_live x σ hσ hlive hT).resolve_left (h.recorded x σ hσ hlive hT)

theorem Safe.records (h : Safe cfg s) (hs : Tpc.step cfg s ℓ = some s') (hu : DistinctBegin s'.hist)
    (n : Host) : RecordsLater (s.node n).store (s'.node n).store :=
  ⟨fun T => (Keeps.of_later (h.later hs hu T)).known n,
    fun T _ => finished_later (h.later hs hu T)⟩

theorem Locks.operates (hl : Locks s σ req fates ℓ) (hd : Dated s) (hdisc : Disc cfg s) :
    ∃ x, s.sess x = some σ ∧ σ.vars.beginTs ≠ "" ∧ σ.Operates σ.vars.beginTs := by
  cases hl with
  | @recv x fuel clocks rest hσ hlive hm hv hacc _ =>
    have hop : req.IsOp := by
      simp only [RpcReq.Accesses, List.mem_cons, List.not_mem_nil, or_false] at hacc
      rcases hacc with h | h | h | h <;> simp [RpcReq.IsOp, h]
    exact ⟨x, hσ, hv, hlive, .inl rfl, req, hop, .inr (by rw [hm]; exact .head _)⟩
  | @timeout x fuel clocks res hσ hlive hw _ =>
    have hreq : σ.wait.req? = some req := by rw [hw]; rfl
    exact ⟨x, hσ, hd.waits x σ req hσ hreq, hlive, .inl rfl, req, (hdisc.waits x σ req hσ hreq).isOp,
      .inl hreq⟩

theorem AllSorted.step (h : AllSorted s) (hreg : Regular cfg s) (htimed : Timed s) (hd : Dated s)
    (hs : Tpc.step cfg s ℓ = some s') (ha : Orderly s'.hist) : AllSorted s' := by
  intro n key
  have hl := step_hist hs
  obtain ⟨vs, hv⟩ := h n key
  cases store_move closed_orderly hs ha n with
  | frame hframe _ =>
    refine ⟨vs, hv.later hl (hreg.safe.records hs ha.2.1 n) (hv.proper.frame (hframe _ ?_) fun v =>
      hframe _ ?_) fun U hU _ => ?_⟩
    · rintro ⟨T, hT⟩
      exact makeTrans_ne_makeDataEntry _ _ hT.symm
    · rintro ⟨T, hT⟩
      exact makeTrans_ne_makeData _ _ _ hT.symm
    · rw [lockOf, hframe _ ?_]
      · exact hU
      · rintro ⟨T, hT⟩
        exact makeTrans_ne_makeLock _ _ hT.symm
  | locks σ req fates hlocks hn hg _ =>
    subst hn
    exact ⟨vs, (hv.granted (hlocks.granted hs ha.1 hg)).mono hl⟩
  | breaks σ req fates st hlocks hn hg hhalf _ =>
    subst hn
    have hgr := hlocks.granted hs ha.1 hg
    obtain ⟨vs', hv'⟩ := h σ.host req.key
    exact ⟨vs, ((hv.granted hgr).halfWritten (hv'.granted hgr) hhalf).mono hl⟩
  | writes σ req fates st hlocks hn hg hw _ =>
    subst hn
    have hgr := hlocks.granted hs ha.1 hg
    have hw := hw.mono fun h => orderly_not_mayFail h
    obtain ⟨x, hσ, hT, hop⟩ := hlocks.operates hd hreg.safe.disc
    by_cases hk : key = req.key
    · subst hk
      have hrun : transOf st σ.vars.beginTs = some {} := by
        rw [hg.transOf_eq]
        exact hreg.running hσ hop.live hT
      refine ⟨_, ((hv.granted hgr).written (hd.vars x σ hσ hT) ?_ (by simp [hrun]) ?_ ?_ ?_ hw).mono
        hl⟩
      · exact (hgr.sound id).1
      · rintro ⟨t, ht, hf⟩
        obtain rfl := Option.some.inj (hrun.symm.trans ht)
        simp [Trans.Finished] at hf
      · rintro ⟨c, ts, L, hp⟩
        exact hreg.unplanned x σ _ hσ hT hop c ts L hp
      · intro U t ht hc
        rw [hg.transOf_eq] at ht
        exact (htimed.commitTrans ht hc).mem
    · obtain ⟨vs', hv'⟩ := h σ.host req.key
      exact ⟨vs, ((hv.granted hgr).others_written (hv'.granted hgr) hk hw).mono hl⟩

theorem Reach.allSorted (hs : Reach cfg C s) (ha : Orderly s.hist) : AllSorted s := by
  induction hs with
  | init => exact fun n key => ⟨[], .empty rfl⟩
  | step hr _ hstep ih =>
    have ha₀ := closed_orderly _ _ (step_hist hstep) ha
    exact (ih ha₀).step (hr.regular ha₀) (hr.timed ha₀.2.1) hr.dated hstep ha

end Runs

section Chains

variable {l : Hist} {st : Db.Store} {key : String} {vs : List Data} {d : Data} {c : String}

theorem FinishedOn.not_undecided (h : FinishedOn st d.curVersion) :
    ¬ Undecided (writerOf st) d := by
  obtain ⟨t, ht, hs | hs⟩ := h
  · simp [Undecided, writerOf, ht, hs]
  · simp [Undecided, writerOf, ht, hs]

theorem trans_of_committed (h : writerOf st d = .committed c) :
    ∃ t, transOf st d.curVersion = some t ∧ t.state = .commited ∧ t.commitTrans = c := by
  unfold writerOf at h
  split at h
  · cases h
  · rename_i t ht
    split at h
    · cases h
    · cases h
    · rename_i hs
      exact ⟨t, ht, hs, Writer.committed.inj h⟩
    · cases h

theorem Sorted.chainOk (h : Sorted l st key vs) (hc : ClockMono l)
    (hafter : ∀ T t, transOf st T = some t → t.state = .commited → AfterPlan l T t.commitTrans) :
    ChainOk st key vs where
  chain := h.proper.chain
  distinct := h.proper.distinct
  record := h.record
  ordered :=
    { tail := fun d hd => (h.older d hd).not_undecided
      commits := h.commits.imp fun {v w} hvw c d hv hw => by
        obtain ⟨t, ht, hs, rfl⟩ := trans_of_committed hv
        obtain ⟨u, hu, hsu, rfl⟩ := trans_of_committed hw
        exact (hvw u hu hsu).le hc (hafter _ t ht hs) }

end Chains

/-- In every run whose database calls succeed, whose clients wait for each reply and whose clocks do
not go back, the versions of a key form a finite list without repetitions, all writers below the
newest version have finished, the commits decrease along the list, and the writer of the newest
version holds the lock of the key until it has finished. -/
theorem chains_in_commit_order (cfg : Config) {s : Sys} (hs : Reach cfg anyStep s)
    (hdb : NoDbError s.hist) (hu : DistinctBegin s.hist) (hw : ClientsWait s.hist)
    (hc : ClockMono s.hist) (n : Host) (key : String) :
    ∃ vs, ChainOk (s.node n).store key vs ∧ ∀ d, vs.head? = some d →
      Undecided (writerOf (s.node n).store) d → lockOf (s.node n).store key = some d.curVersion := by
  obtain ⟨vs, hv⟩ := hs.allSorted ⟨hdb, hu, hw⟩ n key
  refine ⟨vs, hv.chainOk hc fun T t ht => (hs.timed hu).commitTrans ht, fun d hd hund => ?_⟩
  exact (hv.lock d hd).resolve_left fun hf => hf.not_undecided hund

def updatesTwice : List Label :=
  [.request (client 0) { requestType := .begin } (atUsec 100) 0 true true,
   .request (client 0) { requestType := .update, key := "b" } (atUsec 0) 0 true true,
   .recv 0 {}, .beginAnswer (client 0) true, .recv 0 {}, .opAnswer (client 0),
   .request (client 0) { requestType := .commit } (atUsec 101) 0 true true,
   .sendPrepare (client 0) true, .recv 0 { clocks := [atUsec 102] }, .crash hostA, .startUp hostA {},
   .request (client 1) { requestType := .begin } (atUsec 110) 0 true true,
   .request (client 1) { requestType := .update, key := "b" } (atUsec 0) 1 true true,
   .recv 1 {}, .beginAnswer (client 1) true, .recv 1 {}, .opAnswer (client 1)]

theorem chains_in_commit_order_two : ∃ s : Sys,
    ((transOf (s.node hostA).store "ts100").map Trans.state = some .commited ∧
      (transOf (s.node hostA).store "ts110").map Trans.state = some .begin ∧
      ∃ d, entryOf (s.node hostA).store "b" = some d ∧ d.curVersion = "ts110" ∧ d.next = "ts100") ∧
    ∃ vs, ChainOk (s.node hostA).store "b" vs ∧ ∀ d, vs.head? = some d →
      Undecided (writerOf (s.node hostA).store) d →
        lockOf (s.node hostA).store "b" = some d.curVersion := by
  have hrun : ((steps twoHosts anyStep {} updatesTwice).map fun s =>
      (decide (Orderly s.hist ∧ ClockMono s.hist),
        decide ((transOf (s.node hostA).store "ts100").map Trans.state = some .commited ∧
          (transOf (s.node hostA).store "ts110").map Trans.state = some .begin),
        (entryOf (s.node hostA).store "b").map fun d => (d.curVersion, d.next))) =
      some (true, true, some ("ts110", "ts100")) := by
    decide +kernel
  obtain ⟨s, hs, hf⟩ := reach_of_map hrun
  simp only [Prod.mk.injEq, decide_eq_true_eq] at hf
  obtain ⟨⟨⟨hdb, hu, hw⟩, hc⟩, ⟨hcommited, hbegin⟩, hd⟩ := hf
  obtain ⟨d, hd, hv⟩ := Option.map_eq_some_iff.mp hd
  exact ⟨s, ⟨hcommited, hbegin, d, hd, Prod.mk.inj hv⟩,
    chains_in_commit_order twoHosts hs hdb hu hw hc hostA "b"⟩

end Tpc
