import Tpc.Access
import Tpc.Refinement

/-! Atomic commitment: what the records of a transaction on different nodes have to do with one
another. -/

namespace Tpc
open Durable PollCommit

theorem voteOf_commited {t : Trans} (h : t.state = .commited) :
    voteOf (some t) = .commited t.selfCommitTs t.commitTrans := by
  simp [voteOf, h]

theorem voteOf_rollback {t : Trans} (h : t.state = .rollback) :
    voteOf (some t) = .aborted ∨ ∃ x, voteOf (some t) = .rolledBack x := by
  simp only [voteOf, h]
  split_ifs
  · exact .inl rfl
  · exact .inr ⟨_, rfl⟩

theorem of_voteOf_commited {o : Option Trans} {x c : String} (h : voteOf o = .commited x c) :
    ∃ t, o = some t ∧ t.state = .commited ∧ t.commitTrans = c := by
  cases o with
  | none => cases h
  | some t =>
    cases hs : t.state with
    | begin => simp [voteOf, hs] at h
    | prepared => simp [voteOf, hs] at h
    | commited =>
      rw [voteOf_commited hs] at h
      exact ⟨t, rfl, hs, (Vote.commited.inj h).2⟩
    | rollback =>
      rcases voteOf_rollback hs with h' | ⟨y, h'⟩
      · rw [h'] at h
        cases h
      · rw [h'] at h
        cases h

theorem of_voteOf_rollback {o : Option Trans}
    (h : voteOf o = .aborted ∨ ∃ x, voteOf o = .rolledBack x) :
    ∃ t, o = some t ∧ t.state = .rollback := by
  cases o with
  | none => simp [voteOf] at h
  | some t =>
    cases hs : t.state with
    | begin => simp [voteOf, hs] at h
    | prepared => simp [voteOf, hs] at h
    | commited => simp [voteOf, hs] at h
    | rollback => exact ⟨t, rfl, hs⟩

theorem finished_later {s s' : Sys} {T : String} (hl : Later (s.view T) (s'.view T)) {h : Host}
    {t : Trans} (ht : transOf (s.node h).store T = some t) (hf : t.Finished) :
    ∃ t', transOf (s'.node h).store T = some t' ∧ t'.state = t.state ∧
      (t.state = .commited → t'.commitTrans = t.commitTrans) := by
  have hview : (s.view T).vote h = voteOf (some t) := by rw [← ht]; rfl
  rcases hf with hs | hs
  · have hv : voteOf (transOf (s'.node h).store T) = .aborted ∨
        ∃ x, voteOf (transOf (s'.node h).store T) = .rolledBack x := by
      rcases voteOf_rollback hs with he | ⟨x, he⟩
      · exact .inl (hl.aborted h (hview.trans he))
      · exact .inr ⟨x, hl.rolledBack h x (hview.trans he)⟩
    obtain ⟨t', ht', hs'⟩ := of_voteOf_rollback hv
    exact ⟨t', ht', hs'.trans hs.symm, fun hc => absurd (hs.symm.trans hc) (by decide)⟩
  · have hv := hl.commited h _ _ (hview.trans (voteOf_commited hs))
    obtain ⟨t', ht', hs', hc⟩ := of_voteOf_commited hv
    exact ⟨t', ht', hs'.trans hs.symm, fun _ => hc⟩

section Agreement

variable {cfg : Config} {s : Sys} {T : String} {P Q : Host} {tp tq : Trans}

theorem Safe.mem_plan (h : Safe cfg s) {L : List Host} {c : CoordId} {st : String}
    (hp : Planned s.hist c T st L) (hq : transOf (s.node Q).store T = some tq) : Q ∈ L := by
  by_contra hQ
  have hn := (h.disc.plan_only c T st L Q hp hQ).2
  simp [hn] at hq

theorem RecForm.of_commited {l : Hist} (hr : RecForm l P T tp) (hs : tp.state = .commited) :
    ∃ c, Planned l c T tp.startTrans (tp.transList.map (·.host)) := by
  cases hr with
  | running => cases hs
  | aborted => cases hs
  | planned hp _ hm _ =>
    subst hm
    exact ⟨_, hp⟩

theorem Safe.agree (h : Safe cfg s) (hu : DistinctBegin s.hist)
    (hp : transOf (s.node P).store T = some tp) (hq : transOf (s.node Q).store T = some tq)
    (hc : tp.state = .commited) : tq.state ≠ .rollback := by
  intro hr
  obtain ⟨L, hL⟩ := h.disc.exists_onlyPlan hu T
  obtain ⟨c, hplan⟩ := ((h.tasks P).record T tp hp).of_commited hc
  have hQ : Q ∈ L := hL c _ _ hplan ▸ h.mem_plan hplan hq
  have hvp : (s.view T).vote P = .commited tp.selfCommitTs tp.commitTrans := by
    rw [← voteOf_commited hc, ← hp]
    rfl
  have hvq : (s.view T).vote Q = voteOf (some tq) := by
    rw [← hq]
    rfl
  obtain ⟨hna, hnr⟩ := (h.inv T L hL).agree hvp hQ
  rcases voteOf_rollback hr with he | ⟨x, he⟩
  · exact hna (hvq.trans he)
  · exact hnr x (hvq.trans he)

end Agreement

/-- Atomic commitment and finality. -/
theorem atomic_commitment (cfg : Config) {s s' : Sys} (hs : Reach cfg anyStep s)
    (hrun : Run cfg anyStep s s') (hu : DistinctBegin s'.hist) :
    (∀ T P Q tp tq, transOf (s.node P).store T = some tp → transOf (s.node Q).store T = some tq →
      tp.state = .commited → tq.state ≠ .rollback) ∧
    ∀ T P t, transOf (s.node P).store T = some t → t.Finished →
      ∃ t', transOf (s'.node P).store T = some t' ∧ t'.state = t.state ∧
        (t.state = .commited → t'.commitTrans = t.commitTrans) := by
  have hu₀ : DistinctBegin s.hist := closed_distinctBegin _ _ hrun.hist hu
  have hsafe := hs.safe hu₀
  obtain ⟨-, hl⟩ := hsafe.run hrun hu
  exact ⟨fun T P Q tp tq hp hq hc => hsafe.agree hu₀ hp hq hc,
    fun T P t ht hf => finished_later (hl T) ht hf⟩

def toCommit : List Label :=
  [.request (client 0) { requestType := .begin } (atUsec 100) 0 true true,
   .request (client 0) { requestType := .update, key := "b" } (atUsec 0) 0 true true,
   .recv 0 {}, .beginAnswer (client 0) true, .recv 0 {}, .opAnswer (client 0),
   .request (client 0) { requestType := .update, key := "a" } (atUsec 0) 1 true true,
   .recv 1 {}, .beginAnswer (client 0) true, .recv 1 {}, .opAnswer (client 0),
   .request (client 0) { requestType := .commit } (atUsec 101) 0 true true,
   .sendPrepare (client 0) true, .sendPrepare (client 0) true]

def bothCommit : List Label :=
  toCommit ++
  [.recv 0 { clocks := [atUsec 102] }, .recv 1 { clocks := [atUsec 103] },
   .taskAsk hostB hostA 99 {}, .taskAsk hostA hostB 99 {}, .taskRecv hostB 99 {}, .taskRecv hostA 99 {}]

def decisions (s : Sys) : Option (TransState × String) × Option (TransState × String) :=
  ((transOf (s.node hostA).store "ts100").map fun t => (t.state, t.commitTrans),
    (transOf (s.node hostB).store "ts100").map fun t => (t.state, t.commitTrans))

theorem atomic_commitment_both : ∃ (s : Sys) (tp : Trans),
    transOf (s.node hostA).store "ts100" = some tp ∧ tp.state = .commited ∧
    ∀ Q tq, transOf (s.node Q).store "ts100" = some tq → tq.state ≠ .rollback := by
  have hrun : ((steps twoHosts anyStep {} bothCommit).map fun s =>
      (decide (DistinctBegin s.hist), decisions s)) =
      some (true, some (.commited, "ts103"), some (.commited, "ts103")) := by
    decide +kernel
  obtain ⟨s, hs, hf⟩ := reach_of_map hrun
  obtain ⟨hu, hd⟩ := Prod.mk.inj hf
  obtain ⟨tp, hp, hc⟩ := Option.map_eq_some_iff.mp (Prod.mk.inj hd).1
  have hc := (Prod.mk.inj hc).1
  exact ⟨s, tp, hp, hc, fun Q tq hq =>
    (atomic_commitment twoHosts hs .refl (of_decide_eq_true hu)).1 "ts100" hostA Q tp tq hp hq hc⟩

theorem voteOf_self {t : Trans} {x : String} (h : (voteOf (some t)).self? = some x) :
    t.selfCommitTs = x := by
  cases hs : t.state with
  | begin => simp [voteOf, hs, Vote.self?] at h
  | prepared => simpa [voteOf, hs, Vote.self?] using h
  | commited => simpa [voteOf, hs, Vote.self?] using h
  | rollback =>
    simp only [voteOf, hs] at h
    split_ifs at h
    · simp [Vote.self?] at h
    · simpa [Vote.self?] using h

/-- A commit timestamp is not below the own timestamp of any participant, and no round of questions
learns a commit timestamp below its maximum. -/
theorem commit_trans_dominates (cfg : Config) {s : Sys} (hs : Reach cfg anyStep s)
    (hu : DistinctBegin s.hist) :
    (∀ T P Q tp tq, transOf (s.node P).store T = some tp → transOf (s.node Q).store T = some tq →
      tp.state = .commited → tq.selfCommitTs ≠ "" → tq.selfCommitTs ≤ tp.commitTrans) ∧
    ∀ h i p res, (s.node h).task i = .polling p → p.reply = some res →
      res.transStat = .commited → p.trans.selfCommitTs ≠ "" → ¬ res.commitTs < p.maxCommitTs := by
  have hsafe := hs.safe hu
  constructor
  · intro T P Q tp tq hp hq hc _
    obtain ⟨L, hL⟩ := hsafe.disc.exists_onlyPlan hu T
    obtain ⟨c, hplan⟩ := ((hsafe.tasks P).record T tp hp).of_commited hc
    have hQ : Q ∈ L := hL c _ _ hplan ▸ hsafe.mem_plan hplan hq
    have hvp : (s.view T).vote P = .commited tp.selfCommitTs tp.commitTrans := by
      rw [← voteOf_commited hc, ← hp]
      rfl
    obtain ⟨x, hx, hle⟩ := ((hsafe.inv T L hL).commited P _ _ hvp).2 Q hQ
    have hvq : (voteOf (some tq)).self? = some x := by
      rw [← hq]
      exact hx
    rwa [voteOf_self hvq]
  · intro h i p res hp hr hc hself
    obtain ⟨L, hL⟩ := hsafe.disc.exists_onlyPlan hu p.beginTs
    have hpoll : (s.view p.beginTs).poll h i = some
        ⟨p.i, p.nPrepared, p.trans.selfCommitTs, p.maxCommitTs, some (.commited res.commitTs)⟩ := by
      simp [Sys.view, pollOf, hp, hr, answerOf, hc]
    exact not_lt.mpr ((hsafe.inv _ L hL).max_le hpoll rfl hself)

theorem commit_trans_dominates_both : ∃ (s : Sys) (tp tq : Trans),
    transOf (s.node hostA).store "ts100" = some tp ∧ transOf (s.node hostB).store "ts100" = some tq ∧
      tq.selfCommitTs ≠ "" ∧ tq.selfCommitTs ≤ tp.commitTrans := by
  have hrun : ((steps twoHosts anyStep {} bothCommit).map fun s =>
      (decide (DistinctBegin s.hist),
        (transOf (s.node hostA).store "ts100").map Trans.state,
        (transOf (s.node hostB).store "ts100").map Trans.selfCommitTs)) =
      some (true, some .commited, some "ts103") := by
    decide +kernel
  obtain ⟨s, hs, hf⟩ := reach_of_map hrun
  obtain ⟨hu, hf⟩ := Prod.mk.inj hf
  obtain ⟨hp, hq⟩ := Prod.mk.inj hf
  obtain ⟨tp, hp, hc⟩ := Option.map_eq_some_iff.mp hp
  obtain ⟨tq, hq, hself⟩ := Option.map_eq_some_iff.mp hq
  have hne : tq.selfCommitTs ≠ "" := by
    rw [hself]
    decide
  exact ⟨s, tp, tq, hp, hq, hne,
    (commit_trans_dominates twoHosts hs (of_decide_eq_true hu)).1 "ts100" hostA hostB tp tq hp hq hc hne⟩

/-- The steps do not stop a storage process between the two writes of a Prepare request. -/
def WholePrepares (s : Sys) (ℓ : Label) : Prop := s.cutsPrepare ℓ = false

instance (s : Sys) (ℓ : Label) : Decidable (WholePrepares s ℓ) :=
  inferInstanceAs (Decidable (_ = _))

theorem not_fresh_bot (l l' : Hist) : ¬ Fresh l l' ⊥ := fun h => h.isTS.ne_empty rfl

theorem Reach.stamped {cfg : Config} {s : Sys} (hs : Reach cfg WholePrepares s)
    (hu : DistinctBegin s.hist) (T : String) : Stamped (s.view T) := by
  induction hs with
  | init => exact fun h => by simp [Sys.view, transOf, voteOf, Vote.self?]
  | @step s s' ℓ hr hc hstep ih =>
    have hu₀ := closed_distinctBegin _ _ (step_hist hstep) hu
    have hsafe := hr.safe hu₀
    obtain ⟨L, hL⟩ := (hsafe.step hstep hu).disc.exists_onlyPlan hu T
    have href := refines_step closed_distinctBegin hsafe.disc hsafe.tasks hstep hu
    exact (ih hu₀).steps (by rw [hc]; decide) (not_fresh_bot _ _) (href.steps T L hL)
      (hsafe.inv T L (hL.mono (step_hist hstep).subset))

/-- Where no process stops between the two writes of a Prepare request, the participants of a
transaction commit with one timestamp. -/
theorem commit_trans_agrees (cfg : Config) {s : Sys} (hs : Reach cfg WholePrepares s)
    (hu : DistinctBegin s.hist) {T : String} {P Q : Host} {tp tq : Trans}
    (hp : transOf (s.node P).store T = some tp) (hq : transOf (s.node Q).store T = some tq)
    (hcp : tp.state = .commited) (hcq : tq.state = .commited) : tp.commitTrans = tq.commitTrans := by
  have hsafe := hs.safe hu
  obtain ⟨L, hL⟩ := hsafe.disc.exists_onlyPlan hu T
  have hvp : (s.view T).vote P = .commited tp.selfCommitTs tp.commitTrans := by
    rw [← voteOf_commited hcp, ← hp]
    rfl
  have hvq : (s.view T).vote Q = .commited tq.selfCommitTs tq.commitTrans := by
    rw [← voteOf_commited hcq, ← hq]
    rfl
  exact (hsafe.inv T L hL).commit_agree (hs.stamped hu T) hvp hvq

theorem commit_trans_agrees_both : ∃ (s : Sys) (tp tq : Trans),
    transOf (s.node hostA).store "ts100" = some tp ∧
    transOf (s.node hostB).store "ts100" = some tq ∧ tp.commitTrans = tq.commitTrans := by
  have hrun : ((steps twoHosts WholePrepares {} bothCommit).map fun s =>
      (decide (DistinctBegin s.hist), decisions s)) =
      some (true, some (.commited, "ts103"), some (.commited, "ts103")) := by
    decide +kernel
  obtain ⟨s, hs, hf⟩ := reach_of_map hrun
  obtain ⟨hu, hd⟩ := Prod.mk.inj hf
  obtain ⟨tp, hp, hcp⟩ := Option.map_eq_some_iff.mp (Prod.mk.inj hd).1
  obtain ⟨tq, hq, hcq⟩ := Option.map_eq_some_iff.mp (Prod.mk.inj hd).2
  exact ⟨s, tp, tq, hp, hq, commit_trans_agrees twoHosts hs (of_decide_eq_true hu) hp hq
    (Prod.mk.inj hcp).1 (Prod.mk.inj hcq).1⟩

/-- The process on `hostB` stops between the two writes and starts again: it tells `hostA` an empty
timestamp and commits with one it reads later. -/
def stampLost : List Label :=
  toCommit ++
  [.recv 0 { clocks := [atUsec 102] }, .recv 1 { fates := [.ok, .ok, .crash] },
   .startUp hostB { clocks := [atUsec 110] },
   .taskAsk hostB hostA 99 {}, .taskAsk hostA hostB 99 {}, .taskRecv hostB 99 {}, .taskRecv hostA 99 {}]

theorem commit_trans_differs :
    ¬ ∀ (s : Sys) (T : String) (P Q : Host) (tp tq : Trans), Reach twoHosts anyStep s →
      DistinctBegin s.hist → transOf (s.node P).store T = some tp →
      transOf (s.node Q).store T = some tq → tp.state = .commited → tq.state = .commited →
      tp.commitTrans = tq.commitTrans := by
  intro h
  have hrun : ((steps twoHosts anyStep {} stampLost).map fun s =>
      (decide (DistinctBegin s.hist), decisions s)) =
      some (true, some (.commited, "ts102"), some (.commited, "ts110")) := by
    decide +kernel
  obtain ⟨s, hs, hf⟩ := reach_of_map hrun
  obtain ⟨hu, hd⟩ := Prod.mk.inj hf
  obtain ⟨tp, hp, hcp⟩ := Option.map_eq_some_iff.mp (Prod.mk.inj hd).1
  obtain ⟨tq, hq, hcq⟩ := Option.map_eq_some_iff.mp (Prod.mk.inj hd).2
  have he := h s "ts100" hostA hostB tp tq hs (of_decide_eq_true hu) hp hq (Prod.mk.inj hcp).1
    (Prod.mk.inj hcq).1
  rw [(Prod.mk.inj hcp).2, (Prod.mk.inj hcq).2] at he
  exact absurd he (by decide)

end Tpc
