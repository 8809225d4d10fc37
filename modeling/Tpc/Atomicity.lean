import Tpc.Replay

/-! All writes of a transaction stand, or none: where it is committed, or acknowledged, the last values
it has written are in the version chains of all nodes for good, and no node rolls it back. -/

namespace Tpc
open Durable PollCommit

/-- On `n`, the last values that `T` has written are in the chains, and `T` is prepared or
committed. -/
def Effective (s : Sys) (n : Host) (T : String) : Prop :=
  ∀ newer w older, writes n s.hist = newer ++ w :: older → w.beginTs = T →
    (∀ a ∈ newer, a.key = w.key → a.beginTs ≠ T) →
    (∃ vs d, Chain (s.node n).store w.key vs ∧ d ∈ vs ∧ d.curVersion = T ∧ d.value = w.value ∧
      d.state = w.type) ∧
    ∃ t, transOf (s.node n).store T = some t ∧ (t.state = .prepared ∨ t.state = .commited)

section Effective

variable {cfg : Config} {C : Sys → Label → Prop} {s s' : Sys} {c : CoordId} {T st : String}
  {L : List Host} {P : Host} {t : Trans}

theorem Reach.effective (hs : Reach cfg C s) (ha : Orderly s.hist) (hp : Planned s.hist c T st L)
    (hv : ∀ h ∈ L, Voted s h T) (n : Host) : Effective s n T := by
  intro newer w older hlog hT hlast
  subst hT
  have hsafe := hs.safe ha.2.1
  obtain ⟨d, hd, hdT, hvalue⟩ := replay_last [] older hlast
  rw [← hlog] at hd
  have hchain := (hs.replayed ha n w.key).chain
  obtain ⟨vs, hsorted⟩ := hs.allSorted ha n w.key
  have hrec := hsorted.record d (hsorted.proper.chain.unique hchain ▸ hd)
  rw [hdT] at hrec
  obtain ⟨t, ht⟩ := Option.ne_none_iff_exists'.mp hrec
  obtain ⟨L', hL⟩ := hsafe.disc.exists_onlyPlan ha.2.1 w.beginTs
  obtain rfl := hL c st L hp
  exact ⟨⟨_, d, hchain, hd, hdT, hvalue⟩, hsafe.holds hL hv (hsafe.mem_plan hp ht)⟩

theorem Safe.voted (h : Safe cfg s) (hu : DistinctBegin s.hist)
    (ht : transOf (s.node P).store T = some t) (hc : t.state = .commited) :
    ∃ c st L, Planned s.hist c T st L ∧ ∀ n ∈ L, Voted s n T := by
  obtain ⟨c, hp⟩ := ((h.tasks P).record T t ht).of_commited hc
  obtain ⟨L, hL⟩ := h.disc.exists_onlyPlan hu T
  obtain rfl := hL c _ _ hp
  have hP : (s.view T).vote P = .commited t.selfCommitTs t.commitTrans := by
    rw [← voteOf_commited hc, ← ht]
    rfl
  refine ⟨c, _, _, hp, fun n hn => ?_⟩
  obtain ⟨x, hx, -⟩ := ((h.inv T _ hL).commited P _ _ hP).2 n hn
  exact ⟨x, hx⟩

end Effective

def commitsBoth : List Label :=
  commitReply ++
  [.taskAsk hostB hostA 99 {}, .taskAsk hostA hostB 99 {}, .taskRecv hostB 99 {}, .taskRecv hostA 99 {}]

def restarts : List Label := [.crash hostB, .crash hostA, .startUp hostB {}]

theorem commitsBoth_run : ∃ s s' : Sys, Reach twoHosts anyStep s ∧ Run twoHosts anyStep s s' ∧
    Orderly s'.hist ∧ .note committed ∈ s.hist ∧
    (transOf (s.node hostA).store "ts100").map Trans.state = some .commited ∧
    writes hostB s'.hist = [⟨"a", "ts100", .update, ""⟩] := by
  have hrun : ((steps twoHosts anyStep {} commitsBoth).bind fun s =>
      (steps twoHosts anyStep s restarts).map fun s' =>
        (decide (Orderly s'.hist), decide (.note committed ∈ s.hist),
          (transOf (s.node hostA).store "ts100").map Trans.state, writes hostB s'.hist)) =
      some (true, true, some .commited, [⟨"a", "ts100", .update, ""⟩]) := by
    decide +kernel
  obtain ⟨s, s', hs, hss, hf⟩ := run_of_bind hrun
  simp only [Prod.mk.injEq, decide_eq_true_eq] at hf
  obtain ⟨ha, hm, hc, hlog⟩ := hf
  exact ⟨s, s', hs, hss, ha, hm, hc, hlog⟩

/-- Commits are all or nothing: once a transaction is committed on one node, the last values that it
has written are in the chains of all nodes, and none of them rolls it back, from then on. -/
theorem commits_all_writes (cfg : Config) {s s' : Sys} (hs : Reach cfg anyStep s)
    (hrun : Run cfg anyStep s s') (hdb : NoDbError s'.hist) (hu : DistinctBegin s'.hist)
    (hw : ClientsWait s'.hist) {P : Host} {T : String} {t : Trans}
    (ht : transOf (s.node P).store T = some t) (hc : t.state = .commited) (n : Host) :
    Effective s' n T := by
  have hsafe := hs.safe (closed_distinctBegin _ _ hrun.hist hu)
  obtain ⟨-, hl⟩ := hsafe.run hrun hu
  obtain ⟨c, st, L, hp, hv⟩ := hsafe.voted (closed_distinctBegin _ _ hrun.hist hu) ht hc
  exact (hs.run hrun).effective ⟨hdb, hu, hw⟩ (hrun.hist.subset hp)
    (fun h hh => (Keeps.of_later (hl T)).voted h (hv h hh)) n

theorem commits_all_writes_both : ∃ (s : Sys) (t : Trans),
    transOf (s.node hostB).store "ts100" = some t ∧ (t.state = .prepared ∨ t.state = .commited) := by
  obtain ⟨s, s', hs, hss, ha, -, hc, hlog⟩ := commitsBoth_run
  obtain ⟨t, ht, hc⟩ := Option.map_eq_some_iff.mp hc
  obtain ⟨-, t', ht'⟩ := commits_all_writes twoHosts hs hss ha.1 ha.2.1 ha.2.2 ht hc hostB [] _ []
    hlog rfl (by simp)
  exact ⟨s', t', ht'⟩

/-- Acknowledged commits are durable: once a client has been told that its transaction is committed,
whatever crashes, the last values that it has written are in the chains of all nodes, and none of
them rolls it back. -/
theorem acknowledged_commits_durable (cfg : Config) {s s' : Sys} (hs : Reach cfg anyStep s)
    (hrun : Run cfg anyStep s s') (hdb : NoDbError s'.hist) (hu : DistinctBegin s'.hist)
    (hw : ClientsWait s'.hist) {c : CoordId} {T : String} {res : CliRes}
    (hack : .note (.replied c .commit T res) ∈ s.hist) (h0 : res.result = 0) (n : Host) :
    Effective s' n T := by
  have hu₀ := closed_distinctBegin _ _ hrun.hist hu
  have hearly : .note (.early c) ∉ s.hist := fun he => hw _ (hrun.hist.subset he)
  have hturns := hs.turns closed_noDbError (fun h => absurd h not_mayFail)
    (closed_noDbError _ _ hrun.hist hdb) hu₀ hearly
  obtain ⟨st, L, hp, hv⟩ := hturns.told T res hack h0
  obtain ⟨-, hl⟩ := (hs.safe hu₀).run hrun hu
  exact (hs.run hrun).effective ⟨hdb, hu, hw⟩ (hrun.hist.subset hp)
    (fun h hh => (Keeps.of_later (hl T)).voted h (hv h hh)) n

theorem acknowledged_commits_durable_both : ∃ (s : Sys) (vs : List Data) (d : Data),
    Chain (s.node hostB).store "a" vs ∧ d ∈ vs ∧ d.curVersion = "ts100" := by
  obtain ⟨s, s', hs, hss, ha, hm, -, hlog⟩ := commitsBoth_run
  obtain ⟨⟨vs, d, hv, hd, hT, -⟩, -⟩ := acknowledged_commits_durable twoHosts hs hss ha.1 ha.2.1
    ha.2.2 hm rfl hostB [] _ [] hlog rfl (by simp)
  exact ⟨s', vs, d, hv, hd, hT⟩

end Tpc
