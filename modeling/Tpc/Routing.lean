import Tpc.Commitment
import Tpc.Dated
import Tpc.Reads

/-! Every key has one home: the node that the hash of the key selects. Nothing is assumed of clients,
clocks or failures. -/

namespace Tpc
open Durable

/-- Locks and versions of a key are at its home, and so are its reads and writes. -/
structure Homed (cfg : Config) (s : Sys) : Prop where
  entry : ∀ n key d, entryOf (s.node n).store key = some d → cfg.hostOf key = some n
  lock : ∀ n key T, lockOf (s.node n).store key = some T → cfg.hostOf key = some n
  write : ∀ n, ∀ w ∈ writes n s.hist, cfg.hostOf w.key = some n
  read : ∀ n, ∀ a ∈ reads n s.hist, cfg.hostOf a.key = some n

section Homed

variable {cfg : Config} {C : Sys → Label → Prop} {s s' : Sys} {n : Host} {ℓ : Label} {x : Nat}
  {σ : Session} {req : RpcReq} {fates : List Fate}

theorem Disc.home (hd : Disc cfg s) (hσ : s.sess x = some σ)
    (hreq : (req ∈ σ.toServ ∧ req.IsOp) ∨ σ.wait.req? = some req) :
    cfg.hostOf req.key = some σ.host := by
  have hop : OpOk cfg σ.host req := by
    rcases hreq with ⟨hm, hop⟩ | hw
    · exact (hd.msg x σ req hσ hm).of_op hop
    · exact hd.waits x σ req hσ hw
  obtain ⟨T, cli, rfl, -, hh⟩ := hop
  exact hh

theorem RpcReq.Accesses.isOp (h : req.Accesses) : req.IsOp := by
  simp only [RpcReq.Accesses, List.mem_cons, List.not_mem_nil, or_false] at h
  rcases h with h | h | h | h <;> simp [RpcReq.IsOp, h]

theorem Locks.home (hl : Locks s σ req fates ℓ) (hd : Disc cfg s) :
    cfg.hostOf req.key = some σ.host := by
  cases hl with
  | recv hσ _ hm _ hacc => exact hd.home hσ (.inl ⟨by simp [hm], hacc.isOp⟩)
  | timeout hσ _ hw => exact hd.home hσ (.inr (by rw [hw]; rfl))

theorem StoreMove.entry_new {A : Hist → Prop} (hm : StoreMove A s n ℓ s') (hd : Dated s)
    {key : String} (hnone : entryOf (s.node n).store key = none) {d : Data}
    (h : entryOf (s'.node n).store key = some d) :
    ∃ σ req fates, Locks s σ req fates ℓ ∧ σ.host = n ∧ req.key = key := by
  have absurd_old : entryOf (s'.node n).store key = entryOf (s.node n).store key →
      ∃ σ req fates, Locks s σ req fates ℓ ∧ σ.host = n ∧ req.key = key := fun he => by
    simp [he, hnone] at h
  cases hm with
  | frame hf =>
    refine absurd_old ?_
    rw [entryOf, dataAt, hf _ (by rintro ⟨T, hT⟩; simp at hT)]
    rfl
  | locks σ req fates _ _ hl => exact absurd_old (hl.entryOf_eq key)
  | breaks σ req fates st _ _ hl hh =>
    refine absurd_old ?_
    generalize (s'.node n).store = st' at hh
    cases hh with
    | nothing => exact hl.entryOf_eq key
    | kept e he =>
      rw [hl.entryOf_eq] at he
      rw [entryOf_insert_version (hd.entry n _ e he), hl.entryOf_eq]
  | writes σ req fates st hlocks hn hl hw =>
    by_cases hk : req.key = key
    · exact ⟨σ, req, fates, hlocks, hn, hk⟩
    · refine absurd_old ?_
      generalize (s'.node n).store = st' at hw
      cases hw with
      | again e => rw [entryOf_insert_entry, if_neg (Ne.symm hk), hl.entryOf_eq]
      | pushed e he =>
        rw [hl.entryOf_eq] at he
        rw [entryOf_insert_entry, if_neg (Ne.symm hk), entryOf_insert_version (hd.entry n _ e he),
          hl.entryOf_eq]
      | first => rw [entryOf_insert_entry, if_neg (Ne.symm hk), hl.entryOf_eq]

theorem StoreMove.lock_new {A : Hist → Prop} (hm : StoreMove A s n ℓ s') {key : String}
    (hnone : lockOf (s.node n).store key = none) {T : String}
    (h : lockOf (s'.node n).store key = some T) :
    ∃ σ req fates, Locks s σ req fates ℓ ∧ σ.host = n ∧ req.key = key := by
  have new : ∀ {σ req fates st}, Locks s σ req fates ℓ → σ.host = n →
      LockBy fates req.key σ.vars.beginTs (s.node n).store st →
      lockOf (s'.node n).store key = lockOf st key →
      ∃ σ req fates, Locks s σ req fates ℓ ∧ σ.host = n ∧ req.key = key := by
    intro σ req fates st hl hn hg he
    by_cases hk : req.key = key
    · exact ⟨σ, req, fates, hl, hn, hk⟩
    · rw [he, hg.lockOf_ne (Ne.symm hk), hnone] at h
      cases h
  cases hm with
  | frame hf =>
    rw [lockOf, hf _ (by rintro ⟨T, hT⟩; simp at hT)] at h
    change lockOf (s.node n).store key = some T at h
    rw [hnone] at h
    cases h
  | locks σ req fates hl hn hg => exact new hl hn hg rfl
  | breaks σ req fates st hl hn hg hh => exact new hl hn hg (hh.lockOf_eq key)
  | writes σ req fates st hl hn hg hw => exact new hl hn hg (hw.lockOf_eq key)

theorem Homed.step (h : Homed cfg s) (hdisc : Disc cfg s) (hd : Dated s)
    (hs : Tpc.step cfg s ℓ = some s') : Homed cfg s' := by
  have home : ∀ {n key}, (∃ σ req fates, Locks s σ req fates ℓ ∧ σ.host = n ∧ req.key = key) →
      cfg.hostOf key = some n := by
    rintro n key ⟨σ, req, fates, hl, rfl, rfl⟩
    exact hl.home hdisc
  have move := fun n => store_move closed_true hs trivial n
  refine ⟨fun n key d hk => ?_, fun n key T hk => ?_, fun n w hw => ?_, fun n a ha => ?_⟩
  · cases he : entryOf (s.node n).store key with
    | none => exact home ((move n).entry_new hd he hk)
    | some e => exact h.entry n key e he
  · cases he : lockOf (s.node n).store key with
    | none => exact home ((move n).lock_new he hk)
    | some U => exact h.lock n key U he
  · cases move n with
    | frame _ hlog | locks _ _ _ _ _ _ hlog | breaks _ _ _ _ _ _ _ _ hlog => exact h.write n w (hlog ▸ hw)
    | writes σ req fates st hl hn _ _ hlog =>
      rw [hlog] at hw
      rcases List.mem_cons.mp hw with rfl | hw
      · exact home ⟨σ, req, fates, hl, hn, rfl⟩
      · exact h.write n w hw
  · cases read_move closed_true hs trivial n with
    | quiet hq => exact h.read n a (hq ▸ ha)
    | reads x σ req b hσ _ hn hreq _ hr hlog =>
      rw [hlog] at ha
      rcases List.mem_cons.mp ha with rfl | ha
      · rw [hr.key, ← hn]
        exact hdisc.home hσ (hreq.imp_left fun h => ⟨h.1, h.2.1⟩)
      · exact h.read n a ha

theorem Reach.homed (hs : Reach cfg C s) (hu : DistinctBegin s.hist) : Homed cfg s := by
  induction hs with
  | init => constructor <;> simp [entryOf, dataAt, lockOf, writes, reads]
  | step hr _ hstep ih =>
    have hu₀ := closed_distinctBegin _ _ (step_hist hstep) hu
    exact (ih hu₀).step (hr.safe hu₀).disc hr.dated hstep

end Homed

/-- Whatever fails, a key is locked, written, read and stored on one node only, which its hash
selects. -/
theorem keys_have_one_home (cfg : Config) {s : Sys} (hs : Reach cfg anyStep s)
    (hu : DistinctBegin s.hist) {n : Host} {key : String}
    (h : entryOf (s.node n).store key ≠ none ∨ lockOf (s.node n).store key ≠ none ∨
      (∃ w ∈ writes n s.hist, w.key = key) ∨ ∃ a ∈ reads n s.hist, a.key = key) :
    cfg.hostOf key = some n := by
  have hhome := hs.homed hu
  rcases h with he | hl | ⟨w, hw, rfl⟩ | ⟨a, ha, rfl⟩
  · obtain ⟨d, hd⟩ := Option.ne_none_iff_exists'.mp he
    exact hhome.entry n key d hd
  · obtain ⟨T, hT⟩ := Option.ne_none_iff_exists'.mp hl
    exact hhome.lock n key T hT
  · exact hhome.write n w hw
  · exact hhome.read n a ha

theorem keys_have_one_home_both : ∃ s : Sys, (entryOf (s.node hostA).store "b" ≠ none ∧
    twoHosts.hostOf "b" = some hostA) ∧ entryOf (s.node hostB).store "a" ≠ none ∧
    twoHosts.hostOf "a" = some hostB := by
  have hrun : ((steps twoHosts anyStep {} bothCommit).map fun s =>
      (decide (DistinctBegin s.hist), decide (entryOf (s.node hostA).store "b" ≠ none),
        decide (entryOf (s.node hostB).store "a" ≠ none))) = some (true, true, true) := by
    decide +kernel
  obtain ⟨s, hs, hf⟩ := reach_of_map hrun
  simp only [Prod.mk.injEq, decide_eq_true_eq] at hf
  obtain ⟨hu, hb, ha⟩ := hf
  exact ⟨s, ⟨hb, keys_have_one_home twoHosts hs hu (.inl hb)⟩, ha,
    keys_have_one_home twoHosts hs hu (.inl ha)⟩

end Tpc
