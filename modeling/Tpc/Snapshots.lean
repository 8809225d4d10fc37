import Tpc.Reads
import Tpc.Replay

/-! Snapshots. The answer of a read is final when it is given: whatever the run goes on to do, the
versions that the read has passed over are never committed before its timestamp. -/

namespace Tpc
open Durable PollCommit Versions

def newestTs : Hist → Option String
  | .clock _ tv :: _ => some (getTS tv)
  | _ => none

def Drawn : Hist → Prop
  | [] => True
  | e :: l => Drawn l ∧
    match e with
    | .note (.begun _ T) => newestTs l = some T
    | .note (.prepare _ _ st _) => newestTs l = some st
    | _ => True

section Drawn

variable {cfg : Config} {C : Sys → Label → Prop} {s s' : Sys} {c : CoordId} {ℓ : Label} {l l' : Hist}
  {me : Proc} {n : Host} {T st x : String} {L : List Host}

theorem newestTs_mem (h : newestTs l = some x) : x ∈ clockTs l := by
  cases l with
  | nil => simp [newestTs] at h
  | cons e l =>
    cases e with
    | clock p tv =>
      obtain rfl := Option.some.inj h
      exact List.mem_filterMap.mpr ⟨_, .head _, rfl⟩
    | _ => simp [newestTs] at h

theorem Drawn.suffix (h : Drawn l') (hl : l <:+ l') : Drawn l := by
  obtain ⟨new, rfl⟩ := hl
  induction new with
  | nil => exact h
  | cons e new ih => exact ih h.1

theorem Drawn.begun (h : Drawn l) (hb : Begun l c T) :
    ∃ m, .note (.begun c T) :: m <:+ l ∧ newestTs m = some T := by
  obtain ⟨new, m, rfl⟩ := List.mem_iff_append.mp hb
  exact ⟨m, List.suffix_append new _, (h.suffix (List.suffix_append new _)).2⟩

theorem Drawn.planned (h : Drawn l) (hp : Planned l c T st L) :
    ∃ m, .note (.prepare c T st L) :: m <:+ l ∧ newestTs m = some st := by
  obtain ⟨new, m, rfl⟩ := List.mem_iff_append.mp hp
  exact ⟨m, List.suffix_append new _, (h.suffix (List.suffix_append new _)).2⟩

theorem Drawn.begin_mem (h : Drawn l) (hb : Begun l c T) : T ∈ clockTs l := by
  obtain ⟨m, hm, hT⟩ := h.begun hb
  exact mem_clockTs_mono ((List.suffix_cons _ m).trans hm) (newestTs_mem hT)

theorem Drawn.grown (h : Drawn l) (hg : Grown me (Event.Of n) l l') : Drawn l' := by
  obtain ⟨new, rfl, hnew⟩ := hg
  induction new with
  | nil => exact h
  | cons e new ih =>
    refine ⟨ih fun e he => hnew e (.tail _ he), ?_⟩
    cases e with
    | note e =>
      have he : Event.Of n e := hnew _ (.head _)
      cases e with
      | begun | prepare => exact he.elim
      | _ => trivial
    | _ => trivial

theorem Drawn.coord (h : Drawn s.hist) (hs : CoordStep cfg s c ℓ s') : Drawn s'.hist := by
  cases hs with
  | begins tv => exact ⟨⟨⟨h, trivial⟩, rfl⟩, trivial⟩
  | plans tv => exact ⟨⟨h, trivial⟩, rfl⟩
  | leavesOp h' req =>
    simp only [Sys.reply, Sys.log, Sys.setCoord]
    split_ifs
    · exact ⟨h, trivial⟩
    · exact ⟨⟨h, trivial⟩, trivial⟩
  | collects h' msg x σ rest m =>
    cases m with
    | rpcResponse => exact ⟨h, trivial⟩
    | transStateResponse => exact h
  | replies | rollsBack | hearsOp | completes | kills | killsCollecting | killsReading | killsBegun =>
    exact ⟨h, trivial⟩
  | _ => exact h

theorem Reach.drawn (hs : Reach cfg C s) : Drawn s.hist := by
  induction hs with
  | init => trivial
  | step _ _ hs ih =>
    rcases step_cases closed_true hs trivial with hn | ⟨c, hc⟩
    · obtain ⟨h, hg⟩ := hn.grown
      exact ih.grown hg
    · exact ih.coord hc

theorem AfterPlan.start_le (h : AfterPlan s.hist T x) (hd : Disc cfg s) (hu : DistinctBegin s.hist)
    (hdrawn : Drawn s.hist) (hc : ClockMono s.hist) (hp : Planned s.hist c T st L) : st ≤ x := by
  obtain ⟨m, hm, ⟨c', st', L', hp'⟩, hf⟩ := h
  have hp'' : Planned s.hist c' T st' L' := hm.subset hp'
  obtain rfl := begun_unique hu (hd.planned c T st L hp).1 (hd.planned c' T st' L' hp'').1
  obtain ⟨rfl, -⟩ := hd.plan_unique c T st st' L L' hp hp''
  obtain ⟨m', hm', hst⟩ := (hdrawn.suffix hm).planned hp'
  exact hf.le hc (mem_clockTs_mono ((List.suffix_cons _ m').trans hm') (newestTs_mem hst))

end Drawn

/-- On `n`, the transaction `T` is never committed before `b`. -/
def Late (s : Sys) (n : Host) (b T : String) : Prop := ((s.view T).vote n).Late b

/-- What holds in every run with an orderly history whose clocks do not go back and whose processes
do not stop between the two writes of a Prepare request. -/
structure Timely (cfg : Config) (s : Sys) : Prop where
  regular : Regular cfg s
  timed : Timed s
  sorted : AllSorted s
  dated : Dated s
  drawn : Drawn s.hist
  stamped : ∀ T, Stamped (s.view T)
  unique : DistinctBegin s.hist
  mono : ClockMono s.hist

theorem Reach.timely {cfg : Config} {s : Sys} (hs : Reach cfg WholePrepares s) (ha : Orderly s.hist)
    (hc : ClockMono s.hist) : Timely cfg s :=
  ⟨hs.regular ha, hs.timed ha.2.1, hs.allSorted ha, hs.dated, hs.drawn, hs.stamped ha.2.1, ha.2.1, hc⟩

section Late

variable {cfg : Config} {s s' : Sys} {n : Host} {ℓ : Label} {b T : String} {d : Data} {t : Trans}

theorem Late.step (h : Late s n b T) (ht : Timely cfg s) (hs : Tpc.step cfg s ℓ = some s')
    (hwhole : WholePrepares s ℓ) (hu : DistinctBegin s'.hist) (hc : ClockMono s'.hist)
    (hb : b ∈ clockTs s.hist) : Late s' n b T := by
  have hsafe := ht.regular.safe
  obtain ⟨L, hL⟩ := (hsafe.step hs hu).disc.exists_onlyPlan hu T
  have hsteps := (refines_step closed_true hsafe.disc hsafe.tasks hs trivial).steps T L hL
  refine Vote.Late.steps (fun hB => ?_) (fun x hx => hx.le hc hb) hsteps
    (hsafe.inv T L (hL.mono (step_hist hs).subset)) h
  rw [WholePrepares, hB] at hwhole
  simp at hwhole

theorem late_of_running (ht : ¬ PastBegin (s.node n).store T) : Late s n b T := by
  change (voteOf (transOf (s.node n).store T)).Late b
  cases h : transOf (s.node n).store T with
  | none => trivial
  | some t =>
    have hs : t.state = .begin := by
      by_contra hne
      exact ht ⟨t, h, hne⟩
    simp [voteOf, hs, Vote.Late]

theorem CommittedBefore.not_late (h : CommittedBefore (s.node n).store b d t) :
    ¬ Late s n b d.curVersion := by
  obtain ⟨ht, hs, hlt⟩ := h
  change ¬ (voteOf (transOf (s.node n).store d.curVersion)).Late b
  rw [ht, voteOf_commited hs]
  exact not_le_of_gt hlt

theorem Timely.late_of_hidden (h : Timely cfg s) (hd : Hidden (writerOf (s.node n).store) b d) :
    Late s n b d.curVersion := by
  change (voteOf (transOf (s.node n).store d.curVersion)).Late b
  cases ht : transOf (s.node n).store d.curVersion with
  | none => trivial
  | some t =>
    cases hs : t.state with
    | begin => simp [voteOf, hs, Vote.Late]
    | rollback =>
      simp only [voteOf, hs]
      split_ifs
      · trivial
      · trivial
    | commited => simpa [voteOf, hs, Vote.Late, Hidden, writerOf, ht] using hd
    | prepared =>
      have hle : b ≤ t.startTrans := by simpa [Hidden, writerOf, ht, hs] using hd
      obtain ⟨c, hp, -⟩ := ((h.regular.safe.tasks n).record _ t ht).of_prepared hs
      have hself : ((s.view d.curVersion).vote n).self? = some t.selfCommitTs := by
        change (voteOf (transOf (s.node n).store d.curVersion)).self? = _
        rw [ht, voteOf_of_prepared hs]
        rfl
      have hne : t.selfCommitTs ≠ ⊥ := fun he => h.stamped _ n (he ▸ hself)
      have hafter := (h.timed d.curVersion).self n _ hself hne
      rw [voteOf_of_prepared hs]
      exact hle.trans (hafter.start_le h.regular.safe.disc h.unique h.drawn h.mono hp)

end Late

/-- The answer of a read on `n` stands: all versions above the one that it returned are late, or all
versions where it returned none. -/
inductive Final (s : Sys) (n : Host) (a : Read) : Prop
  | version (top below : List Data) (d : Data) (t : Trans) :
      ProperChain (s.node n).store a.key (top ++ d :: below) →
      (∀ e ∈ top, Late s n a.inBeginTs e.curVersion) →
      CommittedBefore (s.node n).store a.inBeginTs d t → a.res = versionRes d t → Final s n a
  | missing (vs : List Data) : ProperChain (s.node n).store a.key vs →
      (∀ e ∈ vs, Late s n a.inBeginTs e.curVersion) → a.res = { code := 99 } → Final s n a

section Final

variable {cfg : Config} {s s' : Sys} {n : Host} {ℓ : Label} {key b T : String} {d : Data} {t : Trans}
  {a : Read} {st : Db.Store} {vs : List Data} {fuel : Nat} {r : ReadRes}

theorem readOf_succ {loopBeginTs : String} (h : readOf st T key fuel loopBeginTs = some r) :
    readOf st T key (fuel + 1) loopBeginTs = some r := by
  induction fuel generalizing loopBeginTs with
  | zero => simp [readOf] at h
  | succ fuel ih =>
    have older : ∀ next, (if next = "" then some { code := 99 }
        else readOf st T key fuel next) = some r →
        (if next = "" then some { code := 99 } else readOf st T key (fuel + 1) next) = some r := by
      intro next hn
      split_ifs at hn ⊢
      · exact hn
      · exact ih hn
    rw [readOf] at h ⊢
    cases hd : dataAt st (if loopBeginTs = "" then makeDataEntry key else makeData key loopBeginTs) with
    | none => simpa [hd] using h
    | some d =>
      simp only [hd] at h ⊢
      by_cases hT : d.curVersion = T
      · simpa only [if_pos hT] using h
      simp only [if_neg hT] at h ⊢
      cases ht : transOf st d.curVersion with
      | none => simpa [ht] using h
      | some t =>
        simp only [ht] at h ⊢
        cases hs : t.state with
        | begin | rollback =>
          simp only [hs] at h ⊢
          exact older d.next h
        | prepared =>
          simp only [hs] at h ⊢
          by_cases hlt : t.startTrans < T
          · simpa only [if_pos hlt] using h
          · simp only [if_neg hlt] at h ⊢
            exact older d.next h
        | commited =>
          simp only [hs] at h ⊢
          by_cases hlt : t.commitTrans < T
          · simpa only [if_pos hlt] using h
          · simp only [if_neg hlt] at h ⊢
            exact older d.next h

theorem readOf_unique (h : Chain st key vs) (hr : ∀ d ∈ vs, transOf st d.curVersion ≠ none)
    (hres : readOf st T key fuel "" = some r) : r = resOf st T (seen st T vs) := by
  have more : ∀ k, readOf st T key (fuel + k) "" = some r := by
    intro k
    induction k with
    | zero => exact hres
    | succ k ih => exact readOf_succ ih
  have hc : readOf st T key (fuel + (vs.length + 1)) "" = _ := readOf_chain h hr (by omega) (by omega)
  exact Option.some.inj ((more (vs.length + 1)).symm.trans hc)

theorem mem_replay {ws : List Write} (hd : d ∈ replay key [] ws) :
    ∃ w ∈ ws, w.key = key ∧ w.beginTs = d.curVersion := by
  have hnil : ∀ d ∈ ([] : List Data), ∀ a ∈ ws, a.key = key → a.beginTs ≠ d.curVersion := by simp
  obtain ⟨new, hnew, hmem⟩ := replay_above key hnil []
  rw [List.append_nil, List.append_nil] at hnew
  exact (hmem d (hnew ▸ hd)).resolve_left (by simp)

theorem Timely.final (h : Timely cfg s) (hlog : ProperChain (s.node n).store a.key
      (replay a.key [] (writes n s.hist)))
    (hres : readOf (s.node n).store a.inBeginTs a.key fuel "" = some a.res) (hcode : a.res.code ≠ 66)
    (hown : ∀ w ∈ writes n s.hist, w.key = a.key → w.beginTs ≠ a.inBeginTs) : Final s n a := by
  obtain ⟨vs, hv⟩ := h.sorted n a.key
  have hres := readOf_unique hv.proper.chain hv.record hres
  have hown' : ∀ d ∈ vs, d.curVersion ≠ a.inBeginTs := by
    intro d hd
    rw [hv.proper.chain.unique hlog.chain] at hd
    obtain ⟨w, hw, hk, he⟩ := mem_replay hd
    exact he ▸ hown w hw hk
  have hwait : ∀ d, seen (s.node n).store a.inBeginTs vs ≠ .wait d := by
    intro d hd
    rw [hd] at hres
    exact hcode (by rw [hres]; rfl)
  obtain ⟨top, rest, rfl, htop, hrest⟩ := read_split hwait
  have htop : ∀ e ∈ top, Late s n a.inBeginTs e.curVersion := fun e he => h.late_of_hidden (htop e he).2
  rcases hrest with ⟨rfl, hseen⟩ | ⟨d, below, rfl, hseen, hd⟩
  · refine .missing top (by simpa using hv.proper) htop ?_
    rw [hres, seen, hseen]
    rfl
  · have hne := hown' d (by simp)
    obtain ⟨c, hb⟩ := hd.resolve_left hne
    obtain ⟨t, ht, -⟩ := before_writerOf.mp hb
    refine .version top below d t hv.proper htop ht ?_
    rw [hres, seen, hseen]
    exact resOf_value hne ht.1

theorem CommittedBefore.step (h : CommittedBefore (s.node n).store b d t) (hsafe : Safe cfg s)
    (hs : Tpc.step cfg s ℓ = some s') (hu : DistinctBegin s'.hist) :
    ∃ t', CommittedBefore (s'.node n).store b d t' ∧ versionRes d t' = versionRes d t := by
  obtain ⟨ht, hc, hlt⟩ := h
  obtain ⟨t', ht', hc', hts⟩ := (hsafe.records hs hu n).finished _ t ht (.inr hc)
  have hc' := hc'.trans hc
  have hts := hts hc
  refine ⟨t', ⟨ht', hc', by rwa [hts]⟩, ?_⟩
  have hsafe' := hsafe.step hs hu
  obtain ⟨c, hp⟩ := ((hsafe.tasks n).record _ t ht).of_commited hc
  obtain ⟨c', hp'⟩ := ((hsafe'.tasks n).record _ t' ht').of_commited hc'
  have hp := (step_hist hs).subset hp
  obtain rfl := begun_unique hu (hsafe'.disc.planned _ _ _ _ hp).1 (hsafe'.disc.planned _ _ _ _ hp').1
  obtain ⟨hst, -⟩ := hsafe'.disc.plan_unique _ _ _ _ _ _ hp hp'
  simp [versionRes, hst, hts]

theorem Final.step (h : Final s n a) (ht : Timely cfg s) (hs : Tpc.step cfg s ℓ = some s')
    (hwhole : WholePrepares s ℓ) (ha : Orderly s'.hist) (hc : ClockMono s'.hist)
    (hb : a.inBeginTs ∈ clockTs s.hist) : Final s' n a := by
  obtain ⟨ws, hws⟩ := Replays.step ht.sorted ht.regular ht.dated hs ha n
  have late : ∀ {T}, Late s n a.inBeginTs T → Late s' n a.inBeginTs T := fun h =>
    h.step ht hs hwhole ha.2.1 hc hb
  -- the versions above are passed over in `s`, or written in the step
  have above : ∀ {top old : List Data}, (∀ e ∈ top, Late s n a.inBeginTs e.curVersion) →
      (∀ e ∈ old, PastBegin (s.node n).store e.curVersion) →
      ProperChain (s.node n).store a.key (top ++ old) →
      ∃ new, ProperChain (s'.node n).store a.key (new ++ old) ∧
        ∀ e ∈ new, Late s' n a.inBeginTs e.curVersion := by
    intro top old htop hold hp
    obtain ⟨new, hnew, hmem⟩ := replay_above a.key
      (fun d hd w hw _ he => hws.running w hw (he ▸ hold d hd)) top
    refine ⟨new, hnew ▸ hws.proper a.key _ hp, fun e he => late ?_⟩
    rcases hmem e he with he | ⟨w, hw, -, he⟩
    · exact htop e he
    · exact he ▸ late_of_running (hws.running w hw)
  cases h with
  | version top below d t hp htop hd hres =>
    obtain ⟨vs, hv⟩ := ht.sorted n a.key
    obtain rfl := hv.proper.chain.unique hp.chain
    have hold : ∀ e ∈ d :: below, PastBegin (s.node n).store e.curVersion := by
      rintro e (_ | ⟨_, he⟩)
      · exact ⟨t, hd.1, by simp [hd.2.1]⟩
      · have he : e ∈ below := he
        obtain ⟨u, hu, hf⟩ := hv.older e (by cases top <;> simp [he])
        exact ⟨u, hu, by rcases hf with hf | hf <;> simp [hf]⟩
    obtain ⟨new, hp', hnew⟩ := above htop hold hp
    obtain ⟨t', hd', he⟩ := hd.step ht.regular.safe hs ha.2.1
    exact .version new below d t' hp' hnew hd' (hres.trans he.symm)
  | missing vs hp hvs hres =>
    have hp : ProperChain (s.node n).store a.key (vs ++ []) := by rwa [List.append_nil]
    obtain ⟨new, hp', hnew⟩ := above hvs (by simp) hp
    exact .missing new (by simpa using hp') hnew hres

end Final

/-- The read stands, if it did not wait and the reader has not written the key. -/
structure Stands (s : Sys) (n : Host) (a : Read) : Prop where
  drawn : a.inBeginTs ∈ clockTs s.hist
  plain : a.forUpdate = false → a.inBeginTs = a.beginTs
  final : a.res.code ≠ 66 → (∀ w ∈ writes n s.hist, w.key = a.key → w.beginTs ≠ a.inBeginTs) →
    Final s n a

def Snapshots (s : Sys) : Prop := ∀ n, ∀ a ∈ reads n s.hist, Stands s n a

section Runs

variable {cfg : Config} {s s' : Sys} {n : Host} {ℓ : Label}

theorem Snapshots.step (h : Snapshots s) (ht : Timely cfg s) (ht' : Timely cfg s')
    (hlog : ∀ n key, ProperChain (s'.node n).store key (replay key [] (writes n s'.hist)))
    (hs : Tpc.step cfg s ℓ = some s') (hwhole : WholePrepares s ℓ) (ha : Orderly s'.hist)
    (hc : ClockMono s'.hist) : Snapshots s' := by
  intro n a hmem
  obtain ⟨ws, hws⟩ := Replays.step ht.sorted ht.regular ht.dated hs ha n
  have old : a ∈ reads n s.hist → Stands s' n a := by
    intro hmem
    obtain ⟨hb, hplain, hset⟩ := h n a hmem
    refine ⟨mem_clockTs_mono (step_hist hs) hb, hplain, fun hcode hown => ?_⟩
    refine (hset hcode fun w hw => hown w ?_).step ht hs hwhole ha hc hb
    rw [hws.log]
    exact List.mem_append_right ws hw
  cases read_move closed_orderly hs ha n with
  | quiet hq => exact old (hq ▸ hmem)
  | reads x σ req a' hσ hlive hn hreq hon hr hlog' _ =>
    rw [hlog'] at hmem
    rcases List.mem_cons.mp hmem with rfl | hmem
    · have hT : σ.vars.beginTs ≠ "" := hreq.elim (fun h => h.2.2) fun h => ht.dated.waits x σ req hσ h
      have hbegin := ht.drawn.begin_mem (ht.regular.safe.disc.vars x σ hσ hT)
      refine ⟨?_, fun hf => ?_, fun hcode hown => ?_⟩
      · by_cases hf : req.getForUpdate = 0
        · rw [(hr.plain hf).2]
          exact mem_clockTs_mono (step_hist hs) hbegin
        · exact (hr.update hf).2.mem
      · by_cases hz : req.getForUpdate = 0
        · rw [(hr.plain hz).2, hr.beginTs]
        · simp [(hr.update hz).1] at hf
      · obtain ⟨fuel, hres⟩ := hr.result.resolve_right fun h => orderly_not_mayFail h.2
        exact ht'.final (hlog n a.key) hres hcode hown
    · exact old hmem

theorem Reach.snapshots (hs : Reach cfg WholePrepares s) (ha : Orderly s.hist)
    (hc : ClockMono s.hist) : Snapshots s := by
  induction hs with
  | init => simp [Snapshots, reads]
  | step hr hw hstep ih =>
    have hl := step_hist hstep
    have ha₀ := closed_orderly _ _ hl ha
    have hc₀ := closed_clockMono _ _ hl hc
    have hs' := Reach.step hr hw hstep
    exact (ih ha₀ hc₀).step (hr.timely ha₀ hc₀) (hs'.timely ha hc) (hs'.replayed ha) hstep hw ha hc

end Runs

end Tpc
