import Tpc.Snapshots

/-! What a transaction can see of the others: committed versions only, the same ones again and again,
all writes of a transaction or none of them, and every commit that was acknowledged before it began. -/

namespace Tpc
open Durable PollCommit Versions

section Committed

variable {cfg : Config} {C : Sys → Label → Prop} {s s' : Sys} {n : Host} {ℓ : Label} {T key : String}
  {st : Db.Store} {fuel : Nat} {loopBeginTs : String} {r : ReadRes} {a : Read}

/-- What a read at `T` returns is its own version or a committed one. -/
theorem readOf_committed (h : readOf st T key fuel loopBeginTs = some r)
    (hcode : r.code = 0 ∨ r.code = 33) : r.retBeginTs = T ∨ ∃ t, transOf st r.retBeginTs = some t ∧
      t.state = .commited ∧ t.commitTrans = r.retCommitTs ∧ t.commitTrans < T := by
  induction fuel generalizing loopBeginTs with
  | zero => simp [readOf] at h
  | succ fuel ih =>
    have older : ∀ next, (if next = "" then some { code := 99 }
        else readOf st T key fuel next) = some r → r.retBeginTs = T ∨ ∃ t,
          transOf st r.retBeginTs = some t ∧ t.state = .commited ∧ t.commitTrans = r.retCommitTs ∧
            t.commitTrans < T := by
      intro next hn
      split_ifs at hn
      · obtain rfl := Option.some.inj hn
        simp at hcode
      · exact ih hn
    rw [readOf] at h
    cases hd : dataAt st (if loopBeginTs = "" then makeDataEntry key else makeData key loopBeginTs) with
    | none =>
      obtain rfl : _ = r := by simpa [hd] using h
      simp at hcode
    | some d =>
      simp only [hd] at h
      by_cases hT : d.curVersion = T
      · rw [if_pos hT] at h
        obtain rfl := Option.some.inj h
        exact .inl hT
      rw [if_neg hT] at h
      cases ht : transOf st d.curVersion with
      | none =>
        obtain rfl : _ = r := by simpa [ht] using h
        simp at hcode
      | some t =>
        simp only [ht] at h
        cases hs : t.state with
        | begin | rollback =>
          simp only [hs] at h
          exact older d.next h
        | prepared =>
          simp only [hs] at h
          by_cases hlt : t.startTrans < T
          · rw [if_pos hlt] at h
            obtain rfl := Option.some.inj h
            simp at hcode
          · rw [if_neg hlt] at h
            exact older d.next h
        | commited =>
          simp only [hs] at h
          by_cases hlt : t.commitTrans < T
          · rw [if_pos hlt] at h
            obtain rfl := Option.some.inj h
            exact .inr ⟨t, ht, hs, rfl, hlt⟩
          · rw [if_neg hlt] at h
            exact older d.next h

def Committed (s : Sys) (n : Host) (a : Read) : Prop :=
  a.res.code = 0 ∨ a.res.code = 33 → a.res.retBeginTs = a.inBeginTs ∨
    ∃ t, transOf (s.node n).store a.res.retBeginTs = some t ∧ t.state = .commited ∧
      t.commitTrans = a.res.retCommitTs ∧ t.commitTrans < a.inBeginTs

theorem Committed.step (h : Committed s n a) (hsafe : Safe cfg s) (hs : Tpc.step cfg s ℓ = some s')
    (hu : DistinctBegin s'.hist) : Committed s' n a := by
  intro hcode
  refine (h hcode).imp_right ?_
  rintro ⟨t, ht, hc, hts, hlt⟩
  obtain ⟨t', ht', hc', hts'⟩ := (hsafe.records hs hu n).finished _ t ht (.inr hc)
  have hts' := hts' hc
  exact ⟨t', ht', hc'.trans hc, hts'.trans hts, by rwa [hts']⟩

theorem Reach.committed (hs : Reach cfg C s) (hu : DistinctBegin s.hist) :
    ∀ n, ∀ a ∈ reads n s.hist, Committed s n a := by
  induction hs with
  | init => simp [reads]
  | @step s s' ℓ hr _ hstep ih =>
    have hu₀ := closed_distinctBegin _ _ (step_hist hstep) hu
    intro n a ha
    cases read_move closed_true hstep trivial n with
    | quiet hq => exact (ih hu₀ n a (hq ▸ ha)).step (hr.safe hu₀) hstep hu
    | reads x σ req a' _ _ _ _ _ hread hlog _ =>
      rw [hlog] at ha
      rcases List.mem_cons.mp ha with rfl | ha
      · intro hcode
        rcases hread.result with ⟨fuel, hres⟩ | ⟨he, -⟩
        · exact readOf_committed hres hcode
        · rw [he] at hcode
          exact absurd hcode (by decide)
      · exact (ih hu₀ n a ha).step (hr.safe hu₀) hstep hu

end Committed

theorem ClockStrict.mono {l : Hist} (h : ClockStrict l) : ClockMono l := h.imp le_of_lt

def readsBoth : List Label :=
  commitReply ++
  [.taskAsk hostB hostA 99 {}, .taskAsk hostA hostB 99 {}, .taskRecv hostB 99 {}, .taskRecv hostA 99 {},
   .request (client 1) { requestType := .begin } (atUsec 110) 0 true true,
   .request (client 1) { requestType := .get, key := "b" } (atUsec 0) 2 true true,
   .recv 2 {}, .beginAnswer (client 1) true, .recv 2 { fuel := 2 }, .opAnswer (client 1),
   .request (client 1) { requestType := .get, key := "a" } (atUsec 0) 3 true true,
   .recv 3 {}, .beginAnswer (client 1) true, .recv 3 { fuel := 2 }, .opAnswer (client 1),
   .request (client 2) { requestType := .begin } (atUsec 120) 0 true true,
   .request (client 2) { requestType := .update, key := "b", value := "w" } (atUsec 0) 4 true true,
   .recv 4 {}, .beginAnswer (client 2) true, .recv 4 {}, .opAnswer (client 2),
   .request (client 1) { requestType := .get, key := "b" } (atUsec 0) 2 true true,
   .recv 2 { fuel := 2 }, .opAnswer (client 1)]

def readOf100 (key : String) : Read :=
  ⟨key, "ts110", false, "ts110",
    { code := 0, retBeginTs := "ts100", retStartTs := "ts101", retCommitTs := "ts103" }⟩

def sinceBegin (l : Hist) : Hist := l.dropWhile fun e => e ≠ .note (.begun (client 1) "ts110")

theorem readsBoth_run : ∃ s : Sys, Reach twoHosts WholePrepares s ∧ Orderly s.hist ∧
    ClockStrict s.hist ∧ reads hostA s.hist = [readOf100 "b", readOf100 "b"] ∧
    reads hostB s.hist = [readOf100 "a"] ∧
    writes hostA s.hist = [⟨"b", "ts120", .update, "w"⟩, ⟨"b", "ts100", .update, ""⟩] ∧
    writes hostB s.hist = [⟨"a", "ts100", .update, ""⟩] ∧
    (sinceBegin s.hist).head? = some (.note (.begun (client 1) "ts110")) ∧
    .note committed ∈ (sinceBegin s.hist).tail := by
  have hrun : ((steps twoHosts WholePrepares {} readsBoth).map fun s =>
      (decide (Orderly s.hist ∧ ClockStrict s.hist),
        decide (reads hostA s.hist = [readOf100 "b", readOf100 "b"] ∧
          reads hostB s.hist = [readOf100 "a"]),
        decide (writes hostA s.hist = [⟨"b", "ts120", .update, "w"⟩, ⟨"b", "ts100", .update, ""⟩] ∧
          writes hostB s.hist = [⟨"a", "ts100", .update, ""⟩]),
        decide ((sinceBegin s.hist).head? = some (.note (.begun (client 1) "ts110")) ∧
          .note committed ∈ (sinceBegin s.hist).tail))) = some (true, true, true, true) := by
    decide +kernel
  obtain ⟨s, hs, hf⟩ := reach_of_map hrun
  simp only [Prod.mk.injEq, decide_eq_true_eq] at hf
  obtain ⟨⟨ha, hc⟩, ⟨hA, hB⟩, ⟨hwA, hwB⟩, hb, hm⟩ := hf
  exact ⟨s, hs, ha, hc, hA, hB, hwA, hwB, hb, hm⟩

/-- Dirty data are never read: whatever fails or crashes, where transactions have distinct `begin_ts`
and a read has returned a version of another one, that one is committed on the node with the returned
`commit_ts`, before the timestamp of the read, and it is rolled back on no node, now or later. -/
theorem reads_committed (cfg : Config) {s : Sys} (hs : Reach cfg anyStep s)
    (hu : DistinctBegin s.hist) {n : Host} {a : Read} (ha : a ∈ reads n s.hist)
    (hcode : a.res.code = 0 ∨ a.res.code = 33) (hother : a.res.retBeginTs ≠ a.inBeginTs) :
    (∃ t, transOf (s.node n).store a.res.retBeginTs = some t ∧ t.state = .commited ∧
      t.commitTrans = a.res.retCommitTs ∧ a.res.retCommitTs < a.inBeginTs) ∧
    ∀ m u, transOf (s.node m).store a.res.retBeginTs = some u → u.state ≠ .rollback := by
  obtain ⟨t, ht, hc, hts, hlt⟩ := (hs.committed hu n a ha hcode).resolve_left hother
  exact ⟨⟨t, ht, hc, hts, hts ▸ hlt⟩, fun m u hu' => (hs.safe hu).agree hu ht hu' hc⟩

theorem reads_committed_both : ∃ s : Sys, ∃ t, transOf (s.node hostA).store "ts100" = some t ∧
    t.state = .commited ∧ t.commitTrans = "ts103" := by
  obtain ⟨s, hs, ha, -, hA, -⟩ := readsBoth_run
  have hmem : readOf100 "b" ∈ reads hostA s.hist := by simp [hA]
  obtain ⟨⟨t, ht, hc, hts, -⟩, -⟩ := reads_committed twoHosts (hs.mono fun _ _ _ => trivial) ha.2.1
    hmem (.inl rfl) (by decide)
  exact ⟨s, t, ht, hc, hts⟩

section Snapshot

variable {cfg : Config} {s : Sys} {n P Q : Host} {b U : String} {a a' : Read} {t u : Trans}
  {w : Write}

theorem Final.split (h : Final s n a) : ∃ top rest,
    ProperChain (s.node n).store a.key (top ++ rest) ∧
      (∀ e ∈ top, Late s n a.inBeginTs e.curVersion) ∧
      ((rest = [] ∧ a.res = { code := 99 }) ∨ ∃ d below t, rest = d :: below ∧
        CommittedBefore (s.node n).store a.inBeginTs d t ∧ a.res = versionRes d t) := by
  cases h with
  | version top below d t hp htop hd hres =>
    exact ⟨top, d :: below, hp, htop, .inr ⟨d, below, t, rfl, hd, hres⟩⟩
  | missing vs hp hvs hres =>
    exact ⟨vs, [], by rwa [List.append_nil], hvs, .inl ⟨rfl, hres⟩⟩

/-- Final reads of a key at one timestamp have one answer. -/
theorem Final.unique (h : Final s n a) (h' : Final s n a') (hk : a'.key = a.key)
    (hb : a'.inBeginTs = a.inBeginTs) : a'.res = a.res := by
  obtain ⟨top, rest, hp, htop, hrest⟩ := h.split
  obtain ⟨top', rest', hp', htop', hrest'⟩ := h'.split
  rw [hk] at hp'
  rw [hb] at htop' hrest'
  have head : ∀ {l : List Data} {r : ReadRes}, ((l = [] ∧ r = { code := 99 }) ∨
      ∃ d below t, l = d :: below ∧ CommittedBefore (s.node n).store a.inBeginTs d t ∧
        r = versionRes d t) →
      ∀ v, l.head? = some v → ¬ Late s n a.inBeginTs v.curVersion := by
    rintro l r (⟨rfl, -⟩ | ⟨d, below, t, rfl, hd, -⟩) v hv
    · cases hv
    · obtain rfl := Option.some.inj hv
      exact hd.not_late
  obtain rfl := rest_unique (hp.chain.unique hp'.chain) htop htop' (head hrest) (head hrest')
  rcases hrest with ⟨rfl, hres⟩ | ⟨d, below, t, rfl, hd, hres⟩
  · rcases hrest' with ⟨-, hres'⟩ | ⟨_, _, _, he, -⟩
    · rw [hres, hres']
    · cases he
  · rcases hrest' with ⟨he, -⟩ | ⟨d', below', t', he, hd', hres'⟩
    · cases he
    · obtain ⟨rfl, -⟩ := List.cons.inj he
      obtain rfl := Option.some.inj (hd.1.symm.trans hd'.1)
      rw [hres, hres']

/-- A transaction that is committed before `b` on one node is late on no node that has a record of
it. -/
theorem Timely.not_late (h : Timely cfg s) (ht : transOf (s.node P).store U = some t)
    (hc : t.state = .commited) (hlt : t.commitTrans < b)
    (hu : transOf (s.node Q).store U = some u) : ¬ Late s Q b U := by
  intro hlate
  obtain ⟨L, hL⟩ := h.regular.safe.disc.exists_onlyPlan h.unique U
  obtain ⟨c, hplan⟩ := ((h.regular.safe.tasks P).record U t ht).of_commited hc
  have hQ : Q ∈ L := hL c _ _ hplan ▸ h.regular.safe.mem_plan hplan hu
  have hP : (s.view U).vote P = .commited t.selfCommitTs t.commitTrans := by
    rw [← voteOf_commited hc, ← ht]
    rfl
  have hinv := h.regular.safe.inv U L hL
  -- what `Q` has voted is not above the commit timestamp
  obtain ⟨x, hx, hle⟩ := (hinv.commited P _ _ hP).2 Q hQ
  change ((s.view U).vote Q).Late b at hlate
  cases hv : (s.view U).vote Q with
  | prepared y =>
    rw [hv] at hx hlate
    obtain rfl := Option.some.inj hx
    exact absurd (hlate.trans hle) (not_le_of_gt hlt)
  | commited y c =>
    rw [hv] at hlate
    rw [hinv.commit_agree (h.stamped U) hP hv] at hlt
    exact absurd hlate (not_le_of_gt hlt)
  | rolledBack y => exact (hinv.agree hP hQ).2 y hv
  | absent | running | aborted =>
    rw [hv] at hx
    cases hx

/-- The answer `res` of a read at `b` is the version of `U` or a committed one above it. -/
def AtOrAbove (st : Db.Store) (key b U : String) (res : ReadRes) : Prop :=
  ∃ top below d t, Chain st key (top ++ d :: below) ∧ CommittedBefore st b d t ∧
    res = versionRes d t ∧ ∃ e ∈ d :: below, e.curVersion = U

theorem Stands.atOrAbove (h : Stands s Q a) (ht : Timely cfg s)
    (hlog : ProperChain (s.node Q).store a.key (replay a.key [] (writes Q s.hist)))
    (hplain : a.forUpdate = false) (hdone : a.res.code ≠ 66)
    (hown : ∀ w ∈ writes Q s.hist, w.key = a.key → w.beginTs ≠ a.beginTs)
    (hw : w ∈ writes Q s.hist) (hk : w.key = a.key)
    (hlate : ∀ u, transOf (s.node Q).store w.beginTs = some u → ¬ Late s Q a.inBeginTs w.beginTs) :
    AtOrAbove (s.node Q).store a.key a.beginTs w.beginTs a.res := by
  have hb := h.plain hplain
  obtain ⟨e, he, hew⟩ := replay_mem [] hw hk
  obtain ⟨vs, hv⟩ := ht.sorted Q a.key
  obtain rfl := hv.proper.chain.unique hlog.chain
  obtain ⟨u, hu⟩ := Option.ne_none_iff_exists'.mp (hv.record e he)
  have hlate : ¬ Late s Q a.inBeginTs e.curVersion := by
    rw [hew] at hu ⊢
    exact hlate u hu
  cases h.final hdone fun w hw hk => hb ▸ hown w hw hk with
  | version top below d t hp htop hd hres =>
    refine ⟨top, below, d, t, hp.chain, hb ▸ hd, hres, e, ?_, hew⟩
    rw [hv.proper.chain.unique hp.chain] at he
    exact (List.mem_append.mp he).resolve_left fun hm => hlate (htop e hm)
  | missing vs' hp hvs hres =>
    rw [hv.proper.chain.unique hp.chain] at he
    exact absurd (hvs e he) hlate

def CommittedSomewhere (s : Sys) (b U : String) : Prop :=
  ∃ P t, transOf (s.node P).store U = some t ∧ t.state = .commited ∧ t.commitTrans < b

open Classical in
/-- The newest version of `vs` that belongs to the snapshot at `b`. -/
noncomputable def snapshotOf (s : Sys) (b : String) (vs : List Data) : Option Data :=
  vs.find? fun d => CommittedSomewhere s b d.curVersion

def SnapshotRes (s : Sys) (n : Host) (d : Option Data) (res : ReadRes) : Prop :=
  match d with
  | none => res = { code := 99 }
  | some d => ∃ t, transOf (s.node n).store d.curVersion = some t ∧ t.state = .commited ∧
      res = versionRes d t

theorem Stands.snapshot (h : Stands s n a) (ht : Timely cfg s) (hplain : a.forUpdate = false)
    (hdone : a.res.code ≠ 66)
    (hown : ∀ w ∈ writes n s.hist, w.key = a.key → w.beginTs ≠ a.beginTs) :
    ∃ vs, Chain (s.node n).store a.key vs ∧
      SnapshotRes s n (snapshotOf s a.beginTs vs) a.res := by
  have hb := h.plain hplain
  obtain ⟨top, rest, hp, htop, hrest⟩ := (h.final hdone fun w hw hk => hb ▸ hown w hw hk).split
  obtain ⟨vs, hv⟩ := ht.sorted n a.key
  obtain rfl := hv.proper.chain.unique hp.chain
  have hout : ∀ e ∈ top, ¬ CommittedSomewhere s a.beginTs e.curVersion := by
    rintro e he ⟨P, t, ht', hc, hlt⟩
    obtain ⟨u, hu⟩ := Option.ne_none_iff_exists'.mp (hv.record e (List.mem_append_left _ he))
    exact ht.not_late ht' hc hlt hu (hb ▸ htop e he)
  refine ⟨_, hp.chain, ?_⟩
  rcases hrest with ⟨rfl, hres⟩ | ⟨d, below, t, rfl, hd, hres⟩
  · have hnone : snapshotOf s a.beginTs (top ++ []) = none := by
      rw [snapshotOf, List.append_nil, List.find?_eq_none]
      simpa using hout
    rw [hnone]
    exact hres
  · have hin : CommittedSomewhere s a.beginTs d.curVersion := ⟨n, t, hd.1, hd.2.1, hb ▸ hd.2.2⟩
    have hsome : snapshotOf s a.beginTs (top ++ d :: below) = some d := by
      rw [snapshotOf, List.find?_eq_some_iff_append]
      exact ⟨by simpa using hin, top, below, rfl, by simpa using hout⟩
    rw [hsome]
    exact ⟨t, hd.1, hd.2.1, hres⟩

end Snapshot

/-- Reads are repeatable: a transaction that reads a key again, whatever has been written, committed
or restarted in the meantime, gets the same answer, unless it is told to wait or has written the key
itself. -/
theorem repeatable_reads (cfg : Config) {s : Sys} (hs : Reach cfg WholePrepares s)
    (hdb : NoDbError s.hist) (hu : DistinctBegin s.hist) (hw : ClientsWait s.hist)
    (hc : ClockMono s.hist) {n : Host} {a a' : Read} (ha : a ∈ reads n s.hist)
    (ha' : a' ∈ reads n s.hist) (hplain : a.forUpdate = false) (hplain' : a'.forUpdate = false)
    (hkey : a'.key = a.key) (hreader : a'.beginTs = a.beginTs) (hdone : a.res.code ≠ 66)
    (hdone' : a'.res.code ≠ 66)
    (hown : ∀ w ∈ writes n s.hist, w.key = a.key → w.beginTs ≠ a.beginTs) : a'.res = a.res := by
  have hsn := hs.snapshots ⟨hdb, hu, hw⟩ hc n
  obtain ⟨-, hb, hset⟩ := hsn a ha
  obtain ⟨-, hb', hset'⟩ := hsn a' ha'
  have hb := hb hplain
  have hb' := (hb' hplain').trans hreader
  refine (hset hdone ?_).unique (hset' hdone' ?_) hkey (hb'.trans hb.symm)
  · rw [hb]
    exact hown
  · rw [hb', hkey]
    exact hown

theorem repeatable_reads_both : ∃ (s : Sys) (a : Read), a ∈ reads hostA s.hist ∧
    ⟨"b", "ts120", .update, "w"⟩ ∈ writes hostA s.hist ∧ a.res = (readOf100 "b").res := by
  obtain ⟨s, hs, ha, hc, hA, -, hwA, -⟩ := readsBoth_run
  have hmem : readOf100 "b" ∈ reads hostA s.hist := by simp [hA]
  refine ⟨s, _, hmem, by simp [hwA], ?_⟩
  refine repeatable_reads twoHosts hs ha.1 ha.2.1 ha.2.2 hc.mono hmem hmem rfl rfl rfl rfl (by decide)
    (by decide) ?_
  rw [hwA]
  decide

/-- A transaction sees all of another one or nothing of it: where one of its reads has returned a
version of `U`, each of its reads of a key that `U` has written, on whatever node and in whatever
order, returns the version of `U` or a committed one above it. -/
theorem atomic_visibility (cfg : Config) {s : Sys} (hs : Reach cfg WholePrepares s)
    (hdb : NoDbError s.hist) (hu : DistinctBegin s.hist) (hw : ClientsWait s.hist)
    (hc : ClockMono s.hist) {P Q : Host} {a a' : Read} {w : Write} (ha : a ∈ reads P s.hist)
    (ha' : a' ∈ reads Q s.hist) (hplain : a.forUpdate = false) (hplain' : a'.forUpdate = false)
    (hreader : a'.beginTs = a.beginTs) (hcode : a.res.code = 0 ∨ a.res.code = 33)
    (hother : a.res.retBeginTs ≠ a.beginTs) (hdone' : a'.res.code ≠ 66)
    (hwr : w ∈ writes Q s.hist) (hkey : w.key = a'.key) (hwriter : w.beginTs = a.res.retBeginTs)
    (hown : ∀ w ∈ writes Q s.hist, w.key = a'.key → w.beginTs ≠ a.beginTs) :
    AtOrAbove (s.node Q).store a'.key a'.beginTs a.res.retBeginTs a'.res := by
  have hall : Orderly s.hist := ⟨hdb, hu, hw⟩
  have hti := hs.timely hall hc
  have hb := (hs.snapshots hall hc P a ha).plain hplain
  obtain ⟨t, ht, hcom, -, hlt⟩ := (hs.committed hu P a ha hcode).resolve_left (hb ▸ hother)
  have hstands := hs.snapshots hall hc Q a' ha'
  rw [← hwriter]
  refine hstands.atOrAbove hti (hs.replayed hall Q a'.key) hplain' hdone' (hreader ▸ hown) hwr hkey
    fun u hu' => ?_
  rw [hwriter] at hu' ⊢
  rw [hstands.plain hplain', hreader, ← hb]
  exact hti.not_late ht hcom hlt hu'

theorem atomic_visibility_both : ∃ s : Sys,
    AtOrAbove (s.node hostB).store "a" "ts110" "ts100" (readOf100 "a").res := by
  obtain ⟨s, hs, ha, hc, hA, hB, -, hwB, -⟩ := readsBoth_run
  have hmem : readOf100 "b" ∈ reads hostA s.hist := by simp [hA]
  have hmem' : readOf100 "a" ∈ reads hostB s.hist := by simp [hB]
  have hwr : ⟨"a", "ts100", .update, ""⟩ ∈ writes hostB s.hist := by simp [hwB]
  refine ⟨s, atomic_visibility twoHosts hs ha.1 ha.2.1 ha.2.2 hc.mono hmem hmem' rfl rfl rfl (.inl rfl)
    (by decide) (by decide) hwr rfl rfl ?_⟩
  rw [hwB]
  decide

/-- All reads of a transaction come from one snapshot: a read returns the newest version of the key that
is committed on whatever node before the transaction began, and nothing where there is none, unless
it is told to wait or the transaction has written the key itself. -/
theorem reads_one_snapshot (cfg : Config) {s : Sys} (hs : Reach cfg WholePrepares s)
    (hdb : NoDbError s.hist) (hu : DistinctBegin s.hist) (hw : ClientsWait s.hist)
    (hc : ClockMono s.hist) {n : Host} {a : Read} (ha : a ∈ reads n s.hist)
    (hplain : a.forUpdate = false) (hdone : a.res.code ≠ 66)
    (hown : ∀ w ∈ writes n s.hist, w.key = a.key → w.beginTs ≠ a.beginTs) :
    ∃ vs, Chain (s.node n).store a.key vs ∧ SnapshotRes s n (snapshotOf s a.beginTs vs) a.res := by
  have hall : Orderly s.hist := ⟨hdb, hu, hw⟩
  exact (hs.snapshots hall hc n a ha).snapshot (hs.timely hall hc) hplain hdone hown

theorem reads_one_snapshot_both : ∃ (s : Sys) (vs : List Data), Chain (s.node hostB).store "a" vs ∧
    SnapshotRes s hostB (snapshotOf s "ts110" vs) (readOf100 "a").res := by
  obtain ⟨s, hs, ha, hc, -, hB, -, hwB, -⟩ := readsBoth_run
  have hmem : readOf100 "a" ∈ reads hostB s.hist := by simp [hB]
  refine ⟨s, reads_one_snapshot twoHosts hs ha.1 ha.2.1 ha.2.2 hc.mono hmem rfl (by decide) ?_⟩
  rw [hwB]
  decide

section Acknowledged

variable {cfg : Config} {s s' : Sys} {c d : CoordId} {ℓ : Label} {me : Proc} {N : Event → Prop}
  {l l' m : Hist} {e : Event} {U R : String} {res : CliRes} {Q : Host} {u : Trans}

theorem suffix_grown (hg : Grown me N l l') (he : ¬ N e) (h : .note e :: m <:+ l') :
    .note e :: m <:+ l := by
  obtain ⟨new, rfl, hnew⟩ := hg
  induction new with
  | nil => exact h
  | cons e' new ih =>
    rcases List.suffix_cons_iff.mp h with he' | h
    · obtain ⟨rfl, -⟩ := List.cons.inj he'
      exact absurd (hnew _ (.head _)) he
    · exact ih (fun e he => hnew e (.tail _ he)) h

theorem begun_move (hs : Tpc.step cfg s ℓ = some s') (h : .note (.begun d R) :: m <:+ s'.hist) :
    .note (.begun d R) :: m <:+ s.hist ∨ ∃ p tv, m = .clock p tv :: s.hist ∧ R = getTS tv := by
  have old : ∀ {e : Entry Proc Timeval Event} {l : Hist}, e ≠ .note (.begun d R) →
      .note (.begun d R) :: m <:+ e :: l → .note (.begun d R) :: m <:+ l := by
    intro e l he h
    rcases List.suffix_cons_iff.mp h with h | h
    · exact absurd (List.cons.inj h).1.symm he
    · exact h
  rcases step_cases closed_true hs trivial with hn | ⟨c, hc⟩
  · obtain ⟨k, hg⟩ := hn.grown
    exact .inl (suffix_grown hg (fun h => h) h)
  cases hc with
  | begins tv =>
    rcases List.suffix_cons_iff.mp (old (by simp) h) with he | h
    · obtain ⟨he, rfl⟩ := List.cons.inj he
      cases he
      exact .inr ⟨_, tv, rfl, rfl⟩
    · exact .inl (old (by simp) h)
  | plans tv => exact .inl (old (by simp) (old (by simp) h))
  | leavesOp h' req =>
    simp only [Sys.reply, Sys.log, Sys.setCoord] at h
    split_ifs at h
    · exact .inl (old (by simp) h)
    · exact .inl (old (by simp) (old (by simp) h))
  | collects h' msg x σ rest r =>
    cases r with
    | rpcResponse => exact .inl (old (by simp) h)
    | transStateResponse => exact .inl h
  | replies | rollsBack | hearsOp | completes | kills | killsCollecting | killsReading | killsBegun =>
    exact .inl (old (by simp) h)
  | _ => exact .inl h

/-- All participants of `U` have voted, with timestamps before `R`. -/
def VotedBefore (s : Sys) (U R : String) : Prop :=
  ∃ c st L, Planned s.hist c U st L ∧ ∀ h ∈ L, ∃ x, ((s.view U).vote h).self? = some x ∧ x < R

/-- The participants of an acknowledged commit have voted before each later Begin. -/
def Acked (s : Sys) : Prop :=
  ∀ d R m, .note (.begun d R) :: m <:+ s.hist → ∀ c U res,
    .note (.replied c .commit U res) ∈ m → res.result = 0 → VotedBefore s U R

theorem VotedBefore.later (h : VotedBefore s U R) (hl : s.hist ⊆ s'.hist)
    (hv : Later (s.view U) (s'.view U)) : VotedBefore s' U R := by
  obtain ⟨c, st, L, hp, hL⟩ := h
  refine ⟨c, st, L, hl hp, fun n hn => ?_⟩
  obtain ⟨x, hx, hlt⟩ := hL n hn
  exact ⟨x, hv.self n x hx, hlt⟩

theorem Timely.votedBefore (h : Timely cfg s) (hs : Reach cfg WholePrepares s)
    (hw : ClientsWait s.hist) (hdb : NoDbError s.hist) (hlt : ∀ x ∈ clockTs s.hist, x < R)
    (hm : .note (.replied c .commit U res) ∈ s.hist) (h0 : res.result = 0) :
    VotedBefore s U R := by
  have hearly : .note (.early c) ∉ s.hist := fun he => hw _ he
  obtain ⟨st, L, hp, hv⟩ :=
    (hs.turns closed_noDbError (fun h => absurd h not_mayFail) hdb h.unique hearly).told U res hm h0
  refine ⟨c, st, L, hp, fun n hn => ?_⟩
  obtain ⟨x, hx⟩ := hv n hn
  have hne : x ≠ ⊥ := by
    rintro rfl
    exact h.stamped U n hx
  exact ⟨x, hx, hlt x ((h.timed U).self n x hx hne).mem⟩

theorem Acked.step (h : Acked s) (hr : Reach cfg WholePrepares s) (ht : Timely cfg s)
    (hs : Tpc.step cfg s ℓ = some s') (ha : Orderly s'.hist) (hc : ClockStrict s'.hist) :
    Acked s' := by
  intro d R m hm c U res hmem h0
  have hl := step_hist hs
  have hlater := ht.regular.safe.later hs ha.2.1 U
  rcases begun_move hs hm with hm | ⟨p, tv, rfl, rfl⟩
  · exact (h d R m hm c U res hmem h0).later hl.subset hlater
  · have ha₀ := closed_orderly _ _ hl ha
    have hmem : .note (.replied c .commit U res) ∈ s.hist := by simpa using hmem
    -- the reading for `R` is newer than all readings of `s`
    have hc := closed_clockStrict _ _ ((List.suffix_cons _ _).trans hm) hc
    exact (ht.votedBefore hr ha₀.2.2 ha₀.1 (List.pairwise_cons.mp hc).1 hmem h0).later hl.subset hlater

theorem Reach.acked (hs : Reach cfg WholePrepares s) (ha : Orderly s.hist)
    (hc : ClockStrict s.hist) : Acked s := by
  induction hs with
  | init => exact fun d R m hm => by simp at hm
  | step hr hw hstep ih =>
    have hl := step_hist hstep
    have ha₀ := closed_orderly _ _ hl ha
    have hc₀ := closed_clockStrict _ _ hl hc
    exact (ih ha₀ hc₀).step hr (hr.timely ha₀ hc₀.mono) hstep ha hc

/-- What has been voted for before `R` is late on no node. -/
theorem VotedBefore.not_late (h : VotedBefore s U R) (ht : Timely cfg s)
    (hu : transOf (s.node Q).store U = some u) : ¬ Late s Q R U := by
  intro hlate
  obtain ⟨c, st, L', hp, hv⟩ := h
  obtain ⟨L, hL⟩ := ht.regular.safe.disc.exists_onlyPlan ht.unique U
  obtain rfl := hL c st L' hp
  have hinv := ht.regular.safe.inv U L' hL
  have hQ := ht.regular.safe.mem_plan hp hu
  obtain ⟨x, hx, hlt⟩ := hv Q hQ
  have voted : ∀ n ∈ L', ((s.view U).vote n).self? ≠ none := by
    intro n hn he
    obtain ⟨y, hy, -⟩ := hv n hn
    simp [he] at hy
  change ((s.view U).vote Q).Late R at hlate
  cases hvQ : (s.view U).vote Q with
  | prepared y =>
    rw [hvQ] at hx hlate
    obtain rfl := Option.some.inj hx
    exact absurd hlate (not_le_of_gt hlt)
  | commited y c =>
    rw [hvQ] at hlate
    -- the commit timestamp is the vote of a participant
    obtain ⟨k, hk, hc | hb⟩ := (hinv.commited Q y c hvQ).1
    · obtain ⟨z, hz, hlt⟩ := hv k hk
      obtain rfl := Option.some.inj (hc.symm.trans hz)
      exact absurd hlate (not_le_of_gt hlt)
    · exact ht.stamped U k hb
  | rolledBack y =>
    obtain ⟨k, hk, ha⟩ := hinv.rolledBack Q y hvQ
    exact voted k hk (by rw [ha]; rfl)
  | absent | running | aborted =>
    rw [hvQ] at hx
    cases hx

end Acknowledged

/-- What is acknowledged is seen: once a client has been told that `U` is committed, every
transaction that begins later, at whatever `logicServ`, reads the version of `U` or a committed one
above it, or is told to wait, wherever `U` has written. -/
theorem acknowledged_commits_seen (cfg : Config) {s : Sys} (hs : Reach cfg WholePrepares s)
    (hdb : NoDbError s.hist) (hu : DistinctBegin s.hist) (hw : ClientsWait s.hist)
    (hc : ClockStrict s.hist) {c d : CoordId} {U R : String} {res : CliRes} {m : Hist}
    (hbegun : .note (.begun d R) :: m <:+ s.hist) (hack : .note (.replied c .commit U res) ∈ m)
    (h0 : res.result = 0) {Q : Host} {a : Read} {w : Write} (ha : a ∈ reads Q s.hist)
    (hreader : a.beginTs = R) (hplain : a.forUpdate = false) (hdone : a.res.code ≠ 66)
    (hwr : w ∈ writes Q s.hist) (hkey : w.key = a.key) (hwriter : w.beginTs = U)
    (hown : ∀ w ∈ writes Q s.hist, w.key = a.key → w.beginTs ≠ R) :
    AtOrAbove (s.node Q).store a.key R U a.res := by
  subst hreader hwriter
  have hall : Orderly s.hist := ⟨hdb, hu, hw⟩
  have hti := hs.timely hall hc.mono
  have hstands := hs.snapshots hall hc.mono Q a ha
  refine hstands.atOrAbove hti (hs.replayed hall Q a.key) hplain hdone hown hwr hkey fun u hu' => ?_
  rw [hstands.plain hplain]
  exact (hs.acked hall hc d _ m hbegun c _ res hack h0).not_late hti hu'

theorem acknowledged_commits_seen_both : ∃ s : Sys,
    AtOrAbove (s.node hostB).store "a" "ts110" "ts100" (readOf100 "a").res := by
  obtain ⟨s, hs, ha, hc, -, hB, -, hwB, hb, hm⟩ := readsBoth_run
  have hmem : readOf100 "a" ∈ reads hostB s.hist := by simp [hB]
  have hwr : ⟨"a", "ts100", .update, ""⟩ ∈ writes hostB s.hist := by simp [hwB]
  obtain ⟨l, hl⟩ : ∃ l, sinceBegin s.hist = .note (.begun (client 1) "ts110") :: l :=
    List.head?_eq_some_iff.mp hb
  rw [hl] at hm
  have hsuffix : .note (.begun (client 1) "ts110") :: l <:+ s.hist := hl ▸ List.dropWhile_suffix _
  refine ⟨s, acknowledged_commits_seen twoHosts hs ha.1 ha.2.1 ha.2.2 hc hsuffix hm rfl hmem rfl rfl
    (by decide) hwr rfl rfl ?_⟩
  rw [hwB]
  decide

end Tpc
