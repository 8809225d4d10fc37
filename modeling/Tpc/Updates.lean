import Tpc.Isolation

/-! Reads for update. Who has read a key with `get_for_update` has seen its newest committed version,
and writes right above it. -/

namespace Tpc
open Durable PollCommit Versions

section Locks

variable {cfg : Config} {s s' : Sys} {n : Host} {ℓ : Label} {key T : String} {ws : List Write}

theorem Replays.kept (hws : Replays n s s' ws) (hs : Tpc.step cfg s ℓ = some s')
    (ha : Orderly s'.hist) (hheld : lockOf (s.node n).store key = some T)
    (hf : ¬ FinishedOn (s.node n).store T) :
    lockOf (s'.node n).store key = some T ∧ ∀ w ∈ ws, w.key = key → w.beginTs = T := by
  have granted : ∀ {σ req fates st}, Locks s σ req fates ℓ → σ.host = n →
      LockBy fates req.key σ.vars.beginTs (s.node n).store st →
      lockOf st key = some T ∧ (req.key = key → σ.vars.beginTs = T) := by
    rintro σ req fates st hlocks rfl hg
    have hgr := hlocks.granted hs ha.1 hg
    by_cases hk : req.key = key
    · subst hk
      have hl := hgr.lock hheld hf
      exact ⟨hl, fun _ => Option.some.inj ((hgr.sound id).1.symm.trans hl)⟩
    · exact ⟨(hg.lockOf_ne (Ne.symm hk)).trans hheld, fun h => absurd h hk⟩
  have quiet : writes n s'.hist = writes n s.hist → ws = [] := fun h => by
    simpa using hws.log.symm.trans h
  cases store_move closed_orderly hs ha n with
  | frame hframe hlog =>
    obtain rfl := quiet hlog
    refine ⟨?_, by simp⟩
    rw [lockOf, hframe _ ?_]
    · exact hheld
    · rintro ⟨U, hU⟩
      exact makeTrans_ne_makeLock _ _ hU.symm
  | locks σ req fates hlocks hn hg hlog =>
    obtain rfl := quiet hlog
    exact ⟨(granted hlocks hn hg).1, by simp⟩
  | breaks σ req fates st hlocks hn hg hhalf hlog =>
    obtain rfl := quiet hlog
    exact ⟨(hhalf.lockOf_eq key).trans (granted hlocks hn hg).1, by simp⟩
  | writes σ req fates st hlocks hn hg hw hlog =>
    obtain ⟨hl, hT⟩ := granted hlocks hn hg
    have hone : ws = [⟨req.key, σ.vars.beginTs, req.requestType, req.value⟩] :=
      List.append_cancel_right (hws.log.symm.trans hlog)
    refine ⟨(hw.lockOf_eq key).trans hl, fun w hw hk => ?_⟩
    obtain rfl := List.mem_singleton.mp (hone ▸ hw)
    exact hT hk

end Locks

def HoldsLock (s : Sys) : Prop :=
  ∀ x σ req res, s.sess x = some σ → σ.live = true → σ.wait = .read req res →
    req.getForUpdate ≠ 0 → lockOf (s.node σ.host).store req.key = some σ.vars.beginTs

section HoldsLock

variable {cfg : Config} {C : Sys → Label → Prop} {A : Hist → Prop} {s s' : Sys} {ℓ : Label}
  {self : Host} {fates : List Fate} {fuel : Nat} {v : Vars} {req req' : RpcReq} {res res' : RpcRes}
  {w w' : DbWorld} {seg : Seg} {me : Proc}

theorem ReadEnd.wait_eq (h : ReadEnd A me self fuel v req res w seg w')
    (hn : seg.next = .wait (.read req' res')) : req' = req := by
  obtain ⟨-, l, ts, m, r, -, -, -, -, rfl⟩ := h
  rcases readSeg_next v req res r with ⟨_, he⟩ | ⟨_, he, -⟩
  · rw [he] at hn
    cases hn
  · rw [he] at hn
    cases hn
    rfl

theorem AccessEnd.holdsLock (h : AccessEnd A fates self fuel v req res w seg w')
    (hn : seg.next = .wait (.read req' res')) (hf : req'.getForUpdate ≠ 0) :
    req' = req ∧ (req.requestType = .get → req.getForUpdate ≠ 0) ∧
      LockBy fates req'.key v.beginTs w.store w'.store := by
  cases h with
  | reads _ hz hr =>
    obtain rfl := hr.wait_eq hn
    exact absurd hz hf
  | gets _ _ hg =>
    cases hg with
    | waits => cases hn
    | reads w₁ _ _ hlock hr =>
      obtain rfl := hr.wait_eq hn
      exact ⟨rfl, fun _ => hf, hr.1 ▸ hlock.1⟩
  | writes _ hwr => cases hwr <;> cases hn

theorem served_holds {x : Nat} {τ σ : Session} (hσ : (s.served x τ seg w).sess x = some σ)
    (hwait : σ.wait = .read req res)
    (h : seg.next = .wait (.read req res) → lockOf w.store req.key = some seg.vars.beginTs) :
    lockOf ((s.served x τ seg w).node σ.host).store req.key = some σ.vars.beginTs := by
  change Function.update s.sess x (some (τ.after seg)) x = some σ at hσ
  rw [Function.update_self] at hσ
  obtain rfl := Option.some.inj hσ
  rcases after_wait _ _ hwait with he | hn
  · cases he
  · rw [served_store, after_host, if_pos rfl, after_vars]
    exact h hn

theorem HoldsLock.step (h : HoldsLock s) (hreg : Regular cfg s) (hsorted : AllSorted s) (hd : Dated s)
    (hs : Tpc.step cfg s ℓ = some s') (ha : Orderly s'.hist) : HoldsLock s' := by
  intro x σ' req res hσ' hlive hwait hf
  -- the coroutine waits before and after the step
  have old : ∀ σ, s.sess x = some σ → σ.live = true → σ.wait = .read req res → σ'.host = σ.host →
      σ'.vars = σ.vars → lockOf (s'.node σ'.host).store req.key = some σ'.vars.beginTs := by
    intro σ hσ hl hw hhost hvars
    rw [hhost, hvars]
    obtain ⟨ws, hws⟩ := Replays.step hsorted hreg hd hs ha σ.host
    refine (hws.kept hs ha (h x σ req res hσ hl hw hf) ?_).1
    rintro ⟨t, ht, htf⟩
    have hT := hd.waits x σ req hσ (by rw [hw]; rfl)
    obtain rfl := Option.some.inj ((hreg.running hσ hl hT).symm.trans ht)
    simp [Trans.Finished] at htf
  rcases step_cases closed_orderly hs ha with hn | ⟨c, hc⟩
  · have one : ∀ {y τ}, s'.sess = Function.update s.sess y (some τ) →
        (y = x → σ' = τ → lockOf (s'.node σ'.host).store req.key = some σ'.vars.beginTs) →
        lockOf (s'.node σ'.host).store req.key = some σ'.vars.beginTs := by
      intro y τ he own
      rw [he] at hσ'
      by_cases hy : y = x
      · subst hy
        rw [Function.update_self] at hσ'
        exact own rfl (Option.some.inj hσ').symm
      · rw [Function.update_of_ne (Ne.symm hy)] at hσ'
        exact old σ' hσ' hlive hwait rfl rfl
    have granted : ∀ {σ req fates}, Locks s σ req fates ℓ → ∀ {st},
        LockBy fates req.key σ.vars.beginTs (s.node σ.host).store st →
        lockOf st req.key = some σ.vars.beginTs :=
      fun hl _ hg => ((hl.granted hs ha.1 hg).sound id).1
    cases hn with
    | @recv y env σ m rest seg w hσ hlv hidle hm _ hh =>
      refine one rfl fun hy _ => ?_
      subst hy
      refine served_holds hσ' hwait fun hnext => ?_
      cases hh with
      | begin _ hb =>
        generalize w.store = st at hb
        cases hb <;> cases hnext
      | prepare _ hp =>
        generalize w.store = st at hp
        cases hp <;> cases hnext
      | op _ hop hk =>
        cases hop with
        | answers => cases hnext
        | accesses _ hv hacc hend =>
          obtain ⟨rfl, hget, hg⟩ := hend.holdsLock hnext hf
          rw [hk.1]
          exact granted (.recv hσ hlv hm hv hacc hget) hg
    | @timeout y env σ seg w hσ hlv _ hend hk =>
      refine one rfl fun hy _ => ?_
      subst hy
      refine served_holds hσ' hwait fun hnext => ?_
      rw [hk.1]
      generalize hw : σ.wait = wt at hend
      cases hend with
      | lock hend =>
        obtain ⟨rfl, hget, hg⟩ := hend.holdsLock hnext hf
        exact granted (.timeout hσ hlv hw hget) hg
      | read hend =>
        obtain rfl := hend.wait_eq hnext
        rw [hend.1]
        exact h y σ req _ hσ hlv hw hf
    | event | hangup =>
      refine one rfl fun _ he => ?_
      simp [he, Session.stop] at hwait
    | taskSkip | taskRecv | taskAsk | startUp => exact old σ' hσ' hlive hwait rfl rfl
    | @lost ℓ k w =>
      obtain ⟨σ, hσ, he⟩ := Option.map_eq_some_iff.mp hσ'
      split_ifs at he
      · simp [← he, Session.stop] at hwait
      · exact old σ hσ (he ▸ hlive) (he ▸ hwait) (he ▸ rfl) (he ▸ rfl)
    | @cut y a b σ hσ =>
      refine one rfl fun hy he => ?_
      subst hy he
      exact old σ hσ hlive hwait rfl rfl
  · have hsl := hreg.slotted c
    cases hσ : s.sess x with
    | none =>
      obtain ⟨k, T, rfl⟩ := hc.opens hsl.table hσ hσ'
      simp at hwait
    | some σ =>
      obtain ⟨τ, hτ, ht⟩ := hc.touches hσ
      obtain rfl := Option.some.inj (hτ.symm.trans hσ')
      exact old σ hσ (ht.live ▸ hlive) (ht.vars.2 ▸ hwait) ht.host ht.vars.1

theorem Reach.holdsLock (hs : Reach cfg C s) (ha : Orderly s.hist) : HoldsLock s := by
  induction hs with
  | init => exact fun x σ req res hσ => by simp at hσ
  | step hr _ hstep ih =>
    have ha₀ := closed_orderly _ _ (step_hist hstep) ha
    exact (ih ha₀).step (hr.regular ha₀) (hr.allSorted ha₀) hr.dated hstep ha

end HoldsLock

def AbortedOn (st : Db.Store) (T : String) : Prop :=
  ∃ t, transOf st T = some t ∧ t.state = .rollback

/-- The answer `res` of a read at `b` is the newest committed one of the versions `old`, or there is
none. -/
inductive Newest (st : Db.Store) (b : String) (old : List Data) (res : ReadRes) : Prop
  | version (mid below : List Data) (d : Data) (t : Trans) : old = mid ++ d :: below →
      (∀ e ∈ mid, AbortedOn st e.curVersion) → CommittedBefore st b d t → res = versionRes d t →
      Newest st b old res
  | missing : (∀ e ∈ old, AbortedOn st e.curVersion) → res = { code := 99 } → Newest st b old res

/-- `T` has the versions `old` of `key` for itself: it keeps the lock until it has finished, and
nobody else writes right above them. -/
structure Reserved (st : Db.Store) (key T : String) (old : List Data) : Prop where
  older : ∀ d ∈ old, FinishedOn st d.curVersion
  others : ∀ d ∈ old, d.curVersion ≠ T
  versions : ∃ top own, ProperChain st key (top ++ (own ++ old)) ∧
    (∀ d ∈ top, d.curVersion ≠ T) ∧ (own = [] ∨ ∃ d, own = [d] ∧ d.curVersion = T) ∧
    (FinishedOn st T ∨ lockOf st key = some T ∧ top = [])

section Reserved

variable {cfg : Config} {s s' : Sys} {n : Host} {ℓ : Label} {key b T : String} {old : List Data}
  {res : ReadRes}

theorem FinishedOn.past {st : Db.Store} (h : FinishedOn st T) : PastBegin st T := by
  obtain ⟨t, ht, hf⟩ := h
  exact ⟨t, ht, by rcases hf with hf | hf <;> simp [hf]⟩

theorem Newest.step (h : Newest (s.node n).store b old res) (hsafe : Safe cfg s)
    (hs : Tpc.step cfg s ℓ = some s') (hu : DistinctBegin s'.hist) :
    Newest (s'.node n).store b old res := by
  have aborted : ∀ {U}, AbortedOn (s.node n).store U → AbortedOn (s'.node n).store U := by
    rintro U ⟨t, ht, hr⟩
    obtain ⟨t', ht', hr', -⟩ := (hsafe.records hs hu n).finished U t ht (.inl hr)
    exact ⟨t', ht', hr'.trans hr⟩
  cases h with
  | version mid below d t hold hmid hd hres =>
    obtain ⟨t', hd', he⟩ := hd.step hsafe hs hu
    exact .version mid below d t' hold (fun e he => aborted (hmid e he)) hd' (hres.trans he.symm)
  | missing hold hres => exact .missing (fun e he => aborted (hold e he)) hres

theorem Reserved.step (h : Reserved (s.node n).store key T old) (hreg : Regular cfg s)
    (hsorted : AllSorted s) (hd : Dated s) (hs : Tpc.step cfg s ℓ = some s')
    (ha : Orderly s'.hist) : Reserved (s'.node n).store key T old := by
  obtain ⟨ws, hws⟩ := Replays.step hsorted hreg hd hs ha n
  have hrec := hreg.safe.records hs ha.2.1 n
  obtain ⟨hold, hothers, top, own, hp, htop, hown, hlock⟩ := h
  refine ⟨fun d hd => (hold d hd).later hrec, hothers, ?_⟩
  have silent : ∀ {d : Data}, FinishedOn (s.node n).store d.curVersion →
      ∀ w ∈ ws, w.key = key → w.beginTs ≠ d.curVersion :=
    fun hf w hw _ he => hws.running w hw (he ▸ hf.past)
  by_cases hf : FinishedOn (s.node n).store T
  · have hrest : ∀ d ∈ own ++ old, FinishedOn (s.node n).store d.curVersion := by
      intro d hd
      rcases List.mem_append.mp hd with hd | hd
      · rcases hown with rfl | ⟨e, rfl, he⟩
        · cases hd
        · rwa [List.mem_singleton.mp hd, he]
      · exact hold d hd
    obtain ⟨new, hnew, hmem⟩ := replay_above key (fun d hd => silent (hrest d hd)) top
    refine ⟨new, own, hnew ▸ hws.proper key _ hp, fun d hd he => ?_, hown, .inl (hf.later hrec)⟩
    rcases hmem d hd with hd | ⟨w, hw, -, hwd⟩
    · exact htop d hd he
    · exact hws.running w hw ((hwd.trans he) ▸ hf.past)
  · -- only `T` writes above `old`
    obtain ⟨hheld, rfl⟩ := hlock.resolve_left hf
    obtain ⟨hheld', honly⟩ := hws.kept hs ha hheld hf
    obtain ⟨new, hnew, hmem⟩ := replay_above key (fun d hd => silent (hold d hd)) own
    have hp' : ProperChain (s'.node n).store key (new ++ old) := hnew ▸ hws.proper key _ hp
    have hnewT : ∀ d ∈ new, d.curVersion = T := by
      intro d hd
      rcases hmem d hd with hd | ⟨w, hw, hk, hwd⟩
      · rcases hown with rfl | ⟨e, rfl, he⟩
        · cases hd
        · rwa [List.mem_singleton.mp hd]
      · exact hwd ▸ honly w hw hk
    refine ⟨[], new, hp', by simp, ?_, .inr ⟨hheld', rfl⟩⟩
    cases new with
    | nil => exact .inl rfl
    | cons d new =>
      have hd := hnewT d (.head _)
      cases new with
      | nil => exact .inr ⟨d, rfl, hd⟩
      | cons e new =>
        have hne : d.curVersion ∉ (e :: new ++ old).map Data.curVersion :=
          (List.nodup_cons.mp hp'.distinct).1
        exact absurd (.head _) (hd.trans (hnewT e (.tail _ (.head _))).symm ▸ hne)

end Reserved

/-- The versions of a key at a read for update, by a transaction that had not written the key before,
are reserved for it, and what it has read stands. -/
def Updates (s : Sys) : Prop :=
  ∀ n T key b res m, .note (.read n T key true b res) :: m <:+ s.hist →
    (∀ w ∈ writes n m, w.key = key → w.beginTs ≠ T) →
      Reserved (s.node n).store key T (replay key [] (writes n m)) ∧
      Newest (s.node n).store b (replay key [] (writes n m)) res

section Runs

variable {cfg : Config} {C : Sys → Label → Prop} {s s' : Sys} {n : Host} {ℓ : Label} {x : Nat}
  {σ : Session} {req : RpcReq} {a : Read} {l m m' : Hist} {T key b : String} {f : Bool} {res : ReadRes}
  {st : Db.Store}

theorem Fresh.lt (hc : ClockStrict l) (h : Fresh m l b) {y : String} (hy : y ∈ clockTs m) : y < b := by
  obtain ⟨p, tv, k, hmk, hk, rfl⟩ := h
  exact (List.pairwise_cons.mp (closed_clockStrict _ _ hk hc)).1 y (mem_clockTs_mono hmk hy)

theorem ReadsOn.granted (h : ReadsOn s σ req ℓ st) (hσ : s.sess x = some σ) (hlive : σ.live = true)
    (hf : req.getForUpdate ≠ 0) (hholds : HoldsLock s) (hs : Tpc.step cfg s ℓ = some s')
    (ha : Orderly s'.hist) : Granted False req.key σ.vars.beginTs (s.node σ.host).store st := by
  cases h with
  | plain hz => exact absurd hz hf
  | again res hw => exact .held (hholds x σ req res hσ hlive hw hf)
  | locked fates st hlocks hg => exact hlocks.granted hs ha.1 hg

/-- A read for update returns the newest committed version. -/
theorem Reading.newest (hr : Reading Orderly s.hist s'.hist σ.vars req st a)
    (hf : req.getForUpdate ≠ 0) (hg : Granted False req.key σ.vars.beginTs (s.node σ.host).store st)
    (hreg : Regular cfg s) (hsorted : AllSorted s) (htimed : Timed s) (hdrawn : Drawn s.hist)
    (hc : ClockStrict s'.hist) (hlog : ProperChain (s.node σ.host).store req.key
      (replay req.key [] (writes σ.host s.hist)))
    (hown : ∀ w ∈ writes σ.host s.hist, w.key = a.key → w.beginTs ≠ a.beginTs) :
    Reserved st a.key a.beginTs (replay a.key [] (writes σ.host s.hist)) ∧
      Newest st a.inBeginTs (replay a.key [] (writes σ.host s.hist)) a.res := by
  rw [hr.key, hr.beginTs] at hown ⊢
  have hlock := (hg.sound id).1
  have htrans : ∀ U, transOf st U = transOf (s.node σ.host).store U := fun U => by
    rw [transOf, hg.lookup_ne (by simp)]
    rfl
  -- the chain is what the log of its writes makes of it
  obtain ⟨vs, hv₀⟩ := hsorted σ.host req.key
  have hvs := hv₀.proper.chain.unique hlog.chain
  rw [← hvs]
  have hv := hv₀.granted hg
  have hnames : ∀ d ∈ vs, d.curVersion ≠ σ.vars.beginTs := by
    intro d hd
    rw [hvs] at hd
    obtain ⟨w, hw, hk, he⟩ := mem_replay hd
    exact he ▸ hown w hw hk
  -- the writer of the newest version would hold the lock otherwise
  have hold : ∀ d ∈ vs, FinishedOn st d.curVersion := by
    cases vs with
    | nil => simp
    | cons d vs =>
      intro e he
      rcases List.mem_cons.mp he with rfl | he
      · refine (hv.lock e rfl).resolve_right fun hl => hnames e (.head _) ?_
        exact Option.some.inj (hl.symm.trans hlock)
      · exact hv.older e he
  refine ⟨⟨hold, hnames, [], [], hv.proper, by simp, .inl rfl, .inr ⟨hlock, rfl⟩⟩, ?_⟩
  -- everything that the chain knows was drawn before the reading
  have hfresh := (hr.update hf).2
  have hlt : ∀ d ∈ vs, d.curVersion < a.inBeginTs := by
    intro d hd
    obtain ⟨c, hb⟩ := hreg.safe.disc.rec_begun σ.host d.curVersion (hv₀.record d hd)
    exact hfresh.lt hc (hdrawn.begin_mem hb)
  have hcommit : ∀ {U t}, transOf st U = some t → t.state = .commited →
      t.commitTrans < a.inBeginTs := fun ht hs =>
    hfresh.lt hc (htimed.commitTrans (htrans _ ▸ ht) hs).mem
  obtain ⟨fuel, hres⟩ := hr.result.resolve_right fun h => orderly_not_mayFail h.2
  rw [hr.key] at hres
  have hres := readOf_unique hv.proper.chain hv.record hres
  have hpend : ∀ d ∈ vs, ¬ Pending (writerOf st) a.inBeginTs d := by
    rintro d hd ⟨ts, hw, -⟩
    exact (hold d hd).not_undecided (.inr ⟨ts, hw⟩)
  have hwait : ∀ d, seen st a.inBeginTs vs ≠ .wait d := read_ne_wait hpend
  obtain ⟨top, rest, rfl, htop, hrest⟩ := read_split hwait
  have hmid : ∀ e ∈ top, AbortedOn st e.curVersion := by
    intro e he
    obtain ⟨t, ht, hf | hf⟩ := hold e (List.mem_append_left rest he)
    · exact ⟨t, ht, hf⟩
    · have hle : a.inBeginTs ≤ t.commitTrans := by
        simpa [Hidden, writerOf, ht, hf] using (htop e he).2
      exact absurd (hcommit ht hf) (not_lt_of_ge hle)
  rcases hrest with ⟨rfl, hseen⟩ | ⟨d, below, rfl, hseen, hd⟩
  · refine .missing (by simpa using hmid) ?_
    rw [hres, seen, hseen]
    rfl
  · have hne : d.curVersion ≠ a.inBeginTs := (hlt d (by simp)).ne
    obtain ⟨c, hb⟩ := hd.resolve_left hne
    obtain ⟨t, ht, -⟩ := before_writerOf.mp hb
    refine .version top below d t rfl hmid ht ?_
    rw [hres, seen, hseen]
    exact resOf_value hne ht.1

theorem read_new (hl : l <:+ m') (h : .note (.read n T key f b res) :: m <:+ m') :
    .note (.read n T key f b res) :: m <:+ l ∨
      l <:+ m ∧ ∃ pre mid, reads n m' = pre ++ ⟨key, T, f, b, res⟩ :: (mid ++ reads n l) := by
  rcases List.suffix_or_suffix_of_suffix h hl with hm | hm
  · exact .inl hm
  rcases List.suffix_cons_iff.mp hm with rfl | hm
  · exact .inl (List.suffix_refl _)
  · obtain ⟨pre, rfl⟩ := h
    obtain ⟨mid, rfl⟩ := id hm
    refine .inr ⟨hm, reads n pre, reads n mid, ?_⟩
    rw [reads, List.filterMap_append]
    change reads n pre ++ reads n (.note _ :: _) = _
    rw [reads_note, Event.read?, if_pos rfl, reads, reads, List.filterMap_append]
    rfl

theorem writes_between (hl : l <:+ m) (hm : m <:+ m') (h : writes n m' = writes n l) :
    writes n m = writes n l := by
  have hl : writes n l <:+ writes n m := hl.filterMap _
  have hm : writes n m <:+ writes n m' := hm.filterMap _
  exact (hl.eq_of_length_le (h ▸ hm.length_le)).symm

theorem Updates.step (h : Updates s) (hreg : Regular cfg s) (hsorted : AllSorted s) (hd : Dated s)
    (htimed : Timed s) (hdrawn : Drawn s.hist) (hholds : HoldsLock s)
    (hlog : ∀ n key, ProperChain (s.node n).store key (replay key [] (writes n s.hist)))
    (hs : Tpc.step cfg s ℓ = some s') (ha : Orderly s'.hist) (hc : ClockStrict s'.hist) :
    Updates s' := by
  intro n T key b res m hread hown
  rcases read_new (step_hist hs) hread with hold | ⟨hm, pre, mid, hnew⟩
  · obtain ⟨hr, hn⟩ := h n T key b res m hold hown
    exact ⟨hr.step hreg hsorted hd hs ha, hn.step hreg.safe hs ha.2.1⟩
  · cases read_move closed_orderly hs ha n with
    | quiet hq =>
      have hlen := congrArg List.length (hq.symm.trans hnew)
      simp only [List.length_append, List.length_cons] at hlen
      omega
    | reads x σ req a hσ hlive hn _ hon hr hlog' hw' =>
      subst hn
      have hone : [a] = pre ++ ⟨key, T, true, b, res⟩ :: mid := by
        have hlog : [a] ++ reads σ.host s.hist =
            pre ++ ⟨key, T, true, b, res⟩ :: mid ++ reads σ.host s.hist := by
          simpa using hlog'.symm.trans hnew
        exact List.append_cancel_right hlog
      obtain rfl : ⟨key, T, true, b, res⟩ = a := by
        have := List.mem_singleton.mp (hone ▸ List.mem_append_right pre (.head mid))
        exact this
      have hf : req.getForUpdate ≠ 0 := fun hz => by
        have := (hr.plain hz).1
        cases this
      have hg := hon.granted hσ hlive hf hholds hs ha
      have hw := writes_between hm ((List.suffix_cons _ m).trans hread) hw'
      rw [hw] at hown ⊢
      exact hr.newest hf hg hreg hsorted htimed hdrawn hc (hlog _ _) hown

theorem Reach.updates (hs : Reach cfg C s) (ha : Orderly s.hist) (hc : ClockStrict s.hist) :
    Updates s := by
  induction hs with
  | init => exact fun n T key b res m hm => by simp at hm
  | step hr _ hstep ih =>
    have hl := step_hist hstep
    have ha₀ := closed_orderly _ _ hl ha
    exact (ih ha₀ (closed_clockStrict _ _ hl hc)).step (hr.regular ha₀) (hr.allSorted ha₀) hr.dated
      (hr.timed ha₀.2.1) hr.drawn (hr.holdsLock ha₀) (hr.replayed ha₀) hstep ha hc

end Runs

def updatesBoth : List Label :=
  [.request (client 0) { requestType := .begin } (atUsec 100) 0 true true,
   .request (client 0) { requestType := .get, key := "b", getForUpdate := 1 } (atUsec 0) 0 true true,
   .recv 0 {}, .beginAnswer (client 0) true, .recv 0 { clocks := [atUsec 101], fuel := 1 },
   .opAnswer (client 0),
   .request (client 0) { requestType := .insert, key := "b", value := "v" } (atUsec 0) 0 true true,
   .recv 0 {}, .opAnswer (client 0),
   .request (client 0) { requestType := .commit } (atUsec 102) 0 true true,
   .sendPrepare (client 0) true, .recv 0 { clocks := [atUsec 103] },
   .request (client 1) { requestType := .begin } (atUsec 110) 0 true true,
   .request (client 1) { requestType := .get, key := "b", getForUpdate := 1 } (atUsec 0) 1 true true,
   .recv 1 {}, .beginAnswer (client 1) true, .recv 1 { clocks := [atUsec 111], fuel := 1 },
   .opAnswer (client 1),
   .request (client 1) { requestType := .update, key := "b", value := "w" } (atUsec 0) 1 true true,
   .recv 1 {}, .opAnswer (client 1)]

def readForUpdate : Event :=
  .read hostA "ts110" "b" true "ts111"
    { code := 0, value := "v", retBeginTs := "ts100", retStartTs := "ts102", retCommitTs := "ts103" }

def foundChain : List Data := [{ state := .insert, value := "v", curVersion := "ts100" }]

def updatedChain : List Data :=
  { state := .update, value := "w", next := "ts100", curVersion := "ts110" } :: foundChain

theorem updatesBoth_run : ∃ (s : Sys) (m : Hist), Reach twoHosts anyStep s ∧ Orderly s.hist ∧
    ClockStrict s.hist ∧ .note readForUpdate :: m <:+ s.hist ∧
    (∀ w ∈ writes hostA m, w.key = "b" → w.beginTs ≠ "ts110") ∧
    replay "b" [] (writes hostA m) = foundChain ∧ Chain (s.node hostA).store "b" updatedChain ∧
    (transOf (s.node hostA).store "ts100").map Trans.state = some .commited := by
  have hrun : ((steps twoHosts anyStep {} updatesBoth).map fun s =>
      let l := s.hist.dropWhile fun e => e ≠ .note readForUpdate
      (decide (Orderly s.hist ∧ ClockStrict s.hist),
        decide (l.head? = some (.note readForUpdate) ∧
          ∀ w ∈ writes hostA l.tail, w.key = "b" → w.beginTs ≠ "ts110"),
        decide (replay "b" [] (writes hostA l.tail) = foundChain),
        decide (replay "b" [] (writes hostA s.hist) = updatedChain),
        (transOf (s.node hostA).store "ts100").map Trans.state)) =
      some (true, true, true, true, some .commited) := by
    decide +kernel
  obtain ⟨s, hs, hf⟩ := reach_of_map hrun
  simp only [Prod.mk.injEq, decide_eq_true_eq] at hf
  obtain ⟨⟨ha, hc⟩, ⟨hhead, hown⟩, hfound, hlog, hcom⟩ := hf
  obtain ⟨m, hm⟩ := List.head?_eq_some_iff.mp hhead
  rw [hm] at hown hfound
  exact ⟨s, m, hs, ha, hc, hm ▸ List.dropWhile_suffix _, hown, hfound,
    hlog ▸ (hs.replayed ha hostA "b").chain, hcom⟩

/-- What is read for update stands: whatever happens later, the versions that a transaction has found
under its lock, which are those of the writes before the read, stay the oldest ones of the key, nobody
else writes right above them, and what it has read is the newest committed one of them. -/
theorem locked_reads_stand (cfg : Config) {s : Sys} (hs : Reach cfg anyStep s)
    (hdb : NoDbError s.hist) (hu : DistinctBegin s.hist) (hw : ClientsWait s.hist)
    (hc : ClockStrict s.hist) {n : Host} {T key b : String} {res : ReadRes} {m : Hist}
    (hread : .note (.read n T key true b res) :: m <:+ s.hist)
    (hfirst : ∀ w ∈ writes n m, w.key = key → w.beginTs ≠ T) :
    Newest (s.node n).store b (replay key [] (writes n m)) res ∧ ∃ top own,
      Chain (s.node n).store key (top ++ (own ++ replay key [] (writes n m))) ∧
      (∀ d ∈ top, d.curVersion ≠ T) ∧ (own = [] ∨ ∃ d, own = [d] ∧ d.curVersion = T) ∧
      (FinishedOn (s.node n).store T ∨ lockOf (s.node n).store key = some T ∧ top = []) := by
  obtain ⟨⟨-, -, top, own, hp, htop, hown, hlock⟩, hn⟩ :=
    hs.updates ⟨hdb, hu, hw⟩ hc n T key b res m hread hfirst
  exact ⟨hn, top, own, hp.chain, htop, hown, hlock⟩

theorem locked_reads_stand_both : ∃ s : Sys, Newest (s.node hostA).store "ts111" foundChain
      { code := 0, value := "v", retBeginTs := "ts100", retStartTs := "ts102", retCommitTs := "ts103" } ∧
    ∃ top own, updatedChain = top ++ (own ++ foundChain) ∧ (∀ d ∈ top, d.curVersion ≠ "ts110") := by
  obtain ⟨s, m, hs, ha, hc, hread, hown, hfound, hv, -⟩ := updatesBoth_run
  obtain ⟨hn, top, own, hp, htop, -⟩ :=
    locked_reads_stand twoHosts hs ha.1 ha.2.1 ha.2.2 hc hread hown
  rw [hfound] at hn hp
  exact ⟨s, hn, top, own, hv.unique hp, htop⟩

/-- No update is lost: a transaction that has read a key for update before it wrote it has read the
newest of the committed versions that are below its own, now and later. -/
theorem no_lost_update (cfg : Config) {s : Sys} (hs : Reach cfg anyStep s)
    (hdb : NoDbError s.hist) (hu : DistinctBegin s.hist) (hw : ClientsWait s.hist)
    (hc : ClockStrict s.hist) {n : Host} {T key b : String} {res : ReadRes} {m : Hist}
    (hread : .note (.read n T key true b res) :: m <:+ s.hist)
    (hfirst : ∀ w ∈ writes n m, w.key = key → w.beginTs ≠ T) {above below : List Data} {d e : Data}
    {t : Trans} (hv : Chain (s.node n).store key (above ++ d :: below)) (hd : d.curVersion = T)
    (he : e ∈ below) (ht : transOf (s.node n).store e.curVersion = some t)
    (hcom : t.state = .commited) : ∃ mid rest d' t', below = mid ++ d' :: rest ∧
      CommittedBefore (s.node n).store b d' t' ∧ res = versionRes d' t' ∧ e ∈ d' :: rest := by
  obtain ⟨⟨-, hothers, top, own, hp, htop, hown, -⟩, hn⟩ :=
    hs.updates ⟨hdb, hu, hw⟩ hc n T key b res m hread hfirst
  generalize replay key [] (writes n m) = old at hothers hp hn
  have heq := hv.unique hp.chain
  -- `d` is the version of `T` above `old`
  have hbelow : below = old := by
    rcases hown with rfl | ⟨d', rfl, hd'⟩
    · have hmem : d ∈ top ++ ([] ++ old) := heq ▸ List.mem_append_right above (.head below)
      rcases List.mem_append.mp hmem with h | h
      · exact absurd hd (htop d h)
      · exact absurd hd (hothers d h)
    · have hnames : ((above ++ d :: below).map Data.curVersion).Nodup := heq ▸ hp.distinct
      rw [List.map_append, List.nodup_append] at hnames
      have habove : ∀ v ∈ above, v.curVersion ≠ T := fun v hv he =>
        hnames.2.2 _ (List.mem_map_of_mem hv) _ (.head _) (he.trans hd.symm)
      have hrest := rest_unique heq habove htop (by simp [hd]) (by simp [hd'])
      exact (List.cons.inj hrest).2
  subst hbelow
  have committed : ¬ AbortedOn (s.node n).store e.curVersion := by
    rintro ⟨t', ht', hr⟩
    obtain rfl := Option.some.inj (ht.symm.trans ht')
    rw [hcom] at hr
    cases hr
  cases hn with
  | version mid rest d' t' hold hmid hd' hres =>
    refine ⟨mid, rest, d', t', hold, hd', hres, ?_⟩
    exact (List.mem_append.mp (hold ▸ he)).resolve_left fun h => committed (hmid e h)
  | missing hall => exact absurd (hall e he) committed

theorem no_lost_update_both : ∃ (s : Sys) (d : Data) (t : Trans), d ∈ updatedChain ∧
    CommittedBefore (s.node hostA).store "ts111" d t := by
  obtain ⟨s, m, hs, ha, hc, hread, hown, -, hv, hcom⟩ := updatesBoth_run
  obtain ⟨t, ht, hcom⟩ := Option.map_eq_some_iff.mp hcom
  have hv : Chain (s.node hostA).store "b" ([] ++ updatedChain) := hv
  obtain ⟨mid, rest, d, t', hb, hd, -, -⟩ := no_lost_update twoHosts hs ha.1 ha.2.1 ha.2.2 hc hread
    hown hv rfl (.head []) ht hcom
  exact ⟨s, d, t', .tail _ (hb ▸ List.mem_append_right mid (.head rest)), hd⟩

end Tpc
