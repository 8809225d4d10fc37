import Tpc.Frames
import Tpc.Lib.PollCommit

/-! What one segment of a storage node does to the database, whatever calls fail and wherever the
process is lost: every function of the source has one rule for its weakest precondition. -/

namespace Tpc
open Durable

variable {me : Proc} {A : Hist → Prop} {w : DbWorld}

def MayFail (A : Hist → Prop) : Prop := ∃ p l, A (.dbError p :: l)

/-- `x` was drawn after `l` and before `l'`. -/
def Fresh (l l' : Hist) (x : String) : Prop :=
  ∃ p tv m, l <:+ m ∧ .clock p tv :: m <:+ l' ∧ x = getTS tv

theorem Fresh.mono {l l' m m' : Hist} {x : String} (hl : m <:+ l) (hl' : l' <:+ m')
    (h : Fresh l l' x) : Fresh m m' x := by
  obtain ⟨p, tv, n, hn, hn', rfl⟩ := h
  exact ⟨p, tv, n, hl.trans hn, hn'.trans hl', rfl⟩

theorem Fresh.isTS {l l' : Hist} {x : String} (h : Fresh l l' x) : IsTS x := by
  obtain ⟨-, tv, -, -, -, rfl⟩ := h
  exact ⟨tv, rfl⟩

def Refusal (ret : Int) : Prop := -3 ≤ ret ∧ ret < 0

theorem Refusal.ne_zero {ret : Int} (h : Refusal ret) : ret ≠ 0 := by
  obtain ⟨-, h⟩ := h
  omega

theorem Refusal.toUInt32_ne_zero {ret : Int} (h : Refusal ret) : toUInt32 ret ≠ 0 := by
  obtain ⟨h1, h2⟩ := h
  unfold toUInt32
  omega

theorem read_cases (w : DbWorld) (k : String) :
    (w.read k = .notFound ∧ w.store.lookup k = none) ∨
      ∃ r, w.read k = .found r ∧ w.store.lookup k = some r := by
  unfold World.read
  cases hl : w.store.lookup k with
  | none => exact .inl ⟨rfl, rfl⟩
  | some r => exact .inr ⟨r, rfl, rfl⟩

theorem transOf_of_lookup {st : Db.Store} {t : String} {r : Record}
    (h : st.lookup (makeTrans t) = some r) : transOf st t = some r.toTrans := by
  rw [transOf, h]
  rfl

theorem transOf_of_lookup_none {st : Db.Store} {t : String}
    (h : st.lookup (makeTrans t) = none) : transOf st t = none := by
  rw [transOf, h]
  rfl

theorem lockOf_of_lookup {st : Db.Store} {k : String} {r : Record}
    (h : st.lookup (makeLock k) = some r) : lockOf st k = some r.toLock.trans := by
  rw [lockOf, h]
  rfl

theorem lockOf_of_lookup_none {st : Db.Store} {k : String}
    (h : st.lookup (makeLock k) = none) : lockOf st k = none := by
  rw [lockOf, h]
  rfl

theorem dataAt_of_lookup {st : Db.Store} {k : String} {r : Record} (h : st.lookup k = some r) :
    dataAt st k = some r.toData := by
  rw [dataAt, h]
  rfl

theorem dataAt_of_lookup_none {st : Db.Store} {k : String} (h : st.lookup k = none) :
    dataAt st k = none := by
  rw [dataAt, h]
  rfl

theorem addTrans_wp (T : String) :
    (addTrans T).wp me A
      (fun ret w' =>
        (ret = 0 ∧ transOf w.store T = none ∧
          w'.store = w.store.insert (makeTrans T) (.trans {})) ∨
        (Refusal ret ∧ w'.store = w.store ∧ (transOf w.store T = none → MayFail A)))
      (fun w' => w'.store = w.store) w := by
  simp only [addTrans, dbGet, Prog.bind_eq, Prog.bind, Prog.wp]
  refine ⟨fun _ => rfl, fun ha => .inr ⟨by simp [Refusal], rfl, fun _ => ⟨_, _, ha⟩⟩, ?_⟩
  rcases read_cases w (makeTrans T) with ⟨hr, hl⟩ | ⟨r, hr, hl⟩
  · have hn := transOf_of_lookup_none hl
    simp only [hr, dbPut, Prog.bind, Prog.wp]
    exact ⟨fun _ => rfl, fun ha => .inr ⟨by simp [Refusal], rfl, fun _ => ⟨_, _, ha⟩⟩,
      .inl ⟨rfl, hn, rfl⟩⟩
  · simp only [hr]
    exact .inr ⟨by simp [Refusal], rfl, fun hn => by simp [transOf_of_lookup hl] at hn⟩

theorem updateTransPrepared_wp (id : Nat) (T : String) (req : RpcReq) :
    (updateTransPrepared id T req).wp me A
      (fun ret w' =>
        (ret = 0 ∧ ∃ t, transOf w.store T = some t ∧ t.state = .begin ∧
          w'.store = w.store.insert (makeTrans T) (.trans (preparedTrans id req t))) ∨
        (ret ≠ 0 ∧ w'.store = w.store ∧
          ((∃ t, transOf w.store T = some t ∧ t.state = .begin) → MayFail A)))
      (fun w' => w'.store = w.store) w := by
  simp only [updateTransPrepared, dbGet, Prog.bind_eq, Prog.bind, Prog.wp]
  refine ⟨fun _ => rfl, fun ha => .inr ⟨by decide, rfl, fun _ => ⟨_, _, ha⟩⟩, ?_⟩
  rcases read_cases w (makeTrans T) with ⟨hr, hl⟩ | ⟨r, hr, hl⟩
  · have hn := transOf_of_lookup_none hl
    simp only [hr]
    refine .inr ⟨by decide, rfl, ?_⟩
    rintro ⟨t, ht, -⟩
    simp [hn] at ht
  · have ht := transOf_of_lookup hl
    simp only [hr]
    split_ifs with hs
    · refine .inr ⟨by decide, rfl, ?_⟩
      rintro ⟨t, ht', hb⟩
      rw [ht] at ht'
      exact absurd ((Option.some.inj ht') ▸ hb) hs
    · simp only [dbPut, Prog.bind, Prog.wp]
      exact ⟨fun _ => rfl, fun ha => .inr ⟨by decide, rfl, fun _ => ⟨_, _, ha⟩⟩,
        .inl ⟨rfl, r.toTrans, ht, not_not.mp hs, rfl⟩⟩

theorem updateTransSelfCommitTs_wp (T ts : String) :
    (updateTransSelfCommitTs T ts).wp me A
      (fun ret w' =>
        (ret = 0 ∧ ∃ t, transOf w.store T = some t ∧ t.state = .prepared ∧
          w'.store = w.store.insert (makeTrans T) (.trans { t with selfCommitTs := ts })) ∨
        (ret ≠ 0 ∧ w'.store = w.store ∧
          ((∃ t, transOf w.store T = some t ∧ t.state = .prepared) → MayFail A)))
      (fun w' => w'.store = w.store) w := by
  simp only [updateTransSelfCommitTs, dbGet, Prog.bind_eq, Prog.bind, Prog.wp]
  refine ⟨fun _ => rfl, fun ha => .inr ⟨by decide, rfl, fun _ => ⟨_, _, ha⟩⟩, ?_⟩
  rcases read_cases w (makeTrans T) with ⟨hr, hl⟩ | ⟨r, hr, hl⟩
  · have hn := transOf_of_lookup_none hl
    simp only [hr]
    refine .inr ⟨by decide, rfl, ?_⟩
    rintro ⟨t, ht, -⟩
    simp [hn] at ht
  · have ht := transOf_of_lookup hl
    simp only [hr]
    split_ifs with hs
    · refine .inr ⟨by decide, rfl, ?_⟩
      rintro ⟨t, ht', hb⟩
      rw [ht] at ht'
      exact absurd ((Option.some.inj ht') ▸ hb) hs
    · simp only [dbPut, Prog.bind, Prog.wp]
      exact ⟨fun _ => rfl, fun ha => .inr ⟨by decide, rfl, fun _ => ⟨_, _, ha⟩⟩,
        .inl ⟨rfl, r.toTrans, ht, not_not.mp hs, rfl⟩⟩

def commitStore (st : Db.Store) (T : String) (trans : Trans) (commitTs : String) : Db.Store :=
  st.insert (makeTrans T) (.trans { trans with state := .commited, commitTrans := commitTs })

def rollbackStore (st : Db.Store) (T : String) (trans : Trans) : Db.Store :=
  st.insert (makeTrans T) (.trans { trans with state := .rollback })

def firstPolling (self : Host) (T : String) (trans : Trans) (m : String) : Polling :=
  let n := ownRun self trans.transList
  { beginTs := T, trans := trans, i := n, maxCommitTs := m, nPrepared := n }

inductive RoundEnd (self : Host) (l l' : Hist) (T : String) (trans : Trans) (st : Db.Store) :
    TaskState → Db.Store → Prop
  | asks (m : String) : PollCommit.Opening (Fresh l l') trans.selfCommitTs m →
      ownRun self trans.transList < trans.transList.length →
      RoundEnd self l l' T trans st (.polling (firstPolling self T trans m)) st
  | decides (m : String) : PollCommit.Opening (Fresh l l') trans.selfCommitTs m →
      ¬ ownRun self trans.transList < trans.transList.length →
      RoundEnd self l l' T trans st .idle (commitStore st T trans m)

def Polling.pass (self : Host) (p : Polling) : Polling :=
  let n := ownRun self (p.trans.transList.drop p.i)
  { p with i := p.i + n, nPrepared := p.nPrepared + n, reply := none }

inductive NextEnd (self : Host) (l l' : Hist) (p : Polling) (st : Db.Store) :
    TaskState → Db.Store → Prop
  | asks : (p.pass self).i < p.trans.transList.length →
      NextEnd self l l' p st (.polling (p.pass self)) st
  | decides : ¬ (p.pass self).i < p.trans.transList.length →
      (p.pass self).nPrepared = p.trans.transList.length →
      NextEnd self l l' p st .idle (commitStore st p.beginTs p.trans p.maxCommitTs)
  | again (t : TaskState) (st' : Db.Store) : ¬ (p.pass self).i < p.trans.transList.length →
      RoundEnd self l l' p.beginTs p.trans st t st' → NextEnd self l l' p st t st'

def Polling.heard (p : Polling) (res : TransStateRes) : Polling :=
  { p with trans := { p.trans with
      transList := p.trans.transList.modify p.i fun e => { e with state := res.transStat } } }

inductive ResEnd (self : Host) (l l' : Hist) (p : Polling) (res : TransStateRes) (st : Db.Store) :
    TaskState → Db.Store → Prop
  | skips (t : TaskState) (st' : Db.Store) : res.transStat = .begin →
      NextEnd self l l' { p.heard res with i := p.i + 1 } st t st' → ResEnd self l l' p res st t st'
  | counts (t : TaskState) (st' : Db.Store) : res.transStat = .prepared →
      NextEnd self l l' { p.heard res with
        i := p.i + 1, nPrepared := p.nPrepared + 1,
        maxCommitTs := max p.maxCommitTs res.commitTs } st t st' →
      ResEnd self l l' p res st t st'
  | commits : res.transStat = .commited →
      ResEnd self l l' p res st .idle (commitStore st p.beginTs (p.heard res).trans res.commitTs)
  | rollsBack : res.transStat = .rollback →
      ResEnd self l l' p res st .idle (rollbackStore st p.beginTs (p.heard res).trans)

theorem decideCommit_wp (p : Polling) (commitTs : String) :
    (decideCommit p commitTs).wp me A
      (fun t w' => t = .idle ∧ w'.store = commitStore w.store p.beginTs p.trans commitTs ∧
        w'.hist = w.hist)
      (fun w' => w'.store = w.store) w := by
  simp only [decideCommit, dbPut, Prog.bind_eq, Prog.bind, Prog.wp]
  exact ⟨fun _ => rfl, fun _ _ => rfl, rfl, rfl, rfl⟩

theorem decideRollback_wp (p : Polling) :
    (decideRollback p).wp me A
      (fun t w' => t = .idle ∧ w'.store = rollbackStore w.store p.beginTs p.trans)
      (fun w' => w'.store = w.store) w := by
  simp only [decideRollback, dbPut, Prog.bind_eq, Prog.bind, Prog.wp]
  exact ⟨fun _ => rfl, fun _ _ => rfl, rfl, rfl⟩

theorem pollRound_wp (self : Host) (T : String) (trans : Trans) {l : Hist} (hl : l <:+ w.hist) :
    (pollRound self T trans).wp me A
      (fun t w' => RoundEnd self l w'.hist T trans w.store t w'.store)
      (fun w' => w'.store = w.store) w := by
  have go : ∀ (m : String) (w' : DbWorld), w'.store = w.store →
      PollCommit.Opening (Fresh l w'.hist) trans.selfCommitTs m →
      Prog.wp me A (fun t w' => RoundEnd self l w'.hist T trans w.store t w'.store)
        (fun w' => w'.store = w.store)
        (if ownRun self trans.transList < trans.transList.length then
          .ret (.polling (firstPolling self T trans m))
        else decideCommit (firstPolling self T trans m) m) w' := by
    intro m w' hs ho
    split_ifs with hlt
    · exact hs ▸ RoundEnd.asks m ho hlt
    · refine Prog.wp_mono ?_ (fun w'' h => h.trans hs) (decideCommit_wp _ m)
      rintro t w'' ⟨rfl, hs', hh⟩
      rw [hs', hs, hh]
      exact .decides m ho hlt
  by_cases he : trans.selfCommitTs = ""
  · simp only [pollRound, if_pos he, readTS, Prog.bind_eq, Prog.bind, Prog.wp]
    refine ⟨fun _ => rfl, fun tv _ => ?_⟩
    exact go (getTS tv) (w.log (.clock me tv)) rfl
      (.inl ⟨he, me, tv, w.hist, hl, List.suffix_refl _, rfl⟩)
  · simp only [pollRound, if_neg he, Prog.pure_eq, Prog.bind_eq, Prog.bind]
    exact go trans.selfCommitTs w rfl (.inr ⟨he, rfl⟩)

theorem pollNext_wp (self : Host) (p : Polling) {l : Hist} (hl : l <:+ w.hist) :
    (pollNext self p).wp me A
      (fun t w' => NextEnd self l w'.hist p w.store t w'.store)
      (fun w' => w'.store = w.store) w := by
  simp only [pollNext]
  split_ifs with hlt hc
  · exact .asks hlt
  · refine Prog.wp_mono ?_ (fun _ h => h) (decideCommit_wp _ _)
    rintro t w' ⟨rfl, hs, -⟩
    rw [hs]
    exact .decides hlt hc
  · exact Prog.wp_mono (fun t w' h => .again t _ hlt h) (fun _ h => h) (pollRound_wp self _ _ hl)

theorem onTransStateRes_wp (self : Host) (p : Polling) (res : TransStateRes) {l : Hist}
    (hl : l <:+ w.hist) :
    (onTransStateRes self p res).wp me A
      (fun t w' => ResEnd self l w'.hist p res w.store t w'.store)
      (fun w' => w'.store = w.store) w := by
  simp only [onTransStateRes]
  cases hs : res.transStat with
  | begin =>
    refine Prog.wp_mono (fun t w' h => .skips t _ hs ?_) (fun _ h => h) (pollNext_wp self _ hl)
    simpa only [Polling.heard, hs] using h
  | prepared =>
    refine Prog.wp_mono (fun t w' h => .counts t _ hs ?_) (fun _ h => h) (pollNext_wp self _ hl)
    have hm : (if p.maxCommitTs < res.commitTs then res.commitTs else p.maxCommitTs) =
        max p.maxCommitTs res.commitTs := by
      rw [max_def]
      split_ifs with h1 h2 h2
      · rfl
      · exact absurd h1.le h2
      · exact le_antisymm h2 (not_lt.mp h1)
      · rfl
    simpa only [Polling.heard, hs, hm] using h
  | commited =>
    simp only
    split_ifs
    · exact fun _ => rfl
    · refine Prog.wp_mono ?_ (fun _ h => h) (decideCommit_wp _ _)
      rintro t w' ⟨rfl, hw, -⟩
      rw [hw, ← hs]
      exact .commits hs
  | rollback =>
    refine Prog.wp_mono ?_ (fun _ h => h) (decideRollback_wp _)
    rintro t w' ⟨rfl, hw⟩
    rw [hw, ← hs]
    exact .rollsBack hs

inductive CleanEnd (self : Host) (l l' : Hist) (idle : Nat) (T : String) (st : Db.Store) :
    Option TaskState → Db.Store → Prop
  | nothing : CleanEnd self l l' idle T st none st
  | aborts (t : Trans) : transOf st T = some t → t.state = .begin →
      CleanEnd self l l' idle T st none (rollbackStore st T t)
  | resumes (t : Trans) (task : TaskState) (st' : Db.Store) : idle ≠ 0 → transOf st T = some t →
      t.state = .prepared → RoundEnd self l l' T t st task st' →
      CleanEnd self l l' idle T st (some task) st'
  /-- the task takes an empty `begin_ts` for none -/
  | declines (t : Trans) : T = "" → idle ≠ 0 → transOf st T = some t → t.state = .prepared →
      CleanEnd self l l' idle T st (some .idle) st
  /-- the task could not read the record -/
  | ends (t : Trans) : idle ≠ 0 → transOf st T = some t → t.state = .prepared →
      CleanEnd self l l' idle T st (some .ended) st

theorem prepareRoutine_wp (self : Host) (T : String) {l : Hist} (hl : l <:+ w.hist) {t : Trans}
    (ht : transOf w.store T = some t) (hp : t.state = .prepared) :
    (prepareRoutine self T).wp me A
      (fun task w' => (task = .idle ∧ T = "" ∧ w'.store = w.store) ∨
        (task = .ended ∧ w'.store = w.store) ∨ RoundEnd self l w'.hist T t w.store task w'.store)
      (fun w' => w'.store = w.store) w := by
  rw [prepareRoutine, Prog.wp_ite]
  refine ⟨fun hT => .inl ⟨rfl, hT, rfl⟩, fun _ => ?_⟩
  simp only [dbGet, Prog.bind_eq, Prog.bind, Prog.wp]
  refine ⟨fun _ => rfl, fun _ => .inr (.inl ⟨rfl, rfl⟩), ?_⟩
  rcases read_cases w (makeTrans T) with ⟨hr, hl'⟩ | ⟨r, hr, hl'⟩
  · simp [transOf_of_lookup_none hl'] at ht
  · obtain rfl := Option.some.inj ((transOf_of_lookup hl').symm.trans ht)
    simp only [hr, hp, ne_eq, not_true_eq_false, if_false]
    exact Prog.wp_mono (fun _ _ h => .inr (.inr h)) (fun _ h => h) (pollRound_wp self T _ hl)

theorem startCleanTrans_wp (self : Host) (idle : Nat) (T : String) {l : Hist}
    (hl : l <:+ w.hist) :
    (startCleanTrans self idle T).wp me A
      (fun o w' => CleanEnd self l w'.hist idle T w.store o w'.store)
      (fun w' => w'.store = w.store) w := by
  simp only [startCleanTrans, dbGet, Prog.bind_eq, Prog.bind, Prog.wp]
  refine ⟨fun _ => rfl, fun _ => .nothing, ?_⟩
  rcases read_cases w (makeTrans T) with ⟨hr, hl'⟩ | ⟨r, hr, hl'⟩
  · simp only [hr]
    exact .nothing
  · have ht := transOf_of_lookup hl'
    simp only [hr]
    cases hs : r.toTrans.state with
    | begin =>
      simp only [dbPut, Prog.bind, Prog.wp]
      exact ⟨fun _ => rfl, fun _ _ => rfl, .aborts _ ht hs⟩
    | prepared =>
      simp only
      split_ifs with hi
      · exact fun _ => rfl
      · rw [Prog.wp_bind]
        refine Prog.wp_mono ?_ (fun _ h => h) (prepareRoutine_wp self T hl ht hs)
        rintro task w' (⟨rfl, hT, hw⟩ | ⟨rfl, hw⟩ | h)
        · rw [Prog.pure_eq, Prog.wp, hw]
          exact .declines _ hT hi ht hs
        · rw [Prog.pure_eq, Prog.wp, hw]
          exact .ends _ hi ht hs
        · exact .resumes _ task _ hi ht hs h
    | commited => exact .nothing
    | rollback => exact .nothing

inductive UpEnd (self : Host) (l l' : Hist) :
    Nat → List (String × Record) → Db.Store → List TaskState → Db.Store → Prop
  | nil (idle : Nat) (st : Db.Store) : UpEnd self l l' idle [] st [] st
  | aborts {idle T r rest st ts st'} : r.toTrans.state = .begin →
      UpEnd self l l' idle rest (rollbackStore st T r.toTrans) ts st' →
      UpEnd self l l' idle ((makeTrans T, r) :: rest) st ts st'
  | cleans {idle T r rest st st₁ o ts st'} : r.toTrans.state = .prepared →
      CleanEnd self l l' idle T st o st₁ → o = none ∨ o = some .idle →
      UpEnd self l l' idle rest st₁ ts st' →
      UpEnd self l l' idle ((makeTrans T, r) :: rest) st ts st'
  | resumes {idle T r rest st st₁ t ts st'} : r.toTrans.state = .prepared →
      CleanEnd self l l' idle T st (some t) st₁ → t ≠ .idle →
      UpEnd self l l' (idle - 1) rest st₁ ts st' →
      UpEnd self l l' idle ((makeTrans T, r) :: rest) st (t :: ts) st'
  | keeps {idle T r rest st ts st'} : r.toTrans.state = .commited ∨ r.toTrans.state = .rollback →
      UpEnd self l l' idle rest st ts st' →
      UpEnd self l l' idle ((makeTrans T, r) :: rest) st ts st'

theorem RoundEnd.mono {self : Host} {l m m' : Hist} (hm : m <:+ m') {T : String} {trans : Trans}
    {st st' : Db.Store} {t : TaskState} (h : RoundEnd self l m T trans st t st') :
    RoundEnd self l m' T trans st t st' := by
  have opening : ∀ {x}, PollCommit.Opening (Fresh l m) trans.selfCommitTs x →
      PollCommit.Opening (Fresh l m') trans.selfCommitTs x := by
    rintro x (⟨he, hx⟩ | hx)
    · exact .inl ⟨he, hx.mono (List.suffix_refl _) hm⟩
    · exact .inr hx
  cases h with
  | asks x ho hlt => exact .asks x (opening ho) hlt
  | decides x ho hlt => exact .decides x (opening ho) hlt

theorem CleanEnd.mono {self : Host} {l m m' : Hist} (hm : m <:+ m') {idle : Nat} {T : String}
    {st st' : Db.Store} {o : Option TaskState} (h : CleanEnd self l m idle T st o st') :
    CleanEnd self l m' idle T st o st' := by
  cases h with
  | nothing => exact .nothing
  | aborts t ht hb => exact .aborts t ht hb
  | resumes t task _ hi ht hp hr => exact .resumes t task _ hi ht hp (hr.mono hm)
  | declines t hT hi ht hp => exact .declines t hT hi ht hp
  | ends t hi ht hp => exact .ends t hi ht hp

@[simp] theorem parseTrans_makeTrans (T : String) : parseTrans (makeTrans T) = T := by
  apply String.toList_inj.mp
  simp only [makeTrans, parseTrans, String.toList_append, String.toList_ofList]
  exact List.drop_left' (by decide)

theorem transEntries_sublist (l : List (String × Record)) : (transEntries l).Sublist l :=
  (List.takeWhile_sublist _).trans (List.dropWhile_sublist _)

def UpLost (self : Host) (l l' : Hist) (idle : Nat) (es : List (String × Record))
    (st st' : Db.Store) : Prop :=
  ∃ pre ts, pre <+: es ∧ UpEnd self l l' idle pre st ts st'

theorem startUpLoop_wp (self : Host) {l : Hist} {es : List (String × Record)}
    (hk : ∀ e ∈ es, ∃ T, e.1 = makeTrans T) (idle : Nat) {w : DbWorld}
    (hl : l <:+ w.hist) :
    (startUpLoop self idle es).wp me A
      (fun ts w' => UpEnd self l w'.hist idle es w.store ts w'.store)
      (fun w' => UpLost self l w'.hist idle es w.store w'.store) w := by
  induction es generalizing idle w with
  | nil => exact .nil _ _
  | cons e es ih =>
    obtain ⟨key, r⟩ := e
    obtain ⟨T, rfl⟩ : ∃ T, key = makeTrans T := hk _ (.head _)
    have hk' : ∀ e ∈ es, ∃ T, e.1 = makeTrans T := fun e he => hk e (.tail _ he)
    have lost : ∀ w' : DbWorld, w'.store = w.store →
        UpLost self l w'.hist idle ((makeTrans T, r) :: es) w.store w'.store := by
      intro w' hw
      rw [hw]
      exact ⟨[], [], List.nil_prefix, .nil _ _⟩
    -- the rest of the loop, with a history that only grows
    have rest : ∀ (idle : Nat) (w₁ : DbWorld), l <:+ w₁.hist →
        (startUpLoop self idle es).wp me A
          (fun ts w' => w₁.hist <:+ w'.hist ∧ UpEnd self l w'.hist idle es w₁.store ts w'.store)
          (fun w' => w₁.hist <:+ w'.hist ∧ UpLost self l w'.hist idle es w₁.store w'.store) w₁ := by
      intro idle w₁ hl₁
      have hg := Prog.wp_grown (A := A) (startUpLoop_tells (N := fun _ => True) self es
        idle) (.refl me (fun _ => True) w₁.hist)
      exact Prog.wp_mono (fun _ _ h => ⟨h.1.suffix, h.2⟩) (fun _ h => ⟨h.1.suffix, h.2⟩)
        (Prog.wp_and hg (ih hk' idle hl₁))
    have extend : ∀ {e : String × Record} {pre : List (String × Record)}, pre <+: es →
        e :: pre <+: e :: es := fun h => (List.prefix_cons_inj _).mpr h
    simp only [startUpLoop, parseTrans_makeTrans]
    cases hs : r.toTrans.state with
    | begin =>
      simp only [dbPut, Prog.bind_eq, Prog.bind, Prog.wp]
      refine ⟨fun _ => lost _ rfl, fun _ _ => lost _ rfl, ?_⟩
      refine Prog.wp_mono (fun ts w' h => .aborts hs h.2) ?_ (rest idle _ hl)
      rintro w' ⟨-, pre, ts, hp, h⟩
      exact ⟨_, ts, extend hp, .aborts hs h⟩
    | prepared =>
      simp only [Prog.bind_eq]
      rw [Prog.wp_bind]
      have hg := Prog.wp_grown (A := A) (startCleanTrans_tells (N := fun _ => True)
        self idle T) (.refl me (fun _ => True) w.hist)
      refine Prog.wp_mono ?_ (fun w' h => lost w' h.2)
        (Prog.wp_and hg (startCleanTrans_wp self idle T hl))
      rintro o w₁ ⟨hg₁, hc⟩
      have hl₁ := hl.trans hg₁.suffix
      have again : o = none ∨ o = some .idle → (startUpLoop self idle es).wp me A
          (fun ts w' => UpEnd self l w'.hist idle ((makeTrans T, r) :: es) w.store ts w'.store)
          (fun w' => UpLost self l w'.hist idle ((makeTrans T, r) :: es) w.store w'.store) w₁ := by
        intro ho
        refine Prog.wp_mono (fun ts w' h => .cleans hs (hc.mono h.1) ho h.2) ?_ (rest idle w₁ hl₁)
        rintro w' ⟨hw, pre, ts, hp, h⟩
        exact ⟨_, ts, extend hp, .cleans hs (hc.mono hw) ho h⟩
      have next : ∀ t, o = some t → t ≠ .idle → (startUpLoop self (idle - 1) es).wp me A
          (fun ts w' => UpEnd self l w'.hist idle ((makeTrans T, r) :: es) w.store (t :: ts)
            w'.store)
          (fun w' => UpLost self l w'.hist idle ((makeTrans T, r) :: es) w.store w'.store) w₁ := by
        rintro t rfl ht
        refine Prog.wp_mono (fun ts w' h => .resumes hs (hc.mono h.1) ht h.2) ?_
          (rest (idle - 1) w₁ hl₁)
        rintro w' ⟨hw, pre, ts, hp, h⟩
        exact ⟨_, _, extend hp, .resumes hs (hc.mono hw) ht h⟩
      rcases o with - | (- | p | -)
      · exact again (.inl rfl)
      · exact again (.inr rfl)
      · exact Prog.wp_bind.mpr (next _ rfl (by simp))
      · exact Prog.wp_bind.mpr (next _ rfl (by simp))
    | commited =>
      refine Prog.wp_mono (fun ts w' h => .keeps (.inl hs) h.2) ?_ (rest idle _ hl)
      rintro w' ⟨-, pre, ts, hp, h⟩
      exact ⟨_, ts, extend hp, .keeps (.inl hs) h⟩
    | rollback =>
      refine Prog.wp_mono (fun ts w' h => .keeps (.inr hs) h.2) ?_ (rest idle _ hl)
      rintro w' ⟨-, pre, ts, hp, h⟩
      exact ⟨_, ts, extend hp, .keeps (.inr hs) h⟩

theorem startUpClean_wp (self : Host) (idle : Nat) {l : Hist} (hl : l <:+ w.hist) :
    (startUpClean self idle).wp me A
      (fun ts w' => UpEnd self l w'.hist idle (transEntries w.listing) w.store ts w'.store)
      (fun w' => UpLost self l w'.hist idle (transEntries w.listing) w.store w'.store) w :=
  startUpLoop_wp self (fun _ he => makeTrans_of_mem_transEntries he) idle hl

inductive BeginEnd (A : Hist → Prop) (v : Vars) (req : RpcReq) (st : Db.Store) :
    Seg → Db.Store → Prop
  | refused (res : RpcRes) : v.beginTs ≠ "" → res.result = 1 →
      BeginEnd A v req st { vars := v, next := .response (.rpcResponse res) } st
  | begun : v.beginTs = "" → transOf st req.beginTs = none →
      BeginEnd A v req st
        { vars := { v with beginTs := req.beginTs }, next := .response (.rpcResponse {}) }
        (st.insert (makeTrans req.beginTs) (.trans {}))
  | failed (ret : Int) : v.beginTs = "" → Refusal ret →
      (transOf st req.beginTs = none → MayFail A) →
      BeginEnd A v req st
        { vars := { v with beginTs := req.beginTs }
          next := .response (.rpcResponse
            { result := toUInt32 ret, errMsg := "addTrans err " }) } st

theorem serveBegin_wp (v : Vars) (req : RpcReq) :
    (serveBegin v req).wp me A (fun seg w' => BeginEnd A v req w.store seg w'.store)
      (fun w' => w'.store = w.store) w := by
  simp only [serveBegin]
  by_cases hv : v.beginTs = ""
  · rw [if_neg (not_not.mpr hv), Prog.bind_eq, Prog.wp_bind]
    refine Prog.wp_mono ?_ (fun _ h => h) (addTrans_wp req.beginTs)
    rintro ret w' (⟨rfl, hn, hw⟩ | ⟨hret, hw, hf⟩)
    · simp only [ne_eq, not_true_eq_false, if_false, respond, Prog.wp, hw]
      exact .begun hv hn
    · simp only [if_pos hret.ne_zero, respond, Prog.wp, hw]
      exact .failed ret hv hret hf
  · rw [if_pos hv]
    exact .refused _ hv rfl

def votedStore (self : Host) (st : Db.Store) (T : String) (req : RpcReq) (t : Trans)
    (s : String) : Db.Store :=
  st.insert (makeTrans T) (.trans { preparedTrans self.hashId req t with selfCommitTs := s })

inductive PrepareEnd (B : Prop) (self : Host) (l l' : Hist) (idle : Nat) (v : Vars)
    (req : RpcReq) (st : Db.Store) : Seg → Db.Store → Prop
  | refused (ts : String) (res : RpcRes) : res.result = 1 →
      (v.beginTs ≠ "" → v.beginTs = req.beginTs →
        (∃ t, transOf st v.beginTs = some t ∧ t.state = .begin) → B) →
      PrepareEnd B self l l' idle v req st
        { vars := { v with startTs := ts }, next := .response (.rpcResponse res) } st
  | votes (t : Trans) (s : String) (o : Option TaskState) (st' : Db.Store) : v.beginTs ≠ "" →
      v.beginTs = req.beginTs → transOf st v.beginTs = some t → t.state = .begin → Fresh l l' s →
      CleanEnd self l l' idle v.beginTs (votedStore self st v.beginTs req t s) o st' →
      PrepareEnd B self l l' idle v req st
        { vars := {}, next := .response (.rpcResponse {}), task := o } st'

/-- The loss of the process in a Prepare request; `B` says whether it can happen between the two
writes. -/
inductive PrepareLost (B : Prop) (self : Host) (l l' : Hist) (v : Vars) (req : RpcReq) (st : Db.Store) :
    Db.Store → Prop
  | before : PrepareLost B self l l' v req st st
  | between (t : Trans) : B → v.beginTs ≠ "" → v.beginTs = req.beginTs →
      transOf st v.beginTs = some t → t.state = .begin →
      PrepareLost B self l l' v req st
        (st.insert (makeTrans v.beginTs) (.trans (preparedTrans self.hashId req t)))
  | after (t : Trans) (s : String) : v.beginTs ≠ "" → v.beginTs = req.beginTs →
      transOf st v.beginTs = some t → t.state = .begin → Fresh l l' s →
      PrepareLost B self l l' v req st (votedStore self st v.beginTs req t s)

theorem PrepareLost.mono {B B' : Prop} (hB : B → B') {self : Host} {l l' : Hist} {v : Vars}
    {req : RpcReq} {st st' : Db.Store} (h : PrepareLost B self l l' v req st st') :
    PrepareLost B' self l l' v req st st' := by
  cases h with
  | before => exact .before
  | between t hb hv hreq ht hs => exact .between t (hB hb) hv hreq ht hs
  | after t s hv hreq ht hs hf => exact .after t s hv hreq ht hs hf

theorem Fresh.here {l m : Hist} {p : Proc} {tv : Timeval} (hl : l <:+ m) :
    Fresh l (.clock p tv :: m) (getTS tv) := ⟨p, tv, m, hl, List.suffix_refl _, rfl⟩

theorem PrepareEnd.and {B B' : Prop} {self : Host} {l l' : Hist} {idle : Nat} {v : Vars} {req : RpcReq}
    {st st' : Db.Store} {seg : Seg} (h : PrepareEnd B self l l' idle v req st seg st')
    (h' : PrepareEnd B' self l l' idle v req st seg st') :
    PrepareEnd (B ∧ B') self l l' idle v req st seg st' := by
  cases h with
  | refused ts res hres hb =>
    refine .refused ts res hres fun hv hreq hs => ⟨hb hv hreq hs, ?_⟩
    generalize hseg : ({ vars := { v with startTs := ts }, next := .response (.rpcResponse res) } : Seg) =
      seg at h'
    cases h' with
    | refused ts' res' _ hb' => exact hb' hv hreq hs
    | votes => simp_all
  | votes t s o _ hv hreq ht hs hf hc => exact .votes t s o _ hv hreq ht hs hf hc

theorem stampRest_wp {B : Prop} (self : Host) (idle : Nat) (v : Vars) (req : RpcReq) {l : Hist}
    (hl : l <:+ w.hist) {st : Db.Store} {t : Trans} (hv : v.beginTs ≠ "")
    (hreq : v.beginTs = req.beginTs) (ht : transOf st v.beginTs = some t)
    (hb : t.state = .begin)
    (hw : w.store = st.insert (makeTrans v.beginTs) (.trans (preparedTrans self.hashId req t)))
    {s : String} (hs : Fresh l w.hist s) :
    Prog.wp me A (fun seg w' => PrepareEnd B self l w'.hist idle v req st seg w'.store)
      (fun w' => PrepareLost True self l w'.hist v req st w'.store)
      ((updateTransSelfCommitTs v.beginTs s).bind fun ret =>
        if ret ≠ 0 then .abort
        else (startCleanTrans self idle v.beginTs).bind fun task =>
          .ret { vars := {}, next := .response (.rpcResponse {}), task := task }) w := by
  have lost : ∀ w' : DbWorld, w'.store = w.store →
      PrepareLost True self l w'.hist v req st w'.store := by
    intro w' hw'
    rw [hw', hw]
    exact .between t trivial hv hreq ht hb
  have hg := Prog.wp_grown (A := A) (updateTransSelfCommitTs_tells (N := fun _ => True)
    v.beginTs s) (.refl me (fun _ => True) w.hist)
  rw [Prog.wp_bind]
  refine Prog.wp_mono ?_ (fun w' h => lost w' h.2)
    (Prog.wp_and hg (updateTransSelfCommitTs_wp v.beginTs s))
  rintro ret w₁ ⟨hg₁, ⟨rfl, t', ht', -, hw₁⟩ | ⟨hret, hw₁, -⟩⟩
  · rw [hw, transOf_insert_self] at ht'
    obtain rfl := Option.some.inj ht'
    have hst : w₁.store = votedStore self st v.beginTs req t s := by
      rw [hw₁, hw, AList.insert_insert]
      rfl
    have hl₁ := hl.trans hg₁.suffix
    have hg' := Prog.wp_grown (A := A) (startCleanTrans_tells (N := fun _ => True)
      self idle v.beginTs) (.refl me (fun _ => True) w₁.hist)
    rw [if_neg (by decide), Prog.wp_bind]
    refine Prog.wp_mono ?_ ?_ (Prog.wp_and hg' (startCleanTrans_wp self idle v.beginTs hl₁))
    · rintro o w₂ ⟨hg₂, hc⟩
      rw [hst] at hc
      exact .votes t s o _ hv hreq ht hb
        (hs.mono (List.suffix_refl _) (hg₁.suffix.trans hg₂.suffix)) hc
    · rintro w₂ ⟨hg₂, hw₂⟩
      rw [hw₂, hst]
      exact .after t s hv hreq ht hb
        (hs.mono (List.suffix_refl _) (hg₁.suffix.trans hg₂.suffix))
  · rw [if_pos hret]
    exact fun _ => lost _ hw₁

theorem servePrepare_wp (self : Host) (idle : Nat) (v : Vars) (req : RpcReq) {l : Hist}
    (hl : l <:+ w.hist) :
    (servePrepare self idle v req).wp me A
      (fun seg w' => PrepareEnd (MayFail A) self l w'.hist idle v req w.store seg w'.store)
      (fun w' => PrepareLost True self l w'.hist v req w.store w'.store) w := by
  simp only [servePrepare]
  by_cases hv : v.beginTs = ""
  · rw [if_pos hv]
    exact .refused v.startTs _ rfl fun h => absurd hv h
  rw [if_neg hv]
  by_cases hreq : v.beginTs = req.beginTs
  · rw [if_neg (not_not.mpr hreq), Prog.bind_eq, Prog.wp_bind]
    have hg := Prog.wp_grown (A := A) (updateTransPrepared_tells (N := fun _ => True)
      self.hashId v.beginTs req) (.refl me (fun _ => True) w.hist)
    have lost : ∀ w' : DbWorld, w'.store = w.store →
        PrepareLost True self l w'.hist v req w.store w'.store := by
      intro w' hw
      rw [hw]
      exact .before
    refine Prog.wp_mono ?_ (fun w' h => lost w' h.2)
      (Prog.wp_and hg (updateTransPrepared_wp self.hashId v.beginTs req))
    rintro ret w₁ ⟨hg₁, ⟨rfl, t, ht, hb, hw₁⟩ | ⟨hret, hw₁, hf⟩⟩
    · rw [if_neg (by decide)]
      refine ⟨fun _ => ?_, fun tv _ => ?_⟩
      · simp only [World.log_store, hw₁]
        exact .between t trivial hv hreq ht hb
      · have hl₁ := hl.trans hg₁.suffix
        exact stampRest_wp self idle v req (w := w₁.log (.clock me tv))
          (hl₁.trans (List.suffix_cons _ _)) hv hreq ht hb hw₁ (.here hl₁)
    · simp only [if_pos hret, refuse, respond, Prog.wp, hw₁]
      exact .refused req.startTs _ rfl fun _ _ h => hf h
  · rw [if_pos hreq]
    exact .refused v.startTs _ rfl fun _ h => absurd h hreq

def fate (fates : List Fate) (i : Nat) : Fate := fates.getD i .ok

theorem headD_eq_fate (fates : List Fate) : fates.headD .ok = fate fates 0 := by
  cases fates <;> rfl

@[simp] theorem fate_tail (fates : List Fate) (i : Nat) : fate fates.tail i = fate fates (i + 1) := by
  cases fates <;> rfl

def cutShort (fates : List Fate) : Bool :=
  fate fates 0 = .ok ∧ fate fates 1 = .ok ∧ ¬ (fate fates 2 = .ok ∧ fate fates 3 = .ok)

def writeFails (fates : List Fate) : Bool :=
  fate fates 0 = .fail ∨ fate fates 0 = .ok ∧ fate fates 1 = .fail

theorem updateTransPrepared_sat {α : Type} {Q : α → DbWorld → Prop} {R : DbWorld → Prop} {id : Nat}
    {T : String} {req : RpcReq} {k : Int → Db α} {fates : List Fate} {clocks : List Timeval}
    (hd : ∀ e, R (w.log e))
    (hr : ∀ ret fs w', ret ≠ 0 → w'.store = w.store →
      ((∃ t, transOf w.store T = some t ∧ t.state = .begin) → writeFails fates = true) →
      Outcome.Sat Q R ((k ret).run me fs clocks w'))
    (hw : ∀ t, transOf w.store T = some t → t.state = .begin → fate fates 0 = .ok →
      fate fates 1 = .ok → Outcome.Sat Q R ((k 0).run me fates.tail.tail clocks
        (w.write (makeTrans T) (.trans (preparedTrans id req t))))) :
    Outcome.Sat Q R (((updateTransPrepared id T req).bind k).run me fates clocks w) := by
  simp only [updateTransPrepared, dbGet, Prog.bind_eq, Prog.bind, Prog.run, headD_eq_fate]
  cases h0 : fate fates 0 with
  | crash => exact hd _
  | fail =>
    have hf : writeFails fates = true := by simp [writeFails, h0]
    exact hr (-1) fates.tail (w.log (.dbError me)) (by decide) rfl fun _ => hf
  | ok =>
    rcases read_cases w (makeTrans T) with ⟨hg, hl⟩ | ⟨r, hg, hl⟩
    · have hn := transOf_of_lookup_none hl
      simp only [hg]
      refine hr (-1) fates.tail w (by decide) rfl ?_
      rintro ⟨t, ht, -⟩
      simp [hn] at ht
    have ht := transOf_of_lookup hl
    simp only [hg]
    by_cases hs : r.toTrans.state = .begin
    · rw [if_neg (not_not.mpr hs)]
      simp only [dbPut, Prog.bind, Prog.run, headD_eq_fate, fate_tail]
      cases h1 : fate fates 1 with
      | crash => exact hd _
      | fail =>
        have hf : writeFails fates = true := by simp [writeFails, h0, h1]
        exact hr (-3) fates.tail.tail (w.log (.dbError me)) (by decide) rfl fun _ => hf
      | ok => exact hw r.toTrans ht hs h0 h1
    · rw [if_pos hs]
      refine hr (-2) fates.tail w (by decide) rfl ?_
      rintro ⟨t, ht', hb⟩
      obtain rfl := Option.some.inj (ht.symm.trans ht')
      exact absurd hb hs

theorem stampRest_whole (self : Host) (idle : Nat) (v : Vars) (req : RpcReq) {fates : List Fate}
    {clocks : List Timeval} {l : Hist} {st : Db.Store} {t : Trans}
    (hv : v.beginTs ≠ "") (hreq : v.beginTs = req.beginTs) (ht : transOf st v.beginTs = some t)
    (hb : t.state = .begin)
    (hw : w.store = st.insert (makeTrans v.beginTs) (.trans (preparedTrans self.hashId req t)))
    {s : String} (hs : Fresh l w.hist s) (h0 : fate fates 0 = .ok) (h1 : fate fates 1 = .ok) :
    Outcome.Sat (fun (_ : Seg) _ => True)
      (fun w' => PrepareLost False self l w'.hist v req st w'.store)
      (((updateTransSelfCommitTs v.beginTs s).bind fun ret =>
        if ret ≠ 0 then .abort
        else (startCleanTrans self idle v.beginTs).bind fun task =>
          .ret { vars := {}, next := .response (.rpcResponse {}), task := task }).run me fates clocks
            w) := by
  set t' := preparedTrans self.hashId req t with ht'
  have hp : t'.state = .prepared := rfl
  have hread : w.read (makeTrans v.beginTs) = .found (.trans t') := by
    simp [World.read, hw]
  simp only [updateTransSelfCommitTs, dbGet, dbPut, Prog.bind_eq, Prog.pure_eq, Prog.bind, Prog.run,
    headD_eq_fate, fate_tail, h0, h1, hread, Record.toTrans, hp, ne_eq, not_true_eq_false, reduceIte]
  set w₂ := w.write (makeTrans v.beginTs) (Record.trans ({ t' with selfCommitTs := s } : Trans)) with hw₂
  have hst : w₂.store = votedStore self st v.beginTs req t s := by
    simp [hw₂, hw, votedStore, ht', AList.insert_insert]
  have hg := Prog.wp_grown (A := fun _ => True) (startCleanTrans_tells (N := fun _ => True)
    self idle v.beginTs) (.refl me (fun _ => True) w₂.hist)
  have hclean := Prog.wp_and hg (startCleanTrans_wp (A := fun _ => True) self idle v.beginTs
    (List.suffix_refl w₂.hist))
  have hwp : Prog.wp me (fun _ => True) (fun (_ : Seg) _ => True)
      (fun w' => PrepareLost False self l w'.hist v req st w'.store)
      ((startCleanTrans self idle v.beginTs).bind fun task => .ret
        { vars := {}, next := .response (.rpcResponse {}), task := task }) w₂ := by
    refine Prog.wp_bind.mpr (Prog.wp_mono (fun _ _ _ => trivial) ?_ hclean)
    rintro w' ⟨hg', hw'⟩
    rw [hw', hst]
    exact .after t s hv hreq ht hb (hs.mono (List.suffix_refl _) hg'.suffix)
  exact Prog.sat_of_wp (fun _ _ _ h => h) hwp trivial

theorem servePrepare_fates (self : Host) (idle : Nat) (v : Vars) (req : RpcReq) (fates : List Fate)
    (clocks : List Timeval) (w : DbWorld) :
    Outcome.Sat
      (fun seg w' => PrepareEnd (writeFails fates = true) self w.hist w'.hist idle v req w.store seg
        w'.store)
      (fun w' => PrepareLost (cutShort fates = true) self w.hist w'.hist v req w.store w'.store)
      ((servePrepare self idle v req).run me fates clocks w) := by
  simp only [servePrepare]
  by_cases hv : v.beginTs = ""
  · rw [if_pos hv]
    exact .refused v.startTs _ rfl fun h => absurd hv h
  rw [if_neg hv]
  by_cases hreq : v.beginTs = req.beginTs
  swap
  · rw [if_pos hreq]
    exact .refused v.startTs _ rfl fun _ h => absurd h hreq
  rw [if_neg (not_not.mpr hreq), Prog.bind_eq]
  refine updateTransPrepared_sat (fun _ => .before) (fun ret fs w' hret hw' hf => ?_)
    fun t ht hs h0 h1 => ?_
  · simp only [if_pos hret, refuse, respond, Prog.run, Outcome.Sat, hw']
    exact .refused req.startTs _ rfl fun _ _ h => hf h
  simp only [ne_eq, not_true_eq_false, reduceIte, readTS, Prog.bind_eq, Prog.bind]
  cases clocks with
  | nil =>
    simp only [Prog.run, headD_eq_fate, fate_tail]
    split_ifs with h2
    · exact .between t (by simp [cutShort, h0, h1, h2]) hv hreq ht hs
    · trivial
  | cons tv clocks =>
    set w₁ := (w.write (makeTrans v.beginTs)
      (.trans (preparedTrans self.hashId req t))).log (.clock me tv) with hw₁
    have hl : w.hist <:+ w₁.hist := List.suffix_cons _ _
    have hfresh : Fresh w.hist w₁.hist (getTS tv) := .here (List.suffix_refl _)
    have hwp : Prog.wp me (fun _ => True) (fun seg w' => PrepareEnd (writeFails fates = true) self
        w.hist w'.hist idle v req w.store seg w'.store) _ _ w₁ :=
      stampRest_wp self idle v req hl hv hreq ht hs rfl hfresh
    have hsat : Outcome.Sat _ _ (Prog.run me _ fates.tail.tail clocks w₁) :=
      Prog.sat_of_wp (fun _ _ _ h => h) hwp trivial
    by_cases hc : cutShort fates = true
    · exact hsat.mono (fun _ _ h => h) fun _ h => h.mono fun _ => hc
    · have h23 : fate fates 2 = .ok ∧ fate fates 3 = .ok := by simpa [cutShort, h0, h1] using hc
      have h2 : fate fates.tail.tail 0 = .ok := by simpa using h23.1
      have h3 : fate fates.tail.tail 1 = .ok := by simpa using h23.2
      have hwhole := hsat.and (stampRest_whole self idle v req hv hreq ht hs rfl hfresh h2 h3)
      exact hwhole.mono (fun _ _ h => h.1) fun _ h => h.2.mono False.elim

def stateRes : Option Trans → TransStateRes
  | none => { result := 1, errMsg := "get trans err" }
  | some t =>
    { transStat := t.state
      commitTs := match t.state with
        | .prepared => t.selfCommitTs
        | .commited => t.commitTrans
        | _ => "" }

theorem serveTransState_wp (v : Vars) (req : TransStateReq) :
    (serveTransState v req).wp me A
      (fun seg w' => w'.store = w.store ∧ ∃ o, (o = transOf w.store req.beginTs ∨
          o = none ∧ MayFail A) ∧
        seg = { vars := v, next := .response (.transStateResponse (stateRes o)) })
      (fun w' => w'.store = w.store) w := by
  simp only [serveTransState, dbGet, Prog.bind_eq, Prog.bind, Prog.wp]
  refine ⟨fun _ => rfl, fun ha => ⟨rfl, none, .inr ⟨rfl, _, _, ha⟩, rfl⟩, ?_⟩
  rcases read_cases w (makeTrans req.beginTs) with ⟨hr, hl⟩ | ⟨r, hr, hl⟩
  · simp only [hr]
    exact ⟨rfl, none, .inl (transOf_of_lookup_none hl).symm, rfl⟩
  · simp only [hr]
    exact ⟨rfl, some r.toTrans, .inl (transOf_of_lookup hl).symm, rfl⟩

theorem onClose_wp (self : Host) (idle : Nat) (v : Vars) {l : Hist} (hl : l <:+ w.hist) :
    (onClose self idle v).wp me A
      (fun o w' => (v.beginTs = "" ∧ o = none ∧ w'.store = w.store) ∨
        (v.beginTs ≠ "" ∧ CleanEnd self l w'.hist idle v.beginTs w.store o w'.store))
      (fun w' => w'.store = w.store) w := by
  simp only [onClose]
  by_cases hv : v.beginTs = ""
  · rw [if_pos hv]
    exact .inl ⟨hv, rfl, rfl⟩
  · rw [if_neg hv]
    exact Prog.wp_mono (fun _ _ h => .inr ⟨hv, h⟩) (fun _ h => h)
      (startCleanTrans_wp self idle _ hl)

section Others

variable {self : Host} {l l' : Hist} {idle : Nat} {T U : String} {trans : Trans} {st st' : Db.Store}
  {p : Polling} {t : TaskState}

theorem transOf_commitStore_of_ne (commitTs : String) (hU : U ≠ T) :
    transOf (commitStore st T trans commitTs) U = transOf st U := by
  rw [commitStore, transOf_insert_trans, if_neg hU]

theorem transOf_rollbackStore_of_ne (hU : U ≠ T) :
    transOf (rollbackStore st T trans) U = transOf st U := by
  rw [rollbackStore, transOf_insert_trans, if_neg hU]

theorem RoundEnd.others (h : RoundEnd self l l' T trans st t st') (hU : U ≠ T) :
    transOf st' U = transOf st U := by
  cases h with
  | asks => rfl
  | decides m => exact transOf_commitStore_of_ne m hU

theorem NextEnd.others (h : NextEnd self l l' p st t st') (hU : U ≠ p.beginTs) :
    transOf st' U = transOf st U := by
  cases h with
  | asks => rfl
  | decides => exact transOf_commitStore_of_ne _ hU
  | again _ _ _ hr => exact hr.others hU

theorem ResEnd.others {res : TransStateRes} (h : ResEnd self l l' p res st t st')
    (hU : U ≠ p.beginTs) : transOf st' U = transOf st U := by
  cases h with
  | skips _ _ _ hn => exact hn.others hU
  | counts _ _ _ hn => exact hn.others hU
  | commits => exact transOf_commitStore_of_ne _ hU
  | rollsBack => exact transOf_rollbackStore_of_ne hU

theorem CleanEnd.others {o : Option TaskState} (h : CleanEnd self l l' idle T st o st')
    (hU : U ≠ T) : transOf st' U = transOf st U := by
  cases h with
  | nothing => rfl
  | aborts => exact transOf_rollbackStore_of_ne hU
  | resumes _ _ _ _ _ _ hr => exact hr.others hU
  | declines => rfl
  | ends => rfl

theorem PrepareEnd.others {B : Prop} {v : Vars} {req : RpcReq} {seg : Seg}
    (h : PrepareEnd B self l l' idle v req st seg st') (hU : U ≠ v.beginTs) :
    transOf st' U = transOf st U := by
  cases h with
  | refused => rfl
  | votes _ _ _ _ _ _ _ _ _ hc =>
    rw [hc.others hU, votedStore, transOf_insert_trans, if_neg hU]

theorem PrepareLost.others {B : Prop} {v : Vars} {req : RpcReq} (h : PrepareLost B self l l' v req st st')
    (hU : U ≠ v.beginTs) : transOf st' U = transOf st U := by
  cases h with
  | before => rfl
  | between => rw [transOf_insert_trans, if_neg hU]
  | after => rw [votedStore, transOf_insert_trans, if_neg hU]

theorem UpEnd.none_of_none {es : List (String × Record)} {ts : List TaskState}
    (h : UpEnd self l l' idle es st ts st')
    (hes : ∀ T r, (makeTrans T, r) ∈ es → transOf st T ≠ none) (hU : transOf st U = none) :
    transOf st' U = none := by
  have ne : ∀ {T : String} {r : Record} {rest : List (String × Record)} {st : Db.Store},
      (∀ T' r', (makeTrans T', r') ∈ (makeTrans T, r) :: rest → transOf st T' ≠ none) →
      transOf st U = none → U ≠ T := by
    rintro T r rest st hes hU rfl
    exact hes _ _ (.head _) hU
  have some_of : ∀ {T : String} {r' : Record} {V : String} {st : Db.Store},
      transOf st V ≠ none → transOf (st.insert (makeTrans T) r') V ≠ none := by
    intro T r' V st hV
    rw [transOf_insert_trans]
    split_ifs
    · exact Option.some_ne_none _
    · exact hV
  have clean : ∀ {idle T V st o st₁}, CleanEnd self l l' idle T st o st₁ → transOf st V ≠ none →
      transOf st₁ V ≠ none := by
    intro idle T V st o st₁ hc hV
    cases hc with
    | nothing => exact hV
    | aborts => exact some_of hV
    | resumes _ _ _ _ _ _ hr =>
      cases hr with
      | asks => exact hV
      | decides => exact some_of hV
    | declines => exact hV
    | ends => exact hV
  induction h with
  | nil => exact hU
  | aborts _ _ ih =>
    exact ih (fun T r hr => some_of (hes T r (.tail _ hr)))
      (by rw [transOf_rollbackStore_of_ne (ne hes hU), hU])
  | cleans _ hc _ _ ih =>
    exact ih (fun T r hr => clean hc (hes T r (.tail _ hr))) (by rw [hc.others (ne hes hU), hU])
  | resumes _ hc _ _ ih =>
    exact ih (fun T r hr => clean hc (hes T r (.tail _ hr))) (by rw [hc.others (ne hes hU), hU])
  | keeps _ _ ih => exact ih (fun T r hr => hes T r (.tail _ hr)) hU

end Others

end Tpc
