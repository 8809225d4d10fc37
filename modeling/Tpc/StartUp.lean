import Tpc.Pool

/-! Start-up recovery. `startUpClean` passes every transaction record once; it may be cut short
anywhere and run again. What it hands over is lost where a read fails, which it takes for a missing
record, and where the record has no name. -/

namespace Tpc
open Durable

inductive Adopted (T : String) (t : Trans) (st : Db.Store) : TaskState → Db.Store → Prop
  | polls {p : Polling} : p.beginTs = T → Adopted T t st (.polling p) st
  | commits (commitTs : String) : Adopted T t st .idle
      (st.insert (makeTrans T) (.trans { t with state := .commited, commitTrans := commitTs }))

theorem read_of_lookup {w : DbWorld} {k : String} {r : Record} (h : w.store.lookup k = some r) :
    w.read k = .found r := by
  rw [World.read, h]

section OneRecord

variable {self : Host} {me : Proc} {F : Prop} {idle : Nat} {T : String} {t : Trans} {r : Record}
  {fates : List Fate} {clocks : List Timeval} {w : DbWorld}

theorem decideCommit_calm {p : Polling} {commitTs : String}
    (hc : (decideCommit p commitTs).Calm me F fates clocks w) :
    (decideCommit p commitTs).Calm me False fates clocks w ∧
      (decideCommit p commitTs).run me fates clocks w =
        (.done .idle, w.write (makeTrans p.beginTs)
          (.trans { p.trans with state := .commited, commitTrans := commitTs })) := by
  simp only [decideCommit, dbPut, Prog.bind_eq, Prog.bind, Prog.Calm, Prog.run] at hc ⊢
  cases hf : fates.headD .ok with
  | ok => exact ⟨trivial, rfl⟩
  | fail | crash =>
    rw [hf] at hc
    exact False.elim hc

theorem pollRound_calm (hc : (pollRound self T t).Calm me F fates clocks w) :
    (pollRound self T t).Calm me False fates clocks w ∧ ∃ task w',
      (pollRound self T t).run me fates clocks w = (.done task, w') ∧
        Adopted T t w.store task w'.store := by
  -- behind the choice of the commit timestamp
  have rest : ∀ (m : String) (n : Nat) {clocks : List Timeval} {w : DbWorld},
      let p : Polling := { beginTs := T, trans := t, i := n, maxCommitTs := m, nPrepared := n }
      let q : Db TaskState := if n < t.transList.length then .ret (.polling p) else decideCommit p m
      q.Calm me F fates clocks w → q.Calm me False fates clocks w ∧ ∃ task w',
        q.run me fates clocks w = (.done task, w') ∧ Adopted T t w.store task w'.store := by
    intro m n clocks w p q hq
    by_cases hn : n < t.transList.length
    · simp only [q, if_pos hn]
      exact ⟨trivial, _, w, rfl, .polls rfl⟩
    · simp only [q, if_neg hn] at hq ⊢
      obtain ⟨hq, hrun⟩ := decideCommit_calm hq
      exact ⟨hq, _, _, hrun, .commits m⟩
  by_cases hself : t.selfCommitTs = ""
  · simp only [pollRound, hself, if_true, readTS, Prog.bind_eq, Prog.bind, Prog.pure_eq] at hc ⊢
    cases clocks with
    | nil => exact False.elim hc
    | cons tv clocks => exact rest _ _ hc
  · simp only [pollRound, if_neg hself, Prog.bind_eq, Prog.pure_eq, Prog.bind] at hc ⊢
    exact rest _ _ hc

theorem prepareRoutine_calm (hl : w.store.lookup (makeTrans T) = some r)
    (hp : r.toTrans.state = .prepared)
    (hc : (prepareRoutine self T).Calm me F fates clocks w) : ∃ task w',
      (prepareRoutine self T).run me fates clocks w = (.done task, w') ∧
      ((prepareRoutine self T).Calm me False fates clocks w ∧ T ≠ "" ∧
          Adopted T r.toTrans w.store task w'.store ∨
        ¬ ((prepareRoutine self T).Calm me False fates clocks w ∧ T ≠ "") ∧
          (task = .idle ∨ task = .ended) ∧ w'.store = w.store) := by
  rw [prepareRoutine] at hc ⊢
  by_cases hT : T = ""
  · rw [if_pos hT]
    exact ⟨.idle, w, rfl, .inr ⟨fun h => h.2 hT, .inl rfl, rfl⟩⟩
  rw [if_neg hT] at hc ⊢
  simp only [dbGet, Prog.bind_eq, Prog.bind, Prog.Calm, Prog.run] at hc ⊢
  cases hf : fates.headD .ok with
  | ok =>
    simp only [hf, read_of_lookup hl, hp, ne_eq, not_true_eq_false, if_false] at hc ⊢
    obtain ⟨hcalm, task, w', hrun, hadopted⟩ := pollRound_calm hc
    exact ⟨task, w', hrun, .inl ⟨hcalm, hT, hadopted⟩⟩
  | fail => exact ⟨.ended, _, rfl, .inr ⟨fun h => h.1.1, .inr rfl, rfl⟩⟩
  | crash =>
    rw [hf] at hc
    exact False.elim hc

theorem startCleanTrans_calm (hl : w.store.lookup (makeTrans T) = some r)
    (hp : r.toTrans.state = .prepared) (hidle : idle ≠ 0)
    (hc : (startCleanTrans self idle T).Calm me F fates clocks w) : ∃ o w',
      (startCleanTrans self idle T).run me fates clocks w = (.done o, w') ∧
      ((startCleanTrans self idle T).Calm me False fates clocks w ∧ T ≠ "" ∧
          Adopted T r.toTrans w.store (o.getD .idle) w'.store ∨
        ¬ ((startCleanTrans self idle T).Calm me False fates clocks w ∧ T ≠ "") ∧
          (o.getD .idle = .idle ∨ o.getD .idle = .ended) ∧ w'.store = w.store) := by
  simp only [startCleanTrans, dbGet, Prog.bind_eq, Prog.bind, Prog.Calm, Prog.run] at hc ⊢
  cases hf : fates.headD .ok with
  | ok =>
    simp only [hf, read_of_lookup hl, hp, if_neg hidle] at hc ⊢
    obtain ⟨task, w', hrun, hend⟩ := prepareRoutine_calm hl hp ((Prog.calm_bind ..).mp hc).1
    refine ⟨some task, w', ?_, ?_⟩
    · rw [Prog.run_bind, hrun]
      rfl
    · have hquiet : ((prepareRoutine self T).bind fun t => pure (some t)).Calm me False fates.tail
          clocks w ↔ (prepareRoutine self T).Calm me False fates.tail clocks w :=
        (Prog.calm_bind ..).trans (and_iff_left fun _ _ _ => trivial)
      rw [hquiet]
      exact hend
  | fail => exact ⟨none, _, rfl, .inr ⟨fun h => h.1.1, .inl rfl, rfl⟩⟩
  | crash =>
    rw [hf] at hc
    exact False.elim hc

inductive Cared (T : String) (r : Record) (st : Db.Store) : List TaskState → Db.Store → Prop
  | rollsBack : r.toTrans.state = .begin → Cared T r st [] (rollbackStore st T r.toTrans)
  | keeps : r.toTrans.state = .commited ∨ r.toTrans.state = .rollback → Cared T r st [] st
  | polls {p : Polling} : r.toTrans.state = .prepared → p.beginTs = T → Cared T r st [.polling p] st
  | commits (commitTs : String) : r.toTrans.state = .prepared →
      Cared T r st [] (commitStore st T r.toTrans commitTs)

inductive Dropped (r : Record) (st : Db.Store) : List TaskState → Db.Store → Prop
  | skips : r.toTrans.state = .prepared → Dropped r st [] st
  | ends : r.toTrans.state = .prepared → Dropped r st [.ended] st

def atWork : Option TaskState → List TaskState
  | some (.polling p) => [.polling p]
  | some .ended => [.ended]
  | _ => []

theorem startUpLoop_prepared (hs : r.toTrans.state = .prepared) :
    startUpLoop self idle [(makeTrans T, r)] =
      (startCleanTrans self idle T).bind fun o => .ret (atWork o) := by
  simp only [startUpLoop, parseTrans_makeTrans, hs, Prog.bind_eq]
  congr 1
  funext o
  rcases o with - | (- | p | -) <;> rfl

theorem startUpLoop_one_calm (hl : w.store.lookup (makeTrans T) = some r)
    (hidle : r.toTrans.state = .prepared → idle ≠ 0)
    (hc : (startUpLoop self idle [(makeTrans T, r)]).Calm me F fates clocks w) : ∃ ts w',
      (startUpLoop self idle [(makeTrans T, r)]).run me fates clocks w = (.done ts, w') ∧
      ((startUpLoop self idle [(makeTrans T, r)]).Calm me False fates clocks w ∧
          (r.toTrans.state = .prepared → T ≠ "") ∧ Cared T r w.store ts w'.store ∨
        ¬ ((startUpLoop self idle [(makeTrans T, r)]).Calm me False fates clocks w ∧
          (r.toTrans.state = .prepared → T ≠ "")) ∧ Dropped r w.store ts w'.store) := by
  cases hs : r.toTrans.state with
  | begin =>
    simp only [startUpLoop, hs, dbPut, Prog.bind_eq, Prog.bind, Prog.pure_eq, Prog.Calm, Prog.run]
      at hc ⊢
    cases hf : fates.headD .ok with
    | ok => exact ⟨[], _, rfl, .inl ⟨trivial, (fun h => by cases h), .rollsBack hs⟩⟩
    | fail | crash =>
      rw [hf] at hc
      exact False.elim hc
  | commited =>
    simp only [startUpLoop, hs]
    exact ⟨[], w, rfl, .inl ⟨trivial, (fun h => by cases h), .keeps (.inl hs)⟩⟩
  | rollback =>
    simp only [startUpLoop, hs]
    exact ⟨[], w, rfl, .inl ⟨trivial, (fun h => by cases h), .keeps (.inr hs)⟩⟩
  | prepared =>
    rw [startUpLoop_prepared hs] at hc ⊢
    obtain ⟨o, w', hrun, hend⟩ :=
      startCleanTrans_calm hl hs (hidle hs) ((Prog.calm_bind ..).mp hc).1
    have hquiet : ((startCleanTrans self idle T).bind fun o => .ret (atWork o)).Calm me False fates
        clocks w ↔ (startCleanTrans self idle T).Calm me False fates clocks w :=
      (Prog.calm_bind ..).trans (and_iff_left fun _ _ _ => trivial)
    refine ⟨atWork o, w', ?_, ?_⟩
    · rw [Prog.run_bind_ret, hrun]
      rfl
    rw [hquiet]
    rcases hend with ⟨hq, hT, hadopted⟩ | ⟨hq, ho, hw⟩
    · refine .inl ⟨hq, fun _ => hT, ?_⟩
      generalize w'.store = st' at hadopted
      rcases o with - | (- | p | -)
      · cases hadopted
        exact .commits _ hs
      · cases hadopted
        exact .commits _ hs
      · cases hadopted with
        | polls hp => exact .polls hs hp
      · cases hadopted
    · refine .inr ⟨fun h => hq ⟨h.1, h.2 rfl⟩, ?_⟩
      rw [hw]
      rcases o with - | (- | p | -)
      · exact .skips hs
      · exact .skips hs
      · rcases ho with ho | ho <;> cases ho
      · exact .ends hs

end OneRecord

def recovered (r : Record) : Record :=
  if r.toTrans.state = .begin then .trans { r.toTrans with state := .rollback } else r

/-- What becomes of the database when the records `es` are passed, the prepared ones apart. -/
structure Repairs (es : List (String × Record)) (st st' : Db.Store) : Prop where
  settled : ∀ T r, (makeTrans T, r) ∈ es → r.toTrans.state ≠ .prepared →
    st'.lookup (makeTrans T) = some (recovered r)
  others : ∀ k, k ∉ es.map Prod.fst → st'.lookup k = st.lookup k

structure Restored (es : List (String × Record)) (st : Db.Store) (ts : List TaskState)
    (st' : Db.Store) : Prop extends Repairs es st st' where
  tasks : ∀ p, .polling p ∈ ts → ∃ r, (makeTrans p.beginTs, r) ∈ es ∧ r.toTrans.state = .prepared

def worksOn (T : String) : TaskState → Bool
  | .polling p => p.beginTs = T
  | _ => false

/-- The prepared record `r` of `T` is with exactly one task; a task that finds no other participant
in it commits at once. -/
def Handed (ts : List TaskState) (st' : Db.Store) (T : String) (r : Record) : Prop :=
  (st'.lookup (makeTrans T) = some r ∧ ts.countP (worksOn T) = 1) ∨
  ∃ commitTs, st'.lookup (makeTrans T) =
    some (.trans { r.toTrans with state := .commited, commitTrans := commitTs }) ∧
    ts.countP (worksOn T) = 0

def AllHanded (es : List (String × Record)) (ts : List TaskState) (st' : Db.Store) : Prop :=
  (∀ T r, (makeTrans T, r) ∈ es → r.toTrans.state = .prepared → Handed ts st' T r) ∧
    ∀ t ∈ ts, ∃ p, t = .polling p

def preparedIn (es : List (String × Record)) : Nat :=
  es.countP fun e => e.2.toTrans.state = .prepared

section AllRecords

variable {self : Host} {me : Proc} {F : Prop} {idle : Nat} {T : String} {r : Record}
  {fates : List Fate} {clocks : List Timeval} {w : DbWorld} {es : List (String × Record)}
  {e : String × Record} {ts ts' : List TaskState} {st st₁ st' : Db.Store}

theorem recovered_of_begin (hs : r.toTrans.state = .begin) :
    recovered r = .trans { r.toTrans with state := .rollback } := if_pos hs

theorem recovered_of_decided (hs : r.toTrans.state = .commited ∨ r.toTrans.state = .rollback) :
    recovered r = r := by
  refine if_neg fun hb => ?_
  rw [hb] at hs
  simp at hs

theorem Restored.countP_eq_zero (h : Restored es st ts st') (hT : ∀ r, (makeTrans T, r) ∉ es) :
    ts.countP (worksOn T) = 0 := by
  rw [List.countP_eq_zero]
  intro t ht hw
  cases t with
  | polling p =>
    obtain ⟨r, hr, -⟩ := h.tasks p ht
    obtain rfl : p.beginTs = T := by simpa [worksOn] using hw
    exact hT r hr
  | idle => cases hw
  | ended => cases hw

theorem Restored.append (h : Restored [e] st ts st₁) (h' : Restored es st₁ ts' st')
    (hne : e.1 ∉ es.map Prod.fst) : Restored (e :: es) st (ts ++ ts') st' where
  settled := fun T r hm hs => by
    rcases List.mem_cons.mp hm with rfl | hm
    · rw [h'.others _ hne]
      exact h.settled T r (.head _) hs
    · exact h'.settled T r hm hs
  others := fun k hk => by
    rw [List.map_cons, List.mem_cons, not_or] at hk
    rw [h'.others k hk.2]
    exact h.others k (by simpa using hk.1)
  tasks := fun p hp => by
    rcases List.mem_append.mp hp with hp | hp
    · obtain ⟨r, hr, hs⟩ := h.tasks p hp
      exact ⟨r, List.mem_cons.mpr (.inl (List.mem_singleton.mp hr)), hs⟩
    · obtain ⟨r, hr, hs⟩ := h'.tasks p hp
      exact ⟨r, .tail _ hr, hs⟩

theorem Handed.congr (hst : st'.lookup (makeTrans T) = st.lookup (makeTrans T))
    (hts : ts'.countP (worksOn T) = ts.countP (worksOn T)) : Handed ts' st' T r ↔ Handed ts st T r := by
  rw [Handed, Handed, hst, hts]

theorem allHanded_append (hk : e.1 = makeTrans T) (h : Restored [e] st ts st₁)
    (h' : Restored es st₁ ts' st') (hne : e.1 ∉ es.map Prod.fst) :
    AllHanded (e :: es) (ts ++ ts') st' ↔ AllHanded [e] ts st₁ ∧ AllHanded es ts' st' := by
  -- the tasks and the records of the two parts are apart
  have hhead : ∀ U r, (makeTrans U, r) ∈ [e] → (Handed (ts ++ ts') st' U r ↔ Handed ts st₁ U r) := by
    intro U r hm
    obtain rfl := List.mem_singleton.mp hm
    refine Handed.congr (h'.others _ hne) ?_
    rw [List.countP_append, h'.countP_eq_zero fun r' hr' => hne (List.mem_map.mpr ⟨_, hr', rfl⟩),
      Nat.add_zero]
  have htail : ∀ U r, (makeTrans U, r) ∈ es → (Handed (ts ++ ts') st' U r ↔ Handed ts' st' U r) := by
    intro U r hm
    refine Handed.congr rfl ?_
    rw [List.countP_append, h.countP_eq_zero, Nat.zero_add]
    intro r' hr'
    obtain rfl := List.mem_singleton.mp hr'
    exact hne (List.mem_map.mpr ⟨_, hm, rfl⟩)
  constructor
  · rintro ⟨hall, hpoll⟩
    refine ⟨⟨fun U r hm hs => ?_, fun t ht => hpoll t (List.mem_append_left _ ht)⟩,
      fun U r hm hs => ?_, fun t ht => hpoll t (List.mem_append_right _ ht)⟩
    · obtain rfl := List.mem_singleton.mp hm
      exact (hhead U r hm).mp (hall U r (.head _) hs)
    · exact (htail U r hm).mp (hall U r (.tail _ hm) hs)
  · rintro ⟨⟨hall, hpoll⟩, hall', hpoll'⟩
    refine ⟨fun U r hm hs => ?_, fun t ht => (List.mem_append.mp ht).elim (hpoll t) (hpoll' t)⟩
    rcases List.mem_cons.mp hm with he | hm
    · have hm : (makeTrans U, r) ∈ [e] := List.mem_singleton.mpr he
      exact (hhead U r hm).mpr (hall U r hm hs)
    · exact (htail U r hm).mpr (hall' U r hm hs)

theorem mem_single {U : String} {r' : Record} (h : (makeTrans U, r') ∈ [(makeTrans T, r)]) :
    U = T ∧ r' = r := by
  obtain ⟨hU, hr⟩ := Prod.mk.inj (List.mem_singleton.mp h)
  exact ⟨makeTrans_inj.mp hU, hr⟩

theorem Restored.single
    (hsettled : r.toTrans.state ≠ .prepared → st'.lookup (makeTrans T) = some (recovered r))
    (hothers : ∀ k, k ≠ makeTrans T → st'.lookup k = st.lookup k)
    (htasks : ∀ p, .polling p ∈ ts → p.beginTs = T ∧ r.toTrans.state = .prepared) :
    Restored [(makeTrans T, r)] st ts st' where
  settled := fun U r' hm hs => by
    obtain ⟨rfl, rfl⟩ := mem_single hm
    exact hsettled hs
  others := fun k hk => hothers k (by simpa using hk)
  tasks := fun p hp => by
    obtain ⟨rfl, hs⟩ := htasks p hp
    exact ⟨r, .head _, hs⟩

theorem allHanded_single :
    AllHanded [(makeTrans T, r)] ts st' ↔
      (r.toTrans.state = .prepared → Handed ts st' T r) ∧ ∀ t ∈ ts, ∃ p, t = .polling p := by
  refine and_congr_left fun _ => ⟨fun h hs => h T r (.head _) hs, fun h U r' hm hs => ?_⟩
  obtain ⟨rfl, rfl⟩ := mem_single hm
  exact h hs

theorem preparedIn_single (hs : r.toTrans.state = .prepared) : preparedIn [(makeTrans T, r)] = 1 := by
  simp [preparedIn, hs]

theorem Cared.restored (hl : st.lookup (makeTrans T) = some r) (h : Cared T r st ts st') :
    Restored [(makeTrans T, r)] st ts st' ∧ AllHanded [(makeTrans T, r)] ts st' ∧
      ts.length ≤ preparedIn [(makeTrans T, r)] := by
  rw [allHanded_single]
  cases h with
  | rollsBack hs =>
    refine ⟨.single (fun _ => ?_) (fun k hk => AList.lookup_insert_ne hk) nofun, ⟨fun hp => ?_, nofun⟩,
      Nat.zero_le _⟩
    · rw [recovered_of_begin hs]
      exact AList.lookup_insert _
    · rw [hs] at hp
      cases hp
  | keeps hs =>
    refine ⟨.single (fun _ => ?_) (fun _ _ => rfl) nofun, ⟨fun hp => ?_, nofun⟩, Nat.zero_le _⟩
    · rw [recovered_of_decided hs]
      exact hl
    · rw [hp] at hs
      simp at hs
  | @polls p hs hp =>
    refine ⟨.single (fun hne => absurd hs hne) (fun _ _ => rfl) fun q hq => ?_,
      ⟨fun _ => ?_, fun t ht => ?_⟩, (preparedIn_single hs).ge⟩
    · obtain rfl := TaskState.polling.inj (List.mem_singleton.mp hq)
      exact ⟨hp, hs⟩
    · exact .inl ⟨hl, by simp [worksOn, hp]⟩
    · exact ⟨p, List.mem_singleton.mp ht⟩
  | commits commitTs hs =>
    refine ⟨.single (fun hne => absurd hs hne) (fun k hk => AList.lookup_insert_ne hk) nofun,
      ⟨fun _ => .inr ⟨commitTs, AList.lookup_insert _, rfl⟩, nofun⟩, Nat.zero_le _⟩

theorem Dropped.restored (hl : st.lookup (makeTrans T) = some r) (h : Dropped r st ts st') :
    Restored [(makeTrans T, r)] st ts st' ∧ ¬ AllHanded [(makeTrans T, r)] ts st' ∧
      ts.length ≤ preparedIn [(makeTrans T, r)] := by
  rw [allHanded_single]
  cases h with
  | skips hs =>
    refine ⟨.single (fun hne => absurd hs hne) (fun _ _ => rfl) nofun, fun ⟨hhanded, _⟩ => ?_,
      Nat.zero_le _⟩
    rcases hhanded hs with ⟨-, hcount⟩ | ⟨commitTs, hcommit, -⟩
    · cases hcount
    · have hstate := congrArg (fun r => r.toTrans.state) (Option.some.inj (hl.symm.trans hcommit))
      cases hs.symm.trans hstate
  | ends hs =>
    refine ⟨.single (fun hne => absurd hs hne) (fun _ _ => rfl) fun p hp => ?_, fun ⟨_, hpoll⟩ => ?_,
      (preparedIn_single hs).ge⟩
    · cases List.mem_singleton.mp hp
    · obtain ⟨p, hp⟩ := hpoll .ended (.head _)
      cases hp

theorem startUpLoop_calm (hk : ∀ e ∈ es, ∃ T, e.1 = makeTrans T) (hnodup : (es.map Prod.fst).Nodup)
    (hl : ∀ e ∈ es, w.store.lookup e.1 = some e.2) (hidle : preparedIn es ≤ idle)
    (hc : (startUpLoop self idle es).Calm me F fates clocks w) : ∃ ts w',
      (startUpLoop self idle es).run me fates clocks w = (.done ts, w') ∧
      Restored es w.store ts w'.store ∧
      (AllHanded es ts w'.store ↔ (startUpLoop self idle es).Calm me False fates clocks w ∧
        ∀ r, (makeTrans "", r) ∈ es → r.toTrans.state ≠ .prepared) := by
  induction es generalizing idle fates clocks w with
  | nil =>
    refine ⟨[], w, rfl, ⟨⟨nofun, fun _ _ => rfl⟩, nofun⟩, iff_of_true ⟨nofun, nofun⟩ ⟨trivial, nofun⟩⟩
  | cons e rest ih =>
    obtain ⟨key, r⟩ := e
    obtain ⟨T, rfl⟩ : ∃ T, key = makeTrans T := hk _ (.head _)
    obtain ⟨hne, hnodup⟩ := List.nodup_cons.mp hnodup
    have hcount : preparedIn ((makeTrans T, r) :: rest) =
        preparedIn [(makeTrans T, r)] + preparedIn rest := @List.countP_append _ _ [_] _
    rw [startUpLoop_cons] at hc ⊢
    obtain ⟨hone, hafter⟩ := (Prog.calm_bind ..).mp hc
    have hidle' : r.toTrans.state = .prepared → idle ≠ 0 := fun hs => by
      rw [preparedIn_single hs] at hcount
      omega
    have hlr : w.store.lookup (makeTrans T) = some r := hl _ (.head _)
    obtain ⟨ts₁, w₁, hrun₁, hend⟩ := startUpLoop_one_calm hlr hidle' hone
    have hpass : Restored [(makeTrans T, r)] w.store ts₁ w₁.store ∧
        (AllHanded [(makeTrans T, r)] ts₁ w₁.store ↔
          (startUpLoop self idle [(makeTrans T, r)]).Calm me False fates clocks w ∧
            (r.toTrans.state = .prepared → T ≠ "")) ∧
        ts₁.length ≤ preparedIn [(makeTrans T, r)] := by
      rcases hend with ⟨hq, hT, hcared⟩ | ⟨hno, hdropped⟩
      · obtain ⟨h1, h2, h3⟩ := hcared.restored hlr
        exact ⟨h1, iff_of_true h2 ⟨hq, hT⟩, h3⟩
      · obtain ⟨h1, h2, h3⟩ := hdropped.restored hlr
        exact ⟨h1, iff_of_false h2 hno, h3⟩
    obtain ⟨hres₁, hhand₁, hlen₁⟩ := hpass
    have hl₁ : ∀ e ∈ rest, w₁.store.lookup e.1 = some e.2 := fun e he => by
      rw [hres₁.others e.1, hl e (.tail _ he)]
      simp only [List.map_cons, List.map_nil, List.mem_singleton]
      exact fun heq => hne (List.mem_map.mpr ⟨e, he, heq⟩)
    obtain ⟨ts₂, w₂, hrun₂, hres₂, hhand₂⟩ := ih (fun e he => hk e (.tail _ he)) hnodup hl₁ (by omega)
      ((Prog.calm_bind ..).mp (hafter ts₁ w₁ hrun₁)).1
    refine ⟨ts₁ ++ ts₂, w₂, ?_, hres₁.append hres₂ hne, ?_⟩
    · rw [Prog.run_bind, hrun₁]
      simp only [Prog.run_bind_ret, hrun₂]
      rfl
    · have hname : (∀ r', (makeTrans "", r') ∈ (makeTrans T, r) :: rest → r'.toTrans.state ≠ .prepared) ↔
          (r.toTrans.state = .prepared → T ≠ "") ∧
            ∀ r', (makeTrans "", r') ∈ rest → r'.toTrans.state ≠ .prepared := by
        constructor
        · intro h
          refine ⟨fun hs hT => ?_, fun r' hr' => h r' (.tail _ hr')⟩
          subst hT
          exact h r (.head _) hs
        · rintro ⟨hT, h⟩ r' hr' hs
          rcases List.mem_cons.mp hr' with he | hr'
          · obtain ⟨hT', rfl⟩ := Prod.mk.inj he
            exact hT hs (makeTrans_inj.mp hT').symm
          · exact h r' hr' hs
      rw [allHanded_append rfl hres₁ hres₂ hne, hhand₁, hhand₂, Prog.calm_bind, hname]
      constructor
      · rintro ⟨⟨hq₁, hT⟩, hq₂, hrest⟩
        refine ⟨⟨hq₁, fun b w' hb => ?_⟩, hT, hrest⟩
        obtain ⟨hts, rfl⟩ := Prod.mk.inj (hrun₁.symm.trans hb)
        obtain rfl := Outcome.done.inj hts
        exact (Prog.calm_bind ..).mpr ⟨hq₂, fun _ _ _ => trivial⟩
      · rintro ⟨⟨hq₁, hafter⟩, hT, hrest⟩
        exact ⟨⟨hq₁, hT⟩, ((Prog.calm_bind ..).mp (hafter ts₁ w₁ hrun₁)).1, hrest⟩

end AllRecords

section Restart

variable {self : Host} {l l' : Hist} {idle : Nat} {T k : String} {r : Record} {t : TaskState}
  {es es₁ pre : List (String × Record)} {ts : List TaskState} {st st₁ st₂ st' : Db.Store}

theorem CleanEnd.lookup_ne {o : Option TaskState} (h : CleanEnd self l l' idle T st o st')
    (hk : k ≠ makeTrans T) : st'.lookup k = st.lookup k := by
  cases h with
  | nothing => rfl
  | aborts => exact AList.lookup_insert_ne hk
  | resumes _ _ _ _ _ _ hr =>
    cases hr with
    | asks => rfl
    | decides => exact AList.lookup_insert_ne hk
  | declines => rfl
  | ends => rfl

theorem Repairs.cons (hne : makeTrans T ∉ es.map Prod.fst)
    (hsettled : r.toTrans.state ≠ .prepared → st₁.lookup (makeTrans T) = some (recovered r))
    (hothers : ∀ k, k ≠ makeTrans T → st₁.lookup k = st.lookup k) (h : Repairs es st₁ st') :
    Repairs ((makeTrans T, r) :: es) st st' where
  settled := fun U r' hm hs => by
    rcases List.mem_cons.mp hm with he | hm
    · obtain ⟨hU, rfl⟩ := Prod.mk.inj he
      rw [hU, h.others _ hne]
      exact hsettled hs
    · exact h.settled U r' hm hs
  others := fun k hk => by
    rw [List.map_cons, List.mem_cons, not_or] at hk
    rw [h.others k hk.2]
    exact hothers k hk.1

theorem UpEnd.repairs (h : UpEnd self l l' idle es st ts st') (hnodup : (es.map Prod.fst).Nodup)
    (hl : ∀ e ∈ es, st.lookup e.1 = some e.2) : Repairs es st st' := by
  -- the records to come are still there
  have next : ∀ {T r rest} {st st₁ : Db.Store}, makeTrans T ∉ List.map Prod.fst rest →
      (∀ e ∈ (makeTrans T, r) :: rest, st.lookup e.1 = some e.2) →
      (∀ k, k ≠ makeTrans T → st₁.lookup k = st.lookup k) → ∀ e ∈ rest, st₁.lookup e.1 = some e.2 := by
    intro T r rest st st₁ hne hl hothers e he
    rw [hothers e.1 fun heq => hne (List.mem_map.mpr ⟨e, he, heq⟩)]
    exact hl e (.tail _ he)
  induction h with
  | nil => exact ⟨nofun, fun _ _ => rfl⟩
  | @aborts idle T r rest st ts st' hs _ ih =>
    obtain ⟨hne, hnodup⟩ := List.nodup_cons.mp hnodup
    have hothers : ∀ k, k ≠ makeTrans T → (rollbackStore st T r.toTrans).lookup k = st.lookup k :=
      fun k hk => AList.lookup_insert_ne hk
    refine .cons hne (fun _ => ?_) hothers (ih hnodup (next hne hl hothers))
    rw [recovered_of_begin hs]
    exact AList.lookup_insert _
  | cleans hs hc _ _ ih =>
    obtain ⟨hne, hnodup⟩ := List.nodup_cons.mp hnodup
    have hothers := fun k => hc.lookup_ne (k := k)
    exact .cons hne (fun hno => absurd hs hno) hothers (ih hnodup (next hne hl hothers))
  | resumes hs hc _ _ ih =>
    obtain ⟨hne, hnodup⟩ := List.nodup_cons.mp hnodup
    have hothers := fun k => hc.lookup_ne (k := k)
    exact .cons hne (fun hno => absurd hs hno) hothers (ih hnodup (next hne hl hothers))
  | keeps hs _ ih =>
    obtain ⟨hne, hnodup⟩ := List.nodup_cons.mp hnodup
    refine .cons hne (fun _ => ?_) (fun _ _ => rfl) (ih hnodup fun e he => hl e (.tail _ he))
    rw [recovered_of_decided hs]
    exact hl _ (.head _)

structure Lists (es : List (String × Record)) (st : Db.Store) : Prop where
  key : ∀ e ∈ es, ∃ T, e.1 = makeTrans T
  nodup : (es.map Prod.fst).Nodup
  mem : ∀ T r, (makeTrans T, r) ∈ es ↔ st.lookup (makeTrans T) = some r

theorem Lists.lookup (h : Lists es st) {e : String × Record} (he : e ∈ es) :
    st.lookup e.1 = some e.2 := by
  obtain ⟨T, hT⟩ := h.key e he
  obtain ⟨k, r⟩ := e
  obtain rfl : k = makeTrans T := hT
  exact (h.mem T r).mp he

theorem lists_transEntries (w : DbWorld) : Lists (transEntries w.listing) w.store where
  key := fun _ he => makeTrans_of_mem_transEntries he
  nodup := ((transEntries_sublist _).map Prod.fst).nodup (World.listing_keys_nodup w)
  mem := fun T r => by
    rw [← World.mem_listing]
    exact ⟨fun h => (transEntries_sublist _).subset h, transEntries_complete w.listing_pairwise⟩

theorem recovered_recovered (r : Record) : recovered (recovered r) = recovered r := by
  by_cases hs : r.toTrans.state = .begin
  · rw [recovered_of_begin hs]
    exact if_neg nofun
  · rw [recovered, recovered, if_neg hs, if_neg hs]

theorem recovered_ne_prepared (hs : r.toTrans.state ≠ .prepared) :
    (recovered r).toTrans.state ≠ .prepared := by
  by_cases hb : r.toTrans.state = .begin
  · rw [recovered_of_begin hb]
    exact nofun
  · rwa [recovered, if_neg hb]

/-- The records that start-up settles by itself, all but the prepared ones. -/
def Settled (st : Db.Store) (k : String) : Prop :=
  ∀ T r, k = makeTrans T → st.lookup k = some r → r.toTrans.state ≠ .prepared

theorem Repairs.lookup (h : Repairs es st st') (hes : Lists es st) (hs : Settled st (makeTrans T)) :
    st'.lookup (makeTrans T) = (st.lookup (makeTrans T)).map recovered := by
  cases hr : st.lookup (makeTrans T) with
  | some r => exact h.settled T r ((hes.mem T r).mpr hr) (hs T r rfl hr)
  | none =>
    rw [h.others _ fun hm => ?_, hr]
    · rfl
    obtain ⟨e, he, hk⟩ := List.mem_map.mp hm
    rw [← hk, hes.lookup he] at hr
    cases hr

theorem Repairs.restart (h : Repairs es st st') (hes : Lists es st) (hpre : pre <+: es)
    (h₁ : Repairs pre st st₁) (hes₁ : Lists es₁ st₁) (h₂ : Repairs es₁ st₁ st₂) (hs : Settled st k) :
    st₂.lookup k = st'.lookup k := by
  by_cases hk : ∃ T, k = makeTrans T
  · obtain ⟨T, rfl⟩ := hk
    -- the first run has settled the record or left it
    have hmid : st₁.lookup (makeTrans T) = st.lookup (makeTrans T) ∨
        st₁.lookup (makeTrans T) = (st.lookup (makeTrans T)).map recovered := by
      by_cases hm : makeTrans T ∈ pre.map Prod.fst
      · obtain ⟨⟨_, r⟩, he, rfl⟩ := List.mem_map.mp hm
        have hr := (hes.mem T r).mp (hpre.subset he)
        refine .inr ?_
        rw [h₁.settled T r he (hs T r rfl hr), hr]
        rfl
      · exact .inl (h₁.others _ hm)
    have hs₁ : Settled st₁ (makeTrans T) := by
      rintro U r - hr
      rcases hmid with hmid | hmid
      · exact hs T r rfl (hmid.symm.trans hr)
      · obtain ⟨r₀, hr₀, rfl⟩ := Option.map_eq_some_iff.mp (hmid.symm.trans hr)
        exact recovered_ne_prepared (hs T r₀ rfl hr₀)
    rw [h₂.lookup hes₁ hs₁, h.lookup hes hs]
    rcases hmid with hmid | hmid
    · rw [hmid]
    · rw [hmid, Option.map_map]
      congr 1
      funext r
      exact recovered_recovered r
  · have hno : ∀ {es : List (String × Record)}, (∀ e ∈ es, ∃ T, e.1 = makeTrans T) →
        k ∉ es.map Prod.fst := by
      intro es hkey hm
      obtain ⟨e, he, rfl⟩ := List.mem_map.mp hm
      exact hk (hkey e he)
    rw [h₂.others k (hno hes₁.key), h₁.others k (hno fun e he => hes.key e (hpre.subset he)),
      h.others k (hno hes.key)]

end Restart

/-- What start-up recovery promises of the database and the tasks it leaves. -/
structure Recovered (st : Db.Store) (ts : List TaskState) (st' : Db.Store) : Prop where
  rollsBack : ∀ T r, st.lookup (makeTrans T) = some r → r.toTrans.state = .begin →
    st'.lookup (makeTrans T) = some (.trans { r.toTrans with state := .rollback })
  decided : ∀ T r, st.lookup (makeTrans T) = some r →
    r.toTrans.state = .commited ∨ r.toTrans.state = .rollback → st'.lookup (makeTrans T) = some r
  others : ∀ k, (∀ T, k ≠ makeTrans T) → st'.lookup k = st.lookup k
  handed : ∀ T r, st.lookup (makeTrans T) = some r → r.toTrans.state = .prepared → Handed ts st' T r
  tasks : ∀ t ∈ ts, ∃ p r, t = .polling p ∧ st.lookup (makeTrans p.beginTs) = some r ∧
    r.toTrans.state = .prepared

/-- A run that is cut short and one that completes after it leave the records that are not prepared
as `st'` has them. -/
def Restarts (self : Host) (st st' : Db.Store) : Prop :=
  ∀ (me : Proc) (idle₁ idle₂ : Nat) (fates₁ fates₂ : List Fate) (clocks₁ clocks₂ : List Timeval)
    (hist₁ hist₂ : Hist) (w₁ w₂ : DbWorld) (ts : List TaskState),
    (startUpClean self idle₁).run me fates₁ clocks₁ ⟨st, hist₁⟩ = (.died, w₁) →
    (startUpClean self idle₂).run me fates₂ clocks₂ ⟨w₁.store, hist₂⟩ = (.done ts, w₂) →
    ∀ k, Settled st k → w₂.store.lookup k = st'.lookup k

/-- `startUpClean` completes, recovers the database and can be run again. -/
def Recovers (self : Host) (idle : Nat) (me : Proc) (fates : List Fate) (clocks : List Timeval)
    (w : DbWorld) : Prop :=
  ∃ ts w', (startUpClean self idle).run me fates clocks w = (.done ts, w') ∧
    Recovered w.store ts w'.store ∧ Restarts self w.store w'.store

def preparedRecords (w : DbWorld) : Nat :=
  preparedIn (w.listing.filter fun e => (makeTrans "").toList.isPrefixOf e.1.toList)

section Recovery

variable {self : Host} {idle : Nat} {me : Proc} {fates : List Fate} {clocks : List Timeval}
  {w w' : DbWorld} {ts : List TaskState} {es : List (String × Record)} {st st' : Db.Store}

theorem preparedIn_transEntries_le (w : DbWorld) :
    preparedIn (transEntries w.listing) ≤ preparedRecords w := by
  have hall : (transEntries w.listing).filter
      (fun e => (makeTrans "").toList.isPrefixOf e.1.toList) = transEntries w.listing :=
    List.filter_eq_self.mpr fun e he => List.mem_takeWhile_imp (p := fun e : String × Record =>
      (makeTrans "").toList.isPrefixOf e.1.toList) he
  rw [preparedRecords, ← hall]
  exact ((transEntries_sublist w.listing).filter _).countP_le

theorem recovered_iff (hes : Lists es st) (h : Restored es st ts st') :
    Recovered st ts st' ↔ AllHanded es ts st' := by
  constructor
  · intro hr
    refine ⟨fun T r hm hs => hr.handed T r ((hes.mem T r).mp hm) hs, fun t ht => ?_⟩
    obtain ⟨p, r, hp, -⟩ := hr.tasks t ht
    exact ⟨p, hp⟩
  · rintro ⟨hhanded, hpoll⟩
    refine ⟨fun T r hr hs => ?_, fun T r hr hs => ?_, fun k hk => h.others k fun hm => ?_,
      fun T r hr hs => hhanded T r ((hes.mem T r).mpr hr) hs, fun t ht => ?_⟩
    · rw [h.settled T r ((hes.mem T r).mpr hr) (by simp [hs]), recovered_of_begin hs]
    · rw [h.settled T r ((hes.mem T r).mpr hr) (fun hp => by simp [hp] at hs),
        recovered_of_decided hs]
    · obtain ⟨e, he, rfl⟩ := List.mem_map.mp hm
      obtain ⟨T, hT⟩ := hes.key e he
      exact hk T hT
    · obtain ⟨p, rfl⟩ := hpoll t ht
      obtain ⟨r, hr, hs⟩ := h.tasks p ht
      exact ⟨p, r, rfl, (hes.mem _ r).mp hr, hs⟩

theorem startUpClean_sat (self : Host) (me : Proc) (idle : Nat) (fates : List Fate)
    (clocks : List Timeval) (w : DbWorld) :
    Outcome.Sat
      (fun ts w' => UpEnd self w.hist w'.hist idle (transEntries w.listing) w.store ts w'.store)
      (fun w' => UpLost self w.hist w'.hist idle (transEntries w.listing) w.store w'.store)
      ((startUpClean self idle).run me fates clocks w) :=
  Prog.sat_of_wp closed_true (startUpClean_wp self idle (List.suffix_refl w.hist)) trivial

theorem startUpClean_done (hrun : (startUpClean self idle).run me fates clocks w = (.done ts, w')) :
    Repairs (transEntries w.listing) w.store w'.store := by
  have hsat := startUpClean_sat self me idle fates clocks w
  rw [hrun] at hsat
  exact UpEnd.repairs hsat (lists_transEntries w).nodup fun _ => (lists_transEntries w).lookup

theorem startUpClean_died (hrun : (startUpClean self idle).run me fates clocks w = (.died, w')) :
    ∃ pre, pre <+: transEntries w.listing ∧ Repairs pre w.store w'.store := by
  have hsat := startUpClean_sat self me idle fates clocks w
  rw [hrun] at hsat
  obtain ⟨pre, ts, hpre, hend⟩ := hsat
  have hes := lists_transEntries w
  exact ⟨pre, hpre, hend.repairs ((hpre.sublist.map Prod.fst).nodup hes.nodup) fun _ he =>
    hes.lookup (hpre.subset he)⟩

theorem startUpClean_restarts
    (hrun : (startUpClean self idle).run me fates clocks w = (.done ts, w')) :
    Restarts self w.store w'.store := by
  intro me' idle₁ idle₂ fates₁ fates₂ clocks₁ clocks₂ hist₁ hist₂ w₁ w₂ ts₂ h₁ h₂ k hk
  obtain ⟨pre, hpre, hset₁⟩ := startUpClean_died h₁
  have hset₂ := startUpClean_done h₂
  exact (startUpClean_done hrun).restart (lists_transEntries w) hpre hset₁
    (lists_transEntries ⟨w₁.store, hist₂⟩) hset₂ hk

/-- In a run without failing writes and losses of the process, start-up recovery is complete,
precise and restartable if and only if no read fails and no prepared record is without a name. -/
theorem startUp_recovers_iff (self : Host) (hidle : preparedRecords w ≤ idle)
    (hcalm : (startUpClean self idle).Calm me True fates clocks w) :
    Recovers self idle me fates clocks w ↔
      (startUpClean self idle).Calm me False fates clocks w ∧ isPrepared w.store "" = false := by
  have hes := lists_transEntries w
  obtain ⟨ts, w', hrun, hres, hiff⟩ := startUpLoop_calm hes.key hes.nodup (fun _ => hes.lookup)
    ((preparedIn_transEntries_le w).trans hidle) hcalm
  have hrun : (startUpClean self idle).run me fates clocks w = (.done ts, w') := hrun
  have hname : isPrepared w.store "" = false ↔
      ∀ r, (makeTrans "", r) ∈ transEntries w.listing → r.toTrans.state ≠ .prepared := by
    rw [← Bool.not_eq_true, isPrepared_iff]
    constructor
    · intro h r hr hs
      exact h ⟨_, transOf_of_lookup ((hes.mem "" r).mp hr), hs⟩
    · rintro h ⟨t, ht, hs⟩
      obtain ⟨r, hr, rfl⟩ := Option.map_eq_some_iff.mp ht
      exact h r ((hes.mem "" r).mpr hr) hs
  rw [hname]
  refine Iff.trans ?_ hiff
  rw [← recovered_iff hes hres]
  constructor
  · rintro ⟨ts₂, w₂, hrun₂, hrec, -⟩
    obtain ⟨hts, rfl⟩ := Prod.mk.inj (hrun.symm.trans hrun₂)
    obtain rfl := Outcome.done.inj hts
    exact hrec
  · exact fun hrec => ⟨ts, w', hrun, hrec, startUpClean_restarts hrun⟩

def beforeStart : DbWorld where
  store := ((AList.insert (makeTrans "ts100") (.trans {})
      (AList.insert (makeTrans "ts101") (.trans
        { state := .prepared, startTrans := "ts102", selfCommitTs := "ts103",
          transList := [{ host := hostA, state := .prepared }, { host := hostB }] })
      (AList.insert (makeLock "b") (.lock { trans := "ts101" }) ∅))))
  hist := []

theorem startUp_recovers_two : Recovers hostA 100 (.storage hostA) [] [] beforeStart :=
  (startUp_recovers_iff hostA (by decide +kernel) (by decide +kernel)).mpr
    ⟨by decide +kernel, by decide +kernel⟩

/-- The read of the prepared record fails. -/
theorem startUp_drops :
    (startUpClean hostA 100).Calm (.storage hostA) True [.ok, .fail] [] beforeStart ∧
    ¬ Recovers hostA 100 (.storage hostA) [.ok, .fail] [] beforeStart := by
  refine ⟨by decide +kernel, ?_⟩
  rintro ⟨ts, w', hrun, hrec, -⟩
  -- the process has no task afterwards, and the record is as before
  have hend : ((startUpClean hostA 100).run (.storage hostA) [.ok, .fail] [] beforeStart).1 = .done [] ∧
      (((startUpClean hostA 100).run (.storage hostA) [.ok, .fail] [] beforeStart).2.store.lookup
        (makeTrans "ts101")).map (fun r => r.toTrans.state) = some .prepared := by
    decide +kernel
  rw [hrun] at hend
  obtain ⟨hdone, hstore⟩ := hend
  obtain rfl := Outcome.done.inj hdone
  obtain ⟨r, hr, hs⟩ : ∃ r, beforeStart.store.lookup (makeTrans "ts101") = some r ∧
      r.toTrans.state = .prepared := ⟨_, rfl, rfl⟩
  rcases hrec.handed "ts101" r hr hs with ⟨-, hcount⟩ | ⟨commitTs, hcommit, -⟩
  · cases hcount
  · rw [hcommit] at hstore
    cases hstore

end Recovery

end Tpc
