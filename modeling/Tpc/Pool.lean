import Tpc.Commitment
import Tpc.Unprepared

/-! The tasks of a storage node. `startCleanTrans` takes one from the stack without a look at its
size, and `prepare_routine` leaves its loop for good where its first read fails. Apart from these
two, each task is idle on the stack or works on one transaction, and every prepared transaction of
a running process has a task. -/

namespace Tpc
open Durable

theorem prefix_of_between {p a b : List Char} (hb : p <+: b) (hpa : p ≤ a) (hab : a ≤ b) :
    p <+: a := by
  induction p generalizing a b with
  | nil => exact List.nil_prefix
  | cons c p ih =>
    obtain ⟨t, rfl⟩ := hb
    cases a with
    | nil => exact absurd (List.nil_lt_cons c p) (not_lt.mpr hpa)
    | cons d a =>
      have hpa := not_lt.mpr hpa
      have hab := not_lt.mpr hab
      simp only [List.cons_append, List.cons_lt_cons_iff, not_or, not_and] at hpa hab
      have hcd : c = d := le_antisymm (not_lt.mp hpa.1) (not_lt.mp hab.1)
      subst hcd
      exact (List.prefix_cons_inj c).mpr
        (ih (List.prefix_append p t) (not_lt.mp (hpa.2 rfl)) (not_lt.mp (hab.2 rfl)))

theorem toList_le {a b : String} : a.toList ≤ b.toList ↔ a ≤ b := by
  rw [← not_lt, ← not_lt, String.lt_iff_toList_lt]

theorem mem_takeWhile_trans {l : List (String × Record)} (hl : l.Pairwise fun a b => a.1 ≤ b.1)
    {T : String} {r : Record} (hm : (makeTrans T, r) ∈ l) (hlo : ∀ a ∈ l, makeTrans "" ≤ a.1) :
    (makeTrans T, r) ∈ l.takeWhile fun e => (makeTrans "").toList.isPrefixOf e.1.toList := by
  have hT : (makeTrans "").toList <+: (makeTrans T).toList := ⟨T.toList, by simp [makeTrans]⟩
  induction l with
  | nil => cases hm
  | cons a l ih =>
    obtain ⟨ha, hl⟩ := List.pairwise_cons.mp hl
    have hle : a.1 ≤ makeTrans T := by
      rcases List.mem_cons.mp hm with rfl | hm
      · exact le_rfl
      · exact ha _ hm
    have hp : (makeTrans "").toList <+: a.1.toList :=
      prefix_of_between hT (toList_le.mpr (hlo a (.head _))) (toList_le.mpr hle)
    have hpos : (makeTrans "").toList.isPrefixOf a.1.toList = true :=
      List.isPrefixOf_iff_prefix.mpr hp
    rw [List.takeWhile_cons, if_pos hpos]
    rcases List.mem_cons.mp hm with rfl | hm
    · exact .head _
    · exact .tail _ (ih hl hm fun b hb => hlo b (.tail _ hb))

theorem transEntries_complete {l : List (String × Record)} (hl : l.Pairwise fun a b => a.1 ≤ b.1)
    {T : String} {r : Record} (hm : (makeTrans T, r) ∈ l) : (makeTrans T, r) ∈ transEntries l := by
  have hT : makeTrans "" ≤ makeTrans T := by
    rw [← not_lt, String.lt_iff_toList_lt]
    simp [makeTrans]
  induction l with
  | nil => cases hm
  | cons a l ih =>
    obtain ⟨ha, hl'⟩ := List.pairwise_cons.mp hl
    by_cases hlt : a.1 < makeTrans ""
    · have hm' : (makeTrans T, r) ∈ l := by
        rcases List.mem_cons.mp hm with rfl | hm
        · exact absurd hlt (not_lt.mpr hT)
        · exact hm
      have hd : transEntries (a :: l) = transEntries l := by
        simp only [transEntries, List.dropWhile_cons, hlt, decide_true, reduceIte]
      exact hd ▸ ih hl' hm'
    · have hd : (a :: l).dropWhile (fun e => e.1 < makeTrans "") = a :: l := by
        simp only [List.dropWhile_cons, hlt, decide_false, Bool.false_eq_true, reduceIte]
      rw [transEntries, hd]
      refine mem_takeWhile_trans hl hm fun b hb => ?_
      rcases List.mem_cons.mp hb with rfl | hb
      · exact not_lt.mp hlt
      · exact (not_lt.mp hlt).trans (ha b hb)

/-- Each of the 100 tasks is idle on the stack or works on one transaction. -/
structure Pool (n : Node) : Prop where
  nodup : n.prepareTask.Nodup
  idle : ∀ i, i ∈ n.prepareTask ↔ i < 100 ∧ n.task i = .idle
  working : ∀ i, n.task i = .idle ∨ i < 100 ∧ ∃ p, n.task i = .polling p
  down : n.up = false → ∀ i, n.task i = .idle

def Node.busy (n : Node) : Nat := (List.range 100).countP fun i => n.task i ≠ .idle

def Node.WorksOn (n : Node) (T : String) : Prop := ∃ i p, n.task i = .polling p ∧ p.beginTs = T

namespace Pool

variable {n : Node} {t : TaskState} {T : String}

theorem fresh (st : Db.Store) (up : Bool) : Pool { store := st, up := up } where
  nodup := List.nodup_reverse.mpr List.nodup_range
  idle := fun i => by simp
  working := fun _ => .inl rfl
  down := fun _ _ => rfl

theorem length_add_busy (h : Pool n) : n.prepareTask.length + n.busy = 100 := by
  have hp : n.prepareTask.Perm ((List.range 100).filter fun i => n.task i = .idle) := by
    refine (List.perm_ext_iff_of_nodup h.nodup (List.nodup_range.filter _)).mpr fun i => ?_
    simp [h.idle]
  have hc := List.length_eq_countP_add_countP (fun i => decide (n.task i = .idle))
    (l := List.range 100)
  rw [hp.length_eq, ← List.countP_eq_length_filter, Node.busy]
  simpa using hc.symm

theorem store (h : Pool n) (st : Db.Store) : Pool { n with store := st } :=
  ⟨h.nodup, h.idle, h.working, h.down⟩

theorem resume (h : Pool n) (hup : n.up = true)
    (ht : t = .idle ∨ n.prepareTask ≠ [] ∧ ∃ p, t = .polling p) : Pool (n.resume t) := by
  rcases ht with rfl | ⟨hne, p, rfl⟩
  · exact h
  obtain ⟨i, rest, hi⟩ := List.exists_cons_of_ne_nil hne
  have hn := h.nodup
  rw [hi] at hn
  have hmem : ∀ j, j ∈ i :: rest ↔ j < 100 ∧ n.task j = .idle := fun j => hi ▸ h.idle j
  have he : n.resume (.polling p) =
      { n with prepareTask := rest, task := Function.update n.task i (.polling p) } := by
    simp only [Node.resume, hi]
  rw [he]
  refine ⟨hn.of_cons, fun j => ?_, fun j => ?_, fun hd => absurd (hup.symm.trans hd) (by decide)⟩
  · rcases eq_or_ne j i with rfl | hj
    · simp [hn.notMem]
    · show j ∈ rest ↔ j < 100 ∧ Function.update n.task i (.polling p) j = .idle
      rw [Function.update_of_ne hj, ← hmem j, List.mem_cons, or_iff_right hj]
  · rcases eq_or_ne j i with rfl | hj
    · exact .inr ⟨((hmem j).mp (.head _)).1, p, Function.update_self ..⟩
    · simpa [hj] using h.working j

theorem setTask (h : Pool n) (hup : n.up = true) {i : Nat} {p : Polling} (hi : n.task i = .polling p)
    (ht : t = .idle ∨ ∃ p, t = .polling p) : Pool (n.setTask i t) := by
  have hlt : i < 100 := ((h.working i).resolve_left (by simp [hi])).1
  have hout : i ∉ n.prepareTask := fun hm => by simpa [hi] using ((h.idle i).mp hm).2
  have hdown : ∀ P : Prop, n.up = false → P := fun _ hd => absurd (hup.symm.trans hd) (by decide)
  rcases ht with rfl | ⟨p', rfl⟩
  · refine ⟨List.nodup_cons.mpr ⟨hout, h.nodup⟩, fun j => ?_, fun j => ?_, hdown _⟩
    · rcases eq_or_ne j i with rfl | hj
      · simp [Node.setTask, hlt]
      · simp [Node.setTask, hj, h.idle]
    · rcases eq_or_ne j i with rfl | hj
      · exact .inl (Function.update_self ..)
      · simpa [Node.setTask, hj] using h.working j
  · refine ⟨h.nodup, fun j => ?_, fun j => ?_, hdown _⟩
    · rcases eq_or_ne j i with rfl | hj
      · simp [Node.setTask, hout]
      · simp [Node.setTask, hj, h.idle]
    · rcases eq_or_ne j i with rfl | hj
      · exact .inr ⟨hlt, p', Function.update_self ..⟩
      · simpa [Node.setTask, hj] using h.working j

theorem resume_task (h : Pool n) {i : Nat} {p : Polling} (hi : n.task i = .polling p) :
    (n.resume t).task i = .polling p := by
  unfold Node.resume
  split
  · exact hi
  split
  · exact hi
  · rename_i j rest hj
    have hidle : n.task j = .idle := ((h.idle j).mp (hj ▸ .head _)).2
    rcases eq_or_ne i j with rfl | hne
    · simp [hi] at hidle
    · exact (Function.update_of_ne hne ..).trans hi

theorem worksOn_resume (h : Pool n) (hw : n.WorksOn T) : (n.resume t).WorksOn T := by
  obtain ⟨i, p, hi, rfl⟩ := hw
  exact ⟨i, p, h.resume_task hi, rfl⟩

end Pool

theorem worksOn_resume_self {n : Node} {p : Polling} (hne : n.prepareTask ≠ []) :
    (n.resume (.polling p)).WorksOn p.beginTs := by
  obtain ⟨i, rest, hi⟩ := List.exists_cons_of_ne_nil hne
  refine ⟨i, p, ?_, rfl⟩
  simp only [Node.resume, hi]
  exact Function.update_self ..

theorem length_resume_le (n : Node) (t : TaskState) :
    n.prepareTask.length ≤ (n.resume t).prepareTask.length + 1 := by
  unfold Node.resume
  split
  · exact Nat.le_succ _
  split
  · exact Nat.le_succ _
  · rename_i hj
    simp [hj]

theorem Pool.foldl_resume {ts : List TaskState} {n : Node} (h : Pool n) (hup : n.up = true)
    (hts : ∀ t ∈ ts, ∃ p, t = .polling p) (hlen : ts.length ≤ n.prepareTask.length) :
    Pool (ts.foldl Node.resume n) ∧
      (∀ T, n.WorksOn T → (ts.foldl Node.resume n).WorksOn T) ∧
      ∀ p, .polling p ∈ ts → (ts.foldl Node.resume n).WorksOn p.beginTs := by
  induction ts generalizing n with
  | nil => exact ⟨h, fun _ hw => hw, fun _ hp => by simp at hp⟩
  | cons t ts ih =>
    have hne : n.prepareTask ≠ [] := by
      rintro he
      simp [he] at hlen
    have hpool : Pool (n.resume t) := h.resume hup (.inr ⟨hne, hts t (.head _)⟩)
    have hl := length_resume_le n t
    have hlen' : ts.length ≤ (n.resume t).prepareTask.length := by
      simp only [List.length_cons] at hlen
      omega
    obtain ⟨h1, h2, h3⟩ := ih hpool (by simpa using hup) (fun t ht => hts t (.tail _ ht)) hlen'
    refine ⟨h1, fun T hw => h2 T (h.worksOn_resume hw), fun p hp => ?_⟩
    rcases List.mem_cons.mp hp with rfl | hp
    · exact h2 _ (worksOn_resume_self hne)
    · exact h3 p hp

def isPrepared (st : Db.Store) (T : String) : Bool :=
  (transOf st T).any fun t => t.state = .prepared

theorem isPrepared_iff {st : Db.Store} {T : String} :
    isPrepared st T = true ↔ ∃ t, transOf st T = some t ∧ t.state = .prepared := by
  simp [isPrepared, Option.any_eq_true]

theorem Unprepared.isPrepared {st : Db.Store} {T : String} (h : Unprepared st T) :
    isPrepared st T = false := by
  by_contra hp
  obtain ⟨t, ht, hs⟩ := isPrepared_iff.mp (by simpa using hp)
  exact h.not_prepared ht hs rfl

/-- A call of `startCleanTrans`: the tasks at work and on the stack, the transaction, and the
database and the fates that the call finds. -/
structure HandOver where
  busy : Nat
  idle : Nat
  beginTs : String
  store : Db.Store
  fates : List Fate

def HandOver.draws (c : HandOver) : Bool := fate c.fates 0 = .ok ∧ isPrepared c.store c.beginTs

/-- A prepared transaction is handed over while some task is idle, and no read of its record
fails. -/
def HandOver.Spared (c : HandOver) : Prop :=
  isPrepared c.store c.beginTs = true →
    fate c.fates 0 ≠ .fail ∧ (fate c.fates 0 = .ok → c.busy < 100 ∧ fate c.fates 1 ≠ .fail)

instance (c : HandOver) : Decidable c.Spared := by
  unfold HandOver.Spared
  infer_instance

structure Attends (T : String) (st : Db.Store) (t : TaskState) (st' : Db.Store) : Prop where
  task : t = .idle ∨ ∃ p, t = .polling p ∧ p.beginTs = T
  kept : ∀ U, isPrepared st' U = true → isPrepared st U = true
  working : isPrepared st' T = true → ∃ p, t = .polling p ∧ p.beginTs = T

section HandOver

variable {self : Host} {l l' : Hist} {T U : String} {trans : Trans} {st st' : Db.Store}
  {t : TaskState} {p : Polling}

theorem isPrepared_insert_self (hs : trans.state ≠ .prepared) :
    isPrepared (st.insert (makeTrans T) (.trans trans)) T = false := by
  simpa [isPrepared, Record.toTrans] using hs

theorem isPrepared_of_insert (hs : trans.state ≠ .prepared)
    (h : isPrepared (st.insert (makeTrans T) (.trans trans)) U = true) : isPrepared st U = true := by
  rcases eq_or_ne U T with rfl | hU
  · rw [isPrepared_insert_self hs] at h
    cases h
  · rwa [isPrepared, transOf_insert_trans, if_neg hU] at h

theorem Attends.polls (h : p.beginTs = T) : Attends T st (.polling p) st :=
  ⟨.inr ⟨p, rfl, h⟩, fun _ => id, fun _ => ⟨p, rfl, h⟩⟩

theorem Attends.decides (hs : trans.state ≠ .prepared) :
    Attends T st .idle (st.insert (makeTrans T) (.trans trans)) :=
  ⟨.inl rfl, fun _ => isPrepared_of_insert hs, fun h => by simp [isPrepared_insert_self hs] at h⟩

theorem RoundEnd.attends (h : RoundEnd self l l' T trans st t st') : Attends T st t st' := by
  cases h with
  | asks => exact .polls rfl
  | decides => exact .decides (by simp)

theorem NextEnd.attends (h : NextEnd self l l' p st t st') : Attends p.beginTs st t st' := by
  cases h with
  | asks => exact .polls rfl
  | decides => exact .decides (by simp)
  | again _ _ _ hr => exact hr.attends

theorem ResEnd.attends {res : TransStateRes} (h : ResEnd self l l' p res st t st') :
    Attends p.beginTs st t st' := by
  cases h with
  | skips _ _ _ hn => exact hn.attends
  | counts _ _ _ hn => exact hn.attends
  | commits => exact .decides (by simp)
  | rollsBack => exact .decides (by simp)

variable {me : Proc} {idle : Nat} {fates : List Fate} {clocks : List Timeval} {w w' : DbWorld}

theorem prepareRoutine_ended (ht : transOf w.store T = some trans) (hp : trans.state = .prepared)
    (hrun : (prepareRoutine self T).run me fates clocks w = (.done .ended, w')) :
    fate fates 0 = .fail := by
  rw [prepareRoutine] at hrun
  split_ifs at hrun
  · cases hrun
  simp only [dbGet, Prog.bind_eq, Prog.bind, Prog.run, headD_eq_fate] at hrun
  cases h0 : fate fates 0 with
  | fail => rfl
  | crash => simp [h0] at hrun
  | ok =>
    rcases read_cases w (makeTrans T) with ⟨-, hl⟩ | ⟨r, hr, hl⟩
    · simp [transOf_of_lookup_none hl] at ht
    obtain rfl := Option.some.inj ((transOf_of_lookup hl).symm.trans ht)
    simp only [h0, hr, hp, ne_eq, not_true_eq_false, reduceIte] at hrun
    have hsat : Outcome.Sat _ _ (Prog.run me _ fates.tail clocks w) := Prog.sat_of_wp
      (fun _ _ _ h => h) (pollRound_wp (A := fun _ => True) self T r.toTrans (List.suffix_refl w.hist))
      trivial
    rw [hrun] at hsat
    cases hsat

/-- A prepared transaction is left without a task only where a read of its record fails. -/
theorem startCleanTrans_fates (ht : transOf w.store T = some trans) (hp : trans.state = .prepared)
    {o : Option TaskState}
    (hrun : (startCleanTrans self idle T).run me fates clocks w = (.done o, w')) :
    (o = none → fate fates 0 = .fail) ∧
      (o = some .ended → fate fates 0 = .ok ∧ fate fates 1 = .fail) := by
  simp only [startCleanTrans, dbGet, Prog.bind_eq, Prog.bind, Prog.run, headD_eq_fate] at hrun
  cases h0 : fate fates 0 with
  | fail =>
    simp only [h0, Prog.pure_eq, Prog.run] at hrun
    obtain rfl : none = o := by simpa using congrArg Prod.fst hrun
    exact ⟨fun _ => rfl, fun h => by cases h⟩
  | crash => simp [h0] at hrun
  | ok =>
    rcases read_cases w (makeTrans T) with ⟨-, hl⟩ | ⟨r, hr, hl⟩
    · simp [transOf_of_lookup_none hl] at ht
    obtain rfl := Option.some.inj ((transOf_of_lookup hl).symm.trans ht)
    simp only [h0, hr, hp] at hrun
    split_ifs at hrun
    · cases hrun
    obtain ⟨t, w₁, ht, hret⟩ := Prog.run_bind_done hrun
    obtain rfl : some t = o := by simpa [Prog.run] using congrArg Prod.fst hret
    refine ⟨fun h => (by cases h), fun h => ⟨rfl, ?_⟩⟩
    obtain rfl := Option.some.inj h
    have hf := prepareRoutine_ended (transOf_of_lookup hl) hp ht
    simpa using hf

theorem startCleanTrans_attends {o : Option TaskState} (hu : isPrepared w.store "" = false)
    (hs : isPrepared w.store T = true →
      fate fates 0 ≠ .fail ∧ (fate fates 0 = .ok → fate fates 1 ≠ .fail))
    (hrun : (startCleanTrans self idle T).run me fates clocks w = (.done o, w')) :
    Attends T w.store (o.getD .idle) w'.store ∧ (o.getD .idle ≠ .idle → idle ≠ 0) := by
  have hsat : Outcome.Sat _ _ ((startCleanTrans self idle T).run me fates clocks w) :=
    Prog.sat_of_wp (fun _ _ _ h => h)
      (startCleanTrans_wp (A := fun _ => True) self idle T (List.suffix_refl w.hist)) trivial
  rw [hrun] at hsat
  generalize hst : w'.store = st' at hsat
  have hsat : CleanEnd self w.hist w'.hist idle T w.store o st' := hst ▸ hsat
  cases hsat with
  | nothing =>
    have hno : isPrepared w.store T = false := by
      by_contra hp
      obtain ⟨t, ht, hp'⟩ := isPrepared_iff.mp (by simpa using hp)
      exact (hs (isPrepared_iff.mpr ⟨t, ht, hp'⟩)).1 ((startCleanTrans_fates ht hp' hrun).1 rfl)
    exact ⟨⟨.inl rfl, fun _ => id, fun h => by simp [hno] at h⟩, fun h => absurd rfl h⟩
  | aborts t ht hb => exact ⟨.decides (by simp), fun h => absurd rfl h⟩
  | resumes t task _ hi ht hp hr => exact ⟨hr.attends, fun _ => hi⟩
  | declines t hT _ ht hp =>
    subst hT
    rw [isPrepared_iff.mpr ⟨t, ht, hp⟩] at hu
    cases hu
  | ends t hi ht hp =>
    have hf := (startCleanTrans_fates ht hp hrun).2 rfl
    exact absurd hf.2 ((hs (isPrepared_iff.mpr ⟨t, ht, hp⟩)).2 hf.1)

/-- A call that needs a task while none is idle is the end of the process. -/
theorem startCleanTrans_overdraws (h0 : fate fates 0 = .ok) (hp : isPrepared w.store T = true) :
    (startCleanTrans self 0 T).run me fates clocks w = (.died, w.log (.crash me)) := by
  obtain ⟨t, ht, hp⟩ := isPrepared_iff.mp hp
  rcases read_cases w (makeTrans T) with ⟨-, hl⟩ | ⟨r, hr, hl⟩
  · simp [transOf_of_lookup_none hl] at ht
  obtain rfl := Option.some.inj ((transOf_of_lookup hl).symm.trans ht)
  simp only [startCleanTrans, dbGet, Prog.bind_eq, Prog.bind, Prog.run, headD_eq_fate, h0, hr, hp,
    reduceIte]

end HandOver

def prepareHandOvers (self : Host) (n : Node) (v : Vars) (req : RpcReq) (env : Env) :
    List HandOver :=
  match transOf n.store v.beginTs, env.clocks with
  | some t, tv :: _ =>
    if req.requestType = .prepare ∧ v.beginTs ≠ "" ∧ v.beginTs = req.beginTs ∧ t.state = .begin ∧
        ∀ f ∈ env.fates.take 4, f = .ok then
      [{ busy := n.busy
         idle := n.prepareTask.length
         beginTs := v.beginTs
         store := votedStore self n.store v.beginTs req t (getTS tv)
         fates := env.fates.drop 4 }]
    else []
  | _, _ => []

def upHandOvers (self : Host) : Nat → List (String × Record) → List Fate → List Timeval → DbWorld →
    List HandOver
  | _, [], _, _, _ => []
  | busy, e :: rest, fates, clocks, w =>
    let p := startUpLoop self (100 - busy) [e]
    let handed : List HandOver :=
      if e.2.toTrans.state = .prepared then
        [{ busy := busy
           idle := 100 - busy
           beginTs := parseTrans e.1
           store := w.store
           fates := fates }]
      else []
    handed ++
      match p.run (.storage self) fates clocks w with
      | (.done ts, w') =>
        let left := p.left (.storage self) fates clocks w
        upHandOvers self (busy + ts.length) rest left.1 left.2 w'
      | _ => []

/-- The calls of `startCleanTrans` that a step makes for a transaction that may be prepared. -/
def Sys.handOvers (s : Sys) : Label → List HandOver
  | .recv x env =>
    match s.sess x with
    | some σ =>
      match σ.toServ with
      | m :: _ => prepareHandOvers σ.host (s.node σ.host) σ.vars m env
      | [] => []
    | none => []
  | .hangup x env =>
    match s.sess x with
    | some σ =>
      if σ.vars.beginTs = "" then []
      else
        [{ busy := (s.node σ.host).busy
           idle := s.idle σ.host
           beginTs := σ.vars.beginTs
           store := (s.node σ.host).store
           fates := env.fates }]
    | none => []
  | .startUp h env =>
    upHandOvers h 0 (transEntries (s.world h).listing) env.fates env.clocks (s.world h)
  | _ => []

/-- Whenever a prepared transaction is handed over, fewer than 100 tasks are at work and no read of
its record fails. -/
def PoolSpared (s : Sys) (ℓ : Label) : Prop := ∀ c ∈ s.handOvers ℓ, c.Spared

instance (s : Sys) (ℓ : Label) : Decidable (PoolSpared s ℓ) :=
  inferInstanceAs (Decidable (∀ c ∈ s.handOvers ℓ, c.Spared))

section Runs

variable {self : Host} {me : Proc} {idle : Nat} {v : Vars} {req : RpcReq} {fates : List Fate}
  {clocks : List Timeval} {w w' : DbWorld} {seg : Seg}

theorem all_ok_of_fate {n : Nat} (h : ∀ i < n, fate fates i = .ok) :
    ∀ f ∈ fates.take n, f = .ok := by
  intro f hf
  obtain ⟨i, hi, rfl⟩ := List.getElem_of_mem hf
  have hlt : i < n ∧ i < fates.length := by simpa using hi
  simpa [fate, hlt.2] using h i hlt.1

theorem stampRest_run {st : Db.Store} {t : Trans} {s : String}
    (hw : w.store = st.insert (makeTrans v.beginTs) (.trans (preparedTrans self.hashId req t)))
    (hrun : ((updateTransSelfCommitTs v.beginTs s).bind fun ret =>
        if ret ≠ 0 then .abort
        else (startCleanTrans self idle v.beginTs).bind fun task =>
          .ret { vars := {}, next := .response (.rpcResponse {}), task := task }).run me fates clocks
            w = (.done seg, w')) :
    fate fates 0 = .ok ∧ fate fates 1 = .ok ∧ ∃ w₁ : DbWorld,
      w₁.store = votedStore self st v.beginTs req t s ∧
        (startCleanTrans self idle v.beginTs).run me (fates.drop 2) clocks w₁ =
          (.done seg.task, w') := by
  set t' := preparedTrans self.hashId req t with ht'
  have hp : t'.state = .prepared := rfl
  have hread : w.read (makeTrans v.beginTs) = .found (.trans t') := by
    simp [World.read, hw]
  simp only [updateTransSelfCommitTs, dbGet, dbPut, Prog.bind_eq, Prog.pure_eq, Prog.bind, Prog.run,
    headD_eq_fate] at hrun
  cases h0 : fate fates 0 with
  | crash => simp [h0] at hrun
  | fail => simp [h0, Prog.run] at hrun
  | ok =>
    simp only [h0, hread, Record.toTrans, hp, ne_eq, not_true_eq_false, reduceIte, Prog.bind,
      Prog.run, headD_eq_fate, fate_tail] at hrun
    cases h1 : fate fates 1 with
    | crash => simp [h1] at hrun
    | fail => simp [h1, Prog.bind, Prog.run] at hrun
    | ok =>
      simp only [h1] at hrun
      obtain ⟨o, w₂, ho, hret⟩ := Prog.run_bind_done hrun
      obtain ⟨hseg, rfl⟩ := Prod.mk.inj hret
      obtain rfl := Outcome.done.inj hseg
      refine ⟨rfl, rfl, _, ?_, by simpa [List.drop_drop, ← List.drop_one] using ho⟩
      rw [World.write_store, hw, AList.insert_insert]
      rfl

inductive PrepareRun (me : Proc) (self : Host) (idle : Nat) (v : Vars) (req : RpcReq)
    (fates : List Fate) (clocks : List Timeval) (w : DbWorld) : Seg → DbWorld → Prop
  | refused {seg : Seg} {w' : DbWorld} : seg.task = none → w'.store = w.store →
      PrepareRun me self idle v req fates clocks w seg w'
  | hands {seg : Seg} {w₁ w' : DbWorld} (t : Trans) (tv : Timeval) (cs : List Timeval) :
      clocks = tv :: cs → transOf w.store v.beginTs = some t → v.beginTs ≠ "" →
      v.beginTs = req.beginTs → t.state = .begin → (∀ f ∈ fates.take 4, f = .ok) →
      w₁.store = votedStore self w.store v.beginTs req t (getTS tv) →
      (startCleanTrans self idle v.beginTs).run me (fates.drop 4) cs w₁ = (.done seg.task, w') →
      PrepareRun me self idle v req fates clocks w seg w'

theorem servePrepare_run :
    Outcome.Sat (PrepareRun me self idle v req fates clocks w) (fun _ => True)
      ((servePrepare self idle v req).run me fates clocks w) := by
  simp only [servePrepare]
  by_cases hv : v.beginTs = ""
  · rw [if_pos hv]
    exact .refused rfl rfl
  rw [if_neg hv]
  by_cases hreq : v.beginTs = req.beginTs
  swap
  · rw [if_pos hreq]
    exact .refused rfl rfl
  rw [if_neg (not_not.mpr hreq), Prog.bind_eq]
  refine updateTransPrepared_sat (fun _ => trivial) (fun ret fs w₁ hret hw₁ _ => ?_)
    fun t ht hs h0 h1 => ?_
  · rw [if_pos hret]
    exact .refused rfl hw₁
  simp only [ne_eq, not_true_eq_false, reduceIte, readTS, Prog.bind_eq, Prog.bind]
  cases clocks with
  | nil =>
    simp only [Prog.run]
    split_ifs <;> trivial
  | cons tv cs =>
    refine Outcome.sat_of_done fun seg w' hrun => ?_
    obtain ⟨h2, h3, w₁, hw₁, hclean⟩ := stampRest_run (t := t) rfl hrun
    have hfates : ∀ i < 4, fate fates i = .ok := by
      intro i hi
      have hcases : i = 0 ∨ i = 1 ∨ i = 2 ∨ i = 3 := by omega
      rcases hcases with rfl | rfl | rfl | rfl
      · exact h0
      · exact h1
      · simpa using h2
      · simpa using h3
    exact .hands t tv cs rfl ht hv hreq hs (all_ok_of_fate hfates) hw₁
      (by simpa [List.drop_drop, ← List.drop_one] using hclean)

end Runs

structure Cleaned (idle : Nat) (es : List (String × Record)) (st : Db.Store) (ts : List TaskState)
    (st' : Db.Store) : Prop where
  polling : ∀ t ∈ ts, ∃ p, t = .polling p
  kept : ∀ U, isPrepared st' U = true → isPrepared st U = true
  working : ∀ T r, (makeTrans T, r) ∈ es → r.toTrans.state = .prepared → isPrepared st' T = true →
    ∃ p, .polling p ∈ ts ∧ p.beginTs = T
  room : ts.length ≤ idle

section StartUp

variable {self : Host} {idle busy : Nat} {T : String} {r : Record} {fates : List Fate}
  {clocks : List Timeval} {w w' : DbWorld} {es es' : List (String × Record)} {st st₁ st' : Db.Store}
  {ts ts' : List TaskState}

theorem Cleaned.append (h : Cleaned idle es st ts st₁)
    (h' : Cleaned (idle - ts.length) es' st₁ ts' st') : Cleaned idle (es ++ es') st (ts ++ ts') st' where
  polling := fun t ht => (List.mem_append.mp ht).elim (h.polling t) (h'.polling t)
  kept := fun U hU => h.kept U (h'.kept U hU)
  working := fun T r hm hr hp => by
    rcases List.mem_append.mp hm with hm | hm
    · obtain ⟨p, hp, hT⟩ := h.working T r hm hr (h'.kept T hp)
      exact ⟨p, List.mem_append_left _ hp, hT⟩
    · obtain ⟨p, hp, hT⟩ := h'.working T r hm hr hp
      exact ⟨p, List.mem_append_right _ hp, hT⟩
  room := by
    have h1 := h.room
    have h2 := h'.room
    rw [List.length_append]
    omega

theorem Cleaned.none (hk : ∀ U, isPrepared st' U = true → isPrepared st U = true)
    (hT : r.toTrans.state = .prepared → isPrepared st' T = false) :
    Cleaned idle [(makeTrans T, r)] st [] st' where
  polling := fun _ ht => by simp at ht
  kept := hk
  working := fun U r' hm hr hp => by
    obtain ⟨hU, rfl⟩ := Prod.mk.inj (List.mem_singleton.mp hm)
    obtain rfl := makeTrans_inj.mp hU
    simp [hT hr] at hp
  room := Nat.zero_le _

theorem startUpLoop_cons (self : Host) (idle : Nat) (e : String × Record)
    (rest : List (String × Record)) :
    startUpLoop self idle (e :: rest) =
      (startUpLoop self idle [e]).bind fun ts =>
        (startUpLoop self (idle - ts.length) rest).bind fun ts' => .ret (ts ++ ts') := by
  have skip : startUpLoop self idle rest =
      (startUpLoop self idle rest).bind fun ts' => .ret ([] ++ ts') := (Prog.bind_ret _).symm
  obtain ⟨key, r⟩ := e
  simp only [startUpLoop]
  cases r.toTrans.state with
  | begin =>
    simp only [dbPut, Prog.bind_eq, Prog.bind, Prog.pure_eq]
    congr 1
    funext b
    cases b with
    | true => exact skip
    | false => rfl
  | prepared =>
    simp only [Prog.bind_eq, Prog.bind_assoc]
    congr 1
    funext o
    rcases o with - | (- | p | -)
    · exact skip
    · exact skip
    · rfl
    · rfl
  | commited | rollback => exact skip

theorem startUpLoop_one (hu : isPrepared w.store "" = false)
    (hs : r.toTrans.state = .prepared → isPrepared w.store T = true →
      fate fates 0 ≠ .fail ∧ (fate fates 0 = .ok → fate fates 1 ≠ .fail))
    {me : Proc}
    (hrun : (startUpLoop self idle [(makeTrans T, r)]).run me fates clocks w = (.done ts, w')) :
    Cleaned idle [(makeTrans T, r)] w.store ts w'.store := by
  simp only [startUpLoop, parseTrans_makeTrans] at hrun
  cases hr : r.toTrans.state with
  | begin =>
    simp only [hr, dbPut, Prog.bind_eq, Prog.bind, Prog.pure_eq, Prog.run] at hrun
    split at hrun
    · obtain ⟨hts, rfl⟩ := Prod.mk.inj hrun
      obtain rfl := Outcome.done.inj hts
      exact .none (fun _ => isPrepared_of_insert (by simp)) (by simp [hr])
    · cases hrun
    · cases hrun
  | prepared =>
    simp only [hr, Prog.bind_eq] at hrun
    obtain ⟨o, w₁, ho, hrest⟩ := Prog.run_bind_done hrun
    obtain ⟨hatt, hroom⟩ := startCleanTrans_attends hu (hs hr) ho
    have decided : o.getD .idle = .idle → isPrepared w₁.store T = false := by
      intro hi
      by_contra hp
      obtain ⟨p, hp, -⟩ := hatt.working (by simpa using hp)
      rw [hi] at hp
      cases hp
    rcases o with - | (- | p | -)
    · obtain ⟨hts, rfl⟩ := Prod.mk.inj hrest
      obtain rfl := Outcome.done.inj hts
      exact .none hatt.kept fun _ => decided rfl
    · obtain ⟨hts, rfl⟩ := Prod.mk.inj hrest
      obtain rfl := Outcome.done.inj hts
      exact .none hatt.kept fun _ => decided rfl
    · obtain ⟨hts, rfl⟩ := Prod.mk.inj hrest
      obtain rfl := Outcome.done.inj hts
      have hT : p.beginTs = T := by
        rcases hatt.task with hi | ⟨p', hp', hT⟩
        · cases hi
        · cases hp'
          exact hT
      refine ⟨fun t ht => ⟨p, List.mem_singleton.mp ht⟩, hatt.kept, fun U r' hm _ _ => ?_, ?_⟩
      · obtain ⟨hU, -⟩ := Prod.mk.inj (List.mem_singleton.mp hm)
        exact ⟨p, .head _, hT.trans (makeTrans_inj.mp hU).symm⟩
      · exact Nat.one_le_iff_ne_zero.mpr (hroom (by simp))
    · rcases hatt.task with hi | ⟨p', hp', -⟩
      · cases hi
      · cases hp'
  | commited | rollback =>
    simp only [hr, Prog.pure_eq, Prog.run] at hrun
    obtain ⟨hts, rfl⟩ := Prod.mk.inj hrun
    obtain rfl := Outcome.done.inj hts
    exact .none (fun _ => id) (by simp [hr])

theorem startUpLoop_cleaned (hu : isPrepared w.store "" = false) (hk : ∀ e ∈ es, ∃ T, e.1 = makeTrans T)
    (hs : ∀ c ∈ upHandOvers self busy es fates clocks w, c.Spared)
    (hrun : (startUpLoop self (100 - busy) es).run (.storage self) fates clocks w = (.done ts, w')) :
    Cleaned (100 - busy) es w.store ts w'.store := by
  induction es generalizing busy fates clocks w ts with
  | nil =>
    obtain ⟨hts, rfl⟩ := Prod.mk.inj hrun
    obtain rfl := Outcome.done.inj hts
    exact ⟨fun _ h => by simp at h, fun _ => id, fun _ _ h => by simp at h, Nat.zero_le _⟩
  | cons e rest ih =>
    obtain ⟨key, r⟩ := e
    obtain ⟨T, rfl⟩ : ∃ T, key = makeTrans T := hk _ (.head _)
    rw [startUpLoop_cons] at hrun
    obtain ⟨ts₁, w₁, h₁, hrest⟩ := Prog.run_bind_done hrun
    obtain ⟨ts₂, w₂, h₂, hret⟩ := Prog.run_bind_done hrest
    obtain ⟨hts, rfl⟩ := Prod.mk.inj hret
    obtain rfl := Outcome.done.inj hts
    have hone : Cleaned (100 - busy) [(makeTrans T, r)] w.store ts₁ w₁.store := by
      refine startUpLoop_one hu (fun hr hp => ?_) h₁
      have hc := hs ⟨busy, 100 - busy, T, w.store, fates⟩
        (List.mem_append_left _ (by simp [hr])) hp
      exact ⟨hc.1, fun h0 => (hc.2 h0).2⟩
    rw [Nat.sub_sub] at h₂
    have hs' : ∀ c ∈ upHandOvers self (busy + ts₁.length) rest _ _ w₁, c.Spared :=
      fun c hc => hs c (List.mem_append_right _ (by simpa only [h₁] using hc))
    have hu₁ : isPrepared w₁.store "" = false := by
      by_contra hp
      exact absurd (hone.kept "" (by simpa using hp)) (by simp [hu])
    have hcl := ih hu₁ (fun e he => hk e (.tail _ he)) hs' h₂
    rw [← Nat.sub_sub] at hcl
    exact hone.append hcl

end StartUp

/-- Every prepared transaction of a running process has a task. -/
def Attended (n : Node) : Prop := n.up = true → ∀ T, isPrepared n.store T = true → n.WorksOn T

def Continues (n n' : Node) : Prop :=
  ∀ i p, n.task i = .polling p →
    n'.task i = .idle ∨ ∃ p', n'.task i = .polling p' ∧ p'.beginTs = p.beginTs

structure Tended (n n' : Node) : Prop where
  pool : Pool n'
  attended : Attended n'
  continues : Continues n n'

theorem Continues.of_task_eq {n n' : Node} (h : n'.task = n.task) : Continues n n' :=
  fun _ p hi => .inr ⟨p, h ▸ hi, rfl⟩

namespace Tended

variable {n : Node} {st : Db.Store} {t : TaskState}

theorem refl (h : Pool n) (ha : Attended n) : Tended n n := ⟨h, ha, .of_task_eq rfl⟩

theorem lost : Tended n { store := st, up := false } :=
  ⟨.fresh st false, fun h => (by cases h), fun _ _ _ => .inl rfl⟩

theorem resume (h : Pool n) (ha : Attended n) (hup : n.up = true)
    (ht : t = .idle ∨ n.prepareTask ≠ [] ∧ ∃ p, t = .polling p)
    (hst : ∀ U, isPrepared st U = true →
      isPrepared n.store U = true ∨ ∃ p, t = .polling p ∧ p.beginTs = U) :
    Tended n ({ n with store := st }.resume t) := by
  have hs := h.store st
  refine ⟨hs.resume hup ht, fun _ T hT => ?_, fun i p hi => .inr ⟨p, hs.resume_task hi, rfl⟩⟩
  rcases hst T (by simpa using hT) with hT | ⟨p, rfl, rfl⟩
  · exact hs.worksOn_resume (ha hup T hT)
  · obtain hi | ⟨hne, -⟩ := ht
    · cases hi
    · exact worksOn_resume_self hne

theorem setTask (h : Pool n) (ha : Attended n) (hup : n.up = true) {i : Nat} {p : Polling}
    (hi : n.task i = .polling p) (hatt : Attends p.beginTs n.store t st) :
    Tended n ({ n with store := st }.setTask i t) := by
  have htask : t = .idle ∨ ∃ p, t = .polling p := hatt.task.imp id fun ⟨p', hp', _⟩ => ⟨p', hp'⟩
  have hself : ({ n with store := st }.setTask i t).task i = t := by
    cases t <;> exact Function.update_self ..
  have hother : ∀ j, j ≠ i → ({ n with store := st }.setTask i t).task j = n.task j := by
    intro j hj
    cases t <;> exact Function.update_of_ne hj ..
  refine ⟨(h.store st).setTask hup hi htask, fun _ T hst => ?_, fun j q hj => ?_⟩
  · have hT : isPrepared st T = true := by simpa using hst
    obtain ⟨j, q, hj, rfl⟩ := ha hup T (hatt.kept T hT)
    rcases eq_or_ne j i with rfl | hne
    · obtain rfl := TaskState.polling.inj (hi.symm.trans hj)
      obtain ⟨p', hp', hT'⟩ := hatt.working hT
      exact ⟨j, p', hself.trans hp', hT'⟩
    · exact ⟨j, q, (hother j hne).trans hj, rfl⟩
  · rcases eq_or_ne j i with rfl | hne
    · obtain rfl := TaskState.polling.inj (hi.symm.trans hj)
      exact hatt.task.imp (hself.trans ·) fun ⟨p', hp', hT⟩ => ⟨p', hself.trans hp', hT⟩
    · exact .inr ⟨q, (hother j hne).trans hj, rfl⟩

end Tended

section Steps

variable {cfg : Config} {s s' : Sys} {x : Nat} {env : Env} {σ : Session}

theorem exec_run {α : Type} {h : Host} {p : Db α} {k : α → Sys → Sys}
    (hk : ∀ a s, (k a s).hist = s.hist) (hs : s.exec h env p k = some s') :
    (s.node h).up = true ∧
      ((∃ a w, p.run (.storage h) env.fates env.clocks (s.world h) = (.done a, w) ∧
          s' = k a (s.setWorld h w)) ∨ ∃ w, s' = s.lost h w) := by
  have sat : ∀ o, p.run (.storage h) env.fates env.clocks (s.world h) = o → True →
      Outcome.Sat (fun a w => p.run (.storage h) env.fates env.clocks (s.world h) = (.done a, w))
        (fun _ => True) o := fun o ho _ => Outcome.sat_of_done fun a w h => ho.trans h
  obtain ⟨hup, h | ⟨w, -, rfl⟩⟩ := exec_inv (A := fun _ => True) sat hk hs trivial
  · exact ⟨hup, .inl h⟩
  · exact ⟨hup, .inr ⟨w, rfl⟩⟩

theorem tended_of_node {h : Host} {n' : Node} (hpool : ∀ h, Pool (s.node h))
    (hatt : ∀ h, Attended (s.node h)) (hnode : s'.node = Function.update s.node h n')
    (ht : Tended (s.node h) n') (g : Host) : Tended (s.node g) (s'.node g) := by
  rcases eq_or_ne g h with rfl | hg
  · rwa [hnode, Function.update_self]
  · rw [hnode, Function.update_of_ne hg]
    exact .refl (hpool g) (hatt g)

theorem recv_tended {m : RpcReq} {rest : List RpcReq} (hname : ∀ h, Named (s.node h))
    (hpool : ∀ h, Pool (s.node h)) (hatt : ∀ h, Attended (s.node h))
    (hc : PoolSpared s (.recv x env)) (hσ : s.sess x = some σ) (hlive : σ.live = true)
    (hwait : σ.wait = .idle) (hm : σ.toServ = m :: rest)
    (hreq : m.requestType = .prepare) (hs : step cfg s (.recv x env) = some s') (g : Host) :
    Tended (s.node g) (s'.node g) := by
  simp only [step, hσ, hlive, hwait, hm, Sys.serve, onMessage, hreq] at hs
  obtain ⟨hup, ⟨seg, w, hrun, rfl⟩ | ⟨w, rfl⟩⟩ := exec_run (by intros; rfl) hs
  · have hp : Pool (s.node σ.host) := hpool _
    have ha : Attended (s.node σ.host) := hatt _
    refine tended_of_node hpool hatt (served_node x { σ with toServ := rest } seg w) ?_ g
    have hsat := @servePrepare_run σ.host (.storage σ.host) (s.idle σ.host) σ.vars m env.fates
      env.clocks (s.world σ.host)
    rw [hrun] at hsat
    cases hsat with
    | refused ht hw =>
      rw [ht, hw]
      exact .resume hp ha hup (.inl rfl) fun _ h => .inl h
    | hands t tv cs hcl ht hv hreq' hb hf hw₁ hclean =>
      rename_i w₁
      have hvote : isPrepared w₁.store σ.vars.beginTs = true := by
        rw [hw₁]
        exact isPrepared_iff.mpr ⟨_, transOf_insert_self .., rfl⟩
      have hspared := hc ⟨(s.node σ.host).busy, (s.node σ.host).prepareTask.length, σ.vars.beginTs,
        w₁.store, env.fates.drop 4⟩ (by
          have ht : transOf (s.node σ.host).store σ.vars.beginTs = some t := ht
          simp only [Sys.handOvers, hσ, hm, prepareHandOvers, ht, hcl]
          rw [if_pos ⟨hreq, hv, hreq', hb, hf⟩, hw₁]
          exact .head _) hvote
      have hne : isPrepared w₁.store "" = false := by
        rw [hw₁, votedStore, isPrepared, transOf_insert_trans, if_neg hv.symm]
        exact (hname σ.host).unprepared.isPrepared
      obtain ⟨hat, hidle⟩ := startCleanTrans_attends hne
        (fun _ => ⟨hspared.1, fun h0 => (hspared.2 h0).2⟩) hclean
      refine .resume hp ha hup ?_ fun U hU => ?_
      · rcases hat.task with hi | ⟨p, hi, -⟩
        · exact .inl hi
        · exact .inr ⟨List.ne_nil_of_length_pos (Nat.pos_of_ne_zero (hidle (by simp [hi]))), p, hi⟩
      · rcases eq_or_ne U σ.vars.beginTs with rfl | hne
        · exact .inr (hat.working hU)
        · have hk := hat.kept U hU
          rw [hw₁, votedStore, isPrepared, transOf_insert_trans, if_neg hne] at hk
          exact .inl hk
  · exact tended_of_node hpool hatt (lost_node σ.host w) .lost g

theorem hangup_tended (hname : ∀ h, Named (s.node h)) (hpool : ∀ h, Pool (s.node h))
    (hatt : ∀ h, Attended (s.node h)) (hc : PoolSpared s (.hangup x env))
    (hs : step cfg s (.hangup x env) = some s') (g : Host) :
    Tended (s.node g) (s'.node g) := by
  simp only [step] at hs
  split at hs
  · cases hs
  rename_i σ hσ
  split_ifs at hs
  obtain ⟨hup, ⟨o, w, hrun, rfl⟩ | ⟨w, rfl⟩⟩ := exec_run (by intros; rfl) hs
  · have hp : Pool (s.node σ.host) := hpool _
    have ha : Attended (s.node σ.host) := hatt _
    refine tended_of_node hpool hatt (hungUp_node x σ o w) ?_ g
    unfold onClose at hrun
    split_ifs at hrun with hv
    · obtain ⟨ho, rfl⟩ := Prod.mk.inj hrun
      obtain rfl := Outcome.done.inj ho
      exact .resume hp ha hup (.inl rfl) fun _ h => .inl h
    · have hspared := hc ⟨(s.node σ.host).busy, s.idle σ.host, σ.vars.beginTs,
        (s.node σ.host).store, env.fates⟩ (by
          simp only [Sys.handOvers, hσ, if_neg hv]
          exact .head _)
      obtain ⟨hat, hidle⟩ := startCleanTrans_attends (hname σ.host).unprepared.isPrepared
        (fun hp => ⟨(hspared hp).1, fun h0 => ((hspared hp).2 h0).2⟩) hrun
      refine .resume hp ha hup ?_ fun U hU => .inl (hat.kept U hU)
      rcases hat.task with hi | ⟨p, hi, -⟩
      · exact .inl hi
      · exact .inr ⟨List.ne_nil_of_length_pos (Nat.pos_of_ne_zero (hidle (by simp [hi]))), p, hi⟩
  · exact tended_of_node hpool hatt (lost_node σ.host w) .lost g

theorem startUp_tended {h : Host} (hname : ∀ h, Named (s.node h)) (hpool : ∀ h, Pool (s.node h))
    (hatt : ∀ h, Attended (s.node h)) (hc : PoolSpared s (.startUp h env))
    (hs : step cfg s (.startUp h env) = some s') (g : Host) :
    Tended (s.node g) (s'.node g) := by
  simp only [step] at hs
  split_ifs at hs with hdown
  have hworld : (s.setNode h { store := (s.node h).store }).world h = s.world h := by
    simp [Sys.world, Sys.setNode]
  obtain ⟨-, ⟨ts, w, hrun, rfl⟩ | ⟨w, rfl⟩⟩ := exec_run (by intros; rfl) hs
  · rw [hworld] at hrun
    have hcl : Cleaned 100 (transEntries (s.world h).listing) (s.node h).store ts w.store :=
      startUpLoop_cleaned (hname h).unprepared.isPrepared
        (fun _ he => makeTrans_of_mem_transEntries he) hc hrun
    have hfresh : Pool { store := w.store } := .fresh w.store true
    obtain ⟨hp, -, hw⟩ := hfresh.foldl_resume rfl hcl.polling (by simpa using hcl.room)
    have hdown : (s.node h).up = false := by simpa using hdown
    refine tended_of_node hpool hatt (started_node h ts w) ⟨hp, fun _ T hT => ?_, ?_⟩ g
    · have hT : isPrepared w.store T = true := by simpa using hT
      obtain ⟨t, ht, hs⟩ := isPrepared_iff.mp (hcl.kept T hT)
      obtain ⟨r, hr, rfl⟩ : ∃ r, (s.node h).store.lookup (makeTrans T) = some r ∧ r.toTrans = t :=
        Option.map_eq_some_iff.mp ht
      have hm := transEntries_complete (s.world h).listing_pairwise (World.mem_listing.mpr hr)
      obtain ⟨p, hp, rfl⟩ := hcl.working T r hm hs hT
      exact hw p hp
    · exact fun i p hi => absurd (((hpool h).down hdown i).symm.trans hi) (by simp)
  · have hnode : ((s.setNode h { store := (s.node h).store }).lost h w).node =
        Function.update s.node h { store := w.store, up := false } := by
      rw [lost_node]
      exact Function.update_idem ..
    exact tended_of_node hpool hatt hnode .lost g

theorem isPrepared_of_ran {h : Host} {N : Event → Prop} {w w' : DbWorld} {U : String}
    (hr : Ran h N (fun k => ¬ TransKey k) w w') (hU : isPrepared w'.store U = true) :
    isPrepared w.store U = true := by
  rwa [isPrepared, transOf, hr.frame (makeTrans U) (not_not.mpr ⟨U, rfl⟩)] at hU

theorem tended_step {ℓ : Label} (hname : ∀ h, Named (s.node h)) (hpool : ∀ h, Pool (s.node h))
    (hatt : ∀ h, Attended (s.node h)) (hc : PoolSpared s ℓ) (hs : step cfg s ℓ = some s') (g : Host) :
    Tended (s.node g) (s'.node g) := by
  rcases step_cases closed_true hs trivial with hn | ⟨c, hcs⟩
  swap
  · rw [hcs.node_eq]
    exact .refl (hpool g) (hatt g)
  cases hn with
  | @recv x env σ m rest seg w hσ hlive hwait hm hup hw =>
    cases hw with
    | begin _ hb _ =>
      refine tended_of_node hpool hatt (served_node x { σ with toServ := rest } seg w) ?_ g
      generalize hst : w.store = st at hb ⊢
      cases hb with
      | refused => exact .resume (hpool _) (hatt _) hup (.inl rfl) fun _ => .inl
      | begun =>
        exact .resume (hpool _) (hatt _) hup (.inl rfl) fun _ h =>
          .inl (isPrepared_of_insert (by decide) h)
      | failed => exact .resume (hpool _) (hatt _) hup (.inl rfl) fun _ => .inl
    | prepare hreq => exact recv_tended hname hpool hatt hc hσ hlive hwait hm hreq hs g
    | op _ _ hk hr =>
      refine tended_of_node hpool hatt (served_node x { σ with toServ := rest } seg w) ?_ g
      rw [hk.2]
      exact .resume (hpool _) (hatt _) hup (.inl rfl) fun _ h => .inl (isPrepared_of_ran hr h)
  | @timeout x env σ seg w hσ hlive hup hw hk hr =>
    refine tended_of_node hpool hatt (served_node x σ seg w) ?_ g
    rw [hk.2]
    exact .resume (hpool _) (hatt _) hup (.inl rfl) fun _ h => .inl (isPrepared_of_ran hr h)
  | event => exact .refl (hpool g) (hatt g)
  | hangup => exact hangup_tended hname hpool hatt hc hs g
  | @taskSkip h i env p t w hi hup hend hr =>
    exact tended_of_node hpool hatt (tasked_node h i t w)
      (.setTask (hpool h) (hatt h) hup hi hend.attends) g
  | @taskAsk h peer i env p o w hi hpeer hrep hup hw ho hg =>
    have hself : (s.node h).up = true := by
      by_contra hd
      exact absurd (((hpool h).down (by simpa using hd) i).symm.trans hi) (by simp)
    have hnode : (s.setWorld peer w).node = s.node := by
      simp [Sys.setWorld, Sys.setNode, hw]
    have ht : Tended (s.node h) ((s.node h).setTask i (.polling { p with reply := some (stateRes o) })) :=
      .setTask (hpool h) (hatt h) hself hi (.polls rfl)
    refine tended_of_node hpool hatt ?_ ht g
    rw [Sys.setNode, hnode]
  | @taskRecv h i env p res t w hi hrep hup hend hr =>
    exact tended_of_node hpool hatt (tasked_node h i t w)
      (.setTask (hpool h) (hatt h) hup hi hend.attends) g
  | startUp => exact startUp_tended hname hpool hatt hc hs g
  | @lost ℓ h w hd => exact tended_of_node hpool hatt (lost_node h w) .lost g
  | cut => exact .refl (hpool g) (hatt g)

theorem Reach.tended (hr : Reach cfg PoolSpared s) (h : Host) :
    Pool (s.node h) ∧ Attended (s.node h) := by
  induction hr generalizing h with
  | init =>
    refine ⟨.fresh ∅ true, fun _ T hT => ?_⟩
    simp [isPrepared, transOf] at hT
  | step hr hc hs ih =>
    have ht := tended_step hr.named (fun h => (ih h).1) (fun h => (ih h).2) hc hs h
    exact ⟨ht.pool, ht.attended⟩

theorem upHandOvers_idle {h : Host} {busy : Nat} {es : List (String × Record)} {fates : List Fate}
    {clocks : List Timeval} {w : DbWorld} {c : HandOver}
    (hc : c ∈ upHandOvers h busy es fates clocks w) : c.idle = 100 - c.busy := by
  induction es generalizing busy fates clocks w with
  | nil => cases hc
  | cons e rest ih =>
    rcases List.mem_append.mp hc with hc | hc
    · split_ifs at hc
      · obtain rfl := List.mem_singleton.mp hc
        rfl
      · cases hc
    · split at hc
      · exact ih hc
      · cases hc

/-- A hand-over finds the tasks on the stack that are not at work. -/
theorem handOvers_idle {ℓ : Label} {c : HandOver} (hpool : ∀ h, Pool (s.node h))
    (hc : c ∈ s.handOvers ℓ) : c.idle = 100 - c.busy := by
  have of_pool : ∀ h, (s.node h).prepareTask.length = 100 - (s.node h).busy := fun h => by
    have := (hpool h).length_add_busy
    omega
  cases ℓ with
  | recv x env =>
    simp only [Sys.handOvers] at hc
    split at hc
    · split at hc
      · unfold prepareHandOvers at hc
        split at hc
        · split_ifs at hc
          · obtain rfl := List.mem_singleton.mp hc
            exact of_pool _
          · cases hc
        · cases hc
      · cases hc
    · cases hc
  | hangup x env =>
    simp only [Sys.handOvers] at hc
    split at hc
    · split_ifs at hc
      · cases hc
      · obtain rfl := List.mem_singleton.mp hc
        exact of_pool _
    · cases hc
  | startUp h env => exact upHandOvers_idle hc
  | _ => cases hc

end Steps

/-- Where fewer than 100 tasks are at work whenever a prepared transaction is handed over, and no
read of its record fails, each task is idle on the stack or goes on with one transaction, no task
is taken from an empty stack, and every prepared transaction of a running process has a task. -/
theorem pool_never_overdrawn (cfg : Config) {s : Sys} (hr : Reach cfg PoolSpared s) :
    (∀ h, Pool (s.node h) ∧ Attended (s.node h)) ∧
    ∀ ℓ, PoolSpared s ℓ →
      (∀ c ∈ s.handOvers ℓ, c.draws = true → c.idle ≠ 0) ∧
      ∀ s', step cfg s ℓ = some s' → ∀ h, Continues (s.node h) (s'.node h) := by
  refine ⟨hr.tended, fun ℓ hc => ⟨fun c hm hd => ?_, fun s' hs h => ?_⟩⟩
  · obtain ⟨h0, hp⟩ : fate c.fates 0 = .ok ∧ isPrepared c.store c.beginTs = true := by
      simpa [HandOver.draws] using hd
    have hidle := handOvers_idle (fun h => (hr.tended h).1) hm
    have hbusy := ((hc c hm hp).2 h0).1
    omega
  · exact (tended_step hr.named (fun h => (hr.tended h).1) (fun h => (hr.tended h).2) hc hs h).continues

def preparedAgain : List Label :=
  toCommit ++
  [.recv 0 { clocks := [atUsec 102] }, .recv 1 { fates := [.ok, .ok, .crash] },
   .startUp hostB { clocks := [atUsec 110] }]

theorem pool_never_overdrawn_again : ∃ s : Sys, (s.node hostA).busy = 1 ∧ (s.node hostB).busy = 1 ∧
    (Pool (s.node hostA) ∧ Attended (s.node hostA)) ∧ Pool (s.node hostB) ∧ Attended (s.node hostB) := by
  have hrun : ((steps twoHosts PoolSpared {} preparedAgain).map fun s =>
      ((s.node hostA).busy, (s.node hostB).busy)) = some (1, 1) := by
    decide +kernel
  obtain ⟨s, hs, hf⟩ := reach_of_map hrun
  obtain ⟨hA, hB⟩ := Prod.mk.inj hf
  have h := (pool_never_overdrawn twoHosts hs).1
  exact ⟨s, hA, hB, h hostA, h hostB⟩

def taskLost : List Label :=
  toCommit ++
  [.recv 0 { fates := [.ok, .ok, .ok, .ok, .ok, .fail], clocks := [atUsec 102] }]

/-- The task is neither idle nor at work from then on. -/
theorem pool_overdrawn :
    ¬ ∀ (s : Sys) (h : Host), Reach twoHosts anyStep s → Pool (s.node h) := by
  intro h
  have hrun : ((steps twoHosts anyStep {} taskLost).map fun s => (s.node hostA).task 99) =
      some .ended := by
    decide +kernel
  obtain ⟨s, hs, hf⟩ := reach_of_map hrun
  rcases (h s hostA hs).working 99 with hi | ⟨-, p, hp⟩
  · simp [hf] at hi
  · simp [hf] at hp

end Tpc
