import Tpc.Segments

/-! What the handlers of Get, Insert, Update and Delete do to the locks and the versions of a node,
and what a read returns. -/

namespace Tpc
open Durable

variable {me : Proc} {A : Hist → Prop} {w : DbWorld}

def Trans.Finished (t : Trans) : Prop := t.state = .rollback ∨ t.state = .commited

/-- The transaction that holds the lock, if any, gives way. -/
def LockFree (st : Db.Store) (key T : String) : Prop :=
  lockOf st key = none ∨
    ∃ U t, lockOf st key = some U ∧ U ≠ T ∧ transOf st U = some t ∧ t.Finished

def lockStore (st : Db.Store) (key T : String) : Db.Store :=
  st.insert (makeLock key) (.lock { trans := T })

/-- How `addLock` returns 0; `u` says whether the lock record could not be read. -/
inductive Granted (u : Prop) (key T : String) (st : Db.Store) : Db.Store → Prop
  | held : lockOf st key = some T → Granted u key T st st
  | taken : LockFree st key T → Granted u key T st (lockStore st key T)
  | unread : u → Granted u key T st st

def lockNext (key T : String) : Got Record → Db Int
  | .found r => do
    let lock := r.toLock
    if lock.trans ≠ T then
      match ← dbGet (makeTrans lock.trans) with
      | .found r =>
        let trans := r.toTrans
        if trans.state = .rollback ∨ trans.state = .commited then
          if ← dbPut (makeLock key) (.lock { trans := T }) then return 0
          else return -2
        else return -1
      | _ => return -11
    else return 0
  | .notFound => do
    if ← dbPut (makeLock key) (.lock { trans := T }) then return 0
    else return -2
  | .error => .ret 0

theorem addLock_eq (key T : String) : addLock key T = .get (makeLock key) (lockNext key T) := by
  simp only [addLock, dbGet, Prog.bind_eq, Prog.bind]
  rfl

theorem lockNext_wp (key T : String) :
    (lockNext key T (w.read (makeLock key))).wp me A
      (fun ret w' => (ret = 0 ∧ Granted False key T w.store w'.store) ∨
        (ret ≠ 0 ∧ w'.store = w.store ∧ (LockFree w.store key T → MayFail A) ∧
          lockOf w.store key ≠ some T))
      (fun w' => w'.store = w.store) w := by
  rcases read_cases w (makeLock key) with ⟨hr, hl⟩ | ⟨r, hr, hl⟩
  · have hn := lockOf_of_lookup_none hl
    simp only [hr, lockNext, dbPut, Prog.bind_eq, Prog.bind, Prog.wp]
    exact ⟨fun _ => rfl, fun ha => .inr ⟨by decide, rfl, fun _ => ⟨_, _, ha⟩, by simp [hn]⟩,
      .inl ⟨rfl, .taken (.inl hn)⟩⟩
  · have hL := lockOf_of_lookup hl
    simp only [hr, lockNext, dbGet, Prog.bind_eq, Prog.bind]
    by_cases hT : r.toLock.trans = T
    · rw [if_neg (not_not.mpr hT)]
      exact .inl ⟨rfl, .held (hT ▸ hL)⟩
    have hne : lockOf w.store key ≠ some T := by
      rw [hL]
      exact fun he => hT (Option.some.inj he)
    rw [if_pos hT]
    refine ⟨fun _ => rfl, fun ha => .inr ⟨by decide, rfl, fun _ => ⟨_, _, ha⟩, hne⟩, ?_⟩
    rcases read_cases w (makeTrans r.toLock.trans) with ⟨hr', hl'⟩ | ⟨r', hr', hl'⟩
    · simp only [hr']
      refine .inr ⟨by decide, rfl, ?_, hne⟩
      rintro (h | ⟨U, t, h, -, ht, -⟩)
      · simp [hL] at h
      · obtain rfl := Option.some.inj (hL.symm.trans h)
        simp [transOf_of_lookup_none hl'] at ht
    · have ht := transOf_of_lookup hl'
      simp only [hr']
      by_cases hf : r'.toTrans.state = .rollback ∨ r'.toTrans.state = .commited
      · rw [if_pos hf]
        exact ⟨fun _ => rfl, fun ha => .inr ⟨by decide, rfl, fun _ => ⟨_, _, ha⟩, hne⟩,
          .inl ⟨rfl, .taken (.inr ⟨_, _, hL, hT, ht, hf⟩)⟩⟩
      · rw [if_neg hf]
        refine .inr ⟨by decide, rfl, ?_, hne⟩
        rintro (h | ⟨U, t, h, -, ht', hf'⟩)
        · simp [hL] at h
        · obtain rfl := Option.some.inj (hL.symm.trans h)
          obtain rfl := Option.some.inj (ht.symm.trans ht')
          exact absurd hf' hf

theorem addLock_sat (key T : String) {fates : List Fate} {clocks : List Timeval}
    (hf : fates.head? ≠ some .fail) :
    Outcome.Sat
      (fun ret w' => (ret = 0 ∧ Granted False key T w.store w'.store) ∨
        (ret ≠ 0 ∧ w'.store = w.store))
      (fun w' => w'.store = w.store) ((addLock key T).run me fates clocks w) := by
  rw [addLock_eq]
  refine Prog.sat_of_wp_get (A := fun _ => True) (fun _ _ _ h => h) hf (fun _ => rfl) ?_ trivial
  exact Prog.wp_mono (fun _ _ h => h.imp id fun h => ⟨h.1, h.2.1⟩) (fun _ h => h) (lockNext_wp key T)

def entryOf (st : Db.Store) (key : String) : Option Data := dataAt st (makeDataEntry key)

/-- How `addData` returns 0; `u` says whether the entry could not be read. -/
inductive Written (u : Prop) (st : Db.Store) (key value T : String) (type : RequestType) :
    Db.Store → Prop
  | again (d : Data) : entryOf st key = some d → d.curVersion = T →
      Written u st key value T type
        (st.insert (makeDataEntry key) (.data { d with state := type, value := value }))
  | pushed (d : Data) : entryOf st key = some d → d.curVersion ≠ T →
      Written u st key value T type
        ((st.insert (makeData key d.curVersion) (.data d)).insert (makeDataEntry key)
          (.data { state := type, value := value, next := d.curVersion, curVersion := T }))
  | first : entryOf st key = none ∨ u →
      Written u st key value T type (st.insert (makeDataEntry key)
        (.data { state := type, value := value, next := "", curVersion := T }))

inductive HalfWritten (st : Db.Store) (key T : String) : Db.Store → Prop
  | nothing : HalfWritten st key T st
  | kept (d : Data) : entryOf st key = some d → d.curVersion ≠ T →
      HalfWritten st key T (st.insert (makeData key d.curVersion) (.data d))

def dataNext (key value T : String) (type : RequestType) : Got Record → Db Int
  | .found r => do
    let data := r.toData
    if data.curVersion = T then
      if ← dbPut (makeDataEntry key) (.data { data with state := type, value := value }) then
        return 0
      else return -1
    else
      if ← dbPut (makeData key data.curVersion) (.data data) then
        if ← dbPut (makeDataEntry key)
            (.data { state := type, value := value, next := data.curVersion, curVersion := T }) then
          return 0
        else return -2
      else return -2
  | _ => do
    if ← dbPut (makeDataEntry key)
        (.data { state := type, value := value, next := "", curVersion := T }) then return 0
    else return -3

theorem addData_eq (key value T : String) (type : RequestType) :
    addData key value T type = .get (makeDataEntry key) (dataNext key value T type) := by
  simp only [addData, dbGet, Prog.bind_eq, Prog.bind]
  rfl

theorem dataNext_wp (key value T : String) (type : RequestType) :
    (dataNext key value T type (w.read (makeDataEntry key))).wp me A
      (fun ret w' => (ret = 0 ∧ Written False w.store key value T type w'.store) ∨
        (Refusal ret ∧ HalfWritten w.store key T w'.store ∧ MayFail A))
      (fun w' => HalfWritten w.store key T w'.store) w := by
  rcases read_cases w (makeDataEntry key) with ⟨hr, hl⟩ | ⟨r, hr, hl⟩
  · simp only [hr, dataNext, dbPut, Prog.bind_eq, Prog.bind, Prog.wp]
    exact ⟨fun _ => .nothing, fun ha => .inr ⟨by simp [Refusal], .nothing, _, _, ha⟩,
      .inl ⟨rfl, .first (.inl (dataAt_of_lookup_none hl))⟩⟩
  · have hd : entryOf w.store key = some r.toData := dataAt_of_lookup hl
    simp only [hr, dataNext, dbPut, Prog.bind_eq, Prog.bind]
    by_cases hT : r.toData.curVersion = T
    · rw [if_pos hT]
      exact ⟨fun _ => .nothing, fun ha => .inr ⟨by simp [Refusal], .nothing, _, _, ha⟩,
        .inl ⟨rfl, .again _ hd hT⟩⟩
    · rw [if_neg hT]
      exact ⟨fun _ => .nothing, fun ha => .inr ⟨by simp [Refusal], .nothing, _, _, ha⟩,
        fun _ => .kept _ hd hT, fun ha => .inr ⟨by simp [Refusal], .kept _ hd hT, _, _, ha⟩,
        .inl ⟨rfl, .pushed _ hd hT⟩⟩

theorem Written.mono {u u' : Prop} (hu : u → u') {st st' : Db.Store} {key value T : String}
    {type : RequestType} (h : Written u st key value T type st') :
    Written u' st key value T type st' := by
  cases h with
  | again d hd hT => exact .again d hd hT
  | pushed d hd hT => exact .pushed d hd hT
  | first h => exact .first (h.imp id hu)

theorem addData_wp (key value T : String) (type : RequestType) :
    (addData key value T type).wp me A
      (fun ret w' => (ret = 0 ∧ Written (MayFail A) w.store key value T type w'.store) ∨
        (Refusal ret ∧ HalfWritten w.store key T w'.store ∧ MayFail A))
      (fun w' => HalfWritten w.store key T w'.store) w := by
  rw [addData_eq]
  refine ⟨fun _ => .nothing, fun ha => ?_, ?_⟩
  · simp only [dataNext, dbPut, Prog.bind_eq, Prog.bind, Prog.wp]
    exact ⟨fun _ => .nothing, fun _ => .inr ⟨by simp [Refusal], .nothing, _, _, ha⟩,
      .inl ⟨rfl, .first (.inr ⟨_, _, ha⟩)⟩⟩
  · refine Prog.wp_mono (fun ret w' h => h.imp ?_ id) (fun _ h => h) (dataNext_wp key value T type)
    exact fun h => ⟨h.1, h.2.mono False.elim⟩

theorem addData_sat (key value T : String) (type : RequestType) {fates : List Fate}
    {clocks : List Timeval} (hf : fates.head? ≠ some .fail) :
    Outcome.Sat
      (fun ret w' => (ret = 0 ∧ Written False w.store key value T type w'.store) ∨
        (ret ≠ 0 ∧ HalfWritten w.store key T w'.store))
      (fun w' => HalfWritten w.store key T w'.store)
      ((addData key value T type).run me fates clocks w) := by
  rw [addData_eq]
  refine Prog.sat_of_wp_get (A := fun _ => True) (fun _ _ _ h => h) hf (fun _ => .nothing) ?_ trivial
  exact Prog.wp_mono (fun _ _ h => h.imp id fun h => ⟨h.1.ne_zero, h.2.1⟩) (fun _ h => h)
    (dataNext_wp key value T type)

section Frame

variable {u : Prop} {st st' : Db.Store} {key value T : String} {type : RequestType}

theorem Written.lockOf_eq (h : Written u st key value T type st') (k : String) :
    lockOf st' k = lockOf st k := by
  cases h <;> simp

theorem Written.transOf_eq (h : Written u st key value T type st') (U : String) :
    transOf st' U = transOf st U := by
  cases h <;> simp

theorem HalfWritten.lockOf_eq (h : HalfWritten st key T st') (k : String) :
    lockOf st' k = lockOf st k := by
  cases h <;> simp

theorem HalfWritten.transOf_eq (h : HalfWritten st key T st') (U : String) :
    transOf st' U = transOf st U := by
  cases h <;> simp

end Frame

/-- The result of `readData` on a store whose calls succeed, `none` when `fuel` does not reach. -/
def readOf (st : Db.Store) (T key : String) : Nat → String → Option ReadRes
  | 0, _ => none
  | fuel + 1, loopBeginTs =>
    match dataAt st (if loopBeginTs = "" then makeDataEntry key else makeData key loopBeginTs) with
    | none => some { code := 99 }
    | some data =>
      if data.curVersion = T then
        some { code := if data.state = .delete then 33 else 0,
               value := data.value, retBeginTs := data.curVersion }
      else
        match transOf st data.curVersion with
        | none => some { code := -1 }
        | some t =>
          let older := if data.next = "" then some { code := 99 } else readOf st T key fuel data.next
          match t.state with
          | .begin => older
          | .prepared =>
            if t.startTrans < T then
              some { code := 66, retBeginTs := data.curVersion, retStartTs := t.startTrans,
                     retCommitTs := t.commitTrans }
            else older
          | .commited =>
            if t.commitTrans < T then
              some { code := if data.state = .delete then 33 else 0,
                     value := data.value, retBeginTs := data.curVersion,
                     retStartTs := t.startTrans, retCommitTs := t.commitTrans }
            else older
          | .rollback => older

theorem readData_wp (T key : String) {st : Db.Store} (fuel : Nat) (loopBeginTs : String)
    {w : DbWorld} (hw : w.store = st) :
    (readData T key fuel loopBeginTs).wp me A
      (fun r w' => w'.store = st ∧
        (readOf st T key fuel loopBeginTs = some r ∨ r.code = -1 ∧ MayFail A))
      (fun w' => w'.store = st) w := by
  induction fuel generalizing loopBeginTs with
  | zero => trivial
  | succ fuel ih =>
    simp only [readData, dbGet, Prog.bind_eq, Prog.bind, Prog.wp, readOf]
    refine ⟨fun _ => hw, fun _ _ => hw, ?_⟩
    rcases read_cases w (if loopBeginTs = "" then makeDataEntry key
      else makeData key loopBeginTs) with ⟨hr, hl⟩ | ⟨r, hr, hl⟩
    · rw [hw] at hl
      simp only [hr, dataAt_of_lookup_none hl]
      exact ⟨hw, .inl rfl⟩
    · rw [hw] at hl
      simp only [hr, dataAt_of_lookup hl]
      by_cases hT : r.toData.curVersion = T
      · rw [if_pos hT, if_pos hT]
        exact ⟨hw, .inl rfl⟩
      rw [if_neg hT, if_neg hT]
      refine ⟨fun _ => hw, fun ha => ⟨hw, .inr ⟨rfl, _, _, ha⟩⟩, ?_⟩
      rcases read_cases w (makeTrans r.toData.curVersion) with ⟨hr', hl'⟩ | ⟨r', hr', hl'⟩
      · rw [hw] at hl'
        simp only [hr', transOf_of_lookup_none hl']
        exact ⟨hw, .inl rfl⟩
      · rw [hw] at hl'
        have older : (if r.toData.next = "" then Prog.ret { code := 99 }
            else readData T key fuel r.toData.next).wp me A
            (fun x w' => w'.store = st ∧ ((if r.toData.next = "" then some { code := 99 }
              else readOf st T key fuel r.toData.next) = some x ∨ x.code = -1 ∧ MayFail A))
            (fun w' => w'.store = st) w := by
          split_ifs with hn
          · exact ⟨hw, .inl rfl⟩
          · exact ih _
        simp only [hr', transOf_of_lookup hl']
        cases r'.toTrans.state with
        | begin | rollback => exact older
        | prepared | commited =>
          refine Prog.wp_ite.mpr ⟨fun h => ?_, fun h => ?_⟩
          · simp only [if_pos h]
            exact ⟨hw, .inl rfl⟩
          · simp only [if_neg h]
            exact older

abbrev Silent (me : Proc) : Hist → Hist → Prop := Grown me fun _ => False

def ReadEnd (A : Hist → Prop) (me : Proc) (self : Host) (fuel : Nat) (v : Vars) (req : RpcReq)
    (res : RpcRes) (w : DbWorld) (seg : Seg) (w' : DbWorld) : Prop :=
  w'.store = w.store ∧ ∃ l ts m r,
    ((req.getForUpdate = 0 ∧ ts = v.beginTs ∧ l = w.hist) ∨
      (req.getForUpdate ≠ 0 ∧ ∃ tv, ts = getTS tv ∧ l = .clock me tv :: w.hist)) ∧
    Silent me l m ∧
    w'.hist = .note (.read self v.beginTs req.key (req.getForUpdate ≠ 0) ts r) :: m ∧
    (readOf w.store ts req.key fuel "" = some r ∨ r.code = -1 ∧ MayFail A) ∧
    seg = readSeg v req res r

theorem readRound_wp (self : Host) (fuel : Nat) (v : Vars) (req : RpcReq) (res : RpcRes) :
    (readRound self fuel v req res).wp me A
      (fun seg w' => ReadEnd A me self fuel v req res w seg w')
      (fun w' => w'.store = w.store ∧ Silent me w.hist w'.hist) w := by
  have go : ∀ (w₁ : DbWorld) (ts : String), w₁.store = w.store → Silent me w.hist w₁.hist →
      ((req.getForUpdate = 0 ∧ ts = v.beginTs ∧ w₁.hist = w.hist) ∨
        (req.getForUpdate ≠ 0 ∧ ∃ tv, ts = getTS tv ∧ w₁.hist = .clock me tv :: w.hist)) →
      Prog.wp me A (fun seg w' => ReadEnd A me self fuel v req res w seg w')
        (fun w' => w'.store = w.store ∧ Silent me w.hist w'.hist)
        ((readData ts req.key fuel "").bind fun r =>
          (note (.read self v.beginTs req.key (req.getForUpdate ≠ 0) ts r)).bind fun _ =>
            .ret (readSeg v req res r)) w₁ := by
    intro w₁ ts hw₁ hs₁ hts
    have hg := Prog.wp_grown (A := A) (readData_tells (N := fun _ => False) ts req.key fuel "")
      (.refl me (fun _ => False) w₁.hist)
    rw [Prog.wp_bind]
    refine Prog.wp_mono ?_ ?_ (Prog.wp_and hg (readData_wp ts req.key fuel "" hw₁))
    · rintro r w₂ ⟨hs₂, hw₂, hr⟩
      exact fun _ => ⟨hw₂, _, ts, _, r, hts, hs₂, rfl, hr, rfl⟩
    · rintro w₂ ⟨hs₂, hw₂⟩
      exact ⟨hw₂, hs₁.trans hs₂⟩
  simp only [readRound]
  by_cases hf : req.getForUpdate = 0
  · rw [if_neg (not_not.mpr hf)]
    exact go w v.beginTs rfl (.refl me _ _) (.inl ⟨hf, rfl, rfl⟩)
  · rw [if_pos hf]
    refine ⟨fun _ => ⟨rfl, (Grown.refl me _ _).cons rfl⟩, fun tv _ => ?_⟩
    exact go (w.log (.clock me tv)) (getTS tv) rfl ((Grown.refl me _ _).cons rfl)
      (.inr ⟨hf, tv, rfl, rfl⟩)

theorem readRound_sat (hA : ∀ l m, l <:+ m → A m → A l) {self : Host} {fuel : Nat} {v : Vars}
    {req : RpcReq} {res : RpcRes} {fates : List Fate} {clocks : List Timeval}
    {o : Outcome Seg × DbWorld} (ho : (readRound self fuel v req res).run me fates clocks w = o)
    (ha : A o.2.hist) :
    Outcome.Sat (ReadEnd A me self fuel v req res w)
      (fun w' => w'.store = w.store ∧ Silent me w.hist w'.hist) o := by
  subst ho
  exact Prog.sat_of_wp hA (readRound_wp self fuel v req res) ha

def LockEnd (G : Db.Store → Db.Store → Prop) (me : Proc) (self : Host) (key T : String)
    (w w' : DbWorld) : Prop :=
  G w.store w'.store ∧ ∃ m, Silent me w.hist m ∧ w'.hist = .note (.locked self key T) :: m

theorem LockEnd.grown {G : Db.Store → Db.Store → Prop} {self : Host} {key T : String} {w w' : DbWorld}
    (h : LockEnd G me self key T w w') :
    Grown me (fun e => e = .locked self key T) w.hist w'.hist := by
  obtain ⟨-, m, hm, hw⟩ := h
  rw [hw]
  exact (hm.mono fun _ h => h.elim).cons rfl

def LockWait (A : Hist → Prop) (me : Proc) (key T : String) (w w' : DbWorld) : Prop :=
  w'.store = w.store ∧ Silent me w.hist w'.hist ∧ (LockFree w.store key T → MayFail A) ∧
    lockOf w.store key ≠ some T

inductive GetEnd (A : Hist → Prop) (G : Db.Store → Db.Store → Prop) (me : Proc) (self : Host)
    (fuel : Nat) (v : Vars) (req : RpcReq) (res : RpcRes) (w : DbWorld) : Seg → DbWorld → Prop
  | waits (w' : DbWorld) : LockWait A me req.key v.beginTs w w' →
      GetEnd A G me self fuel v req res w { vars := v, next := .wait (.lock req res) } w'
  | reads (w₁ : DbWorld) (seg : Seg) (w' : DbWorld) : LockEnd G me self req.key v.beginTs w w₁ →
      ReadEnd A me self fuel v req res w₁ seg w' → GetEnd A G me self fuel v req res w seg w'

inductive WriteEnd (A : Hist → Prop) (G : Db.Store → Db.Store → Prop) (me : Proc) (self : Host)
    (v : Vars) (req : RpcReq) (res : RpcRes) (w : DbWorld) : Seg → DbWorld → Prop
  | waits (w' : DbWorld) : LockWait A me req.key v.beginTs w w' →
      WriteEnd A G me self v req res w { vars := v, next := .wait (.lock req res) } w'
  | fails (w₁ w' : DbWorld) (ret : Int) : LockEnd G me self req.key v.beginTs w w₁ → Refusal ret →
      HalfWritten w₁.store req.key v.beginTs w'.store → Silent me w₁.hist w'.hist → MayFail A →
      WriteEnd A G me self v req res w
        { vars := v
          next := .response (.rpcResponse
            { res with result := toUInt32 ret, errMsg := "addData err" }) } w'
  | writes (w₁ w' : DbWorld) (m : Hist) : LockEnd G me self req.key v.beginTs w w₁ →
      Written (MayFail A) w₁.store req.key req.value v.beginTs req.requestType w'.store →
      Silent me w₁.hist m →
      w'.hist = .note (.wrote self req.key v.beginTs req.requestType req.value) :: m →
      WriteEnd A G me self v req res w { vars := v, next := .response (.rpcResponse res) } w'

inductive AccessLost (G : Db.Store → Db.Store → Prop) (me : Proc) (self : Host) (key T : String)
    (w w' : DbWorld) : Prop
  | before : w'.store = w.store → Silent me w.hist w'.hist → AccessLost G me self key T w w'
  | after (w₁ : DbWorld) : LockEnd G me self key T w w₁ → Silent me w₁.hist w'.hist →
      HalfWritten w₁.store key T w'.store → AccessLost G me self key T w w'

section Access

variable {G : Db.Store → Db.Store → Prop} {self : Host} {fuel : Nat} {v : Vars} {req : RpcReq}
  {res : RpcRes}

def LockSpec (A : Hist → Prop) (G : Db.Store → Db.Store → Prop) (me : Proc) (key T : String)
    (w : DbWorld) (ret : Int) (w' : DbWorld) : Prop :=
  Silent me w.hist w'.hist ∧ ((ret = 0 ∧ G w.store w'.store) ∨
    (ret ≠ 0 ∧ w'.store = w.store ∧ (LockFree w.store key T → MayFail A) ∧
      lockOf w.store key ≠ some T))

def getRest (self : Host) (fuel : Nat) (v : Vars) (req : RpcReq) (res : RpcRes) (ret : Int) :
    Db Seg := do
  if ret ≠ 0 then return { vars := v, next := .wait (.lock req res) }
  else
    note (.locked self req.key v.beginTs)
    readRound self fuel v req res

theorem getRest_wp {ret : Int} {w₁ : DbWorld}
    (h : LockSpec A G me req.key v.beginTs w ret w₁) :
    (getRest self fuel v req res ret).wp me A (GetEnd A G me self fuel v req res w)
      (AccessLost G me self req.key v.beginTs w) w₁ := by
  simp only [getRest]
  obtain ⟨hs, ⟨rfl, hg⟩ | ⟨hret, hw, hf, hne⟩⟩ := h
  · rw [if_neg (by decide)]
    intro _
    have hl : LockEnd G me self req.key v.beginTs w
        (w₁.log (.note (.locked self req.key v.beginTs))) := ⟨hg, w₁.hist, hs, rfl⟩
    refine Prog.wp_mono (fun seg w' h => .reads _ seg w' hl h) ?_ (readRound_wp self fuel v req res)
    rintro w' ⟨hw', hs'⟩
    refine .after _ hl hs' ?_
    rw [hw']
    exact .nothing
  · rw [if_pos hret]
    exact .waits w₁ ⟨hw, hs, hf, hne⟩

def writeRest (self : Host) (v : Vars) (req : RpcReq) (res : RpcRes) (ret : Int) : Db Seg := do
  if ret ≠ 0 then return { vars := v, next := .wait (.lock req res) }
  else
    note (.locked self req.key v.beginTs)
    let ret ← addData req.key req.value v.beginTs req.requestType
    if ret ≠ 0 then respond v { res with result := toUInt32 ret, errMsg := "addData err" }
    else
      note (.wrote self req.key v.beginTs req.requestType req.value)
      respond v res

theorem writeRest_wp {ret : Int} {w₁ : DbWorld}
    (h : LockSpec A G me req.key v.beginTs w ret w₁) :
    (writeRest self v req res ret).wp me A (WriteEnd A G me self v req res w)
      (AccessLost G me self req.key v.beginTs w) w₁ := by
  simp only [writeRest]
  obtain ⟨hs, ⟨rfl, hg⟩ | ⟨hret, hw, hf, hne⟩⟩ := h
  · rw [if_neg (by decide)]
    intro _
    have hl : LockEnd G me self req.key v.beginTs w
        (w₁.log (.note (.locked self req.key v.beginTs))) := ⟨hg, w₁.hist, hs, rfl⟩
    have hgrown := Prog.wp_grown (A := A) (addData_tells (N := fun _ => False) req.key req.value
      v.beginTs req.requestType)
      (.refl me (fun _ => False) (w₁.log (.note (.locked self req.key v.beginTs))).hist)
    change Prog.wp me A _ _ ((addData req.key req.value v.beginTs req.requestType).bind _) _
    rw [Prog.wp_bind]
    refine Prog.wp_mono ?_ ?_ (Prog.wp_and hgrown (addData_wp _ _ _ _))
    · rintro ret' w₂ ⟨hs₂, ⟨rfl, hw₂⟩ | ⟨hret, hw₂, hm⟩⟩
      · rw [if_neg (by decide)]
        exact fun _ => .writes _ _ w₂.hist hl hw₂ hs₂ rfl
      · rw [if_pos hret.ne_zero]
        exact .fails _ w₂ ret' hl hret hw₂ hs₂ hm
    · rintro w₂ ⟨hs₂, hw₂⟩
      exact .after _ hl hs₂ hw₂
  · rw [if_pos hret]
    exact .waits w₁ ⟨hw, hs, hf, hne⟩

theorem lockNext_spec (key T : String) :
    (lockNext key T (w.read (makeLock key))).wp me A (LockSpec A (Granted False key T) me key T w)
      (fun w' => w'.store = w.store ∧ Silent me w.hist w'.hist) w := by
  have ht : (addLock key T).Tells fun _ => False := addLock_tells key T
  rw [addLock_eq] at ht
  exact Prog.wp_mono (fun _ _ h => h) (fun _ h => ⟨h.2, h.1⟩)
    (Prog.wp_and (Prog.wp_grown (ht _) (.refl me _ _)) (lockNext_wp key T))

theorem serveGet_eq (hf : req.getForUpdate ≠ 0) :
    serveGet self fuel v req res =
      (addLock req.key v.beginTs).bind (getRest self fuel v req res) := by
  simp only [serveGet]
  rw [if_pos hf]
  rfl

theorem serveWrite_eq :
    serveWrite self v req res = (addLock req.key v.beginTs).bind (writeRest self v req res) := rfl

/-- What `addLock` does when it returns 0: it fails to read the lock record when the first fate
says so. -/
def LockBy (fates : List Fate) (key T : String) (st st' : Db.Store) : Prop :=
  if fates.head? = some .fail then st = st' else Granted False key T st st'

theorem lock_sat {α : Type} {f : Int → Db α} {key T : String} {Q : α → DbWorld → Prop}
    {R : DbWorld → Prop} {fates : List Fate} {clocks : List Timeval}
    (hA : ∀ l m, l <:+ m → A m → A l)
    (hf : ∀ ret w', LockSpec A (LockBy fates key T) me key T w ret w' → (f ret).wp me A Q R w')
    (hR : ∀ w' : DbWorld, w'.store = w.store → Silent me w.hist w'.hist → R w')
    (ha : A (((addLock key T).bind f).run me fates clocks w).2.hist) :
    Outcome.Sat Q R (((addLock key T).bind f).run me fates clocks w) := by
  rw [addLock_eq] at ha ⊢
  by_cases hfate : fates.head? = some .fail
  · have h0 : LockSpec A (LockBy fates key T) me key T w 0 (w.log (.dbError me)) :=
      ⟨(Grown.refl me _ _).cons rfl, .inl ⟨rfl, by rw [LockBy, if_pos hfate]; rfl⟩⟩
    have hw := hf 0 _ h0
    obtain ⟨fs, rfl⟩ : ∃ fs, fates = .fail :: fs := List.head?_eq_some_iff.mp hfate
    exact Prog.sat_of_wp hA (p := f 0) (w := w.log (.dbError me)) hw ha
  · refine Prog.sat_of_wp_get hA hfate (fun _ => hR _ rfl ((Grown.refl me _ _).cons rfl)) ?_ ha
    rw [Prog.wp_bind]
    refine Prog.wp_mono ?_ (fun w' h => hR w' h.1 h.2) (lockNext_spec key T)
    rintro ret w' ⟨hs, h⟩
    refine hf ret w' ⟨hs, h.imp ?_ id⟩
    rintro ⟨h0, hg⟩
    exact ⟨h0, by rwa [LockBy, if_neg hfate]⟩

theorem serveGet_sat (hA : ∀ l m, l <:+ m → A m → A l) (hf : req.getForUpdate ≠ 0)
    {fates : List Fate} {clocks : List Timeval} {o : Outcome Seg × DbWorld}
    (ho : (serveGet self fuel v req res).run me fates clocks w = o) (ha : A o.2.hist) :
    Outcome.Sat (GetEnd A (LockBy fates req.key v.beginTs) me self fuel v req res w)
      (AccessLost (LockBy fates req.key v.beginTs) me self req.key v.beginTs w) o := by
  subst ho
  rw [serveGet_eq hf] at ha ⊢
  exact lock_sat hA (fun _ _ h => getRest_wp h) (fun _ hw hs => .before hw hs) ha

theorem serveWrite_sat (hA : ∀ l m, l <:+ m → A m → A l) {fates : List Fate}
    {clocks : List Timeval} {o : Outcome Seg × DbWorld}
    (ho : (serveWrite self v req res).run me fates clocks w = o) (ha : A o.2.hist) :
    Outcome.Sat (WriteEnd A (LockBy fates req.key v.beginTs) me self v req res w)
      (AccessLost (LockBy fates req.key v.beginTs) me self req.key v.beginTs w) o := by
  subst ho
  rw [serveWrite_eq] at ha ⊢
  exact lock_sat hA (fun _ _ h => writeRest_wp h) (fun _ hw hs => .before hw hs) ha

end Access

theorem readOf_code {st : Db.Store} {T key : String} {fuel : Nat} {loopBeginTs : String}
    {r : ReadRes} (h : readOf st T key fuel loopBeginTs = some r) :
    r.code = 0 ∨ r.code = 33 ∨ r.code = 66 ∨ r.code = 99 ∨ r.code = -1 := by
  induction fuel generalizing loopBeginTs with
  | zero => simp [readOf] at h
  | succ fuel ih =>
    have older : ∀ d : Data, (if d.next = "" then some { code := 99 }
        else readOf st T key fuel d.next) = some r →
        r.code = 0 ∨ r.code = 33 ∨ r.code = 66 ∨ r.code = 99 ∨ r.code = -1 := by
      intro d hd
      split_ifs at hd
      · obtain rfl := Option.some.inj hd
        simp
      · exact ih hd
    have value : ∀ (c : Prop) [Decidable c] (r' : ReadRes), r' = r →
        r'.code = (if c then 33 else 0) →
        r.code = 0 ∨ r.code = 33 ∨ r.code = 66 ∨ r.code = 99 ∨ r.code = -1 := by
      rintro c _ r' rfl hc
      rw [hc]
      split_ifs <;> simp
    rw [readOf] at h
    split at h
    · obtain rfl := Option.some.inj h
      simp
    · rename_i d _
      by_cases hT : d.curVersion = T
      · rw [if_pos hT] at h
        exact value _ _ (Option.some.inj h) rfl
      rw [if_neg hT] at h
      split at h
      · obtain rfl := Option.some.inj h
        simp
      · rename_i t _
        cases hs : t.state with
        | begin | rollback =>
          simp only [hs] at h
          exact older d h
        | prepared =>
          simp only [hs] at h
          by_cases hlt : t.startTrans < T
          · rw [if_pos hlt] at h
            obtain rfl := Option.some.inj h
            simp
          · rw [if_neg hlt] at h
            exact older d h
        | commited =>
          simp only [hs] at h
          by_cases hlt : t.commitTrans < T
          · rw [if_pos hlt] at h
            exact value _ _ (Option.some.inj h) rfl
          · rw [if_neg hlt] at h
            exact older d h

theorem readSeg_response {v : Vars} {req : RpcReq} {res res' : RpcRes} {r : ReadRes}
    (hr : r.code = 0 ∨ r.code = 33 ∨ r.code = 66 ∨ r.code = 99 ∨ r.code = -1)
    (h : (readSeg v req res r).next = .response (.rpcResponse res')) (h0 : res'.result = 0) :
    r.code = 0 ∧ res.result = 0 := by
  unfold readSeg at h
  rcases hr with hr | hr | hr | hr | hr
  · simp only [hr, ne_eq, not_true_eq_false, if_false] at h
    injection h with h
    injection h with h
    subst h
    exact ⟨hr, h0⟩
  all_goals
    simp [hr, toUInt32] at h
    try
      subst h
      simp at h0

theorem readSeg_next (v : Vars) (req : RpcReq) (res : RpcRes) (r : ReadRes) :
    (∃ res', (readSeg v req res r).next = .response (.rpcResponse res')) ∨
      ∃ res', (readSeg v req res r).next = .wait (.read req res') ∧ res'.result = 66 := by
  unfold readSeg
  by_cases hr : r.code = 66
  · simp [hr, toUInt32]
  · split_ifs <;> simp

end Tpc
