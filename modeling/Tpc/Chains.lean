import Tpc.Access
import Tpc.Lib.Versions
import Tpc.Runs

/-! The versions of a user key as a list: what `ReadData` selects from it, what `addData` makes of
it, and what both functions and `addLock` do when a read fails. -/

namespace Tpc
open Durable Versions

variable {me : Proc} {st st' : Db.Store} {key v T : String} {d : Data} {l : List Data}

/-- The versions from the link `next` on; a link names the version it leads to. -/
inductive Links (st : Db.Store) (key : String) : String → List Data → Prop
  | last : Links st key "" []
  | older {v : String} {d : Data} {l : List Data} : v ≠ "" → dataAt st (makeData key v) = some d →
      d.curVersion = v → Links st key d.next l → Links st key v (d :: l)

/-- The versions of a user key, newest first. -/
inductive Chain (st : Db.Store) (key : String) : List Data → Prop
  | empty : entryOf st key = none → Chain st key []
  | entry {d : Data} {l : List Data} : entryOf st key = some d → Links st key d.next l →
      Chain st key (d :: l)

theorem Links.congr (h : Links st key v l)
    (he : ∀ d ∈ l, dataAt st' (makeData key d.curVersion) = dataAt st (makeData key d.curVersion)) :
    Links st' key v l := by
  induction h with
  | last => exact .last
  | @older v d l hv hd hc _ ih =>
    have hd' : dataAt st' (makeData key v) = some d := by
      rw [← hd, ← hc]
      exact he d (.head _)
    exact .older hv hd' hc (ih fun e hm => he e (.tail _ hm))

theorem Chain.congr (h : Chain st key l) (hentry : entryOf st' key = entryOf st key)
    (he : ∀ d ∈ l.tail, dataAt st' (makeData key d.curVersion) =
      dataAt st (makeData key d.curVersion)) : Chain st' key l := by
  cases h with
  | empty hn => exact .empty (hentry.trans hn)
  | entry hd hl => exact .entry (hentry.trans hd) (hl.congr he)

theorem Chain.of_entry (h : Chain st key l) (hd : entryOf st key = some d) :
    ∃ tail, l = d :: tail ∧ Links st key d.next tail := by
  cases h with
  | empty hn => simp [hn] at hd
  | entry hd' hl =>
    obtain rfl := Option.some.inj (hd'.symm.trans hd)
    exact ⟨_, rfl, hl⟩

def writerOf (st : Db.Store) (d : Data) : Writer String :=
  match transOf st d.curVersion with
  | none => .aborted
  | some t =>
    match t.state with
    | .begin => .running
    | .prepared => .prepared t.startTrans
    | .commited => .committed t.commitTrans
    | .rollback => .aborted

def versionRes (d : Data) (trans : Trans) : ReadRes :=
  { code := if d.state = .delete then 33 else 0
    value := d.value
    retBeginTs := d.curVersion
    retStartTs := trans.startTrans
    retCommitTs := trans.commitTrans }

def ownRes (d : Data) : ReadRes :=
  { code := if d.state = .delete then 33 else 0, value := d.value, retBeginTs := d.curVersion }

def waitRes (d : Data) (trans : Trans) : ReadRes :=
  { code := 66, retBeginTs := d.curVersion, retStartTs := trans.startTrans,
    retCommitTs := trans.commitTrans }

def resOf (st : Db.Store) (T : String) : Seen Data → ReadRes
  | .missing => { code := 99 }
  | .wait d => waitRes d ((transOf st d.curVersion).getD {})
  | .value d =>
    if d.curVersion = T then ownRes d else versionRes d ((transOf st d.curVersion).getD {})

/-- What a reader with the timestamp `T` sees of the versions of a key. -/
def seen (st : Db.Store) (T : String) (l : List Data) : Seen Data :=
  Versions.read (fun d => d.curVersion = T) (writerOf st) T l

theorem seen_cons : seen st T (d :: l) =
    if d.curVersion = T then .value d
    else
      match writerOf st d with
      | .running => seen st T l
      | .prepared s => if s < T then .wait d else seen st T l
      | .committed c => if c < T then .value d else seen st T l
      | .aborted => seen st T l := by
  -- the two sides decide the order of timestamps by different instances
  unfold seen
  rw [Versions.read]
  cases writerOf st d <;> congr

theorem readOf_version {fuel : Nat} {loopBeginTs : String}
    (hd : dataAt st (if loopBeginTs = "" then makeDataEntry key else makeData key loopBeginTs) =
      some d)
    (ht : transOf st d.curVersion ≠ none)
    (older : (if d.next = "" then some { code := 99 } else readOf st T key fuel d.next) =
      some (resOf st T (seen st T l))) :
    readOf st T key (fuel + 1) loopBeginTs = some (resOf st T (seen st T (d :: l))) := by
  obtain ⟨t, ht⟩ := Option.ne_none_iff_exists'.mp ht
  rw [readOf]
  simp only [hd, ht]
  by_cases hT : d.curVersion = T
  · rw [if_pos hT, seen_cons, if_pos hT, resOf, if_pos hT]
    rfl
  rw [if_neg hT, older, seen_cons, if_neg hT]
  cases hs : t.state with
  | begin =>
    simp only [writerOf, ht, hs]
  | rollback =>
    simp only [writerOf, ht, hs]
  | prepared =>
    simp only [writerOf, ht, hs]
    by_cases hlt : t.startTrans < T
    · rw [if_pos hlt, if_pos hlt, resOf, ht]
      rfl
    · rw [if_neg hlt, if_neg hlt]
  | commited =>
    simp only [writerOf, ht, hs]
    by_cases hlt : t.commitTrans < T
    · rw [if_pos hlt, if_pos hlt, resOf, if_neg hT, ht]
      rfl
    · rw [if_neg hlt, if_neg hlt]

theorem readOf_links (h : Links st key v l) (hr : ∀ d ∈ l, transOf st d.curVersion ≠ none) :
    ∀ fuel, l.length ≤ fuel →
      (if v = "" then some { code := 99 } else readOf st T key fuel v) =
        some (resOf st T (seen st T l)) := by
  induction h with
  | last =>
    intro fuel _
    rw [if_pos rfl]
    rfl
  | @older v d l hv hd hc _ ih =>
    intro fuel hf
    obtain ⟨n, rfl⟩ : ∃ n, fuel = n + 1 := Nat.exists_eq_succ_of_ne_zero (by simp at hf; omega)
    rw [if_neg hv]
    refine readOf_version (by rwa [if_neg hv]) (hr d (.head _)) ?_
    exact ih (fun e he => hr e (.tail _ he)) n (by simpa using hf)

theorem readOf_chain (h : Chain st key l) (hr : ∀ d ∈ l, transOf st d.curVersion ≠ none)
    {fuel : Nat} (hpos : 0 < fuel) (hf : l.length ≤ fuel) :
    readOf st T key fuel "" = some (resOf st T (seen st T l)) := by
  obtain ⟨n, rfl⟩ := Nat.exists_eq_succ_of_ne_zero hpos.ne'
  cases h with
  | empty hn =>
    have hn' : dataAt st (makeDataEntry key) = none := hn
    rw [readOf, if_pos rfl, hn']
    rfl
  | entry hd hl =>
    refine readOf_version hd (hr _ (.head _)) ?_
    exact readOf_links hl (fun e he => hr e (.tail _ he)) n (by simpa using hf)

theorem readData_run {fates : List Fate} (hok : ∀ f ∈ fates, f = .ok) (clocks : List Timeval)
    (w : DbWorld) (fuel : Nat) (loopBeginTs : String) :
    (readData T key fuel loopBeginTs).run me fates clocks w =
      match readOf w.store T key fuel loopBeginTs with
      | some r => (.done r, w)
      | none => (.running, w) := by
  have head : ∀ {fs : List Fate}, (∀ f ∈ fs, f = .ok) → fs.headD .ok = .ok := by
    intro fs hfs
    cases fs with
    | nil => rfl
    | cons f fs => exact hfs f (.head _)
  have tail : ∀ {fs : List Fate}, (∀ f ∈ fs, f = .ok) → ∀ f ∈ fs.tail, f = .ok :=
    fun hfs f hf => hfs f (List.mem_of_mem_tail hf)
  induction fuel generalizing loopBeginTs fates with
  | zero => rfl
  | succ fuel ih =>
    simp only [readData, dbGet, Prog.bind_eq, Prog.bind, Prog.run, readOf, head hok]
    rcases read_cases w (if loopBeginTs = "" then makeDataEntry key
      else makeData key loopBeginTs) with ⟨hr, hl⟩ | ⟨r, hr, hl⟩
    · simp only [hr, dataAt_of_lookup_none hl]
      rfl
    simp only [hr, dataAt_of_lookup hl]
    by_cases hT : r.toData.curVersion = T
    · simp only [if_pos hT]
      rfl
    simp only [if_neg hT, Prog.run, head (tail hok)]
    rcases read_cases w (makeTrans r.toData.curVersion) with ⟨hr', hl'⟩ | ⟨r', hr', hl'⟩
    · simp only [hr', transOf_of_lookup_none hl']
      rfl
    simp only [hr', transOf_of_lookup hl']
    have older : (if r.toData.next = "" then Prog.ret { code := 99 }
          else readData T key fuel r.toData.next).run me fates.tail.tail clocks w =
        match (if r.toData.next = "" then some { code := 99 }
          else readOf w.store T key fuel r.toData.next : Option ReadRes) with
        | some r => (.done r, w)
        | none => (.running, w) := by
      split_ifs
      · rfl
      · exact ih (tail (tail hok)) _
    cases r'.toTrans.state with
    | begin => exact older
    | rollback => exact older
    | prepared =>
      by_cases hlt : r'.toTrans.startTrans < T
      · simp only [if_pos hlt]
        rfl
      · simp only [if_neg hlt]
        exact older
    | commited =>
      by_cases hlt : r'.toTrans.commitTrans < T
      · simp only [if_pos hlt]
        rfl
      · simp only [if_neg hlt]
        exact older

/-- The version-chain invariant of one key. -/
structure ChainOk (st : Db.Store) (key : String) (l : List Data) : Prop where
  chain : Chain st key l
  distinct : (l.map Data.curVersion).Nodup
  record : ∀ d ∈ l, transOf st d.curVersion ≠ none
  ordered : Ordered (writerOf st) l

/-- The writer of `d` is `t`, committed before `b`. -/
def CommittedBefore (st : Db.Store) (b : String) (d : Data) (t : Trans) : Prop :=
  transOf st d.curVersion = some t ∧ t.state = .commited ∧ t.commitTrans < b

/-- The newest version is `d`, and its writer `t` may come to be committed before `b`. -/
def HeadPending (st : Db.Store) (b : String) (l : List Data) (d : Data) (t : Trans) : Prop :=
  l.head? = some d ∧ transOf st d.curVersion = some t ∧ t.state = .prepared ∧ t.startTrans < b

inductive Selected (st : Db.Store) (b : String) (l : List Data) : ReadRes → Prop
  | own (d : Data) : d ∈ l → d.curVersion = b → Selected st b l (ownRes d)
  | waits (d : Data) (t : Trans) : (∀ e ∈ l, e.curVersion ≠ b) → HeadPending st b l d t →
      Selected st b l (waitRes d t)
  | greatest (d : Data) (t : Trans) : (∀ e ∈ l, e.curVersion ≠ b) →
      (∀ e u, ¬ HeadPending st b l e u) → d ∈ l → CommittedBefore st b d t →
      (∀ e ∈ l, ∀ u, CommittedBefore st b e u → u.commitTrans ≤ t.commitTrans) →
      Selected st b l (versionRes d t)
  | missing : (∀ e ∈ l, e.curVersion ≠ b) → (∀ e u, ¬ HeadPending st b l e u) →
      (∀ e ∈ l, ∀ u, ¬ CommittedBefore st b e u) → Selected st b l { code := 99 }

section Select

variable {b : String} {t : Trans}

theorem before_writerOf {c : String} :
    Before (writerOf st) b d c ↔ ∃ t, CommittedBefore st b d t ∧ t.commitTrans = c := by
  constructor
  · rintro ⟨hw, hlt⟩
    unfold writerOf at hw
    cases ht : transOf st d.curVersion with
    | none => simp [ht] at hw
    | some t =>
      cases hs : t.state with
      | begin | prepared | rollback => simp [ht, hs] at hw
      | commited =>
        obtain rfl : t.commitTrans = c := by simpa [ht, hs] using hw
        exact ⟨t, ⟨ht, hs, hlt⟩, rfl⟩
  · rintro ⟨t, ⟨ht, hs, hlt⟩, rfl⟩
    exact ⟨by simp only [writerOf, ht, hs], hlt⟩

theorem pending_writerOf :
    Pending (writerOf st) b d ↔
      ∃ t, transOf st d.curVersion = some t ∧ t.state = .prepared ∧ t.startTrans < b := by
  constructor
  · rintro ⟨s, hw, hlt⟩
    unfold writerOf at hw
    cases ht : transOf st d.curVersion with
    | none => simp [ht] at hw
    | some t =>
      cases hs : t.state with
      | begin | commited | rollback => simp [ht, hs] at hw
      | prepared =>
        obtain rfl : t.startTrans = s := by simpa [ht, hs] using hw
        exact ⟨t, rfl, hs, hlt⟩
  · rintro ⟨t, ht, hs, hlt⟩
    exact ⟨t.startTrans, by simp only [writerOf, ht, hs], hlt⟩

theorem resOf_value (hd : d.curVersion ≠ b) (ht : transOf st d.curVersion = some t) :
    resOf st b (.value d) = versionRes d t := by
  rw [resOf, if_neg hd, ht]
  rfl

theorem resOf_wait (ht : transOf st d.curVersion = some t) :
    resOf st b (.wait d) = waitRes d t := by
  rw [resOf, ht]
  rfl

theorem seen_selected (hl : ChainOk st key l) (ht : transOf st b = some t)
    (hs : t.state = .begin) : Selected st b l (resOf st b (seen st b l)) := by
  by_cases hown : ∃ d ∈ l, d.curVersion = b
  · obtain ⟨d, hd, rfl⟩ := hown
    -- the reader is running, so its version is the newest one
    have hrun : Undecided (writerOf st) d := .inl (by simp only [writerOf, ht, hs])
    have hread : seen st d.curVersion l = .value d :=
      read_own (hl.ordered.head_of_undecided hd hrun) rfl
    rw [hread, resOf, if_pos rfl]
    exact .own d hd rfl
  have hown' : ∀ e ∈ l, e.curVersion ≠ b := fun e he hb => hown ⟨e, he, hb⟩
  by_cases hpend : ∃ d t, HeadPending st b l d t
  · obtain ⟨d, t, hd, htd, hp, hlt⟩ := hpend
    have hread : seen st b l = .wait d :=
      read_pending hd (hown' d (List.mem_of_head? hd)) (pending_writerOf.mpr ⟨t, htd, hp, hlt⟩)
    rw [hread, resOf_wait htd]
    exact .waits d t hown' ⟨hd, htd, hp, hlt⟩
  have hpend' : ∀ e u, ¬ HeadPending st b l e u := fun e u h => hpend ⟨e, u, h⟩
  have hnp : ∀ e ∈ l, ¬ Pending (writerOf st) b e := by
    intro e he hp
    obtain ⟨s, hw, hlt⟩ := hp
    have hhead := hl.ordered.head_of_undecided he (.inr ⟨s, hw⟩)
    obtain ⟨u, hu⟩ := pending_writerOf.mp ⟨s, hw, hlt⟩
    exact hpend' e u ⟨hhead, hu⟩
  rcases read_greatest (b := b) hown' hnp hl.ordered.commits with
    ⟨d, hd, c, hread, hb, hmax⟩ | ⟨hread, hnone⟩
  · obtain ⟨u, hu, rfl⟩ := before_writerOf.mp hb
    change Selected st b l (resOf st b (Versions.read _ _ b l))
    rw [hread, resOf_value (hown' d hd) hu.1]
    exact .greatest d u hown' hpend' hd hu fun e he u' hu' =>
      hmax e he _ (before_writerOf.mpr ⟨u', hu', rfl⟩)
  · change Selected st b l (resOf st b (Versions.read _ _ b l))
    rw [hread]
    exact .missing hown' hpend' fun e he u hu => hnone e he _ (before_writerOf.mpr ⟨u, hu, rfl⟩)

theorem Selected.committed {r : ReadRes} (h : Selected st b l r) (hr : r.code = 0 ∨ r.code = 33) :
    r.retBeginTs = b ∨ ∃ t, transOf st r.retBeginTs = some t ∧ t.state = .commited := by
  cases h with
  | own d _ hd => exact .inl hd
  | waits d t => simp [waitRes] at hr
  | greatest d t _ _ _ ht => exact .inr ⟨t, ht.1, ht.2.1⟩
  | missing => simp at hr

end Select

/-- `ReadData` selects the version of the snapshot, and stops within as many iterations as there
are versions. -/
theorem readData_selects (me : Proc) {b key : String} {fuel : Nat} {fates : List Fate}
    {clocks : List Timeval} {w : DbWorld} {l : List Data} {t : Trans}
    (hl : ChainOk w.store key l) (ht : transOf w.store b = some t) (hs : t.state = .begin)
    (hok : ∀ f ∈ fates, f = .ok) (hpos : 0 < fuel) (hfuel : l.length ≤ fuel) :
    ∃ r, (readData b key fuel "").run me fates clocks w = (.done r, w) ∧ Selected w.store b l r ∧
      (r.code = 0 ∨ r.code = 33 →
        r.retBeginTs = b ∨ ∃ t, transOf w.store r.retBeginTs = some t ∧ t.state = .commited) := by
  have hsel := seen_selected hl ht hs
  refine ⟨_, ?_, hsel, hsel.committed⟩
  rw [readData_run hok, readOf_chain hl.chain hl.record hpos hfuel]

def snapshotChain : List Data :=
  [{ state := .update, value := "w", next := "ts1", curVersion := "ts3" },
   { state := .insert, value := "v", curVersion := "ts1" }]

def snapshotStore : Db.Store :=
  (((((∅ : Db.Store).insert (makeTrans "ts1")
    (.trans { state := .commited, startTrans := "ts2", commitTrans := "ts2" })).insert
    (makeTrans "ts3") (.trans {})).insert (makeTrans "ts4") (.trans {})).insert
    (makeDataEntry "b") (.data (snapshotChain.getD 0 {}))).insert
    (makeData "b" "ts1") (.data (snapshotChain.getD 1 {}))

theorem readData_selects_older :
    ∃ r, (readData "ts4" "b" 2 "").run (Proc.storage hostA) [] [] ⟨snapshotStore, []⟩ =
        (.done r, ⟨snapshotStore, []⟩) ∧
      Selected snapshotStore "ts4" snapshotChain r ∧
      (r.code = 0 ∨ r.code = 33 → r.retBeginTs = "ts4" ∨
        ∃ t, transOf snapshotStore r.retBeginTs = some t ∧ t.state = .commited) := by
  have h1 : transOf snapshotStore "ts1" =
      some { state := .commited, startTrans := "ts2", commitTrans := "ts2" } := by decide +kernel
  have h3 : transOf snapshotStore "ts3" = some {} := by decide +kernel
  refine readData_selects (t := {}) _ (w := ⟨snapshotStore, []⟩) (l := snapshotChain)
    ⟨?_, by decide, ?_, ⟨?_, ?_⟩⟩ (by decide +kernel) rfl (by simp) (by decide) (by decide)
  · exact .entry (by decide +kernel) (.older (by decide) (by decide +kernel) rfl .last)
  · simp [snapshotChain, h1, h3]
  · simp [snapshotChain, Undecided, writerOf, h1]
  · simp [snapshotChain, writerOf, h1, h3]

structure Version where
  type : RequestType
  value : String
  version : String
deriving DecidableEq, Repr

def Data.toVersion (d : Data) : Version := ⟨d.state, d.value, d.curVersion⟩

/-- A chain that names every version once, all of them by timestamps. -/
structure ProperChain (st : Db.Store) (key : String) (l : List Data) : Prop where
  chain : Chain st key l
  distinct : (l.map Data.curVersion).Nodup
  isTS : ∀ d ∈ l, IsTS d.curVersion

def overwrite (type : RequestType) (value T : String) : List Data → List Data
  | [] => [{ state := type, value := value, next := "", curVersion := T }]
  | d :: l =>
    if d.curVersion = T then { d with state := type, value := value } :: l
    else { state := type, value := value, next := d.curVersion, curVersion := T } :: d :: l

theorem overwrite_own {type : RequestType} {value : String} (h : d.curVersion = T) :
    overwrite type value T (d :: l) = { d with state := type, value := value } :: l := if_pos h

theorem overwrite_other {type : RequestType} {value : String} (h : d.curVersion ≠ T) :
    overwrite type value T (d :: l) =
      { state := type, value := value, next := d.curVersion, curVersion := T } :: d :: l := if_neg h

theorem overwrite_toVersion (type : RequestType) (value T : String) (l : List Data) :
    (overwrite type value T l).map Data.toVersion =
      Versions.write (fun v => v.version = T) ⟨type, value, T⟩ (l.map Data.toVersion) := by
  cases l with
  | nil => rfl
  | cons d l =>
    by_cases hT : d.curVersion = T
    · simp [overwrite_own hT, Versions.write, Data.toVersion, hT]
    · simp [overwrite_other hT, Versions.write, Data.toVersion, hT]

section Insert

variable {k k' v' : String} {r : Record}

theorem dataAt_insert_entry (hv : IsTS v) :
    dataAt (st.insert (makeDataEntry k) r) (makeData k' v) = dataAt st (makeData k' v) := by
  rw [dataAt_insert, if_neg (makeData_ne_makeDataEntry hv)]

theorem entryOf_insert_entry :
    entryOf (st.insert (makeDataEntry k) r) k' = if k' = k then some r.toData else entryOf st k' := by
  simp only [entryOf, dataAt_insert, makeDataEntry_inj]

theorem dataAt_insert_version (hv : IsTS v) (hv' : IsTS v') :
    dataAt (st.insert (makeData k v) r) (makeData k' v') =
      if k' = k ∧ v' = v then some r.toData else dataAt st (makeData k' v') := by
  simp only [dataAt_insert, makeData_inj hv' hv]

theorem entryOf_insert_version (hv : IsTS v) :
    entryOf (st.insert (makeData k v) r) k' = entryOf st k' := by
  rw [entryOf, dataAt_insert, if_neg (makeData_ne_makeDataEntry hv).symm]
  rfl

end Insert

section Write

variable {u : Prop} {value k' : String} {type : RequestType}

theorem ProperChain.entry_isTS (h : ProperChain st key l) (hd : entryOf st key = some d) :
    IsTS d.curVersion := by
  obtain ⟨tail, rfl, -⟩ := h.chain.of_entry hd
  exact h.isTS d (.head _)

theorem ProperChain.single (hd : entryOf st key = some d) (hn : d.next = "")
    (ht : IsTS d.curVersion) : ProperChain st key [d] :=
  ⟨.entry hd (hn ▸ .last), by simp, by simpa using ht⟩

theorem ProperChain.written (h : ProperChain st key l) (hT : IsTS T)
    (htail : ∀ d ∈ l.tail, d.curVersion ≠ T) (hw : Written u st key value T type st') :
    ProperChain st' key (overwrite type value T l) ∨
      (u ∧ ProperChain st' key (overwrite type value T [])) := by
  have first : ∀ {n : Data}, n.next = "" → n.curVersion = T →
      ProperChain (st.insert (makeDataEntry key) (.data n)) key [n] := by
    intro n hn hv
    exact .single (by rw [entryOf_insert_entry, if_pos rfl]; rfl) hn (hv ▸ hT)
  cases hw with
  | again d hd hv =>
    obtain ⟨tail, rfl, hl⟩ := h.chain.of_entry hd
    rw [overwrite_own hv]
    refine .inl ⟨.entry (by rw [entryOf_insert_entry, if_pos rfl]; rfl) ?_, ?_, ?_⟩
    · exact hl.congr fun e he => dataAt_insert_entry (h.isTS e (.tail _ he))
    · simpa using h.distinct
    · simpa using h.isTS
  | pushed d hd hv =>
    obtain ⟨tail, rfl, hl⟩ := h.chain.of_entry hd
    have hdts := h.isTS d (.head _)
    have hnodup := h.distinct
    rw [List.map_cons, List.nodup_cons] at hnodup
    rw [overwrite_other hv]
    refine .inl ⟨.entry (by rw [entryOf_insert_entry, if_pos rfl]; rfl)
      (.older hdts.ne_empty ?_ rfl (hl.congr fun e he => ?_)), ?_, ?_⟩
    · rw [dataAt_insert_entry hdts, dataAt_insert_version hdts hdts, if_pos ⟨rfl, rfl⟩]
      rfl
    · -- the record of the old head is written beside those of the tail
      have hets := h.isTS e (.tail _ he)
      have hne : e.curVersion ≠ d.curVersion := fun hc => hnodup.1 (hc ▸ List.mem_map_of_mem he)
      rw [dataAt_insert_entry hets, dataAt_insert_version hdts hets, if_neg fun hc => hne hc.2]
    · rw [List.map_cons, List.nodup_cons]
      refine ⟨?_, h.distinct⟩
      rw [List.map_cons, List.mem_cons]
      rintro (hc | hc)
      · exact hv hc.symm
      · obtain ⟨e, he, hc⟩ := List.mem_map.mp hc
        exact htail e he hc
    · rintro e (_ | ⟨_, he⟩)
      · exact hT
      · exact h.isTS e he
  | first hn =>
    rcases hn with hn | hu
    · cases h.chain with
      | empty => exact .inl (first rfl rfl)
      | entry hd => simp [hn] at hd
    · exact .inr ⟨hu, first rfl rfl⟩

theorem ProperChain.halfWritten (h : ProperChain st key l) (hw : HalfWritten st key T st') :
    ProperChain st' key l := by
  cases hw with
  | nothing => exact h
  | kept d hd hv =>
    obtain ⟨tail, rfl, hl⟩ := h.chain.of_entry hd
    have hdts := h.isTS d (.head _)
    have hnodup := h.distinct
    rw [List.map_cons, List.nodup_cons] at hnodup
    refine ⟨h.chain.congr (entryOf_insert_version hdts) fun e he => ?_, h.distinct, h.isTS⟩
    have he' : e ∈ tail := he
    have hne : e.curVersion ≠ d.curVersion := fun hc => hnodup.1 (hc ▸ List.mem_map_of_mem he')
    rw [dataAt_insert_version hdts (h.isTS e (.tail _ he')), if_neg fun hc => hne hc.2]

def SameOthers (key : String) (st st' : Db.Store) : Prop :=
  ∀ k', k' ≠ key → entryOf st' k' = entryOf st k' ∧
    ∀ v, IsTS v → dataAt st' (makeData k' v) = dataAt st (makeData k' v)

theorem ProperChain.others_written (h : ProperChain st key l)
    (hw : Written u st key value T type st') : SameOthers key st st' := by
  intro k' hk
  cases hw with
  | again d hd => exact ⟨by rw [entryOf_insert_entry, if_neg hk], fun v hv => dataAt_insert_entry hv⟩
  | pushed d hd =>
    have hdts := h.entry_isTS hd
    refine ⟨by rw [entryOf_insert_entry, if_neg hk, entryOf_insert_version hdts], fun v hv => ?_⟩
    rw [dataAt_insert_entry hv, dataAt_insert_version hdts hv, if_neg fun hc => hk hc.1]
  | first => exact ⟨by rw [entryOf_insert_entry, if_neg hk], fun v hv => dataAt_insert_entry hv⟩

theorem ProperChain.others_halfWritten (h : ProperChain st key l)
    (hw : HalfWritten st key T st') : SameOthers key st st' := by
  intro k' hk
  cases hw with
  | nothing => exact ⟨rfl, fun _ _ => rfl⟩
  | kept d hd =>
    have hdts := h.entry_isTS hd
    refine ⟨entryOf_insert_version hdts, fun v hv => ?_⟩
    rw [dataAt_insert_version hdts hv, if_neg fun hc => hk hc.1]

theorem SameOthers.chain_iff (h : SameOthers key st st') (hk : k' ≠ key)
    (hts : ∀ d ∈ l, IsTS d.curVersion) : Chain st' k' l ↔ Chain st k' l := by
  obtain ⟨he, hv⟩ := h k' hk
  have hvs : ∀ d ∈ l.tail, dataAt st' (makeData k' d.curVersion) =
      dataAt st (makeData k' d.curVersion) :=
    fun d hd => hv _ (hts d (List.mem_of_mem_tail hd))
  exact ⟨fun hc => hc.congr he.symm fun d hd => (hvs d hd).symm, fun hc => hc.congr he hvs⟩

end Write

theorem addData_ends (key value T : String) (type : RequestType) :
    (addData key value T type).Ends := by
  simp only [addData_eq, Prog.Ends, forall_got]
  refine ⟨?_, ?_, fun r => ?_⟩
  · simp [dataNext, dbPut, Prog.bind, Prog.Ends]
  · simp [dataNext, dbPut, Prog.bind, Prog.Ends]
  · simp only [dataNext]
    split_ifs <;> simp [dbPut, Prog.bind, Prog.Ends]

/-- `addData` writes a version into the list of its key, or leaves the list as it was when it fails
or its process is lost; it touches no other key, no lock and no transaction. -/
theorem addData_refines (me : Proc) {key value T : String} {type : RequestType} {fates : List Fate}
    {clocks : List Timeval} {w w' : DbWorld} {l : List Data} {o : Outcome Int}
    (hl : ProperChain w.store key l) (hT : IsTS T) (htail : ∀ d ∈ l.tail, d.curVersion ≠ T)
    (hread : fates.head? ≠ some .fail)
    (hrun : (addData key value T type).run me fates clocks w = (o, w')) :
    (o = .done 0 → ∃ l', ProperChain w'.store key l' ∧ l'.map Data.toVersion =
      Versions.write (fun v => v.version = T) ⟨type, value, T⟩ (l.map Data.toVersion)) ∧
    (o ≠ .done 0 → ProperChain w'.store key l) ∧
    (∀ k' l', k' ≠ key → (∀ d ∈ l', IsTS d.curVersion) →
      (Chain w'.store k' l' ↔ Chain w.store k' l')) ∧
    (∀ k', lockOf w'.store k' = lockOf w.store k') ∧
    ∀ U, transOf w'.store U = transOf w.store U := by
  have hsat := @addData_sat me w key value T type fates clocks hread
  rw [hrun] at hsat
  have hend : (o ≠ .done 0 ∧ HalfWritten w.store key T w'.store) ∨
      (o = .done 0 ∧ Written False w.store key value T type w'.store) := by
    cases o with
    | running =>
      have hne : ((addData key value T type).run me fates clocks w).1 ≠ .running :=
        (addData_ends key value T type).run_ne_running fates clocks w
      rw [hrun] at hne
      exact absurd rfl hne
    | died => exact .inl ⟨by simp, hsat⟩
    | done ret =>
      rcases hsat with ⟨rfl, hw⟩ | ⟨hret, hw⟩
      · exact .inr ⟨rfl, hw⟩
      · exact .inl ⟨fun h => hret (Outcome.done.inj h), hw⟩
  rcases hend with ⟨h0, hw⟩ | ⟨h0, hw⟩
  · exact ⟨fun h => absurd h h0, fun _ => hl.halfWritten hw,
      fun k' l' hk hts => (hl.others_halfWritten hw).chain_iff hk hts, hw.lockOf_eq, hw.transOf_eq⟩
  · have hnew := (hl.written hT htail hw).resolve_right fun h => h.1
    exact ⟨fun _ => ⟨_, hnew, overwrite_toVersion type value T l⟩, fun h => absurd h0 h,
      fun k' l' hk hts => (hl.others_written hw).chain_iff hk hts, hw.lockOf_eq, hw.transOf_eq⟩

theorem addData_refines_over :
    ∃ l', ProperChain
        ((addData "b" "u" "ts4" .update).run (Proc.storage hostA) [] [] ⟨snapshotStore, []⟩).2.store
        "b" l' ∧
      l'.map Data.toVersion =
        [⟨.update, "u", "ts4"⟩, ⟨.update, "w", "ts3"⟩, ⟨.insert, "v", "ts1"⟩] := by
  have ts : ∀ n, IsTS ("ts" ++ toString (0 * 1000000 * 10 + n)) := fun n => ⟨⟨0, n⟩, rfl⟩
  refine (@addData_refines (Proc.storage hostA) "b" "u" "ts4" .update [] [] ⟨snapshotStore, []⟩ _
    snapshotChain _ ⟨?_, by decide, ?_⟩ (ts 4) (by decide) (by decide) rfl).1 (by decide +kernel)
  · exact .entry (by decide +kernel) (.older (by decide) (by decide +kernel) rfl .last)
  · simpa [snapshotChain] using ⟨ts 3, ts 1⟩

/-- `addLock` returns 0 only with the lock, and only when its holder has given it up. -/
def GrantSound (key T : String) (st : Db.Store) (o : Outcome Int) (st' : Db.Store) : Prop :=
  o = .done 0 → lockOf st' key = some T ∧
    ∀ U, lockOf st key = some U → U ≠ T → ∃ t, transOf st U = some t ∧ t.Finished

/-- `addData` does not return 0 and changes nothing when it cannot read the entry. -/
def FailSound (fates : List Fate) (st : Db.Store) (o : Outcome Int) (st' : Db.Store) : Prop :=
  fates.head? = some .fail → (∀ ret, o = .done ret → ret ≠ 0) ∧ st' = st

theorem Granted.sound {u : Prop} (h : Granted u key T st st') (hu : ¬ u) :
    lockOf st' key = some T ∧
      ∀ U, lockOf st key = some U → U ≠ T → ∃ t, transOf st U = some t ∧ t.Finished := by
  cases h with
  | held hh => exact ⟨hh, fun U hU hne => absurd (Option.some.inj (hU.symm.trans hh)) hne⟩
  | taken hf =>
    refine ⟨by rw [lockStore, lockOf_insert_lock, if_pos rfl]; rfl, fun U hU _ => ?_⟩
    rcases hf with hn | ⟨V, t, hV, -, ht, hfin⟩
    · simp [hn] at hU
    · obtain rfl := Option.some.inj (hU.symm.trans hV)
      exact ⟨t, ht, hfin⟩
  | unread hu' => exact absurd hu' hu

theorem addLock_sound_iff (fates : List Fate) (clocks : List Timeval) (w : DbWorld) :
    GrantSound key T w.store ((addLock key T).run me fates clocks w).1
        ((addLock key T).run me fates clocks w).2.store ↔
      fates.head? ≠ some .fail ∨ lockOf w.store key = some T := by
  by_cases hf : fates.head? = some .fail
  · obtain ⟨fs, rfl⟩ : ∃ fs, fates = .fail :: fs := List.head?_eq_some_iff.mp hf
    -- the lock record is not read and the lock is granted all the same
    have hrun : (addLock key T).run me (.fail :: fs) clocks w =
        (.done 0, w.log (.dbError me)) := by
      rw [addLock_eq]
      rfl
    rw [hrun]
    constructor
    · exact fun h => .inr (h rfl).1
    · rintro (h | h)
      · exact absurd rfl h
      · exact fun _ => ⟨h, fun U hU hne => absurd (Option.some.inj (hU.symm.trans h)) hne⟩
  · refine ⟨fun _ => .inl hf, fun _ h0 => ?_⟩
    have hsat := @addLock_sat me w key T fates clocks hf
    rcases hr : (addLock key T).run me fates clocks w with ⟨o, w'⟩
    rw [hr] at hsat h0
    obtain rfl : o = .done 0 := h0
    rcases hsat with ⟨-, hg⟩ | ⟨hne, -⟩
    · exact hg.sound id
    · exact absurd rfl hne

theorem addData_sound_iff {value : String} {type : RequestType} (fates : List Fate)
    (clocks : List Timeval) (w : DbWorld) :
    FailSound fates w.store ((addData key value T type).run me fates clocks w).1
        ((addData key value T type).run me fates clocks w).2.store ↔
      (fates.head? = some .fail → fate fates 1 ≠ .ok) := by
  by_cases hf : fates.head? = some .fail
  swap
  · exact ⟨fun _ h => absurd h hf, fun _ h => absurd h hf⟩
  obtain ⟨fs, rfl⟩ : ∃ fs, fates = .fail :: fs := List.head?_eq_some_iff.mp hf
  have hfs : fate (.fail :: fs) 1 = fate fs 0 := rfl
  rw [hfs, addData_eq]
  simp only [FailSound, List.head?_cons, true_implies, Prog.run, List.headD_cons, List.tail_cons,
    dataNext, dbPut, Prog.bind_eq, Prog.bind, headD_eq_fate]
  cases h : fate fs 0 with
  | ok => simp [Prog.run]
  | fail => simp [Prog.run]
  | crash => simp

/-- What a failing read does: `addLock` stays sound where it reads the lock record or has the lock,
`addData` where the entry that it could not read is not written either. -/
theorem failed_read_sound_iff (me : Proc) (key value T : String) (type : RequestType)
    (fates : List Fate) (clocks : List Timeval) (w : DbWorld) :
    (GrantSound key T w.store ((addLock key T).run me fates clocks w).1
        ((addLock key T).run me fates clocks w).2.store ↔
      fates.head? ≠ some .fail ∨ lockOf w.store key = some T) ∧
    (FailSound fates w.store ((addData key value T type).run me fates clocks w).1
        ((addData key value T type).run me fates clocks w).2.store ↔
      (fates.head? = some .fail → fate fates 1 ≠ .ok)) :=
  ⟨addLock_sound_iff fates clocks w, addData_sound_iff fates clocks w⟩

/-- With one failing read each, the lock of the running `ts3` is granted to `ts4`, and the versions
of its key are replaced by a single one. -/
theorem failed_read_not_sound :
    ¬ GrantSound "b" "ts4" (lockStore snapshotStore "b" "ts3")
        ((addLock "b" "ts4").run (Proc.storage hostA) [.fail] []
          ⟨lockStore snapshotStore "b" "ts3", []⟩).1
        ((addLock "b" "ts4").run (Proc.storage hostA) [.fail] []
          ⟨lockStore snapshotStore "b" "ts3", []⟩).2.store ∧
    ¬ FailSound [.fail] snapshotStore
        ((addData "b" "u" "ts4" .update).run (Proc.storage hostA) [.fail] []
          ⟨snapshotStore, []⟩).1
        ((addData "b" "u" "ts4" .update).run (Proc.storage hostA) [.fail] []
          ⟨snapshotStore, []⟩).2.store := by
  constructor
  · intro h
    have hl := (h (by decide +kernel)).1
    revert hl
    decide +kernel
  · intro h
    exact (h rfl).1 0 (by decide +kernel) rfl

end Tpc
