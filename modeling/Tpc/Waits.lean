import Tpc.Handlers
import Tpc.Commitment

/-! A Get that waits for a committing transaction: its response is filled in by every round, and
what an early round left in it reaches the client. -/

namespace Tpc
open Durable

variable {self : Host} {v : Vars} {req : RpcReq} {n fuel : Nat} {res m : RpcRes}
  {fates : List Fate} {clocks : List Timeval} {w w' : DbWorld} {seg : Seg}

/-- The response of a Get before its next call of `ReadData`, after `n` calls that returned 66. -/
inductive Rounds (self : Host) (v : Vars) (req : RpcReq) : Nat → RpcRes → Prop
  | first : Rounds self v req 0 { key := req.key }
  | again {n fuel : Nat} {fates : List Fate} {clocks : List Timeval} {w w' : DbWorld} {seg : Seg}
      {res res' : RpcRes} : Rounds self v req n res →
      (readRound self fuel v req res).run (Proc.storage self) fates clocks w = (.done seg, w') →
      seg.next = .wait (.read req res') → Rounds self v req (n + 1) res'

def roundRead (self : Host) (fuel : Nat) (v : Vars) (req : RpcReq) : Db ReadRes := do
  let inBeginTs ← if req.getForUpdate ≠ 0 then readTS else pure v.beginTs
  let r ← readData inBeginTs req.key fuel ""
  note (.read self v.beginTs req.key (req.getForUpdate ≠ 0) inBeginTs r)
  return r

theorem readRound_eq (self : Host) (fuel : Nat) (v : Vars) (req : RpcReq) (res : RpcRes) :
    readRound self fuel v req res =
      (roundRead self fuel v req).bind fun r => .ret (readSeg v req res r) := by
  simp only [readRound, roundRead, Prog.bind_eq]
  split_ifs
  · simp only [Prog.bind_assoc]
    rfl
  · simp only [Prog.bind_assoc]
    rfl

theorem roundRead_of_readRound
    (h : (readRound self fuel v req res).run (Proc.storage self) fates clocks w = (.done seg, w')) :
    ∃ r, (roundRead self fuel v req).run (Proc.storage self) fates clocks w = (.done r, w') ∧
      seg = readSeg v req res r := by
  rw [readRound_eq, Prog.run_bind_ret] at h
  rcases hr : (roundRead self fuel v req).run (Proc.storage self) fates clocks w with ⟨o, w₁⟩
  rw [hr] at h
  obtain ⟨ho, rfl⟩ := Prod.mk.inj h
  cases o with
  | done r => exact ⟨r, rfl, (Outcome.done.inj ho).symm⟩
  | died => cases ho
  | running => cases ho

theorem readRound_of_roundRead {r : ReadRes}
    (h : (roundRead self fuel v req).run (Proc.storage self) fates clocks w = (.done r, w')) :
    (readRound self fuel v req res).run (Proc.storage self) fates clocks w =
      (.done (readSeg v req res r), w') := by
  rw [readRound_eq, Prog.run_bind_ret, h]
  rfl

theorem readSeg_round {r : ReadRes} {wt : Wait} (h : (readSeg v req res r).next = .wait wt) :
    r.code = 66 ∧ ∃ res', wt = .read req res' ∧ res'.result = 66 ∧ res'.key = res.key := by
  unfold readSeg at h
  by_cases h66 : r.code = 66
  · simp only [h66] at h
    obtain rfl : Wait.read req _ = wt := by simpa [toUInt32] using h
    exact ⟨h66, _, rfl, rfl, rfl⟩
  · split_ifs at h

theorem readSeg_ne_66 {r : ReadRes} (h : (readSeg v req res r).next = .response (.rpcResponse m)) :
    r.code ≠ 66 := by
  intro h66
  simp [readSeg, h66] at h

theorem readSeg_congr {r : ReadRes} {res' m' : RpcRes} (hcode : r.code ≠ 0) (hkey : res.key = res'.key)
    (h : (readSeg v req res r).next = .response (.rpcResponse m))
    (h' : (readSeg v req res' r).next = .response (.rpcResponse m')) : m = m' := by
  have h66 := readSeg_ne_66 h
  have heq : (readSeg v req res r).next = (readSeg v req res' r).next := by
    simp only [readSeg, hcode, h66, hkey, ne_eq, not_false_iff, if_true, if_false]
  rw [heq, h'] at h
  injection h with h
  injection h with h
  exact h.symm

theorem readSeg_result {r : ReadRes} (hcode : r.code = 0)
    (h : (readSeg v req res r).next = .response (.rpcResponse m)) : m.result = res.result := by
  simp only [readSeg, hcode, ne_eq, not_true_eq_false, if_false] at h
  injection h with h
  injection h with h
  rw [← h]

theorem Rounds.left (h : Rounds self v req n res) :
    res.key = req.key ∧ (n = 0 ∧ res = { key := req.key } ∨ n ≠ 0 ∧ res.result = 66) := by
  induction h with
  | first => exact ⟨rfl, .inl ⟨rfl, rfl⟩⟩
  | again _ hrun hwait ih =>
    obtain ⟨r, -, rfl⟩ := roundRead_of_readRound hrun
    obtain ⟨-, res', he, h66, hkey⟩ := readSeg_round hwait
    injection he with _ he
    subst he
    exact ⟨hkey.trans ih.1, .inr ⟨Nat.succ_ne_zero _, h66⟩⟩

/-- The wait of a Get handler is one between two rounds, or the wait for the lock before them. -/
theorem waiting_rounds {wt : Wait} {st : Db.Store} (hget : req.requestType = .get)
    (h : Waiting self v req wt st) :
    wt = .lock req { key := req.key } ∨
      ∃ n res, wt = .read req res ∧ Rounds self v req (n + 1) res := by
  have round : ∀ {n res fuel fates clocks w w' seg wt}, Rounds self v req n res →
      (readRound self fuel v req res).run (Proc.storage self) fates clocks w = (.done seg, w') →
      seg.next = .wait wt → ∃ n res, wt = .read req res ∧ Rounds self v req (n + 1) res := by
    intro n res fuel fates clocks w w' seg wt hr hrun hwt
    obtain ⟨r, -, rfl⟩ := roundRead_of_readRound hrun
    obtain ⟨-, res', rfl, -⟩ := readSeg_round hwt
    exact ⟨n, res', rfl, hr.again hrun hwt⟩
  have get : ∀ {fuel fates clocks w w' seg wt},
      (serveGet self fuel v req { key := req.key }).run (Proc.storage self) fates clocks w =
        (.done seg, w') → seg.next = .wait wt →
      wt = .lock req { key := req.key } ∨
        ∃ n res, wt = .read req res ∧ Rounds self v req (n + 1) res := by
    intro fuel fates clocks w w' seg wt hrun hwt
    by_cases hf : req.getForUpdate = 0
    · simp only [serveGet, hf, ne_eq, not_true_eq_false, if_false] at hrun
      exact .inr (round .first hrun hwt)
    · rw [serveGet_eq hf] at hrun
      obtain ⟨ret, w₁, -, hrest⟩ := Prog.run_bind_done hrun
      simp only [getRest, note, Prog.bind_eq, Prog.bind] at hrest
      split_ifs at hrest with hret
      · obtain rfl : Wait.lock req _ = wt := by
          have hseg := Outcome.done.inj (Prod.mk.inj hrest).1
          rw [← hseg] at hwt
          simpa using hwt
        exact .inl rfl
      · exact .inr (round .first hrest hwt)
  induction h with
  | @first idle fuel fates clocks w w' seg wt hrun hwt =>
    simp only [onMessage, hget] at hrun
    split_ifs at hrun with hv
    · simp only [refuse, respond, Prog.run] at hrun
      rw [← Outcome.done.inj (Prod.mk.inj hrun).1] at hwt
      cases hwt
    · exact get hrun hwt
  | others _ _ ih => exact ih
  | again _ hrun hwt ih =>
    rcases ih with rfl | ⟨n, res, rfl, hr⟩
    · simp only [onTimeout, hget, if_true] at hrun
      exact get hrun hwt
    · exact .inr (round hr hrun hwt)

theorem roundRead_noted {r : ReadRes}
    (h : (roundRead self fuel v req).run (Proc.storage self) fates clocks w = (.done r, w')) :
    ∃ ts, w'.hist.head? =
      some (.note (.read self v.beginTs req.key (req.getForUpdate ≠ 0) ts r)) := by
  have go : ∀ {ts : String} {fs : List Fate} {cs : List Timeval} {w₁ : DbWorld},
      ((readData ts req.key fuel "").bind fun r =>
        (note (.read self v.beginTs req.key (req.getForUpdate ≠ 0) ts r)).bind fun _ =>
          .ret r).run (Proc.storage self) fs cs w₁ = (.done r, w') →
      ∃ ts, w'.hist.head? =
        some (.note (.read self v.beginTs req.key (req.getForUpdate ≠ 0) ts r)) := by
    intro ts fs cs w₁ hrun
    obtain ⟨r', w₂, -, hrest⟩ := Prog.run_bind_done hrun
    obtain ⟨hr, rfl⟩ := Prod.mk.inj hrest
    obtain rfl := Outcome.done.inj hr
    exact ⟨ts, rfl⟩
  simp only [roundRead, Prog.bind_eq] at h
  split_ifs at h
  · obtain ⟨ts, w₁, -, hrest⟩ := Prog.run_bind_done h
    exact go hrest
  · exact go h

/-- The response of a Get that waited is the one of a Get that meets only the last round, unless
that round reads successfully. -/
theorem get_answer_iff {self : Host} {v : Vars} {req : RpcReq} {n fuel : Nat} {res m : RpcRes}
    {fates : List Fate} {clocks : List Timeval} {w w' : DbWorld} {seg : Seg}
    (h : Rounds self v req n res)
    (hrun : (readRound self fuel v req res).run (Proc.storage self) fates clocks w =
      (.done seg, w')) (hm : seg.next = .response (.rpcResponse m)) :
    ∃ ts r seg' m', w'.hist.head? =
        some (.note (.read self v.beginTs req.key (req.getForUpdate ≠ 0) ts r)) ∧
      (readRound self fuel v req { key := req.key }).run (Proc.storage self) fates clocks w =
        (.done seg', w') ∧
      seg'.next = .response (.rpcResponse m') ∧ (m = m' ↔ n = 0 ∨ r.code ≠ 0) := by
  obtain ⟨r, hr, rfl⟩ := roundRead_of_readRound hrun
  obtain ⟨ts, hts⟩ := roundRead_noted hr
  obtain ⟨hkey, hleft⟩ := h.left
  rcases readSeg_next v req { key := req.key } r with ⟨m', hm'⟩ | ⟨res', hm', -⟩
  swap
  · exact absurd (readSeg_round hm').1 (readSeg_ne_66 hm)
  refine ⟨ts, r, _, m', hts, readRound_of_roundRead hr, hm', ?_⟩
  rcases hleft with ⟨rfl, rfl⟩ | ⟨hn, h66⟩
  · refine ⟨fun _ => .inl rfl, fun _ => ?_⟩
    rw [hm] at hm'
    injection hm' with hm'
    injection hm'
  · constructor
    · rintro rfl
      refine .inr fun hcode => ?_
      have h0 := (readSeg_result hcode hm).symm.trans (readSeg_result hcode hm')
      simp [h66] at h0
    · rintro (hn0 | hcode)
      · exact absurd hn0 hn
      · exact readSeg_congr hcode hkey hm hm'

def getReq : RpcReq := opReq "ts105" { requestType := .get, key := "b" }

def commitingStore (t : Trans) : Db.Store :=
  ((∅ : Db.Store).insert (makeTrans "ts100") (.trans t)).insert (makeDataEntry "b")
    (.data { state := .update, curVersion := "ts100" })

def commitingRes : RpcRes :=
  { key := "b", beginTs := "ts100", startTs := "ts101", result := 66, errMsg := "data commiting" }

theorem get_answer_iff_aborted : ∃ ts r seg' m',
    ((readRound hostA 2 { beginTs := "ts105" } getReq commitingRes).run (Proc.storage hostA) [] []
        ⟨commitingStore { state := .rollback }, []⟩).2.hist.head? =
      some (.note (.read hostA "ts105" "b" false ts r)) ∧
    (readRound hostA 2 { beginTs := "ts105" } getReq { key := "b" }).run (Proc.storage hostA) [] []
        ⟨commitingStore { state := .rollback }, []⟩ =
      (.done seg', ((readRound hostA 2 { beginTs := "ts105" } getReq commitingRes).run
        (Proc.storage hostA) [] [] ⟨commitingStore { state := .rollback }, []⟩).2) ∧
    seg'.next = .response (.rpcResponse m') ∧
    (({ key := "b", result := 99, errMsg := "data not found" } : RpcRes) = m' ↔
      1 = 0 ∨ r.code ≠ 0) := by
  have hwait : Rounds hostA { beginTs := "ts105" } getReq 1 commitingRes :=
    @Rounds.again _ _ _ 0 2 [] []
      ⟨commitingStore { state := .prepared, startTrans := "ts101" }, []⟩ _ _ _ _ .first
      (Prod.ext (by decide +kernel) rfl) rfl
  exact get_answer_iff hwait (Prod.ext (by decide +kernel) rfl) rfl

def commitingGet : List Label :=
  toCommit ++
  [.recv 0 { clocks := [atUsec 102] }, .recv 1 { clocks := [atUsec 103] },
   .request (client 1) { requestType := .begin } (atUsec 105) 0 true true,
   .request (client 1) { requestType := .get, key := "b" } (atUsec 0) 2 true true,
   .recv 2 {}, .beginAnswer (client 1) true, .recv 2 { fuel := 2 },
   .taskAsk hostA hostB 99 {}, .taskRecv hostA 99 {}]

def readBack : Event :=
  .read hostA "ts105" "b" false "ts105"
    { code := 0, retBeginTs := "ts100", retStartTs := "ts101", retCommitTs := "ts103" }

/-- The Get waits and then reads the committed value, but its response carries the result 66. -/
theorem waited_get_no_success :
    ¬ ∀ (s s' : Sys) (x : Nat) (env : Env) (σ σ' : Session) (req : RpcReq) (res m : RpcRes)
      (ts : String) (r : ReadRes),
      Reach twoHosts anyStep s → s.sess x = some σ → σ.wait = .read req res →
      step twoHosts s (.timeout x env) = some s' → s'.sess x = some σ' →
      σ'.toCl = [.rpcResponse m] →
      s'.hist.head? = some (.note (.read σ.host σ.vars.beginTs req.key false ts r)) → r.code = 0 →
      m.result = 0 := by
  intro h
  have hrun : ((steps twoHosts anyStep {} commitingGet).map fun s =>
      ((s.sess 2).map fun σ => (σ.host, σ.vars.beginTs, σ.wait),
        (step twoHosts s (.timeout 2 { fuel := 2 })).bind fun s' => (s'.sess 2).map fun σ =>
          (σ.toCl, decide (s'.hist.head? = some (.note readBack))))) =
      some (some (hostA, "ts105", .read getReq commitingRes),
        some ([.rpcResponse { commitingRes with commitTs := "ts103" }], true)) := by
    decide +kernel
  obtain ⟨s, hs, hf⟩ := reach_of_map hrun
  obtain ⟨h1, h2⟩ := Prod.mk.inj hf
  obtain ⟨σ, hσ, hσ'⟩ := Option.map_eq_some_iff.mp h1
  obtain ⟨s', hstep, hτ⟩ := Option.bind_eq_some_iff.mp h2
  obtain ⟨τ, hτ, hτ'⟩ := Option.map_eq_some_iff.mp hτ
  obtain ⟨hhost, hv⟩ := Prod.mk.inj hσ'
  obtain ⟨hv, hwt⟩ := Prod.mk.inj hv
  obtain ⟨hcl, hread⟩ := Prod.mk.inj hτ'
  have hread' := of_decide_eq_true hread
  rw [readBack, ← hhost, ← hv] at hread'
  exact absurd (h s s' 2 _ σ τ _ _ _ _ _ hs hσ hwt hstep hτ hcl hread' rfl) (by decide)

end Tpc
