import Tpc.Ordering

/-! The versions of a key are what the log of its writes makes of them: in every run whose database
calls succeed they can be replayed from the calls of `addData` that returned 0, and only running
transactions add to them. -/

namespace Tpc
open Durable PollCommit Versions

/-- The versions `vs` after the writes of `key` among `ws`, the newest of which comes first. -/
def replay (key : String) (vs : List Data) (ws : List Write) : List Data :=
  (ws.filter fun a => a.key = key).foldr (fun a vs => overwrite a.type a.value a.beginTs vs) vs

section Replay

variable {st : Db.Store} {key v T value : String} {type : RequestType} {vs vs' old : List Data}
  {a w : Write} {ws ws' newer older : List Write} {d : Data}

theorem replay_own (h : a.key = key) : replay key vs (a :: ws) =
    overwrite a.type a.value a.beginTs (replay key vs ws) := by
  simp [replay, h]

theorem replay_other (h : a.key ≠ key) : replay key vs (a :: ws) = replay key vs ws := by
  simp [replay, h]

theorem replay_append : replay key vs (ws ++ ws') = replay key (replay key vs ws') ws := by
  simp [replay]

theorem overwrite_above (type : RequestType) (value : String) (h : ∀ d ∈ old, d.curVersion ≠ T)
    (top : List Data) :
    ∃ new, overwrite type value T (top ++ old) = new ++ old ∧
      ∀ d ∈ new, d ∈ top ∨ d.curVersion = T := by
  cases top with
  | nil =>
    cases old with
    | nil => exact ⟨_, (List.append_nil _).symm, by simp [overwrite]⟩
    | cons d old =>
      exact ⟨[_], overwrite_other (h d (.head _)), by simp⟩
  | cons d top =>
    by_cases hd : d.curVersion = T
    · refine ⟨_ :: top, overwrite_own hd, ?_⟩
      rintro e (_ | ⟨_, he⟩)
      · exact .inr hd
      · exact .inl (.tail _ he)
    · refine ⟨_ :: d :: top, overwrite_other hd, ?_⟩
      rintro e (_ | ⟨_, he⟩)
      · exact .inr rfl
      · exact .inl he

theorem replay_above (key : String)
    (h : ∀ d ∈ old, ∀ a ∈ ws, a.key = key → a.beginTs ≠ d.curVersion) (top : List Data) :
    ∃ new, replay key (top ++ old) ws = new ++ old ∧
      ∀ d ∈ new, d ∈ top ∨ ∃ a ∈ ws, a.key = key ∧ a.beginTs = d.curVersion := by
  induction ws with
  | nil => exact ⟨top, rfl, fun d hd => .inl hd⟩
  | cons a ws ih =>
    obtain ⟨new, hnew, hmem⟩ := ih fun d hd a ha => h d hd a (.tail _ ha)
    have hmem' : ∀ d ∈ new, d ∈ top ∨ ∃ b ∈ a :: ws, b.key = key ∧ b.beginTs = d.curVersion :=
      fun d hd => (hmem d hd).imp_right fun hb => hb.imp fun b hb => ⟨.tail _ hb.1, hb.2⟩
    by_cases hk : a.key = key
    · rw [replay_own hk, hnew]
      obtain ⟨new', hnew', hmem''⟩ :=
        overwrite_above a.type a.value (fun d hd => (h d hd a (.head _) hk).symm) new
      refine ⟨new', hnew', fun d hd => ?_⟩
      rcases hmem'' d hd with hd | hd
      · exact hmem' d hd
      · exact .inr ⟨a, .head _, hk, hd.symm⟩
    · rw [replay_other hk]
      exact ⟨new, hnew, hmem'⟩

theorem mem_overwrite_of_ne (hd : d ∈ vs) (hT : d.curVersion ≠ T) : d ∈ overwrite type value T vs := by
  cases vs with
  | nil => cases hd
  | cons v vs =>
    by_cases hv : v.curVersion = T
    · rw [overwrite_own hv]
      rcases List.mem_cons.mp hd with rfl | hd
      · exact absurd hv hT
      · exact .tail _ hd
    · rw [overwrite_other hv]
      exact .tail _ hd

theorem overwrite_newest (type : RequestType) (value T : String) (vs : List Data) :
    ∃ d ∈ overwrite type value T vs, d.curVersion = T ∧ d.value = value ∧ d.state = type := by
  cases vs with
  | nil => exact ⟨_, .head _, rfl, rfl, rfl⟩
  | cons v vs =>
    by_cases hv : v.curVersion = T
    · rw [overwrite_own hv]
      exact ⟨_, .head _, hv, rfl, rfl⟩
    · rw [overwrite_other hv]
      exact ⟨_, .head _, rfl, rfl, rfl⟩

theorem mem_overwrite (hd : d ∈ vs) : ∃ e ∈ overwrite type value T vs, e.curVersion = d.curVersion := by
  cases vs with
  | nil => cases hd
  | cons v vs =>
    by_cases hv : v.curVersion = T
    · rw [overwrite_own hv]
      rcases List.mem_cons.mp hd with rfl | hd
      · exact ⟨_, .head _, rfl⟩
      · exact ⟨d, .tail _ hd, rfl⟩
    · rw [overwrite_other hv]
      exact ⟨d, .tail _ hd, rfl⟩

theorem replay_mem (vs : List Data) (hw : w ∈ ws) (hk : w.key = key) :
    ∃ d ∈ replay key vs ws, d.curVersion = w.beginTs := by
  induction ws with
  | nil => cases hw
  | cons w' ws ih =>
    by_cases hk' : w'.key = key
    · rw [replay_own hk']
      rcases List.mem_cons.mp hw with rfl | hw
      · obtain ⟨d, hd, hT, -⟩ := overwrite_newest w.type w.value w.beginTs (replay key vs ws)
        exact ⟨d, hd, hT⟩
      · obtain ⟨d, hd, he⟩ := ih hw
        obtain ⟨e, he', hed⟩ := mem_overwrite hd
        exact ⟨e, he', hed.trans he⟩
    · rw [replay_other hk']
      rcases List.mem_cons.mp hw with rfl | hw
      · exact absurd hk hk'
      · exact ih hw

theorem replay_last (vs : List Data) (older : List Write)
    (hlast : ∀ a ∈ newer, a.key = w.key → a.beginTs ≠ w.beginTs) :
    ∃ d ∈ replay w.key vs (newer ++ w :: older),
      d.curVersion = w.beginTs ∧ d.value = w.value ∧ d.state = w.type := by
  rw [replay_append, replay_own rfl]
  generalize replay w.key vs older = below
  induction newer with
  | nil => exact overwrite_newest w.type w.value w.beginTs below
  | cons a newer ih =>
    obtain ⟨d, hd, hT, hvalue⟩ := ih fun b hb => hlast b (.tail _ hb)
    by_cases hk : a.key = w.key
    · rw [replay_own hk]
      exact ⟨d, mem_overwrite_of_ne hd fun he => hlast a (.head _) hk (he ▸ hT), hT, hvalue⟩
    · rw [replay_other hk]
      exact ⟨d, hd, hT, hvalue⟩

theorem Links.unique (h : Links st key v vs) (h' : Links st key v vs') : vs = vs' := by
  induction h generalizing vs' with
  | last =>
    cases h' with
    | last => rfl
    | older hv => exact absurd rfl hv
  | older hv hd _ _ ih =>
    cases h' with
    | last => exact absurd rfl hv
    | older _ hd' _ hl' =>
      obtain rfl := Option.some.inj (hd.symm.trans hd')
      rw [ih hl']

theorem Chain.unique (h : Chain st key vs) (h' : Chain st key vs') : vs = vs' := by
  cases h with
  | empty hn =>
    cases h' with
    | empty => rfl
    | entry hd => simp [hn] at hd
  | entry hd hl =>
    obtain ⟨tail, rfl, hl'⟩ := h'.of_entry hd
    rw [hl.unique hl']

end Replay

section Steps

variable {cfg : Config} {C : Sys → Label → Prop} {s s' : Sys} {n : Host} {ℓ : Label} {key T : String}
  {u : Prop} {st st' : Db.Store} {vs vs' old : List Data}

theorem ProperChain.granted {k : String} (h : ProperChain st k vs) (hg : Granted u key T st st') :
    ProperChain st' k vs :=
  h.frame (hg.lookup_ne (by simp)) fun v => hg.lookup_ne (by simp)

/-- What happens to the versions on `n` between `s` and `s'`: they change by the writes that are
logged, and the writers are transactions that had not left the state Begin. -/
structure Replays (n : Host) (s s' : Sys) (ws : List Write) : Prop where
  log : writes n s'.hist = ws ++ writes n s.hist
  running : ∀ a ∈ ws, ¬ PastBegin (s.node n).store a.beginTs
  proper : ∀ key vs, ProperChain (s.node n).store key vs →
    ProperChain (s'.node n).store key (replay key vs ws)

theorem Replays.step (hsorted : AllSorted s) (hreg : Regular cfg s) (hd : Dated s)
    (hs : Tpc.step cfg s ℓ = some s') (ha : Orderly s'.hist) (n : Host) :
    ∃ ws, Replays n s s' ws := by
  cases store_move closed_orderly hs ha n with
  | frame hframe hlog =>
    refine ⟨[], hlog, by simp, fun key vs hv => hv.frame (hframe _ ?_) fun v => hframe _ ?_⟩
    · rintro ⟨T, hT⟩
      exact makeTrans_ne_makeDataEntry _ _ hT.symm
    · rintro ⟨T, hT⟩
      exact makeTrans_ne_makeData _ _ _ hT.symm
  | locks σ req fates hlocks hn hg hlog =>
    subst hn
    exact ⟨[], hlog, by simp, fun key vs hv => hv.granted (hlocks.granted hs ha.1 hg)⟩
  | breaks σ req fates st hlocks hn hg hhalf hlog =>
    subst hn
    have hgr := hlocks.granted hs ha.1 hg
    obtain ⟨vs', hv'⟩ := hsorted σ.host req.key
    refine ⟨[], hlog, by simp, fun key vs hv => ?_⟩
    have hv := hv.granted hgr
    by_cases hk : key = req.key
    · subst hk
      exact hv.halfWritten hhalf
    · have hothers := (hv'.proper.granted hgr).others_halfWritten hhalf
      exact ⟨(hothers.chain_iff hk hv.isTS).mpr hv.chain, hv.distinct, hv.isTS⟩
  | writes σ req fates st hlocks hn hg hw hlog =>
    subst hn
    have hgr := hlocks.granted hs ha.1 hg
    have hw := hw.mono fun h => orderly_not_mayFail h
    obtain ⟨x, hσ, hT, hop⟩ := hlocks.operates hd hreg.safe.disc
    have hrun := hreg.running hσ hop.live hT
    refine ⟨[⟨req.key, σ.vars.beginTs, req.requestType, req.value⟩], hlog, ?_, fun key vs hv => ?_⟩
    · rintro a (_ | ⟨_, ⟨⟩⟩) ⟨t, ht, hb⟩
      obtain rfl := Option.some.inj (hrun.symm.trans ht)
      exact hb rfl
    · obtain ⟨vs', hv'⟩ := hsorted σ.host req.key
      by_cases hk : req.key = key
      · rw [replay_own hk]
        subst hk
        obtain rfl := hv'.proper.chain.unique hv.chain
        refine ((hv.granted hgr).written (hd.vars x σ hσ hT) (fun d hd he => ?_) hw).resolve_right
          fun h => h.1
        obtain ⟨t, ht, hf⟩ := hv'.older d hd
        obtain rfl := Option.some.inj (hrun.symm.trans (he ▸ ht))
        simp [Trans.Finished] at hf
      · rw [replay_other hk]
        have hv := hv.granted hgr
        have hothers := (hv'.proper.granted hgr).others_written hw
        exact ⟨(hothers.chain_iff (Ne.symm hk) hv.isTS).mpr hv.chain, hv.distinct, hv.isTS⟩

theorem PastBegin.run (hr : Run cfg C s s') (h : PastBegin (s.node n).store T) :
    PastBegin (s'.node n).store T := by
  induction hr with
  | refl => exact h
  | tail _ hs ih =>
    obtain ⟨_, -, hs⟩ := hs
    exact past_step hs ih

theorem Replays.run (hs : Reach cfg C s) (hr : Run cfg C s s') (ha : Orderly s'.hist) (n : Host) :
    ∃ ws, Replays n s s' ws := by
  induction hr with
  | refl => exact ⟨[], rfl, by simp, fun _ _ hv => hv⟩
  | tail hr hstep ih =>
    obtain ⟨ℓ, -, hstep⟩ := hstep
    have ha₀ := closed_orderly _ _ (step_hist hstep) ha
    obtain ⟨ws, hws⟩ := ih ha₀
    have hs₀ := hs.run hr
    obtain ⟨ws', hws'⟩ :=
      Replays.step (hs₀.allSorted ha₀) (hs₀.regular ha₀) hs₀.dated hstep ha n
    refine ⟨ws' ++ ws, ?_, fun a ha => ?_, fun key vs hv => ?_⟩
    · rw [hws'.log, hws.log, List.append_assoc]
    · rcases List.mem_append.mp ha with ha | ha
      · exact fun hp => hws'.running a ha (hp.run hr)
      · exact hws.running a ha
    · rw [replay_append]
      exact hws'.proper key _ (hws.proper key vs hv)

theorem Reach.exists_run (hs : Reach cfg C s) : Run cfg C {} s := by
  induction hs with
  | init => exact .refl
  | step _ hc hs ih => exact ih.tail ⟨_, hc, hs⟩

theorem Reach.replayed (hs : Reach cfg C s) (ha : Orderly s.hist) (n : Host) (key : String) :
    ProperChain (s.node n).store key (replay key [] (writes n s.hist)) := by
  obtain ⟨ws, hws⟩ := Replays.run .init hs.exists_run ha n
  have hlog : writes n s.hist = ws := by simpa [writes] using hws.log
  rw [hlog]
  exact hws.proper key [] ⟨.empty rfl, by simp, by simp⟩

end Steps

def writesV : List Label :=
  [.request (client 0) { requestType := .begin } (atUsec 100) 0 true true,
   .request (client 0) { requestType := .insert, key := "b", value := "v" } (atUsec 0) 0 true true,
   .recv 0 {}, .beginAnswer (client 0) true, .recv 0 {}, .opAnswer (client 0),
   .request (client 0) { requestType := .commit } (atUsec 101) 0 true true,
   .sendPrepare (client 0) true, .recv 0 { clocks := [atUsec 102] }]

def writesW : List Label :=
  [.crash hostA, .startUp hostA {},
   .request (client 1) { requestType := .begin } (atUsec 110) 0 true true,
   .request (client 1) { requestType := .update, key := "b", value := "w" } (atUsec 0) 1 true true,
   .recv 1 {}, .beginAnswer (client 1) true, .recv 1 {}, .opAnswer (client 1)]

/-- In every run whose database calls succeed and whose clients wait for each reply, the versions of
a key, with their values and links, are those that its successful writes make one after the other. -/
theorem chain_replays_writes (cfg : Config) {s : Sys} (hs : Reach cfg anyStep s)
    (hdb : NoDbError s.hist) (hu : DistinctBegin s.hist) (hw : ClientsWait s.hist) (n : Host)
    (key : String) (vs : List Data) :
    Chain (s.node n).store key vs ↔ vs = replay key [] (writes n s.hist) := by
  have h := (hs.replayed ⟨hdb, hu, hw⟩ n key).chain
  constructor
  · exact fun hv => hv.unique h
  · rintro rfl
    exact h

theorem chain_replays_writes_two : ∃ s : Sys,
    (writes hostA s.hist).map (fun a => (a.beginTs, a.value)) = [("ts110", "w"), ("ts100", "v")] ∧
      Chain (s.node hostA).store "b" (replay "b" [] (writes hostA s.hist)) := by
  have hrun : ((steps twoHosts anyStep {} (writesV ++ writesW)).map fun s =>
      (decide (Orderly s.hist),
        (writes hostA s.hist).map fun a => (a.beginTs, a.value))) =
      some (true, [("ts110", "w"), ("ts100", "v")]) := by
    decide +kernel
  obtain ⟨s, hs, hf⟩ := reach_of_map hrun
  simp only [Prod.mk.injEq, decide_eq_true_eq] at hf
  obtain ⟨⟨hdb, hu, hw⟩, hlog⟩ := hf
  exact ⟨s, hlog, (chain_replays_writes twoHosts hs hdb hu hw hostA "b" _).mpr rfl⟩

/-- Once their transactions have left the state Begin, versions stay for good: no later step of the
run, whatever crashes it contains, changes, removes or reorders them or writes between them. -/
theorem versions_stay (cfg : Config) {s s' : Sys} (hs : Reach cfg anyStep s)
    (hrun : Run cfg anyStep s s') (hdb : NoDbError s'.hist) (hu : DistinctBegin s'.hist)
    (hw : ClientsWait s'.hist) {n : Host} {key : String} {vs vs' old : List Data}
    (hv : Chain (s.node n).store key vs) (hv' : Chain (s'.node n).store key vs') (hold : old <:+ vs)
    (hpast : ∀ d ∈ old, PastBegin (s.node n).store d.curVersion) : old <:+ vs' := by
  have ha : Orderly s'.hist := ⟨hdb, hu, hw⟩
  obtain ⟨ws, hws⟩ := Replays.run hs hrun ha n
  have hp := hs.replayed (closed_orderly _ _ hrun.hist ha) n key
  rw [hp.chain.unique hv] at hp
  obtain ⟨top, rfl⟩ := hold
  obtain ⟨new, hnew, -⟩ := replay_above key
    (fun d hd a ha _ he => hws.running a ha (he ▸ hpast d hd)) top
  rw [hv'.unique (hws.proper key _ hp).chain, hnew]
  exact List.suffix_append new old

theorem versions_stay_committed : ∃ (s s' : Sys) (d : Data), d.value = "v" ∧
    entryOf (s.node hostA).store "b" = some d ∧
    [d] <:+ replay "b" [] (writes hostA s'.hist) := by
  have hrun : ((steps twoHosts anyStep {} writesV).bind fun s =>
      (steps twoHosts anyStep s writesW).map fun s' =>
        (decide (Orderly s'.hist),
          decide ((transOf (s.node hostA).store "ts100").map Trans.state = some .commited),
          entryOf (s.node hostA).store "b")) =
      some (true, true, some { state := .insert, value := "v", curVersion := "ts100" }) := by
    decide +kernel
  obtain ⟨s, s', hs, hss, hf⟩ := run_of_bind hrun
  simp only [Prod.mk.injEq, decide_eq_true_eq] at hf
  obtain ⟨⟨hdb, hu, hw⟩, hc, hd⟩ := hf
  obtain ⟨t, ht, hc⟩ := Option.map_eq_some_iff.mp hc
  refine ⟨s, s', _, rfl, hd, ?_⟩
  refine versions_stay twoHosts hs hss hdb hu hw (.entry hd .last)
    ((hs.run hss).replayed ⟨hdb, hu, hw⟩ hostA "b").chain (List.suffix_refl _) fun e he => ?_
  obtain rfl := List.mem_singleton.mp he
  exact ⟨t, ht, by simp [hc]⟩

end Tpc
