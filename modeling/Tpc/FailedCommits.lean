import Tpc.Commitment
import Tpc.Slots
import Tpc.Unprepared

/-! A failed commit reply. The error exits of Commit only close connections; the participants decide
by themselves. One of them that has not prepared, and is not sent a Prepare request any more, keeps
all others from committing. -/

namespace Tpc
open Durable PollCommit

/-- `h` has rolled `T` back, or it has not prepared `T` and no Prepare request will reach it. -/
def Sys.Spared (s : Sys) (T : String) (h : Host) : Prop :=
  (∃ t, transOf (s.node h).store T = some t ∧ t.state = .rollback) ∨
    (Unprepared (s.node h).store T ∧ ¬ s.PrepareAhead T h)

section Spared

variable {cfg : Config} {s s' : Sys} {c : CoordId} {ℓ : Label} {T : String} {h : Host}

theorem Sys.Spared.of_eq (hnode : s'.node = s.node) (hsess : s'.sess = s.sess) (hsp : s.Spared T h) :
    s'.Spared T h := by
  rwa [Sys.Spared, Sys.PrepareAhead, hnode, hsess]

theorem Touches.silent {σ σ' : Session} (ho : s.Owns c) (ht : Touches s c σ σ')
    (hno : ∀ m, ¬ (s.coord c).Posts σ.host m) :
    σ'.live = σ.live ∧ σ'.vars = σ.vars ∧ σ'.toServ = σ.toServ := by
  have slot : ∀ {n stat x m}, s.Slot c n stat x σ → ¬ (s.coord c).Posts n m := by
    intro n stat x m hslot
    obtain ⟨τ, hτ, rfl, -⟩ := ho n x (by rw [hslot.slot])
    obtain rfl := Option.some.inj (hτ.symm.trans hslot.sess)
    exact hno m
  induction ht with
  | same => exact ⟨rfl, rfl, rfl⟩
  | sends hslot hp => exact absurd hp (slot hslot)
  | reads => exact ⟨rfl, rfl, rfl⟩
  | answers hslot _ _ hp => exact absurd hp (slot hslot)
  | closes _ ih => exact ih

theorem Sys.PrepareAhead.step (hsafe : Safe cfg s) (hsl : ∀ d, Slotted cfg s d)
    (hs : step cfg s ℓ = some s') (hu : DistinctBegin s'.hist) (hb : Begun s.hist c T)
    (hc : CoordStep cfg s c ℓ s' → ∀ m, ¬ (s.coord c).Posts h m) (ha : s'.PrepareAhead T h) :
    s.PrepareAhead T h := by
  obtain ⟨x, σ', m, hσ', hhost, hlive, htr, hm, hreq, hmT⟩ := ha
  have hT : T ≠ "" := (hsafe.disc.begun_ts c T hb).ne_empty
  rcases step_cases closed_true hs trivial with hn | ⟨d, hd⟩
  · obtain ⟨σ, hσ, hstep⟩ := hn.sess_inv hσ'
    exact ⟨x, σ, m, hσ, hstep.host.symm.trans hhost, hstep.live hlive,
      hstep.trace (fun m hm => hsafe.disc.msg x σ m hσ hm) hT htr, hstep.mem hm, hreq, hmT⟩
  cases hσ : s.sess x with
  | none =>
    obtain ⟨n, U, rfl⟩ := hd.opens (hsl d).table hσ hσ'
    rcases mem_send hm with hm | rfl
    · cases hm
    · cases hreq
  | some σ =>
    obtain ⟨τ, hτ, ht⟩ := hd.touches hσ
    obtain rfl := Option.some.inj (hτ.symm.trans hσ')
    -- the request belongs to the session that has begun the transaction
    have howner : σ.owner = c := by
      have hsafe' := hsafe.step hs hu
      obtain ⟨U, st, L, rfl, hp, -⟩ := (hsafe'.disc.msg x τ m hσ' hm).of_prepare hreq
      obtain rfl : U = T := hmT
      rw [← ht.owner]
      exact begun_unique hu (hsafe'.disc.planned _ U st L hp).1 ((step_hist hs).subset hb)
    have hsame : τ.live = σ.live ∧ τ.vars = σ.vars ∧ τ.toServ = σ.toServ := by
      by_cases hdc : c = d
      · subst hdc
        refine ht.silent (hsl c).owns fun m => ?_
        rw [← ht.host, hhost]
        exact hc hd m
      · obtain ⟨b, hb⟩ := (hd.apart (hsl d).owns hdc).sess x σ hσ howner
        obtain rfl := Option.some.inj (hb.symm.trans hσ')
        exact ⟨rfl, rfl, rfl⟩
    obtain ⟨h1, h2, h3⟩ := hsame
    have htr : σ.Trace T := by
      rw [Session.Trace, h2, h3] at htr
      exact htr
    exact ⟨x, σ, m, hσ, ht.host.symm.trans hhost, h1 ▸ hlive, htr, h3 ▸ hm, hreq, hmT⟩

theorem Sys.Spared.step (hsafe : Safe cfg s) (hsl : ∀ d, Slotted cfg s d)
    (hs : step cfg s ℓ = some s') (hu : DistinctBegin s'.hist) (hb : Begun s.hist c T)
    (hc : CoordStep cfg s c ℓ s' → ∀ m, ¬ (s.coord c).Posts h m) (hsp : s.Spared T h) :
    s'.Spared T h := by
  rcases hsp with ⟨t, ht, hr⟩ | ⟨hrec, hno⟩
  · obtain ⟨t', ht', hr', -⟩ := finished_later (hsafe.later hs hu T) ht (.inl hr)
    exact .inl ⟨t', ht', hr'.trans hr⟩
  · refine .inr ⟨?_, fun ha => hno (ha.step hsafe hsl hs hu hb hc)⟩
    rcases step_cases closed_true hs trivial with hn | ⟨d, hd⟩
    · exact hn.unprepared (hsafe.tasks.noTask_of_unprepared hrec) (fun _ => hno) hrec
    · rwa [hd.node_eq]

/-- Where a participant is spared, nobody commits. -/
theorem Sys.Spared.not_commited (hsafe : Safe cfg s) (hu : DistinctBegin s.hist) {st : String}
    {L : List Host} (hp : Planned s.hist c T st L) (hh : h ∈ L) (hsp : s.Spared T h) {P : Host}
    {t : Trans} (ht : transOf (s.node P).store T = some t) : t.state ≠ .commited := by
  intro hs
  obtain ⟨L', hL⟩ := hsafe.disc.exists_onlyPlan hu T
  obtain rfl := hL c st L hp
  have hv : (s.view T).vote P = .commited t.selfCommitTs t.commitTrans := by
    rw [← voteOf_commited hs, ← ht]
    rfl
  obtain ⟨y, hy, -⟩ := ((hsafe.inv T L hL).commited P _ _ hv).2 h hh
  change (voteOf (transOf (s.node h).store T)).self? = some y at hy
  -- the spared participant has a vote, so it has rolled back
  have hroll : ∃ t', transOf (s.node h).store T = some t' ∧ t'.state = .rollback := by
    rcases hsp with hr | ⟨hrec, -⟩
    · exact hr
    · cases htr : transOf (s.node h).store T with
      | none => simp [htr, voteOf, Vote.self?] at hy
      | some t' =>
        rcases hrec t' htr with hb | hr
        · simp [htr, voteOf, hb, Vote.self?] at hy
        · exact ⟨t', rfl, hr⟩
  obtain ⟨t', ht', hr⟩ := hroll
  exact hsafe.agree hu ht ht' hs hr

end Spared

/-- Where the answer of a participant cannot be read, another one, or the same, is spared. -/
def FailsEarly (c : CoordId) (s : Sys) (ℓ : Label) : Prop := ∀ h msg x σ, ℓ = .collect c h →
  (s.coord c).pc = .preparing [] msg → s.Slot c h .hasBegin x σ → σ.toCl = [] →
  σ.servClosed = true → ∃ n ∈ msg.transList, s.Spared msg.beginTs n

def Doomed (c : CoordId) (s : Sys) (T : String) : Prop :=
  (s.coord c).pc = .closed ∧ ∃ st L h, Planned s.hist c T st L ∧ h ∈ L ∧ s.Spared T h

structure Failing (c : CoordId) (s : Sys) : Prop where
  unsent : ∀ todo msg, (s.coord c).pc = .preparing todo msg → ∀ h ∈ todo, s.Spared msg.beginTs h
  told : ∀ T res, .note (.replied c .commit T res) ∈ s.hist → res.result ≠ 0 →
    T = "" ∨ Doomed c s T

section Runs

variable {cfg : Config} {s s' : Sys} {c : CoordId} {ℓ : Label} {T : String} {h : Host}

theorem CoordStep.closed (hs : CoordStep cfg s c ℓ s') (hpc : (s.coord c).pc = .closed) :
    (s'.coord c).pc = .closed := by
  cases hs with
  | goes => simpa using hpc
  | ends => simp
  | drops n x σ h => rcases h with h | ⟨m, h⟩ <;> simp [h] at hpc
  | kills type res hf => cases hf <;> simp_all
  | _ => simp_all

theorem Doomed.step (hsafe : Safe cfg s) (hsl : ∀ d, Slotted cfg s d) (hs : step cfg s ℓ = some s')
    (hu : DistinctBegin s'.hist) (hd : Doomed c s T) : Doomed c s' T := by
  obtain ⟨hpc, st, L, n, hp, hn, hsp⟩ := hd
  refine ⟨?_, st, L, n, (step_hist hs).subset hp, hn, ?_⟩
  · rcases session_cases closed_true hsl hs trivial c with ⟨hco, -⟩ | ⟨-, hc⟩
    · rwa [hco]
    · exact hc.closed hpc
  · exact hsp.step hsafe hsl hs hu (hsafe.disc.planned c T st L hp).1
      fun _ m => by simp [Coord.Posts, hpc]

theorem Safe.spared_of_top (hsafe : Safe cfg s) (hu : DistinctBegin s.hist)
    (hpc : (s.coord c).pc = .top) (hT : (s.coord c).beginTs ≠ "") (h : Host) :
    s.Spared (s.coord c).beginTs h := by
  have hb := (hsafe.disc.session c).begun hT
  have noplan : ∀ d st L, ¬ Planned s.hist d (s.coord c).beginTs st L := by
    intro d st L hp
    obtain rfl := begun_unique hu (hsafe.disc.planned d _ st L hp).1 hb
    have hpast := (hsafe.disc.session d).plan_past st L hp
    rw [hpc] at hpast
    exact hpast
  refine .inr ⟨fun t ht => ?_, ?_⟩
  · cases (hsafe.tasks h).record _ t ht with
    | running => exact .inl rfl
    | aborted => exact .inr rfl
    | planned hp => exact absurd hp (noplan _ _ _)
  · rintro ⟨x, σ, m, hσ, -, -, -, hm, hreq, hmT⟩
    obtain ⟨U, st, L, rfl, hp, -⟩ := (hsafe.disc.msg x σ m hσ hm).of_prepare hreq
    obtain rfl : U = (s.coord c).beginTs := hmT
    exact noplan _ st L hp

inductive CommitFails (s : Sys) (c : CoordId) (ℓ : Label) : Prop
  | sending (h : Host) (todo : List Host) (msg : RpcReq) :
      (s.coord c).pc = .preparing (h :: todo) msg → CommitFails s c ℓ
  | reading (h : Host) (msg : RpcReq) (x : Nat) (σ : Session) : ℓ = .collect c h →
      (s.coord c).pc = .preparing [] msg → s.Slot c h .hasBegin x σ → σ.toCl = [] →
      σ.servClosed = true → CommitFails s c ℓ

theorem CoordStep.refused (ht : Table cfg (s.coord c)) (hs : CoordStep cfg s c ℓ s')
    {l : Hist} (hl : s'.hist = l ++ s.hist) {res : CliRes}
    (hm : .note (.replied c .commit T res) ∈ l) (h0 : res.result ≠ 0) :
    T = "" ∨ T = (s.coord c).beginTs ∧ (∃ r, s' = s.kill c .commit r) ∧ CommitFails s c ℓ := by
  have new : ∀ m, s'.hist = m ++ s.hist → .note (.replied c .commit T res) ∈ m := fun m hm' => by
    rwa [List.append_cancel_right (hm'.symm.trans hl)]
  have quiet : s'.hist = s.hist → False := fun he => by simpa using new [] he
  have one : ∀ {t : RequestType} {T' : String} {r : CliRes},
      s'.hist = [.note (.replied c t T' r)] ++ s.hist → .commit = t ∧ T = T' ∧ res = r := fun he => by
    have he := Event.replied.inj (Entry.note.inj (List.mem_singleton.mp (new _ he)))
    exact he.2
  cases hs with
  | replies t r _ _ hT =>
    obtain ⟨rfl, rfl, -⟩ := one rfl
    exact .inl (hT rfl)
  | begins tv =>
    have hmem := new [.note (.replied c .begin _ { beginTs := getTS tv }), .note (.begun c (getTS tv)),
      .clock (.logic c.serv) tv] rfl
    simp at hmem
  | plans tv =>
    have hmem := new [.note (.prepare c _ _ _), .clock (.logic c.serv) tv] rfl
    simp at hmem
  | rollsBack => exact absurd (one rfl).1 (by simp)
  | connectsBegin | connectsOp | sendsBegin | sendsOp | hearsBegin | dangles | sendsPrepare | drops |
    goes | ends => exact (quiet rfl).elim
  | hearsOp n y τ stat req rest m hpc =>
    exact absurd (one rfl).1.symm (ht.op n req hpc).2.2.2.1
  | leavesOp n req _ hpc =>
    have hne := (ht.op n req hpc).2.2.2.1
    cases hgone : (s.coord c).gone with
    | true =>
      have hmem := new [.note (.replied c req.requestType _ {})] (by rw [if_pos hgone]; rfl)
      simp [Ne.symm hne] at hmem
    | false =>
      have hmem := new [.note (.replied c req.requestType _ {}), .note (.early c)]
        (by rw [if_neg (by simp [hgone])]; rfl)
      simp [Ne.symm hne] at hmem
  | collects n msg y τ rest m =>
    cases m with
    | rpcResponse r =>
      have hmem := new [.note (.answered c _ n r.result)] rfl
      simp at hmem
    | transStateResponse => exact (quiet rfl).elim
  | completes =>
    rw [(one rfl).2.2] at h0
    exact absurd rfl h0
  | kills t r hf =>
    obtain ⟨rfl, rfl, -⟩ := one rfl
    refine .inr ⟨rfl, ⟨r, rfl⟩, ?_⟩
    generalize ht' : RequestType.commit = t at hf
    cases hf with
    | getFd req _ hop => exact absurd ht'.symm hop.2.2.1
    | begin n req hpc => exact absurd ht'.symm (ht.begins n req hpc).2.1.2.2.1
    | op n req hpc => exact absurd ht'.symm (ht.op n req hpc).2.2.2.1
    | sendPrepare n todo msg hpc => exact .sending n todo msg hpc
  | killsCollecting n msg y τ r he hpc hslot hcl hclosed =>
    obtain ⟨-, rfl, -⟩ := one rfl
    exact .inr ⟨rfl, ⟨r, rfl⟩, .reading n msg y τ he hpc hslot hcl hclosed⟩
  | killsReading n y τ stat req rest m r hpc =>
    exact absurd (one rfl).1.symm (ht.begins n req hpc).2.1.2.2.1
  | killsBegun n y τ stat req rest m r hpc =>
    exact absurd (one rfl).1.symm (ht.begins n req hpc).2.1.2.2.1

theorem Sys.Spared.kill (hsp : s.Spared T h) (type : RequestType) (res : CliRes) :
    (s.kill c type res).Spared T h := by
  rcases hsp with hr | ⟨hrec, hno⟩
  · exact .inl hr
  · refine .inr ⟨hrec, ?_⟩
    rintro ⟨x, σ', m, hσ', hrest⟩
    obtain ⟨σ, hσ, rfl⟩ := Option.map_eq_some_iff.mp hσ'
    refine hno ⟨x, σ, m, hσ, ?_⟩
    split_ifs at hrest
    · exact hrest
    · exact hrest

theorem Failing.step (hf : Failing c s) (hsafe : Safe cfg s) (hsl : ∀ d, Slotted cfg s d)
    (hs : Tpc.step cfg s ℓ = some s') (hu : DistinctBegin s'.hist) (he : FailsEarly c s ℓ) :
    Failing c s' := by
  have hu₀ := closed_distinctBegin _ _ (step_hist hs) hu
  obtain ⟨l, hl⟩ := step_hist hs
  constructor
  · intro todo msg hpc n hn
    -- as long as the session does not send to `n` itself
    have later : ∀ {todo'}, (s.coord c).pc = .preparing todo' msg → n ∈ todo' →
        (CoordStep cfg s c ℓ s' → ∀ m, ¬ (s.coord c).Posts n m) → s'.Spared msg.beginTs n := by
      intro todo' hpc' hn' hno
      obtain ⟨L, rfl, hp, -⟩ := (hsafe.disc.session c).preparing todo' msg hpc'
      exact (hf.unsent _ _ hpc' n hn').step hsafe hsl hs hu (hsafe.disc.planned c _ _ L hp).1 hno
    by_cases hc : CoordStep cfg s c ℓ s'
    · cases hc with
      | plans tv htop _ hT =>
        rw [setCoord_coord_self] at hpc
        obtain ⟨rfl, rfl⟩ := CoordPc.preparing.inj hpc
        exact (hsafe.spared_of_top hu₀ htop hT n).of_eq rfl rfl
      | sendsPrepare k rest msg' x σ stat hpc' =>
        rw [setCoord_coord_self] at hpc
        obtain ⟨rfl, rfl⟩ := CoordPc.preparing.inj hpc
        have hnodup := ((hsl c).table.preparing _ _ hpc').2.2.1
        refine later hpc' (.tail _ hn) fun _ m hpost => ?_
        simp only [Coord.Posts, hpc'] at hpost
        obtain ⟨rfl, -⟩ := hpost
        exact (List.nodup_cons.mp hnodup).1 hn
      | goes =>
        rw [setCoord_coord_self] at hpc
        exact (hf.unsent todo msg hpc n hn).of_eq rfl rfl
      | collects k msg' x σ rest m hpc' =>
        rw [setCoord_coord_self] at hpc
        obtain ⟨rfl, -⟩ := CoordPc.preparing.inj (hpc'.symm.trans hpc)
        cases hn
      | drops k x σ h =>
        rw [Sys.drop, setCoord_coord_self] at hpc
        rcases h with h | ⟨msg', h⟩
        · simp [h] at hpc
        · obtain ⟨rfl, -⟩ := CoordPc.preparing.inj (h.symm.trans hpc)
          cases hn
      | rollsBack reused => cases reused <;> simp at hpc
      | replies _ _ h | begins _ h => simp [h] at hpc
      | _ => simp [Sys.sendBegin, Sys.sendOp] at hpc
    · have hco := ((session_cases closed_true hsl hs trivial c).resolve_right fun h => hc h.2).1
      rw [hco] at hpc
      exact later hpc hn fun h => absurd h hc
  · intro T res hm h0
    rw [← hl] at hm
    rcases List.mem_append.mp hm with hm | hm
    · rcases session_cases closed_true hsl hs trivial c with ⟨-, ⟨l', hl', hnews⟩, -⟩ | ⟨-, hc⟩
      · rw [List.append_cancel_right (hl.trans hl')] at hm
        exact absurd hm (hnews _ _ _)
      · rcases hc.refused (hsl c).table hl.symm hm h0 with hT | ⟨rfl, ⟨r, rfl⟩, hfails⟩
        · exact .inl hT
        · have spared : ∀ {todo msg n}, (s.coord c).pc = .preparing todo msg → n ∈ msg.transList →
              s.Spared msg.beginTs n → Doomed c (s.kill c .commit r) (s.coord c).beginTs := by
            intro todo msg n hpc hn hsp
            obtain ⟨L, rfl, hp, -⟩ := (hsafe.disc.session c).preparing todo msg hpc
            exact ⟨by simp, _, L, n, (step_hist hs).subset hp, hn, hsp.kill _ _⟩
          cases hfails with
          | sending n todo msg hpc =>
            obtain ⟨L, rfl, -, hL⟩ := (hsafe.disc.session c).preparing _ msg hpc
            exact .inr (spared hpc (hL n (.head _)) (hf.unsent _ _ hpc n (.head _)))
          | reading n msg x σ hℓ hpc hslot hcl hclosed =>
            obtain ⟨k, hk, hsp⟩ := he n msg x σ hℓ hpc hslot hcl hclosed
            exact .inr (spared hpc hk hsp)
    · exact (hf.told T res hm h0).imp_right fun hd => hd.step hsafe hsl hs hu

theorem failing_init (c : CoordId) : Failing c {} := by
  constructor <;> simp

theorem Reach.failing (hs : Reach cfg (FailsEarly c) s) (hu : DistinctBegin s.hist) :
    Failing c s := by
  induction hs with
  | init => exact failing_init c
  | step hr he hstep ih =>
    have hu₀ := closed_distinctBegin _ _ (step_hist hstep) hu
    exact (ih hu₀).step (hr.safe hu₀) hr.slotted hstep hu he

/-- Where the client is told that its commit has failed, the fate of the transaction is sealed. -/
theorem Doomed.run {C : Sys → Label → Prop} (hs : Reach cfg C s) (hrun : Run cfg C s s')
    (hu : DistinctBegin s'.hist) (hd : Doomed c s T) : Doomed c s' T := by
  induction hrun with
  | refl => exact hd
  | tail hr hstep ih =>
    obtain ⟨ℓ, -, hstep⟩ := hstep
    have hu₀ := closed_distinctBegin _ _ (step_hist hstep) hu
    have hreach := hs.run hr
    exact (ih hu₀).step (hreach.safe hu₀) hreach.slotted hstep hu

end Runs

/-- A commit that was answered with an error is not carried out on any node, however the run goes on. -/
theorem commit_failure_true (cfg : Config) (c : CoordId) {s s' : Sys}
    (hs : Reach cfg (FailsEarly c) s) (hrun : Run cfg anyStep s s') (hu : DistinctBegin s'.hist)
    {T : String} {res : CliRes} (hm : .note (.replied c .commit T res) ∈ s.hist)
    (h0 : res.result ≠ 0) {P : Host} {t : Trans} (ht : transOf (s'.node P).store T = some t) :
    t.state ≠ .commited := by
  have hany : Reach cfg anyStep s := hs.mono fun _ _ _ => trivial
  have hsafe' := (hany.run hrun).safe hu
  rcases (hs.failing (closed_distinctBegin _ _ hrun.hist hu)).told T res hm h0 with rfl | hd
  · obtain ⟨d, hb⟩ := hsafe'.disc.rec_begun P "" (by simp [ht])
    exact absurd rfl (hsafe'.disc.begun_ts d "" hb).ne_empty
  · obtain ⟨-, st, L, n, hp, hn, hsp⟩ := hd.run hany hrun hu
    exact hsp.not_commited hsafe' hu hp hn ht

def Label.isCollect : Label → Bool
  | .collect _ _ => true
  | _ => false

def NoCollect (_ : Sys) (ℓ : Label) : Prop := ℓ.isCollect = false

instance (s : Sys) (ℓ : Label) : Decidable (NoCollect s ℓ) := inferInstanceAs (Decidable (_ = _))

theorem NoCollect.failsEarly {c : CoordId} {s : Sys} {ℓ : Label} (h : NoCollect s ℓ) :
    FailsEarly c s ℓ := by
  rintro n msg x σ rfl
  cases h

def halfSent : List Label :=
  toCommit.dropLast ++ [.sendPrepare (client 0) false, .recv 0 { clocks := [atUsec 103] }]

def commitFailed (errMsg : String) : Event :=
  .replied (client 0) .commit "ts100"
    { result := 1, errMsg := errMsg, startTs := "ts101", beginTs := "ts100" }

theorem commit_failure_true_half : ∃ (s : Sys) (t : Trans),
    transOf (s.node hostA).store "ts100" = some t ∧ t.state = .prepared ∧ t.state ≠ .commited := by
  have hrun : ((steps twoHosts NoCollect {} halfSent).map fun s =>
      (decide (DistinctBegin s.hist), decide (.note (commitFailed "SendMsg storage  err") ∈ s.hist),
        (transOf (s.node hostA).store "ts100").map Trans.state)) = some (true, true, some .prepared) := by
    decide +kernel
  obtain ⟨s, hs, hf⟩ := reach_of_map hrun
  obtain ⟨hu, hf⟩ := Prod.mk.inj hf
  obtain ⟨hm, ht⟩ := Prod.mk.inj hf
  obtain ⟨t, ht, hstate⟩ := Option.map_eq_some_iff.mp ht
  exact ⟨s, t, ht, hstate, commit_failure_true twoHosts (client 0) (hs.mono fun _ _ h => h.failsEarly)
    .refl (of_decide_eq_true hu) (of_decide_eq_true hm) (by decide) ht⟩

/-- Both nodes have prepared when the connection to `hostB` breaks before its answer is read; they
ask each other and commit. -/
def answerLost : List Label :=
  toCommit ++
  [.recv 0 { clocks := [atUsec 102] }, .recv 1 { clocks := [atUsec 103] },
   .cut 1 0 0, .collect (client 0) hostB,
   .taskAsk hostB hostA 99 {}, .taskAsk hostA hostB 99 {}, .taskRecv hostB 99 {}, .taskRecv hostA 99 {}]

theorem commit_failure_not_true :
    ¬ ∀ (s : Sys) (c : CoordId) (T : String) (res : CliRes) (P : Host) (t : Trans),
      Reach twoHosts anyStep s → DistinctBegin s.hist → .note (.replied c .commit T res) ∈ s.hist →
      res.result ≠ 0 → transOf (s.node P).store T = some t → t.state ≠ .commited := by
  intro h
  have hrun : ((steps twoHosts anyStep {} answerLost).map fun s =>
      (decide (DistinctBegin s.hist ∧ .note (commitFailed "ReadOneMsg storage  err") ∈ s.hist),
        decisions s)) = some (true, some (.commited, "ts103"), some (.commited, "ts103")) := by
    decide +kernel
  obtain ⟨s, hs, hf⟩ := reach_of_map hrun
  obtain ⟨hc, hd⟩ := Prod.mk.inj hf
  obtain ⟨hu, hm⟩ := of_decide_eq_true hc
  obtain ⟨t, ht, hstate⟩ := Option.map_eq_some_iff.mp (Prod.mk.inj hd).1
  exact h s (client 0) "ts100" _ hostA t hs hu hm (by decide) ht
    (Prod.mk.inj hstate).1

end Tpc
