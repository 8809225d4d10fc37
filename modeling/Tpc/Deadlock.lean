import Tpc.Holders
import Tpc.Updates

/-! Deadlocks. A wait for a lock has no end of its own: sessions that wait for each other's locks wait
until one of their clients, connections or nodes goes away. -/

namespace Tpc
open Durable

/-- On connection `x`, an operation of `c` waits for a lock that `d` holds. -/
structure WaitsFor (s : Sys) (c d : CoordId) (h : Host) (x : Nat) (σ : Session) (req : RpcReq)
    (res : RpcRes) : Prop where
  pc : ∃ cli, (s.coord c).pc = .opSent h cli
  fd : ((s.coord c).storageCl h).fd = some x
  sess : s.sess x = some σ
  wait : σ.wait = .lock req res
  locks : req.requestType = .get → req.getForUpdate ≠ 0
  held : lockOf (s.node h).store req.key = some (s.coord d).beginTs
  other : d ≠ c

def Intact (s : Sys) (c : CoordId) : Prop :=
  ∀ k x, ((s.coord c).storageCl k).fd = some x → ∃ σ, s.sess x = some σ ∧ σ.live = true ∧
    σ.clClosed = false ∧ σ.servClosed = false

/-- Each session of `W` waits for another one of `W`. -/
structure Deadlock (s : Sys) (W : CoordId → Prop) : Prop where
  waits : ∀ c, W c → ∃ d h x σ req res, W d ∧ WaitsFor s c d h x σ req res
  intact : ∀ c, W c → Intact s c

/-- From `s` to `s'`, what client session `c` has is left as it is, and no reply goes to its client. -/
structure Unmoved (c : CoordId) (s s' : Sys) : Prop where
  pc : (s'.coord c).pc = (s.coord c).pc
  storageCl : (s'.coord c).storageCl = (s.coord c).storageCl
  beginTs : (s'.coord c).beginTs = (s.coord c).beginTs
  sess : ∀ k y τ, ((s.coord c).storageCl k).fd = some y → s.sess y = some τ → s'.sess y = some τ
  silent : ∃ l, s'.hist = l ++ s.hist ∧ ∀ type T res, .note (.replied c type T res) ∉ l

/-- From `s` to `s'`, the sessions of `W` go on waiting for the same locks of the same holders. -/
structure WaitsOn (W : CoordId → Prop) (s s' : Sys) : Prop where
  kept : ∀ c, W c → Unmoved c s s'
  locks : ∀ c d h x σ req res, W c → W d → WaitsFor s c d h x σ req res →
    WaitsFor s' c d h x σ req res

/-- The step takes no client, no connection and no node away from the sessions of `W`. -/
structure LeftAlone (cfg : Config) (W : CoordId → Prop) (s : Sys) (ℓ : Label) : Prop where
  clients : ∀ c, W c → ℓ ≠ .clientEvent c ∧ ℓ ≠ .die c
  connections : ∀ x a b σ, ℓ = .cut x a b → s.sess x = some σ → ¬ W σ.owner
  nodes : ∀ c k x s', W c → ((s.coord c).storageCl k).fd = some x → step cfg s ℓ = some s' →
    (s'.node k).up = true

section Waits

variable {cfg : Config} {A : Hist → Prop} {s s' : Sys} {W : CoordId → Prop} {c d : CoordId} {ℓ : Label}
  {h k : Host} {x y : Nat} {σ τ : Session} {req : RpcReq} {res : RpcRes}

theorem NodeStep.untouched (hs : NodeStep A s ℓ s') (hσ : s.sess x = some σ) (hserv : σ.toServ = [])
    (hopen : σ.clClosed = false) (hup : (s'.node σ.host).up = true) (hcut : ∀ a b, ℓ ≠ .cut x a b)
    (htime : ∀ env, ℓ = .timeout x env → σ.wait = .idle ∨ s'.sess x = some σ) : s'.sess x = some σ := by
  have other : ∀ {y τ τ'}, s.sess y = some τ → (x = y → False) →
      Function.update s.sess y (some τ') x = some σ := by
    intro y τ τ' _ hne
    rw [Function.update_of_ne hne, hσ]
  have same : ∀ {y τ}, s.sess y = some τ → x = y → τ = σ := by
    rintro y τ hτ rfl
    exact Option.some.inj (hτ.symm.trans hσ)
  cases hs with
  | recv hτ _ _ hm =>
    refine other hτ fun hx => ?_
    rw [same hτ hx, hserv] at hm
    cases hm
  | @timeout y env τ seg w hτ _ _ hend =>
    by_cases hx : x = y
    · subst hx
      rcases htime env rfl with hidle | hstays
      · rw [same hτ rfl, hidle] at hend
        cases hend
      · exact hstays
    · exact other hτ hx
  | event hτ _ hev =>
    refine other hτ fun hx => ?_
    rw [same hτ hx, hserv, hopen] at hev
    simp at hev
  | hangup hτ _ _ hcl =>
    refine other hτ fun hx => ?_
    rw [same hτ hx, hopen] at hcl
    cases hcl
  | taskSkip | taskAsk | taskRecv | startUp => exact hσ
  | lost => exact lost_sess _ hσ (lost_up hup)
  | @cut y a b τ hτ => exact other hτ fun hx => hcut a b (by rw [hx])

theorem closeAll_sess {t : Sys} (hx : ∀ k, ((t.coord d).storageCl k).fd ≠ some x) :
    (t.closeAll d).sess x = t.sess x := by
  have hid : ∀ τ : Session, (if ((t.coord d).storageCl τ.host).fd = some x then
      { τ with clClosed := true } else τ) = τ := fun τ => if_neg (hx τ.host)
  simp only [Sys.closeAll, hid, Option.map_id']

theorem CoordStep.untouched (hs : CoordStep cfg s d ℓ s') (hσ : s.sess x = some σ)
    (hx : ∀ k, ((s.coord d).storageCl k).fd ≠ some x) : s'.sess x = some σ := by
  have slot : ∀ {n stat y τ} (υ : Session), s.Slot d n stat y τ → (s.setSess y υ).sess x = some σ := by
    intro n stat y τ υ hslot
    have hne : x ≠ y := by
      rintro rfl
      exact hx n (by rw [hslot.slot])
    exact (Function.update_of_ne hne _ _).trans hσ
  have new : ∀ {y} (υ υ' : Session), s.sess y = none →
      ((s.setSess y υ).setSess y υ').sess x = some σ := by
    intro y υ υ' hy
    have hne : x ≠ y := by
      rintro rfl
      rw [hσ] at hy
      cases hy
    exact (Function.update_of_ne hne _ _).trans ((Function.update_of_ne hne _ _).trans hσ)
  have ended : ∀ {t : Sys}, t.coord = s.coord → t.sess x = some σ → (t.endSession d).sess x = some σ := by
    intro t hc ht
    exact (closeAll_sess (by rw [hc]; exact hx)).trans ht
  cases hs with
  | rollsBack => exact (closeAll_sess hx).trans hσ
  | connectsBegin n y req _ _ _ _ _ _ _ _ hy => exact new _ _ hy
  | connectsOp n y req _ _ _ _ _ _ _ _ hy => exact new _ _ hy
  | sendsBegin n y τ req _ _ _ _ _ hslot => exact slot _ hslot
  | sendsOp n y τ req _ _ _ _ _ hslot => exact slot _ hslot
  | hearsBegin n y τ stat req r rest _ hslot => exact slot _ hslot
  | dangles n y τ stat req rest m _ hslot => exact slot _ hslot
  | hearsOp n y τ stat req rest m _ hslot => exact slot _ hslot
  | leavesOp n req =>
    split_ifs
    · exact hσ
    · exact hσ
  | sendsPrepare n todo msg y τ stat _ hslot => exact slot _ hslot
  | collects n msg y τ rest m _ hslot =>
    cases m with
    | rpcResponse => exact slot _ hslot
    | transStateResponse => exact slot _ hslot
  | drops n y τ _ hslot => exact slot _ hslot
  | ends => exact ended rfl hσ
  | kills | killsCollecting => exact ended rfl hσ
  | killsReading n y τ stat req rest m r _ hslot => exact ended rfl (slot _ hslot)
  | killsBegun n y τ stat req rest m r _ hslot =>
    refine (closeAll_sess fun k => ?_).trans (slot { τ with toCl := rest } hslot)
    rw [reply_coord, read_coord, setCoord_coord_self, setSlot_storageCl]
    split_ifs with hk
    · have hn := hx n
      rwa [hslot.slot] at hn
    · exact hx k
  | _ => exact hσ

/-- Without an answer, a client session that waits for an operation makes no step but that its client
goes. -/
theorem WaitsFor.goes (hw : WaitsFor s c d h x σ req res) (hcl : σ.toCl = [])
    (hopen : σ.servClosed = false) (hparty : ℓ.party = some c)
    (hℓ : ℓ ≠ .clientEvent c ∧ ℓ ≠ .die c) (hs : step cfg s ℓ = some s') :
    s' = s.setCoord c { s.coord c with gone := true } := by
  obtain ⟨cli, hpc⟩ := hw.pc
  cases ℓ with
  | clientGone e =>
    obtain rfl := Option.some.inj hparty
    exact (Option.some.inj hs).symm
  | opAnswer e =>
    obtain rfl := Option.some.inj hparty
    simp [step, hpc, hw.fd, hw.sess, hcl, hopen] at hs
  | clientEvent e =>
    obtain rfl := Option.some.inj hparty
    exact absurd rfl hℓ.1
  | die e =>
    obtain rfl := Option.some.inj hparty
    exact absurd rfl hℓ.2
  | request e | beginAnswer e | sendPrepare e | collect e | collected e | storageEvent e =>
    obtain rfl := Option.some.inj hparty
    simp [step, hpc] at hs
  | _ => cases hparty

theorem WaitsFor.stays (hw : WaitsFor s c d h x σ req res) (hlive : σ.live = true) (hhost : σ.host = h)
    (hother : (s.coord d).beginTs ≠ σ.vars.beginTs)
    (hf : ¬ FinishedOn (s.node h).store (s.coord d).beginTs) {env : Env}
    (hs : step cfg s (.timeout x env) = some s') (ha : Orderly s'.hist)
    (hup : (s'.node h).up = true) : s'.sess x = some σ := by
  subst hhost
  -- the lock is not granted
  have refused : ∀ {st}, LockBy env.fates req.key σ.vars.beginTs (s.node σ.host).store st → False := by
    intro st hg
    have hlocks : Locks s σ req env.fates (.timeout x env) := .timeout hw.sess hlive hw.wait hw.locks
    have hgr := hlocks.granted hs ha.1 hg
    exact hother (Option.some.inj ((hgr.lock hw.held hf).symm.trans (hgr.sound id).1))
  -- the coroutine goes back to its wait
  have again : ∀ w,
      (s.served x σ { vars := σ.vars, next := .wait (.lock req res) } w).sess x = some σ := by
    intro w
    have hafter : σ.after { vars := σ.vars, next := .wait (.lock req res) } = σ := by
      rw [Session.after, ← hw.wait]
    exact (Function.update_self ..).trans (congrArg some hafter)
  rcases step_party closed_orderly hs ha with hn | ⟨e, he, -⟩
  swap
  · cases he
  cases hn with
  | @timeout y env τ seg w hτ _ _ hend =>
    obtain rfl := Option.some.inj (hw.sess.symm.trans hτ)
    rw [hw.wait] at hend
    cases hend with
    | lock hacc =>
      cases hacc with
      | reads hget hz => exact absurd hz (hw.locks hget)
      | gets _ _ hg =>
        cases hg with
        | waits => exact again w
        | reads w₁ _ _ hlock => exact (refused hlock.1).elim
      | writes _ hwr =>
        cases hwr with
        | waits => exact again w
        | fails w₁ _ _ hlock => exact (refused hlock.1).elim
        | writes w₁ _ _ hlock => exact (refused hlock.1).elim
  | lost => exact lost_sess _ hw.sess (lost_up hup)

theorem Regular.holder (hreg : Regular cfg s) (hint : Intact s c) {cli : CliReq} {n k : Host}
    (hpc : (s.coord c).pc = .opSent n cli) (hrec : transOf (s.node k).store (s.coord c).beginTs ≠ none) :
    ¬ FinishedOn (s.node k).store (s.coord c).beginTs := by
  have hdisc := hreg.safe.disc
  have hT := ((hreg.slotted c).table.op n cli hpc).1
  have hstat : ((s.coord c).storageCl k).stat = .hasBegin := by
    cases hst : ((s.coord c).storageCl k).stat with
    | hasBegin => rfl
    | init =>
      have hfree : (s.coord c).pc.Free k := by rw [hpc]; trivial
      exact absurd (hdisc.unused c k hT ⟨hst, hfree⟩).2 hrec
  obtain ⟨x, hx⟩ := Option.ne_none_iff_exists'.mp ((hdisc.session c).stat k hstat)
  obtain ⟨σ, hσ, hlive, -⟩ := hint k x hx
  obtain ⟨τ, hτ, hhost, -⟩ := hdisc.slot c k x hx
  obtain rfl := Option.some.inj (hσ.symm.trans hτ)
  subst hhost
  have hjoined : Joined s (s.coord c).beginTs σ := by
    have hin := (hreg.turns c).slot _ x σ hx hσ
    simp only [Coord.stage, hpc, hstat] at hin
    split_ifs at hin
    · exact hin.1
    · exact hin.2
  have hrun := hreg.running hσ hlive ((hjoined hlive).1 ▸ hT)
  rw [(hjoined hlive).1] at hrun
  rintro ⟨t, ht, hf⟩
  obtain rfl := Option.some.inj (hrun.symm.trans ht)
  simp [Trans.Finished] at hf

theorem Regular.nothing (hreg : Regular cfg s) (hw : WaitsFor s c d h x σ req res) {k : Host} {y : Nat}
    {τ : Session} (hy : ((s.coord c).storageCl k).fd = some y) (hτ : s.sess y = some τ) :
    τ.toServ = [] ∧ τ.toCl = [] ∧ (τ.wait = .idle ∨ y = x ∧ τ = σ) := by
  obtain ⟨cli, hpc⟩ := hw.pc
  have hin := (hreg.turns c).slot k y τ hy hτ
  by_cases hk : h = k
  · subst hk
    obtain rfl := Option.some.inj (hw.fd.symm.trans hy)
    obtain rfl := Option.some.inj (hw.sess.symm.trans hτ)
    simp only [Coord.stage, hpc, if_pos] at hin
    cases hin.2 with
    | asked m _ _ hidle => exact absurd (hw.wait.symm.trans hidle) (by simp)
    | working hserv hcl => exact ⟨hserv, hcl, .inr ⟨rfl, rfl⟩⟩
    | answered m _ _ hidle => exact absurd (hw.wait.symm.trans hidle) (by simp)
  · have hq : τ.Quiet := by
      simp only [Coord.stage, hpc, if_neg hk] at hin
      split_ifs at hin
      · exact hin.1
      · exact hin
    exact ⟨hq.toServ, hq.toCl, .inl hq.wait⟩

theorem Unmoved.refl (c : CoordId) (s : Sys) : Unmoved c s s :=
  ⟨rfl, rfl, rfl, fun _ _ _ _ h => h, [], rfl, by simp⟩

theorem Unmoved.trans {t : Sys} (h : Unmoved c s t) (h' : Unmoved c t s') : Unmoved c s s' := by
  obtain ⟨l, hl, hn⟩ := h.silent
  obtain ⟨l', hl', hn'⟩ := h'.silent
  refine ⟨h'.pc.trans h.pc, h'.storageCl.trans h.storageCl, h'.beginTs.trans h.beginTs, ?_, l' ++ l,
    by rw [hl', hl, List.append_assoc], fun type T res hm => ?_⟩
  · intro k y τ hy hτ
    exact h'.sess k y τ (by rwa [h.storageCl]) (h.sess k y τ hy hτ)
  · exact (List.mem_append.mp hm).elim (hn' type T res) (hn type T res)

/-- The lock that another session of a deadlock holds is not granted to the one that waits for it. -/
theorem Deadlock.refused (hdl : Deadlock s W) (hreg : Regular cfg s) (hnamed : LocksNamed s)
    (hu : DistinctBegin s.hist) (hd : W d) (hw : WaitsFor s c d h x σ req res)
    (hlive : σ.live = true) :
    (s.coord d).beginTs ≠ σ.vars.beginTs ∧ ¬ FinishedOn (s.node h).store (s.coord d).beginTs := by
  have hdisc := hreg.safe.disc
  obtain ⟨d', h', _, _, _, _, -, hw'⟩ := hdl.waits d hd
  obtain ⟨cli, hpc⟩ := hw.pc
  obtain ⟨cli', hpc'⟩ := hw'.pc
  have hTd := ((hreg.slotted d).table.op h' cli' hpc').1
  have hjoined : σ.vars.beginTs = (s.coord c).beginTs := by
    have hin := (hreg.turns c).slot h x σ hw.fd hw.sess
    simp only [Coord.stage, hpc, if_pos] at hin
    exact (hin.1 hlive).1
  refine ⟨fun heq => ?_, hreg.holder (hdl.intact d hd) hpc' (hnamed h req.key _ hw.held)⟩
  have hTc : (s.coord c).beginTs ≠ "" := by rwa [← hjoined, ← heq]
  refine hw.other (begun_unique hu ((hdisc.session d).begun hTd) ?_)
  rw [heq, hjoined]
  exact (hdisc.session c).begun hTc

theorem Deadlock.kept (hdl : Deadlock s W) (hreg : Regular cfg s) (hnamed : LocksNamed s)
    (hs : Tpc.step cfg s ℓ = some s') (hℓ : LeftAlone cfg W s ℓ) (ha : Orderly s'.hist) (hc : W c) :
    Unmoved c s s' := by
  have hdisc := hreg.safe.disc
  have hu := closed_distinctBegin _ _ (step_hist hs) ha.2.1
  obtain ⟨d, h, x, σ, req, res, hd, hw⟩ := hdl.waits c hc
  have hopen : ∀ k y τ, ((s.coord c).storageCl k).fd = some y → s.sess y = some τ →
      (τ.live = true ∧ τ.clClosed = false ∧ τ.servClosed = false) ∧ τ.host = k ∧ τ.owner = c := by
    intro k y τ hy hτ
    obtain ⟨ρ, hρ, hrest⟩ := hdl.intact c hc k y hy
    obtain ⟨υ, hυ, hslot⟩ := hdisc.slot c k y hy
    obtain rfl := Option.some.inj (hρ.symm.trans hτ)
    obtain rfl := Option.some.inj (hυ.symm.trans hτ)
    exact ⟨hrest, hslot⟩
  rcases step_party closed_orderly hs ha with hn | ⟨e, he, hce⟩
  · -- a node serves none of its connections, or calls `addLock` in vain
    have hcoord := hn.coord_eq
    obtain ⟨h', l, hl, hby⟩ := hn.grown
    refine ⟨by rw [hcoord], by rw [hcoord], by rw [hcoord], fun k y τ hy hτ => ?_, l, hl,
      fun type T res hm => hby _ hm⟩
    obtain ⟨hserv, -, hwait⟩ := hreg.nothing hw hy hτ
    obtain ⟨⟨hlive, hcl, -⟩, rfl, howner⟩ := hopen k y τ hy hτ
    have hup := hℓ.nodes c _ y s' hc hy hs
    refine hn.untouched hτ hserv hcl hup (fun a b hcut => ?_) fun env htime => ?_
    · exact hℓ.connections y a b τ hcut hτ (howner ▸ hc)
    · rcases hwait with hidle | ⟨rfl, rfl⟩
      · exact .inl hidle
      · obtain ⟨-, hhost, -⟩ := hopen h y τ hw.fd hτ
        obtain ⟨hother, hf⟩ := hdl.refused hreg hnamed hu hd hw hlive
        rw [htime] at hs
        exact .inr (hw.stays hlive hhost hother hf hs ha (hhost ▸ hup))
  · obtain ⟨⟨-, -, hserv⟩, -⟩ := hopen h x σ hw.fd hw.sess
    obtain ⟨-, hcl, -⟩ := hreg.nothing hw hw.fd hw.sess
    by_cases hne : c = e
    · subst hne
      obtain rfl := hw.goes hcl hserv he (hℓ.clients c hc) hs
      refine ⟨?_, ?_, ?_, fun _ _ _ _ hτ => hτ, [], rfl, by simp⟩
      · rw [setCoord_coord_self]
      · rw [setCoord_coord_self]
      · rw [setCoord_coord_self]
    · have hap := hce.apart (hreg.slotted e).owns hne
      refine ⟨by rw [hap.coord], by rw [hap.coord], by rw [hap.coord], fun k y τ hy hτ => ?_, hap.news⟩
      refine hce.untouched hτ fun k' hk' => ?_
      obtain ⟨υ, hυ, -, howner⟩ := hdisc.slot e k' y hk'
      obtain rfl := Option.some.inj (hυ.symm.trans hτ)
      exact hne ((hopen k y υ hy hτ).2.2.symm.trans howner)

theorem WaitsFor.step (hw : WaitsFor s c d h x σ req res) (hc : Unmoved c s s') (hd : Unmoved d s s')
    (hheld : lockOf (s'.node h).store req.key = some (s.coord d).beginTs) :
    WaitsFor s' c d h x σ req res :=
  ⟨hc.pc ▸ hw.pc, hc.storageCl ▸ hw.fd, hc.sess h x σ hw.fd hw.sess, hw.wait, hw.locks,
    hd.beginTs ▸ hheld, hw.other⟩

theorem Deadlock.waitsOn (hdl : Deadlock s W) (hreg : Regular cfg s) (hsorted : AllSorted s)
    (hdated : Dated s) (hnamed : LocksNamed s) (hs : Tpc.step cfg s ℓ = some s')
    (hℓ : LeftAlone cfg W s ℓ) (ha : Orderly s'.hist) : WaitsOn W s s' := by
  have hkept : ∀ c, W c → Unmoved c s s' := fun c hc => hdl.kept hreg hnamed hs hℓ ha hc
  refine ⟨hkept, fun c d h x σ req res hc hd hw => hw.step (hkept c hc) (hkept d hd) ?_⟩
  obtain ⟨_, h', _, _, _, _, -, hw'⟩ := hdl.waits d hd
  obtain ⟨cli', hpc'⟩ := hw'.pc
  have hf := hreg.holder (hdl.intact d hd) hpc' (hnamed h req.key _ hw.held)
  obtain ⟨ws, hws⟩ := Replays.step hsorted hreg hdated hs ha h
  exact (hws.kept hs ha hw.held hf).1

theorem Deadlock.on (hdl : Deadlock s W) (h : WaitsOn W s s') : Deadlock s' W := by
  refine ⟨fun c hc => ?_, fun c hc k y hy => ?_⟩
  · obtain ⟨d, h', x, σ, req, res, hd, hw⟩ := hdl.waits c hc
    exact ⟨d, h', x, σ, req, res, hd, h.locks c d h' x σ req res hc hd hw⟩
  · rw [(h.kept c hc).storageCl] at hy
    obtain ⟨σ, hσ, hrest⟩ := hdl.intact c hc k y hy
    exact ⟨σ, (h.kept c hc).sess k y σ hy hσ, hrest⟩

end Waits

section Runs

variable {cfg : Config} {s s' : Sys} {W : CoordId → Prop}

theorem WaitsOn.refl (W : CoordId → Prop) (s : Sys) : WaitsOn W s s :=
  ⟨fun c _ => .refl c s, fun _ _ _ _ _ _ _ _ _ h => h⟩

theorem WaitsOn.trans {t : Sys} (h : WaitsOn W s t) (h' : WaitsOn W t s') : WaitsOn W s s' :=
  ⟨fun c hc => (h.kept c hc).trans (h'.kept c hc),
    fun c d k x σ req res hc hd hw =>
      h'.locks c d k x σ req res hc hd (h.locks c d k x σ req res hc hd hw)⟩

/-- A deadlock is for good: as long as no client, no connection and no node of its sessions goes away,
each of their operations waits for its lock with the same holder, whatever everybody else does in an
orderly run, and gets no reply. -/
theorem deadlock_stays (cfg : Config) (hs : Reach cfg anyStep s) (hdl : Deadlock s W)
    (hr : Run cfg (LeftAlone cfg W) s s') (hdb : NoDbError s'.hist) (hu : DistinctBegin s'.hist)
    (hw : ClientsWait s'.hist) : Deadlock s' W ∧ WaitsOn W s s' := by
  induction hr with
  | refl => exact ⟨hdl, .refl W s⟩
  | @tail t s' hrun hstep ih =>
    obtain ⟨ℓ, hℓ, hstep⟩ := hstep
    have ha₀ := closed_orderly _ _ (step_hist hstep) ⟨hdb, hu, hw⟩
    obtain ⟨hdl, hon⟩ := ih ha₀.1 ha₀.2.1 ha₀.2.2
    have hreach : Reach cfg anyStep t := hs.run (Run.mono (fun _ _ _ => trivial) hrun)
    have hnamed := (hreach.carried ha₀.1 ha₀.2.1).2.2
    have hnext := hdl.waitsOn (hreach.regular ha₀) (hreach.allSorted ha₀) hreach.dated hnamed hstep hℓ
      ⟨hdb, hu, hw⟩
    exact ⟨hdl.on hnext, hon.trans hnext⟩

def crossed : List Label :=
  [.request (client 0) { requestType := .begin } (atUsec 100) 0 true true,
   .request (client 1) { requestType := .begin } (atUsec 110) 0 true true,
   .request (client 0) { requestType := .update, key := "b" } (atUsec 0) 0 true true,
   .recv 0 {}, .beginAnswer (client 0) true, .recv 0 {}, .opAnswer (client 0),
   .request (client 1) { requestType := .update, key := "a" } (atUsec 0) 1 true true,
   .recv 1 {}, .beginAnswer (client 1) true, .recv 1 {}, .opAnswer (client 1),
   .request (client 0) { requestType := .update, key := "a" } (atUsec 0) 2 true true,
   .recv 2 {}, .beginAnswer (client 0) true, .recv 2 {},
   .request (client 1) { requestType := .update, key := "b" } (atUsec 0) 3 true true,
   .recv 3 {}, .beginAnswer (client 1) true, .recv 3 {}]

def Both (c : CoordId) : Prop := c = client 0 ∨ c = client 1

def Crosses (s : Sys) (c : CoordId) (h k : Host) (x y : Nat) (key T : String) : Prop :=
  (s.coord c).pc = .opSent h { requestType := .update, key := key } ∧
  ((s.coord c).storageCl h).fd = some x ∧ ((s.coord c).storageCl k).fd = some y ∧
  (s.sess x).map Session.wait = some (.lock
    (opReq (s.coord c).beginTs { requestType := .update, key := key })
    { beginTs := (s.coord c).beginTs }) ∧
  lockOf (s.node h).store key = some T ∧
  ∀ z ∈ [x, y], (s.sess z).map (fun σ => (σ.live, σ.clClosed, σ.servClosed)) = some (true, false, false)

instance (s : Sys) (c : CoordId) (h k : Host) (x y : Nat) (key T : String) :
    Decidable (Crosses s c h k x y key T) :=
  inferInstanceAs (Decidable (_ ∧ _ ∧ _ ∧ _ ∧ _ ∧ _))

theorem Crosses.waitsFor {c d : CoordId} {h k : Host} {x y : Nat} {key : String}
    (hc : Crosses s c h k x y key (s.coord d).beginTs) (hne : d ≠ c) :
    ∃ σ req res, req.key = key ∧ WaitsFor s c d h x σ req res := by
  obtain ⟨hpc, hx, -, hwait, hheld, -⟩ := hc
  obtain ⟨σ, hσ, hwait⟩ := Option.map_eq_some_iff.mp hwait
  exact ⟨σ, _, _, rfl, ⟨_, hpc⟩, hx, hσ, hwait, nofun, hheld, hne⟩

theorem Crosses.intact {c : CoordId} {h k : Host} {x y : Nat} {key T : String}
    (hc : Crosses s c h k x y key T) (ht : Table cfg (s.coord c))
    (hhosts : ∀ n ∈ cfg.hosts, n = h ∨ n = k) : Intact s c := by
  obtain ⟨-, hx, hy, -, -, hopen⟩ := hc
  intro n z hz
  have hmem : z ∈ [x, y] := by
    rcases hhosts n (ht.host n (by simp [hz])) with rfl | rfl
    · simp [Option.some.inj (hz.symm.trans hx)]
    · simp [Option.some.inj (hz.symm.trans hy)]
  obtain ⟨σ, hσ, hflags⟩ := Option.map_eq_some_iff.mp (hopen z hmem)
  simp only [Prod.mk.injEq] at hflags
  exact ⟨σ, hσ, hflags⟩

theorem deadlock_stays_two : ∃ s s' : Sys, step twoHosts s (.timeout 2 {}) = some s' ∧ Deadlock s' Both ∧
    lockOf (s'.node hostB).store "a" = some (s'.coord (client 1)).beginTs ∧
    lockOf (s'.node hostA).store "b" = some (s'.coord (client 0)).beginTs := by
  have hrun : ((steps twoHosts anyStep {} crossed).bind fun s =>
      (step twoHosts s (.timeout 2 {})).map fun s' => decide (
        (Crosses s (client 0) hostB hostA 2 0 "a" (s.coord (client 1)).beginTs ∧
          Crosses s (client 1) hostA hostB 3 1 "b" (s.coord (client 0)).beginTs) ∧
        Orderly s'.hist ∧ (s'.node hostA).up = true ∧ (s'.node hostB).up = true)) = some true := by
    decide +kernel
  obtain ⟨s, hs, hrest⟩ := Option.bind_eq_some_iff.mp hrun
  obtain ⟨s', hs', hf⟩ := Option.map_eq_some_iff.mp hrest
  obtain ⟨⟨h0, h1⟩, ha, hA, hB⟩ := of_decide_eq_true hf
  have hreach : Reach twoHosts anyStep s := reach_of_steps .init hs
  have htable : ∀ c, Table twoHosts (s.coord c) := fun c => (hreach.slotted c).table
  have hhosts : ∀ n ∈ twoHosts.hosts, n = hostA ∨ n = hostB := by simp [twoHosts]
  obtain ⟨σ₀, req₀, res₀, ha₀, hw₀⟩ := h0.waitsFor (by decide)
  obtain ⟨σ₁, req₁, res₁, hb₁, hw₁⟩ := h1.waitsFor (by decide)
  have hdl : Deadlock s Both := by
    refine ⟨?_, ?_⟩
    · rintro c (rfl | rfl)
      · exact ⟨_, _, _, σ₀, req₀, res₀, .inr rfl, hw₀⟩
      · exact ⟨_, _, _, σ₁, req₁, res₁, .inl rfl, hw₁⟩
    · rintro c (rfl | rfl)
      · exact h0.intact (htable _) fun n hn => (hhosts n hn).symm
      · exact h1.intact (htable _) hhosts
  have halone : LeftAlone twoHosts Both s (.timeout 2 {}) := by
    refine ⟨fun c _ => ⟨nofun, nofun⟩, nofun, fun c k x t _ hx ht => ?_⟩
    obtain rfl := Option.some.inj (hs'.symm.trans ht)
    rcases hhosts k ((htable c).host k (by simp [hx])) with rfl | rfl
    · exact hA
    · exact hB
  obtain ⟨hdl', hon⟩ := deadlock_stays twoHosts hreach hdl
    (Relation.ReflTransGen.single ⟨_, halone, hs'⟩) ha.1 ha.2.1 ha.2.2
  have hheld₀ := (hon.locks _ _ _ _ _ _ _ (.inl rfl) (.inr rfl) hw₀).held
  have hheld₁ := (hon.locks _ _ _ _ _ _ _ (.inr rfl) (.inl rfl) hw₁).held
  exact ⟨s, s', hs', hdl', ha₀ ▸ hheld₀, hb₁ ▸ hheld₁⟩

end Runs

end Tpc
