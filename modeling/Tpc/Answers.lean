import Tpc.Commitment
import Tpc.Slots

/-! What a client session waits for, as long as its client waits for each reply: there is at most
one exchange at a time on each of its connections, so the answer that is counted for a Prepare
request is the answer to it. -/

namespace Tpc
open Durable PollCommit

structure Session.Quiet (σ : Session) : Prop where
  toServ : σ.toServ = []
  wait : σ.wait = .idle
  toCl : σ.toCl = []

/-- At most one request is under way, which satisfies `P`; `B` says whether its handler can wait, and
its answer satisfies `R`. -/
inductive Exchange (σ : Session) (P : RpcReq → Prop) (B : Prop) (R : ResMsg → Prop) : Prop
  | asked (m : RpcReq) : P m → σ.toServ = [m] → σ.wait = .idle → σ.toCl = [] → Exchange σ P B R
  | working : σ.toServ = [] → σ.toCl = [] → σ.wait = .idle ∨ B → Exchange σ P B R
  | answered (m : ResMsg) : R m → σ.toServ = [] → σ.wait = .idle → σ.toCl = [m] → Exchange σ P B R

def Joined (s : Sys) (T : String) (σ : Session) : Prop :=
  σ.live = true → σ.vars.beginTs = T ∧ transOf (s.node σ.host).store T ≠ none

def Voted (s : Sys) (h : Host) (T : String) : Prop := ∃ x, ((s.view T).vote h).self? = some x

inductive Stage
  | idle
  | begun
  | begins
  | operates
  | prepares
  | free

def InStage (s : Sys) (T : String) (σ : Session) : Stage → Prop
  | .idle => σ.Quiet
  | .begun => σ.Quiet ∧ Joined s T σ
  | .begins => Exchange σ (· = beginReq T) False fun m =>
      ∀ res, m = .rpcResponse res → res.result = 0 → Joined s T σ
  | .operates => Joined s T σ ∧ Exchange σ RpcReq.IsOp True fun _ => True
  | .prepares => Exchange σ (fun m => m.requestType = .prepare ∧ m.beginTs = T ∧ Joined s T σ) False
      fun _ => Voted s σ.host T
  | .free => True

def Coord.stage (co : Coord) (h : Host) : Stage :=
  let base := if (co.storageCl h).stat = .hasBegin then .begun else .idle
  match co.pc with
  | .top => if co.gone then .free else base
  | .beginSent h' _ => if h' = h then .begins else base
  | .opSent h' _ => if h' = h then .operates else base
  | .preparing todo _ =>
    if h ∈ todo then base
    else if (co.storageCl h).stat = .hasBegin then .prepares else .idle
  | .dangling => .free
  | .closed => .free

theorem stage_prepares {co : Coord} {h : Host} (hg : co.stage h = .prepares) :
    (co.storageCl h).stat = .hasBegin := by
  grind [Coord.stage]

theorem stage_congr {co co' : Coord} {h : Host} (hpc : co'.pc = co.pc) (hgone : co'.gone = co.gone)
    (hst : (co'.storageCl h).stat = (co.storageCl h).stat) : co'.stage h = co.stage h := by
  simp only [Coord.stage, hpc, hgone, hst]

section Connection

variable {s s' : Sys} {T : String} {σ σ' : Session} {g : Stage}

structure Keeps (T : String) (s s' : Sys) : Prop where
  known : ∀ h, transOf (s.node h).store T ≠ none → transOf (s'.node h).store T ≠ none
  voted : ∀ h, Voted s h T → Voted s' h T

theorem voteOf_eq_absent {o : Option Trans} : voteOf o = .absent ↔ o = none := by
  cases o with
  | none => simp [voteOf]
  | some t =>
    cases hs : t.state with
    | rollback =>
      simp only [voteOf, hs]
      split_ifs <;> simp
    | _ => simp [voteOf, hs]

theorem Keeps.of_later (h : Later (s.view T) (s'.view T)) : Keeps T s s' where
  known n hn hn' := by
    have hne : (s.view T).vote n ≠ .absent := fun he => hn (voteOf_eq_absent.mp he)
    exact h.known n hne (voteOf_eq_absent.mpr hn')
  voted n := fun ⟨x, hx⟩ => ⟨x, h.self n x hx⟩

theorem Joined.keeps (hk : Keeps T s s') (hj : Joined s T σ) : Joined s' T σ := fun hl =>
  ⟨(hj hl).1, hk.known _ (hj hl).2⟩

theorem Fades.quiet (h : Fades σ σ') (hq : σ.Quiet) : σ'.Quiet :=
  ⟨h.nil hq.toServ, h.idle hq.wait, List.sublist_nil.mp (hq.toCl ▸ h.toCl)⟩

theorem Fades.joined (h : Fades σ σ') (hk : Keeps T s s') (hj : Joined s T σ) : Joined s' T σ' := by
  intro hl
  obtain ⟨hl, hv⟩ := h.live hl
  rw [hv, h.host]
  exact hj.keeps hk hl

theorem Fades.exchange {P P' : RpcReq → Prop} {B : Prop} {R R' : ResMsg → Prop} (h : Fades σ σ')
    (hP : ∀ m, P m → P' m) (hR : ∀ m, R m → R' m) (he : Exchange σ P B R) : Exchange σ' P' B R' := by
  cases he with
  | asked m hm h1 h2 h3 =>
    have hcl : σ'.toCl = [] := List.sublist_nil.mp (h3 ▸ h.toCl)
    rcases List.sublist_singleton.mp (h1 ▸ h.toServ) with hs | hs
    · exact .working hs hcl (.inl (h.idle h2))
    · exact .asked m (hP m hm) hs (h.idle h2) hcl
  | working h1 h2 h3 =>
    refine .working (h.nil h1) (List.sublist_nil.mp (h2 ▸ h.toCl)) ?_
    rcases h.wait with hw | hw
    · rw [hw]
      exact h3
    · exact .inl hw
  | answered m hm h1 h2 h3 =>
    rcases List.sublist_singleton.mp (h3 ▸ h.toCl) with hs | hs
    · exact .working (h.nil h1) hs (.inl (h.idle h2))
    · exact .answered m (hR m hm) (h.nil h1) (h.idle h2) hs

theorem InStage.fades (hk : Keeps T s s') (hf : Fades σ σ') (h : InStage s T σ g) :
    InStage s' T σ' g := by
  cases g with
  | idle => exact hf.quiet h
  | begun => exact ⟨hf.quiet h.1, hf.joined hk h.2⟩
  | begins => exact hf.exchange (fun _ h => h) (fun m h res hm h0 => hf.joined hk (h res hm h0)) h
  | operates => exact ⟨hf.joined hk h.1, hf.exchange (fun _ h => h) (fun _ h => h) h.2⟩
  | prepares =>
    refine hf.exchange (fun m h => ⟨h.1, h.2.1, hf.joined hk h.2.2⟩) (fun _ h => ?_) h
    rw [hf.host]
    exact hk.voted _ h
  | free => trivial

theorem InStage.keeps (hk : Keeps T s s') (h : InStage s T σ g) : InStage s' T σ g :=
  h.fades hk (.of_closed σ σ.clClosed)

end Connection

section Segments

variable {cfg : Config} {A : Hist → Prop} {s s' : Sys} {T : String} {σ : Session} {g : Stage}
  {seg : Seg}

theorem after_response {r : ResMsg} (hn : seg.next = .response r) :
    (σ.after seg).wait = .idle ∧
      ((σ.after seg).toCl = σ.toCl ∨ (σ.after seg).toCl = σ.toCl ++ [r]) := by
  simp only [Session.after, hn, Session.answer]
  split_ifs
  · exact ⟨rfl, .inl rfl⟩
  · exact ⟨rfl, .inr rfl⟩

theorem after_toCl (hn : ∀ r, seg.next ≠ .response r) : (σ.after seg).toCl = σ.toCl := by
  unfold Session.after
  split
  · rename_i r hr
    exact absurd hr (hn r)
  · rfl
  · rfl

theorem Exchange.of_after {P : RpcReq → Prop} {B : Prop} {R : ResMsg → Prop} (hs : σ.toServ = [])
    (hcl : σ.toCl = []) (hB : ∀ w, seg.next = .wait w → B)
    (hR : ∀ r, seg.next = .response r → R r) : Exchange (σ.after seg) P B R := by
  have hs' : (σ.after seg).toServ = [] := by simpa using hs
  cases hn : seg.next with
  | response r =>
    obtain ⟨hw, hr | hr⟩ := after_response (σ := σ) hn
    · exact .working hs' (hr.trans hcl) (.inl hw)
    · exact .answered r (hR r hn) hs' hw (by rw [hr, hcl]; rfl)
  | wait w =>
    exact .working hs' ((after_toCl (by simp [hn])).trans hcl) (.inr (hB w hn))
  | leave =>
    refine .working hs' ((after_toCl (by simp [hn])).trans hcl) (.inl ?_)
    rcases after_wait σ seg rfl with hw | hw
    · exact hw
    · simp [hn] at hw

theorem CleanEnd.voted {self : Host} {l l' : Hist} {idle : Nat} {st st' : Db.Store}
    {o : Option TaskState} (h : CleanEnd self l l' idle T st o st') {t : Trans}
    (ht : transOf st T = some t) (hs : t.state = .prepared) :
    ∃ x, (voteOf (transOf st' T)).self? = some x := by
  have same : ∃ x, (voteOf (transOf st T)).self? = some x := by
    rw [ht, voteOf_of_prepared hs]
    exact ⟨_, rfl⟩
  have hcommit : ∀ trans c, ∃ x, (voteOf (transOf (commitStore st T trans c) T)).self? = some x := by
    intro trans c
    rw [commitStore, transOf_insert_self]
    exact ⟨_, rfl⟩
  cases h with
  | nothing => exact same
  | aborts t' ht' hb =>
    obtain rfl := Option.some.inj (ht.symm.trans ht')
    exact absurd (hs.symm.trans hb) (by decide)
  | resumes t' task _ _ ht' _ hr =>
    cases hr with
    | asks => exact same
    | decides m => exact hcommit _ m
  | declines => exact same
  | ends => exact same

theorem InStage.recv (hd : Disc cfg s) (hk : Keeps T s s') (hT : g = .prepares → T ≠ "") {x : Nat}
    {m : RpcReq} {rest : List RpcReq} {fates : List Fate} {fuel : Nat} {w : DbWorld}
    (hσ : s.sess x = some σ) (hlive : σ.live = true) (hm : σ.toServ = m :: rest)
    (hh : Handled A fates σ.host (s.idle σ.host) fuel σ.vars m (s.world σ.host) seg w)
    (hw : (s'.node σ.host).store = w.store)
    (hwrite : MayFail A → m.requestType = .prepare → writeFails fates = false)
    (h : InStage s T σ g) : InStage s' T (({ σ with toServ := rest } : Session).after seg) g := by
  set τ : Session := { σ with toServ := rest } with hτ
  have none : σ.toServ ≠ [] := by rw [hm]; simp
  cases g with
  | idle => exact absurd h.toServ none
  | begun => exact absurd h.1.toServ none
  | free => trivial
  | begins =>
    cases h with
    | working h1 => exact absurd h1 none
    | answered _ _ h1 => exact absurd h1 none
    | asked m' hb h1 _ hcl =>
      obtain ⟨rfl, rfl⟩ := List.cons_eq_cons.mp (h1.symm.trans hm)
      subst hb
      cases hh with
      | prepare hreq => simp [beginReq] at hreq
      | op hop => exact absurd hop (beginReq_not_isOp T)
      | begin _ hend _ =>
        generalize hst : w.store = st at hend hw
        cases hend with
        | refused res _ hres =>
          refine .of_after rfl hcl (by simp) fun r hr res' he h0 => ?_
          obtain rfl : ResMsg.rpcResponse res = r := by simpa using hr
          obtain rfl := ResMsg.rpcResponse.inj he
          rw [hres] at h0
          cases h0
        | failed ret _ hret =>
          refine .of_after rfl hcl (by simp) fun r hr res' he h0 => ?_
          obtain rfl : ResMsg.rpcResponse _ = r := by simpa using hr
          obtain rfl := ResMsg.rpcResponse.inj he
          exact absurd h0 hret.toUInt32_ne_zero
        | begun =>
          refine .of_after rfl hcl (by simp) fun r hr res' he h0 _ => ⟨by simp [beginReq], ?_⟩
          rw [after_host, hw, beginReq, transOf_insert_self]
          simp
  | operates =>
    obtain ⟨hj, hex⟩ := h
    cases hex with
    | working h1 => exact absurd h1 none
    | answered _ _ h1 => exact absurd h1 none
    | asked m' hop h1 _ hcl =>
      obtain ⟨rfl, rfl⟩ := List.cons_eq_cons.mp (h1.symm.trans hm)
      cases hh with
      | begin hreq => exact absurd hreq hop.1
      | prepare hreq => exact absurd hreq hop.2
      | op _ _ hkeep _ =>
        refine ⟨fun hl => ?_, .of_after rfl hcl (fun _ _ => trivial) fun _ _ => trivial⟩
        rw [after_vars, after_host, hkeep.1]
        exact hj.keeps hk (by simpa using hl)
  | prepares =>
    cases h with
    | working h1 => exact absurd h1 none
    | answered _ _ h1 => exact absurd h1 none
    | asked m' hp h1 _ hcl =>
      obtain ⟨rfl, rfl⟩ := List.cons_eq_cons.mp (h1.symm.trans hm)
      obtain ⟨htype, hmT, hj⟩ := hp
      obtain ⟨hv, hr⟩ := hj hlive
      have hvne : σ.vars.beginTs ≠ "" := by rw [hv]; exact hT rfl
      cases hh with
      | begin hreq => rw [htype] at hreq; cases hreq
      | op hop => exact absurd htype hop.2
      | prepare _ hend _ =>
        generalize hst : w.store = st at hend hw
        cases hend with
        | refused ts res _ hf =>
          have hrun : transOf (s.node σ.host).store σ.vars.beginTs = some {} := by
            refine (hd.rec_live x σ hσ hlive hvne).resolve_left ?_
            rw [hv]
            exact hr
          obtain ⟨hA, hfail⟩ := hf hvne (hv.trans hmT.symm) ⟨_, hrun, rfl⟩
          rw [hwrite hA htype] at hfail
          cases hfail
        | votes t c o st' _ _ _ _ _ hc =>
          refine .of_after rfl hcl (by simp) fun r _ => ?_
          obtain ⟨y, hy⟩ := hc.voted (transOf_insert_self ..) rfl
          refine ⟨y, ?_⟩
          rw [after_host]
          change (voteOf (transOf (s'.node σ.host).store T)).self? = some y
          rw [hw, ← hv]
          exact hy

theorem InStage.timeout (hk : Keeps T s s') (hseg : seg.Keeps σ.vars) (hw : σ.wait ≠ .idle)
    (h : InStage s T σ g) : InStage s' T (σ.after seg) g := by
  cases g with
  | idle => exact absurd h.wait hw
  | begun => exact absurd h.1.wait hw
  | free => trivial
  | begins =>
    cases h with
    | working _ _ h3 => exact absurd (h3.resolve_right id) hw
    | answered _ _ _ h2 => exact absurd h2 hw
    | asked _ _ _ h2 => exact absurd h2 hw
  | prepares =>
    cases h with
    | working _ _ h3 => exact absurd (h3.resolve_right id) hw
    | answered _ _ _ h2 => exact absurd h2 hw
    | asked _ _ _ h2 => exact absurd h2 hw
  | operates =>
    obtain ⟨hj, hex⟩ := h
    cases hex with
    | answered _ _ _ h2 => exact absurd h2 hw
    | asked _ _ _ h2 => exact absurd h2 hw
    | working h1 h2 =>
      refine ⟨fun hl => ?_, .of_after h1 h2 (fun _ _ => trivial) fun _ _ => trivial⟩
      rw [after_vars, after_host, hseg.1]
      exact hj.keeps hk (by simpa using hl)

theorem InStage.event (hk : Keeps T s s') {res : RpcRes} (hw : onEvent σ.wait = some res)
    (h : InStage s T σ g) :
    InStage s' T (({ σ with wait := .idle } : Session).answer (.rpcResponse res)) g := by
  have hne : σ.wait ≠ .idle := fun he => by simp [he, onEvent] at hw
  -- an event is answered like a segment that leaves the store alone
  have he : ({ σ with wait := .idle } : Session).answer (.rpcResponse res) =
      σ.after { vars := σ.vars, next := .response (.rpcResponse res) } := by
    simp [Session.after]
  rw [he]
  exact h.timeout hk ⟨rfl, rfl⟩ hne

end Segments

/-- A database call of `updateTransPrepared` fails in the step, for a connection of `c`. -/
def Sys.failsPrepare (s : Sys) (c : CoordId) : Label → Bool
  | .recv x env =>
    match s.sess x with
    | none => false
    | some σ =>
      match σ.toServ with
      | [] => false
      | m :: _ => σ.owner = c ∧ m.requestType = .prepare ∧ writeFails env.fates
  | _ => false

section NodeStep

variable {cfg : Config} {A : Hist → Prop} {s s' : Sys} {T : String} {c : CoordId} {ℓ : Label}
  {x : Nat} {σ σ' : Session} {g : Stage}

theorem InStage.setSess (hk : Keeps T s s') {y : Nat} {τ τ' : Session} (hσ : s.sess x = some σ)
    (hσ' : (s.setSess y τ').sess x = some σ') (hτ : s.sess y = some τ)
    (hstep : InStage s T τ g → InStage s' T τ' g) (h : InStage s T σ g) : InStage s' T σ' g := by
  rcases setSess_cases hσ' with ⟨rfl, rfl⟩ | ⟨-, hσ'⟩
  · obtain rfl := Option.some.inj (hσ.symm.trans hτ)
    exact hstep h
  · obtain rfl := Option.some.inj (hσ.symm.trans hσ')
    exact h.keeps hk

theorem InStage.node (hd : Disc cfg s) (hk : Keeps T s s') (hT : g = .prepares → T ≠ "")
    (hs : NodeStep A s ℓ s')
    (hwrite : MayFail A → s.failsPrepare c ℓ = false) (howner : σ.owner = c)
    (hσ : s.sess x = some σ)
    (hσ' : s'.sess x = some σ') (h : InStage s T σ g) : InStage s' T σ' g := by
  cases hs with
  | @recv y env τ m rest seg w hτ hlive _ hm _ hh =>
    rcases setSess_cases hσ' with ⟨rfl, rfl⟩ | ⟨-, hσ'⟩
    · obtain rfl := Option.some.inj (hσ.symm.trans hτ)
      refine h.recv hd hk hT hσ hlive hm hh (by rw [served_store, if_pos rfl]) fun hA hreq => ?_
      simpa [Sys.failsPrepare, hσ, hm, howner, hreq] using hwrite hA
    · obtain rfl := Option.some.inj (hσ.symm.trans hσ')
      exact h.keeps hk
  | @timeout y env τ seg w hτ _ _ hend hkeep _ =>
    refine h.setSess hk hσ hσ' hτ fun h => h.timeout hk hkeep fun he => ?_
    rw [he] at hend
    cases hend
  | @event y τ res hτ _ _ hev => exact h.setSess hk hσ hσ' hτ fun h => h.event hk hev
  | hangup hτ => exact h.setSess hk hσ hσ' hτ fun h => h.fades hk (.of_stop _)
  | taskSkip | taskRecv | taskAsk | startUp =>
    obtain rfl := Option.some.inj (hσ.symm.trans hσ')
    exact h.keeps hk
  | lost =>
    obtain ⟨τ, hτ, rfl⟩ := Option.map_eq_some_iff.mp hσ'
    obtain rfl := Option.some.inj (hσ.symm.trans hτ)
    split_ifs
    · exact h.fades hk (.of_stop _)
    · exact h.keeps hk
  | @cut y a b τ hτ =>
    have hf : Fades τ { τ with
        toServ := τ.toServ.take a, toCl := τ.toCl.take b, clClosed := true, servClosed := true } :=
      ⟨rfl, fun h => ⟨h, rfl⟩, List.take_sublist _ _, List.take_sublist _ _, .inl rfl⟩
    exact h.setSess hk hσ hσ' hτ fun h => h.fades hk hf

end NodeStep

/-- What the client session `c` can rely on, as long as its client waits for each reply. -/
structure Turns (cfg : Config) (c : CoordId) (s : Sys) : Prop where
  slot : ∀ h x σ, ((s.coord c).storageCl h).fd = some x → s.sess x = some σ →
    InStage s (s.coord c).beginTs σ ((s.coord c).stage h)
  idle : (s.coord c).beginTs = "" → ∀ h, ((s.coord c).storageCl h).stat = .init
  begins : ∀ h req, (s.coord c).pc = .beginSent h req → (s.coord c).beginTs ≠ ""
  op : ∀ h req, (s.coord c).pc = .opSent h req → req.IsOp
  todo : ∀ todo msg, (s.coord c).pc = .preparing todo msg →
    todo.Nodup ∧ ∀ h ∈ todo, ((s.coord c).storageCl h).stat = .hasBegin
  voted : ∀ todo msg, (s.coord c).pc = .preparing todo msg → ∀ h ∈ msg.transList,
    ((s.coord c).storageCl h).stat = .init → Voted s h (s.coord c).beginTs
  told : ∀ T res, .note (.replied c .commit T res) ∈ s.hist → res.result = 0 →
    ∃ st L, Planned s.hist c T st L ∧ ∀ h ∈ L, Voted s h T

theorem turns_init (cfg : Config) (c : CoordId) : Turns cfg c {} := by
  constructor <;> simp

section Turns

variable {cfg : Config} {A : Hist → Prop} {s s' : Sys} {c d : CoordId} {ℓ : Label}

theorem Turns.node (h : Turns cfg c s) (hd : Disc cfg s) (hk : ∀ T, Keeps T s s')
    (hs : NodeStep A s ℓ s') (hwrite : MayFail A → s.failsPrepare c ℓ = false) :
    Turns cfg c s' := by
  have hc : s'.coord c = s.coord c := by rw [hs.coord_eq]
  obtain ⟨n, hg⟩ := hs.grown
  have old : ∀ e : Event, (∀ n, ¬ e.Of n) → .note e ∈ s'.hist → .note e ∈ s.hist :=
    fun e he hm => hg.old_note (he n) hm
  refine ⟨fun n x σ' hx hσ' => ?_, ?_, ?_, ?_, ?_, fun todo msg hpc n hn hst => ?_,
    fun T res hm h0 => ?_⟩
  · rw [hc] at hx ⊢
    obtain ⟨σ, hσ, -, howner⟩ := hd.slot c n x hx
    refine (h.slot n x σ hx hσ).node hd (hk _) (fun hg => ?_) hs hwrite howner hσ hσ'
    intro hT
    have hst := h.idle hT n
    rw [stage_prepares hg] at hst
    cases hst
  · rw [hc]; exact h.idle
  · rw [hc]; exact h.begins
  · rw [hc]; exact h.op
  · rw [hc]; exact h.todo
  · rw [hc] at hpc hst ⊢
    exact (hk _).voted n (h.voted todo msg hpc n hn hst)
  · obtain ⟨st, L, hp, hv⟩ := h.told T res (old _ (fun n h => h) hm) h0
    exact ⟨st, L, hg.suffix.subset hp, fun n hn => (hk T).voted n (hv n hn)⟩

theorem Keeps.of_node_eq (h : s'.node = s.node) (T : String) : Keeps T s s' where
  known n hn := by rwa [h]
  voted n := fun ⟨x, hx⟩ => ⟨x, by
    have he : s'.view T = s.view T := by simp only [Sys.view, h]
    rwa [he]⟩

theorem Turns.apart (h : Turns cfg c s) (hd : Disc cfg s) (ha : Apart c s s')
    (hn : s'.node = s.node) (hl : s.hist <:+ s'.hist) : Turns cfg c s' := by
  have hk := Keeps.of_node_eq hn
  have hc := ha.coord
  refine ⟨fun n x σ' hx hσ' => ?_, ?_, ?_, ?_, ?_, fun todo msg hpc n hn hst => ?_,
    fun T res hm h0 => ?_⟩
  · rw [hc] at hx ⊢
    obtain ⟨σ, hσ, -, howner⟩ := hd.slot c n x hx
    obtain ⟨b, hb⟩ := ha.sess x σ hσ howner
    obtain rfl := Option.some.inj (hb.symm.trans hσ')
    exact (h.slot n x σ hx hσ).fades (hk _) (.of_closed σ _)
  · rw [hc]; exact h.idle
  · rw [hc]; exact h.begins
  · rw [hc]; exact h.op
  · rw [hc]; exact h.todo
  · rw [hc] at hpc hst ⊢
    exact (hk _).voted n (h.voted todo msg hpc n hn hst)
  · obtain ⟨st, L, hp, hv⟩ := h.told T res (ha.told T res hm) h0
    exact ⟨st, L, hl.subset hp, fun n hn => (hk T).voted n (hv n hn)⟩

theorem Turns.slots (h : Turns cfg c s) (hd : s.Owns c) {n : Host} (hnode : s'.node = s.node)
    (hT : (s'.coord c).beginTs = (s.coord c).beginTs)
    (hothers : ∀ k, k ≠ n → ((s'.coord c).storageCl k).fd = ((s.coord c).storageCl k).fd ∧
      ((s'.coord c).stage k = (s.coord c).stage k ∨ (s'.coord c).stage k = .free))
    (hsess : ∀ y σ, s.sess y = some σ → σ.host ≠ n → s'.sess y = some σ)
    (hn : ∀ y τ, ((s'.coord c).storageCl n).fd = some y → s'.sess y = some τ →
      InStage s (s.coord c).beginTs τ ((s'.coord c).stage n)) :
    ∀ k y τ, ((s'.coord c).storageCl k).fd = some y → s'.sess y = some τ →
      InStage s' (s'.coord c).beginTs τ ((s'.coord c).stage k) := by
  intro k y τ hy hτ
  have hk := Keeps.of_node_eq hnode (s.coord c).beginTs
  rw [hT]
  by_cases hkn : k = n
  · subst hkn
    exact (hn y τ hy hτ).keeps hk
  · obtain ⟨hfd, hstage⟩ := hothers k hkn
    rw [hfd] at hy
    obtain ⟨σ, hσ, hhost, -⟩ := hd k y hy
    obtain rfl := Option.some.inj ((hsess y σ hσ (by rw [hhost]; exact hkn)).symm.trans hτ)
    rcases hstage with hstage | hstage
    · rw [hstage]
      exact (h.slot k y σ hy hσ).keeps hk
    · rw [hstage]
      trivial

theorem Turns.told_of (h : Turns cfg c s) (hnode : s'.node = s.node) (hl : s.hist ⊆ s'.hist)
    (hnew : ∀ T res, .note (.replied c .commit T res) ∈ s'.hist → res.result = 0 →
      .note (.replied c .commit T res) ∈ s.hist) :
    ∀ T res, .note (.replied c .commit T res) ∈ s'.hist → res.result = 0 →
      ∃ st L, Planned s'.hist c T st L ∧ ∀ h ∈ L, Voted s' h T := by
  intro T res hm h0
  obtain ⟨st, L, hp, hv⟩ := h.told T res (hnew T res hm h0) h0
  exact ⟨st, L, hl hp, fun n hn => (Keeps.of_node_eq hnode T).voted n (hv n hn)⟩

theorem Turns.of_closed (h : Turns cfg c s) (hnode : s'.node = s.node) (hl : s.hist ⊆ s'.hist)
    (hpc : (s'.coord c).pc = .closed ∨ (s'.coord c).pc = .dangling)
    (hidle : (s'.coord c).beginTs = "" → ∀ h, ((s'.coord c).storageCl h).stat = .init)
    (hnew : ∀ T res, .note (.replied c .commit T res) ∈ s'.hist → res.result = 0 →
      .note (.replied c .commit T res) ∈ s.hist) : Turns cfg c s' := by
  have hstage : ∀ k, (s'.coord c).stage k = .free := by
    intro k
    rcases hpc with hpc | hpc <;> simp [Coord.stage, hpc]
  refine ⟨fun k x σ _ _ => ?_, hidle, ?_, ?_, ?_, ?_, h.told_of hnode hl hnew⟩
  · rw [hstage]
    trivial
  all_goals rcases hpc with hpc | hpc <;> simp [hpc]

theorem Turns.kill (h : Turns cfg c s) (s₁ : Sys) (hnode : s₁.node = s.node) (hl : s₁.hist = s.hist)
    (hidle : (s₁.coord c).beginTs = "" → ∀ h, ((s₁.coord c).storageCl h).stat = .init)
    (type : RequestType) (res : CliRes) : Turns cfg c (s₁.kill c type res) := by
  refine h.of_closed hnode ?_ (.inl (by simp [Sys.kill, Sys.endSession, Sys.setCoord])) ?_
    fun T r hm h0 => ?_
  · rw [← hl]
    exact List.subset_cons_self _ _
  · simpa [Sys.kill, Sys.endSession, Sys.setCoord, Sys.closeAll, Sys.reply, Sys.log] using hidle
  · rcases List.mem_cons.mp hm with hm | hm
    · obtain ⟨-, -, -, rfl⟩ := Event.replied.inj (Entry.note.inj hm)
      cases h0
    · exact hl ▸ hm

theorem Turns.log (h : Turns cfg c s) {e : Entry Proc Timeval Event}
    (he : ∀ T res, e = .note (.replied c .commit T res) → res.result ≠ 0) : Turns cfg c (s.log e) := by
  have hk : ∀ T, Keeps T s (s.log e) := Keeps.of_node_eq rfl
  refine ⟨fun n x σ hx hσ => (h.slot n x σ hx hσ).keeps (hk _), h.idle, h.begins, h.op, h.todo,
    fun todo msg hpc n hn hst => (hk _).voted n (h.voted todo msg hpc n hn hst),
    h.told_of rfl (List.subset_cons_self _ _) fun T res hm h0 => ?_⟩
  rcases List.mem_cons.mp hm with hm | hm
  · exact absurd h0 (he T res hm.symm)
  · exact hm

theorem Turns.reply (h : Turns cfg c s) {type : RequestType} {res : CliRes}
    (ht : type = .commit → res.result ≠ 0) : Turns cfg c (s.reply c type res) := by
  refine h.log fun T r he => ?_
  obtain ⟨-, htype, -, rfl⟩ := Event.replied.inj (Entry.note.inj he)
  exact ht htype

theorem Session.Quiet.send {σ : Session} (hq : σ.Quiet) {P : RpcReq → Prop} {B : Prop}
    {R : ResMsg → Prop} {m : RpcReq} (hm : P m) : Exchange (σ.send m) P B R := by
  unfold Session.send
  split
  · exact .working hq.toServ hq.toCl (.inl hq.wait)
  · exact .asked m hm (by simp [hq.toServ]) hq.wait hq.toCl

theorem joined_send {T : String} {σ : Session} {m : RpcReq} (hj : Joined s T σ) :
    Joined s T (σ.send m) := by
  intro hl
  rw [send_vars, send_host]
  exact hj (by simpa using hl)

theorem opReq_isOp {T : String} {req : CliReq} (h : req.IsOp) : (opReq T req).IsOp :=
  ⟨h.1, h.2.1⟩

theorem Turns.move (h : Turns cfg c s) (hd : s.Owns c) {n : Host} {x : Nat} {σ τ : Session}
    {co' : Coord} (hx : ((s.coord c).storageCl n).fd = some x) (hσ : s.sess x = some σ)
    (hT : co'.beginTs = (s.coord c).beginTs)
    (hothers : ∀ k, k ≠ n → co'.storageCl k = (s.coord c).storageCl k ∧
      (co'.stage k = (s.coord c).stage k ∨ co'.stage k = .free))
    (hn : (co'.storageCl n).fd = some x ∧ InStage s (s.coord c).beginTs τ (co'.stage n) ∨
      (co'.storageCl n).fd = none)
    (hidle : co'.beginTs = "" → ∀ h, (co'.storageCl h).stat = .init)
    (hbegins : ∀ h req, co'.pc = .beginSent h req → co'.beginTs ≠ "")
    (hop : ∀ h req, co'.pc = .opSent h req → req.IsOp)
    (htodo : ∀ todo msg, co'.pc = .preparing todo msg →
      todo.Nodup ∧ ∀ h ∈ todo, (co'.storageCl h).stat = .hasBegin)
    (hvoted : ∀ todo msg, co'.pc = .preparing todo msg → ∀ h ∈ msg.transList,
      (co'.storageCl h).stat = .init → Voted s h co'.beginTs) :
    Turns cfg c ((s.setSess x τ).setCoord c co') := by
  obtain ⟨ρ, hρ, hhost, -⟩ := hd n x hx
  obtain rfl := Option.some.inj (hσ.symm.trans hρ)
  have hc : ((s.setSess x τ).setCoord c co').coord c = co' := by simp [Sys.setCoord]
  have hs : ((s.setSess x τ).setCoord c co').sess = Function.update s.sess x (some τ) := rfl
  refine ⟨h.slots hd (n := n) rfl (by rw [hc, hT]) (fun k hk => ?_) (fun y υ hυ hne => ?_)
    (fun y ρ hy hρ => ?_), by rwa [hc], by rwa [hc], by rwa [hc], by rwa [hc], by rwa [hc],
    h.told_of rfl (List.Subset.refl _) fun _ _ hm _ => hm⟩
  · rw [hc, (hothers k hk).1]
    exact ⟨rfl, (hothers k hk).2⟩
  · have hyx : y ≠ x := by
      rintro rfl
      obtain rfl := Option.some.inj (hσ.symm.trans hυ)
      exact hne hhost
    rw [hs, Function.update_of_ne hyx, hυ]
  · rw [hc] at hy ⊢
    rcases hn with ⟨hfd, hin⟩ | hfd
    · obtain rfl := Option.some.inj (hfd.symm.trans hy)
      rw [hs, Function.update_self] at hρ
      obtain rfl := Option.some.inj hρ
      exact hin
    · rw [hfd] at hy
      cases hy

theorem Turns.sendOp (h : Turns cfg c s) (hd : s.Owns c) {n : Host} {x : Nat} {σ τ : Session}
    {req : CliReq} (hbase : ∀ k, k ≠ n → (s.coord c).stage k =
      if ((s.coord c).storageCl k).stat = .hasBegin then .begun else .idle)
    (hx : ((s.coord c).storageCl n).fd = some x) (hσ : s.sess x = some σ) (hq : τ.Quiet)
    (hj : Joined s (s.coord c).beginTs τ) (hop : req.IsOp) : Turns cfg c (s.sendOp c x τ n req) := by
  refine h.move hd (n := n) hx hσ rfl (fun k hk => ⟨rfl, ?_⟩) (.inl ⟨hx, ?_⟩) h.idle (by simp)
    (fun k r he => ?_) (by simp) (by simp)
  · rw [hbase k hk]
    exact .inl (by simp [Coord.stage, Ne.symm hk])
  · simp only [Coord.stage, reduceIte]
    exact ⟨joined_send hj, hq.send (opReq_isOp hop)⟩
  · obtain ⟨-, rfl⟩ := CoordPc.opSent.inj he
    exact hop

theorem stage_top {co : Coord} (htop : co.pc = .top) (hgone : co.gone = false) (h : Host) :
    co.stage h = if (co.storageCl h).stat = .hasBegin then .begun else .idle := by
  simp [Coord.stage, htop, hgone]

theorem Turns.quiet (h : Turns cfg c s) (htop : (s.coord c).pc = .top)
    (hgone : (s.coord c).gone = false) {n : Host} {x : Nat} {σ : Session} {stat : Stat}
    (hslot : s.Slot c n stat x σ) :
    σ.Quiet ∧ (stat = .hasBegin → Joined s (s.coord c).beginTs σ) := by
  have hin := h.slot n x σ (by rw [hslot.slot]) hslot.sess
  rw [stage_top htop hgone, hslot.slot] at hin
  cases stat with
  | init => exact ⟨hin, by simp⟩
  | hasBegin => exact ⟨hin.1, fun _ => hin.2⟩

theorem Turns.begins_step (h : Turns cfg c s) {tv : Timeval} (htop : (s.coord c).pc = .top)
    (hgone : (s.coord c).gone = false) (hT : (s.coord c).beginTs = "") :
    Turns cfg c ((s.logBegin c tv).setCoord c { s.coord c with beginTs := getTS tv }) := by
  have hlog : Turns cfg c (s.logBegin c tv) := (h.log (by simp)).log (by simp)
  have hc : ((s.logBegin c tv).setCoord c { s.coord c with beginTs := getTS tv }).coord c =
      { s.coord c with beginTs := getTS tv } := by simp [Sys.setCoord]
  have hinit := h.idle hT
  have hstage : ∀ n, ({ s.coord c with beginTs := getTS tv } : Coord).stage n = .idle := fun n =>
    (@stage_top { s.coord c with beginTs := getTS tv } htop hgone n).trans
      (if_neg (by simp [hinit n]))
  refine ⟨fun n x σ hx hσ => ?_, ?_, ?_, ?_, ?_, ?_, hlog.told⟩
  · rw [hc] at hx ⊢
    have hin := h.slot n x σ hx hσ
    rw [stage_top htop hgone, if_neg (by simp [hinit n])] at hin
    rw [hstage]
    exact hin
  · rw [hc]; exact fun _ => hinit
  all_goals rw [hc]; simp [htop]

theorem Turns.plans_step (h : Turns cfg c s) (hd : Disc cfg s) {tv : Timeval}
    (htop : (s.coord c).pc = .top) (hgone : (s.coord c).gone = false)
    (hT : (s.coord c).beginTs ≠ "") :
    Turns cfg c ((s.logPlan cfg c tv).setCoord c
      { s.coord c with
        startTs := getTS tv
        pc := .preparing ((s.coord c).participants cfg)
          (prepareReq (s.coord c).beginTs (getTS tv) ((s.coord c).participants cfg)) }) := by
  have hlog : Turns cfg c (s.logPlan cfg c tv) := (h.log (by simp)).log (by simp)
  set L := (s.coord c).participants cfg with hL
  set co' : Coord := { s.coord c with
    startTs := getTS tv, pc := .preparing L (prepareReq (s.coord c).beginTs (getTS tv) L) } with hco'
  have hc : ((s.logPlan cfg c tv).setCoord c co').coord c = co' := by simp [Sys.setCoord]
  refine ⟨fun n x σ hx hσ => ?_, ?_, ?_, ?_, ?_, ?_, hlog.told⟩
  · rw [hc] at hx ⊢
    have hin := h.slot n x σ hx hσ
    -- a connection on which the transaction was begun is that of a participant
    have hstage : co'.stage n = (s.coord c).stage n := by
      rw [stage_top htop hgone]
      simp only [Coord.stage, hco']
      by_cases hst : ((s.coord c).storageCl n).stat = .hasBegin
      · obtain ⟨ρ, hρ, rfl, -⟩ := hd.slot c n x hx
        have hfd : ((s.coord c).storageCl ρ.host).fd = some x := hx
        rw [if_pos (mem_participants.mpr ⟨hd.host x ρ hρ, by simp [hfd], hst⟩)]
      · simp [hst]
    rw [hstage]
    exact hin
  · rw [hc]; exact fun he => absurd he hT
  · rw [hc]; simp [hco']
  · rw [hc]; simp [hco']
  · rw [hc]
    intro todo msg he
    obtain ⟨rfl, -⟩ := CoordPc.preparing.inj he
    exact ⟨cfg.hosts_nodup.filter _, fun n hn => (mem_participants.mp hn).2.2⟩
  · rw [hc]
    intro todo msg he n hn hst
    obtain ⟨-, rfl⟩ := CoordPc.preparing.inj he
    have hhas := (mem_participants.mp (show n ∈ L from hn)).2.2
    exact absurd (hhas.symm.trans hst) (by decide)

theorem Turns.sendBegin (h : Turns cfg c s) (hd : s.Owns c) {n : Host} {x : Nat} {σ τ : Session}
    {req : CliReq} (htop : (s.coord c).pc = .top) (hgone : (s.coord c).gone = false)
    (hT : (s.coord c).beginTs ≠ "") (hx : ((s.coord c).storageCl n).fd = some x)
    (hσ : s.sess x = some σ) (hq : τ.Quiet) : Turns cfg c (s.sendBegin c x τ n req) := by
  refine h.move hd (n := n) hx hσ rfl (fun k hk => ⟨rfl, ?_⟩) (.inl ⟨hx, ?_⟩) h.idle
    (fun _ _ _ => hT) (by simp) (by simp) (by simp)
  · rw [stage_top htop hgone]
    exact .inl (by simp [Coord.stage, Ne.symm hk])
  · simp only [Coord.stage, reduceIte]
    exact hq.send rfl

theorem Turns.connect (h : Turns cfg c s) (hd : s.Owns c) {n : Host} {x : Nat}
    (htop : (s.coord c).pc = .top) (hgone : (s.coord c).gone = false)
    (hT : (s.coord c).beginTs ≠ "") (hst : ((s.coord c).storageCl n).stat = .init)
    (hx : s.sess x = none) : Turns cfg c (s.connect c n x) := by
  set co' := (s.coord c).setSlot n { (s.coord c).storageCl n with fd := some x } with hco'
  have hc : (s.connect c n x).coord c = co' := by simp [Sys.connect, Sys.setCoord, hco']
  have htop' : co'.pc = .top := htop
  have hgone' : co'.gone = false := hgone
  have hslot : ∀ k, (co'.storageCl k).stat = ((s.coord c).storageCl k).stat := by
    intro k
    simp only [hco', Coord.setSlot, Function.update_apply]
    split_ifs with hk
    · rw [hk]
    · rfl
  have hs : (s.connect c n x).sess = Function.update s.sess x (some { host := n, owner := c }) := rfl
  refine ⟨h.slots hd (n := n) rfl (by rw [hc]; rfl) (fun k hk => ?_)
    (fun y υ hυ _ => ?_) (fun y ρ hy hρ => ?_), ?_, ?_, ?_, ?_, ?_,
    h.told_of rfl (List.Subset.refl _) fun _ _ hm _ => hm⟩
  · rw [hc, stage_top htop hgone, stage_top htop' hgone', hslot]
    exact ⟨by simp [hco', Coord.setSlot, hk], .inl rfl⟩
  · have hyx : y ≠ x := by
      rintro rfl
      rw [hx] at hυ
      cases hυ
    rw [hs, Function.update_of_ne hyx, hυ]
  · rw [hc] at hy ⊢
    obtain rfl : x = y := by simpa [hco', Coord.setSlot] using hy
    rw [hs, Function.update_self] at hρ
    obtain rfl := Option.some.inj hρ
    rw [stage_top htop' hgone', hslot, if_neg (by simp [hst])]
    exact ⟨rfl, rfl, rfl⟩
  · rw [hc]; exact fun he => absurd he hT
  all_goals rw [hc]; simp [htop']

theorem Turns.marks (h : Turns cfg c s) {n : Host} {x : Nat} {req : CliReq}
    (hpc : (s.coord c).pc = .beginSent n req) (hx : ((s.coord c).storageCl n).fd = some x) :
    Turns cfg c (s.setCoord c ((s.coord c).setSlot n { fd := some x, stat := .hasBegin })) := by
  set co' := (s.coord c).setSlot n { fd := some x, stat := .hasBegin } with hco'
  have hc : (s.setCoord c co').coord c = co' := by simp [Sys.setCoord]
  have hpc' : co'.pc = .beginSent n req := hpc
  have hfd : ∀ k, (co'.storageCl k).fd = ((s.coord c).storageCl k).fd := by
    intro k
    simp only [hco', Coord.setSlot, Function.update_apply]
    split_ifs with hk
    · rw [hk, hx]
    · rfl
  have hstage : ∀ k, co'.stage k = (s.coord c).stage k := by
    intro k
    by_cases hk : n = k
    · simp [Coord.stage, hpc, hpc', hk]
    · have hslot : co'.storageCl k = (s.coord c).storageCl k := Function.update_of_ne (Ne.symm hk) _ _
      simp [Coord.stage, hpc, hpc', hk, hslot]
  refine ⟨fun k y σ hy hσ => ?_, ?_, ?_, ?_, ?_, ?_,
    h.told_of rfl (List.Subset.refl _) fun _ _ hm _ => hm⟩
  · rw [hc, hfd] at hy
    rw [hc, hstage]
    exact (h.slot k y σ hy hσ).keeps (Keeps.of_node_eq rfl _)
  · rw [hc]; exact fun he => absurd he (h.begins n req hpc)
  · rw [hc]; exact fun k r _ => h.begins n req hpc
  all_goals rw [hc]; simp [hpc']

theorem Session.quiet_read {σ : Session} {m : ResMsg} {rest : List ResMsg} {P : RpcReq → Prop} {B : Prop}
    {R : ResMsg → Prop} (hcl : σ.toCl = m :: rest) (he : Exchange σ P B R) :
    ({ σ with toCl := rest } : Session).Quiet ∧ R m := by
  cases he with
  | asked _ _ _ _ h3 => simp [h3] at hcl
  | working _ h2 => simp [h2] at hcl
  | answered m' hm h1 h2 h3 =>
    obtain ⟨rfl, rfl⟩ := List.cons_eq_cons.mp (h3.symm.trans hcl)
    exact ⟨⟨h1, h2, rfl⟩, hm⟩

theorem Turns.hears (h : Turns cfg c s) (hd : s.Owns c) {n : Host} {x : Nat} {σ : Session}
    {stat : Stat} {req : CliReq} {m : ResMsg} {rest : List ResMsg}
    (hpc : (s.coord c).pc = .opSent n req) (hslot : s.Slot c n stat x σ) (hcl : σ.toCl = m :: rest) :
    Turns cfg c ((s.read x σ rest).setCoord c { s.coord c with pc := .top }) := by
  have hx : ((s.coord c).storageCl n).fd = some x := by rw [hslot.slot]
  have hin := h.slot n x σ hx hslot.sess
  simp only [Coord.stage, hpc, reduceIte] at hin
  have hq := (Session.quiet_read hcl hin.2).1
  by_cases hgone : (s.coord c).gone = true
  · have hfree : ∀ k, ({ s.coord c with pc := .top } : Coord).stage k = .free := fun k => by
      simp [Coord.stage, hgone]
    refine h.move hd (n := n) hx hslot.sess rfl (fun k _ => ⟨rfl, .inr (hfree k)⟩) (.inl ⟨hx, ?_⟩)
      h.idle (by simp) (by simp) (by simp) (by simp)
    rw [hfree]
    trivial
  · refine h.move hd (n := n) hx hslot.sess rfl (fun k hk => ⟨rfl, .inl ?_⟩) (.inl ⟨hx, ?_⟩) h.idle
      (by simp) (by simp) (by simp) (by simp)
    · simp [Coord.stage, hpc, Ne.symm hk, hgone]
    · rw [@stage_top { s.coord c with pc := .top } rfl (by simpa using hgone)]
      split_ifs
      · exact ⟨hq, hin.1⟩
      · exact hq

theorem Turns.hearsBegin (h : Turns cfg c s) (hd : s.Owns c) {n : Host} {x : Nat} {σ : Session}
    {stat : Stat} {req : CliReq} {res : RpcRes} {rest : List ResMsg}
    (hpc : (s.coord c).pc = .beginSent n req) (hslot : s.Slot c n stat x σ) (hop : req.IsOp)
    (hcl : σ.toCl = .rpcResponse res :: rest) (h0 : res.result = 0) :
    Turns cfg c ((s.setCoord c ((s.coord c).setSlot n { fd := some x, stat := .hasBegin })).sendOp c x
      { σ with toCl := rest } n req) := by
  have hx : ((s.coord c).storageCl n).fd = some x := by rw [hslot.slot]
  have hin := h.slot n x σ hx hslot.sess
  simp only [Coord.stage, hpc, reduceIte] at hin
  obtain ⟨hq, hj⟩ := Session.quiet_read hcl hin
  set s' := s.setCoord c ((s.coord c).setSlot n { fd := some x, stat := .hasBegin }) with hs'
  have hc : s'.coord c = (s.coord c).setSlot n { fd := some x, stat := .hasBegin } := by
    simp [hs', Sys.setCoord]
  have hfd : ∀ k, ((s'.coord c).storageCl k).fd = ((s.coord c).storageCl k).fd := by
    intro k
    rw [hc]
    simp only [Coord.setSlot, Function.update_apply]
    split_ifs with hk
    · rw [hk, hx]
    · rfl
  refine (h.marks hpc hx).sendOp (fun k y hy => hd k y ((hfd k).symm.trans hy)) (fun k hk => ?_)
    ((hfd n).trans hx) hslot.sess hq ?_ hop
  · rw [hc]
    simp [Coord.stage, Coord.setSlot, hpc, Ne.symm hk]
  · rw [hc]
    exact hj res rfl h0

theorem Turns.sendsPrepare (h : Turns cfg c s) (hd : Disc cfg s) {n : Host} {x : Nat} {σ : Session}
    {stat : Stat} {todo : List Host} {msg : RpcReq} (hpc : (s.coord c).pc = .preparing (n :: todo) msg)
    (hslot : s.Slot c n stat x σ) :
    Turns cfg c ((s.setSess x (σ.send msg)).setCoord c
      { s.coord c with pc := .preparing todo msg }) := by
  have hx : ((s.coord c).storageCl n).fd = some x := by rw [hslot.slot]
  obtain ⟨hnodup, hhas⟩ := h.todo _ _ hpc
  obtain ⟨hnot, hnodup⟩ := List.nodup_cons.mp hnodup
  have hst := hhas n (.head _)
  obtain ⟨L, rfl, -, -⟩ := (hd.session c).preparing _ _ hpc
  have hin := h.slot n x σ hx hslot.sess
  simp only [Coord.stage, hpc, List.mem_cons, true_or, if_true, hst] at hin
  refine h.move (hd.owns c) (n := n) hx hslot.sess rfl (fun k hk => ⟨rfl, .inl ?_⟩)
    (.inl ⟨hx, ?_⟩) h.idle (by simp) (by simp) (fun todo' msg' he => ?_) (fun todo' msg' he => ?_)
  · simp [Coord.stage, hpc, hk]
  · simp only [Coord.stage, if_neg hnot, hst, if_true]
    exact hin.1.send ⟨rfl, rfl, joined_send hin.2⟩
  · obtain ⟨rfl, -⟩ := CoordPc.preparing.inj he
    exact ⟨hnodup, fun k hk => hhas k (.tail _ hk)⟩
  · obtain ⟨-, rfl⟩ := CoordPc.preparing.inj he
    exact h.voted _ _ hpc

theorem Turns.collects (h : Turns cfg c s) (hd : s.Owns c) {n : Host} {x : Nat} {σ : Session}
    {msg : RpcReq} {m : ResMsg} {rest : List ResMsg} (hpc : (s.coord c).pc = .preparing [] msg)
    (hslot : s.Slot c n .hasBegin x σ) (hcl : σ.toCl = m :: rest) :
    Turns cfg c ((s.read x σ rest).setCoord c
      ((s.coord c).setSlot n { fd := some x, stat := .init })) := by
  have hx : ((s.coord c).storageCl n).fd = some x := by rw [hslot.slot]
  have hin := h.slot n x σ hx hslot.sess
  obtain ⟨ρ, hρ, hhost, -⟩ := hd n x hx
  obtain rfl := Option.some.inj (hslot.sess.symm.trans hρ)
  simp only [Coord.stage, hpc, List.not_mem_nil, if_false, hslot.slot, if_true] at hin
  obtain ⟨hq, hv⟩ := Session.quiet_read hcl hin
  set co' := (s.coord c).setSlot n { fd := some x, stat := .init } with hco'
  have hself : co'.storageCl n = { fd := some x, stat := .init } := Function.update_self ..
  have hne : ∀ k, k ≠ n → co'.storageCl k = (s.coord c).storageCl k := fun k hk =>
    Function.update_of_ne hk _ _
  have hpc' : co'.pc = .preparing [] msg := hpc
  refine h.move hd (n := n) hx hslot.sess rfl (fun k hk => ⟨hne k hk, .inl ?_⟩)
    (.inl ⟨by rw [hself], ?_⟩) (fun hT k => ?_) (by simp [hpc']) (by simp [hpc'])
    (fun todo msg' he => ?_) (fun todo msg' he k hk hst => ?_)
  · simp [Coord.stage, hpc, hpc', hne k hk]
  · simp only [Coord.stage, hpc', List.not_mem_nil, if_false, hself]
    exact hq
  · by_cases hk : k = n
    · rw [hk, hself]
    · rw [hne k hk]
      exact h.idle hT k
  · obtain ⟨rfl, -⟩ := CoordPc.preparing.inj (hpc'.symm.trans he)
    simp
  · obtain ⟨-, rfl⟩ := CoordPc.preparing.inj (hpc'.symm.trans he)
    by_cases hkn : k = n
    · rw [hkn, ← hhost]
      exact hv
    · rw [hne k hkn] at hst
      exact h.voted _ _ hpc k hk hst

theorem Turns.drops (h : Turns cfg c s) (hd : s.Owns c) {n : Host} {x : Nat} {σ : Session}
    (hslot : s.Slot c n .init x σ) : Turns cfg c (s.drop c n x σ) := by
  have hx : ((s.coord c).storageCl n).fd = some x := by rw [hslot.slot]
  set co' := (s.coord c).setSlot n {} with hco'
  have hself : co'.storageCl n = {} := Function.update_self ..
  have hne : ∀ k, k ≠ n → co'.storageCl k = (s.coord c).storageCl k := fun k hk =>
    Function.update_of_ne hk _ _
  have hstat : ∀ k, (co'.storageCl k).stat = ((s.coord c).storageCl k).stat := by
    intro k
    by_cases hk : k = n
    · rw [hk, hself, hslot.slot]
    · rw [hne k hk]
  refine h.move hd (n := n) hx hslot.sess rfl
    (fun k hk => ⟨hne k hk, .inl (stage_congr rfl rfl (hstat k))⟩) (.inr (by rw [hself]))
    (fun hT k => (hstat k).trans (h.idle hT k)) h.begins h.op (fun todo msg he => ?_)
    fun todo msg he k hk hst => h.voted todo msg he k hk ((hstat k).symm.trans hst)
  obtain ⟨hnodup, hhas⟩ := h.todo todo msg he
  exact ⟨hnodup, fun k hk => (hstat k).trans (hhas k hk)⟩

theorem Turns.completes (h : Turns cfg c s) (hd : Disc cfg s) {msg : RpcReq} {res : CliRes}
    (hpc : (s.coord c).pc = .preparing [] msg)
    (hall : ∀ h ∈ cfg.hosts, ((s.coord c).storageCl h).stat = .init) :
    Turns cfg c ((s.reply c .commit res).setCoord c
      { s.coord c with beginTs := "", startTs := "", pc := .top }) := by
  obtain ⟨L, rfl, hplan, -⟩ := (hd.session c).preparing _ _ hpc
  have hinit : ∀ n, ((s.coord c).storageCl n).stat = .init := by
    intro n
    cases hst : ((s.coord c).storageCl n).stat with
    | init => rfl
    | hasBegin =>
      obtain ⟨x, hx⟩ := Option.ne_none_iff_exists'.mp ((hd.session c).stat n hst)
      obtain ⟨σ, hσ, rfl, -⟩ := hd.slot c n x hx
      exact absurd ((hall _ (hd.host x σ hσ)).symm.trans hst) (by decide)
  have hk : ∀ T, Keeps T s (s.reply c .commit res) := Keeps.of_node_eq rfl
  set co' : Coord := { s.coord c with beginTs := "", startTs := "", pc := .top } with hco'
  set s' := (s.reply c .commit res).setCoord c co' with hs'
  have hc : s'.coord c = co' := by simp [hs', Sys.setCoord]
  have hnode : s'.node = s.node := rfl
  refine ⟨fun n x σ hx hσ => ?_, by rw [hc]; exact fun _ => hinit, by rw [hc]; simp [hco'],
    by rw [hc]; simp [hco'], by rw [hc]; simp [hco'], by rw [hc]; simp [hco'], fun T r hm h0 => ?_⟩
  · rw [hc] at hx ⊢
    have hin := h.slot n x σ hx hσ
    simp only [Coord.stage, hpc, List.not_mem_nil, if_false, hinit n] at hin
    by_cases hgone : (s.coord c).gone = true
    · have hfree : co'.stage n = .free := by simp [Coord.stage, hco', hgone]
      rw [hfree]
      trivial
    · rw [@stage_top co' rfl (by simpa [hco'] using hgone), if_neg (by simp [hco', hinit n])]
      exact hin
  · rcases List.mem_cons.mp hm with hm | hm
    · obtain ⟨-, -, rfl, rfl⟩ := Event.replied.inj (Entry.note.inj hm)
      refine ⟨_, L, .tail _ hplan, fun n hn => (Keeps.of_node_eq hnode _).voted n ?_⟩
      exact h.voted _ _ hpc n hn (hinit n)
    · obtain ⟨st, L', hp, hv⟩ := h.told T r hm h0
      exact ⟨st, L', .tail _ hp, fun n hn => (Keeps.of_node_eq hnode T).voted n (hv n hn)⟩

theorem Turns.goes (h : Turns cfg c s) :
    Turns cfg c (s.setCoord c { s.coord c with gone := true }) := by
  have hc : (s.setCoord c { s.coord c with gone := true }).coord c =
      { s.coord c with gone := true } := by simp [Sys.setCoord]
  refine ⟨fun n x σ hx hσ => ?_, ?_, ?_, ?_, ?_, ?_,
    h.told_of rfl (List.Subset.refl _) fun _ _ hm _ => hm⟩
  · rw [hc] at hx ⊢
    have hin := (h.slot n x σ hx hσ).keeps (Keeps.of_node_eq
      (rfl : (s.setCoord c { s.coord c with gone := true }).node = s.node) (s.coord c).beginTs)
    cases hpc : (s.coord c).pc <;> simp only [Coord.stage, hpc] at hin ⊢
    case top => trivial
    all_goals exact hin
  · rw [hc]; exact h.idle
  · rw [hc]; exact h.begins
  · rw [hc]; exact h.op
  · rw [hc]; exact h.todo
  · rw [hc]; exact h.voted

theorem Turns.leaves (h : Turns cfg c s) (hgone : (s.coord c).gone = true) :
    Turns cfg c (s.setCoord c { s.coord c with pc := .top }) := by
  have hc : (s.setCoord c { s.coord c with pc := .top }).coord c =
      { s.coord c with pc := .top } := by simp [Sys.setCoord]
  refine ⟨fun k x σ _ _ => ?_, ?_, ?_, ?_, ?_, ?_,
    h.told_of rfl (List.Subset.refl _) fun _ _ hm _ => hm⟩
  · rw [hc]
    simp [Coord.stage, hgone, InStage]
  · rw [hc]; exact h.idle
  all_goals rw [hc]; simp

theorem Turns.coord (h : Turns cfg c s) (hd : Disc cfg s) {ℓ : Label} (hs : CoordStep cfg s c ℓ s')
    (hearly : .note (.early c) ∉ s'.hist) : Turns cfg c s' := by
  have ho := hd.owns c
  have fd : ∀ {n x stat σ}, s.Slot c n stat x σ → ((s.coord c).storageCl n).fd = some x :=
    fun hslot => by rw [hslot.slot]
  cases hs with
  | replies type res _ hres => exact h.reply fun ht => hres.resolve_left (by simp [ht])
  | begins tv htop hgone hT => exact (h.begins_step htop hgone hT).reply (by simp)
  | plans tv htop hgone hT => exact h.plans_step hd htop hgone hT
  | rollsBack reused htop hgone hT =>
    have hr : Turns cfg c (s.reply c .rollback { beginTs := (s.coord c).beginTs }) :=
      h.reply (by simp)
    refine ⟨fun k x σ hx _ => ?_, ?_, ?_, ?_, ?_, ?_,
      hr.told_of rfl (List.Subset.refl _) fun _ _ hm _ => hm⟩
    · simp [Sys.setCoord] at hx
    · simp [Sys.setCoord]
    all_goals cases reused <;> simp [Sys.setCoord]
  | connectsBegin n x req htop hgone hT hop hhost hfd hst hup hx =>
    have hc : (s.connect c n x).coord c =
        (s.coord c).setSlot n { (s.coord c).storageCl n with fd := some x } := by
      simp [Sys.connect, Sys.setCoord]
    have hsess : (s.connect c n x).sess x = some { host := n, owner := c } := by
      simp [Sys.connect, Sys.setCoord, Sys.setSess]
    exact (h.connect ho htop hgone hT hst hx).sendBegin (ho.connect hx) (by rw [hc]; exact htop)
      (by rw [hc]; exact hgone) (by rw [hc]; exact hT) (by simp [hc, Coord.setSlot]) hsess
      ⟨rfl, rfl, rfl⟩
  | connectsOp n x req htop hgone hT hop hhost hfd hst =>
    exact absurd hfd ((hd.session c).stat n hst)
  | sendsBegin n x σ req htop hgone hT hop hhost hslot =>
    exact h.sendBegin ho htop hgone hT (fd hslot) hslot.sess (h.quiet htop hgone hslot).1
  | sendsOp n x σ req htop hgone hT hop hhost hslot =>
    obtain ⟨hq, hj⟩ := h.quiet htop hgone hslot
    exact h.sendOp ho (fun k _ => stage_top htop hgone k) (fd hslot) hslot.sess hq (hj rfl) hop
  | hearsBegin n x σ stat req res rest hpc hslot hcl h0 =>
    exact h.hearsBegin ho hpc hslot ((hd.session c).asked n req hpc).1 hcl h0
  | dangles n x σ stat req rest m hpc hslot hcl =>
    refine h.of_closed rfl (List.Subset.refl _) (.inr (by simp [Sys.setCoord])) ?_
      fun _ _ hm _ => hm
    simpa [Sys.setCoord] using h.idle
  | hearsOp n x σ stat req rest m hpc hslot hcl =>
    refine (h.hears ho hpc hslot hcl).reply fun ht => absurd ht (h.op n req hpc).2.2.1
  | leavesOp n req _ hpc =>
    have hgone : (s.coord c).gone = true := by
      by_contra hgone
      refine hearly ?_
      simp [hgone, Sys.reply, Sys.setCoord, Sys.log]
    rw [if_pos hgone]
    exact (h.leaves hgone).reply fun ht => absurd ht (h.op n req hpc).2.2.1
  | sendsPrepare n todo msg x σ stat hpc hslot => exact h.sendsPrepare hd hpc hslot
  | collects n msg x σ rest m hpc hslot hcl =>
    cases m with
    | transStateResponse => exact h.collects ho hpc hslot hcl
    | rpcResponse res =>
      exact (h.log (e := .note (.answered c (s.coord c).beginTs n res.result)) (by simp)).collects
        ho hpc ⟨hslot.slot, hslot.sess⟩ hcl
  | completes msg hpc hall => exact h.completes hd hpc hall
  | drops n x σ _ hslot => exact h.drops ho hslot
  | goes => exact h.goes
  | ends =>
    refine h.of_closed rfl (List.Subset.refl _) (.inl (by simp [Sys.endSession, Sys.setCoord])) ?_
      fun _ _ hm _ => hm
    simpa [Sys.endSession, Sys.setCoord, Sys.closeAll] using h.idle
  | kills type res => exact h.kill s rfl rfl h.idle type res
  | killsCollecting _ _ _ _ res => exact h.kill s rfl rfl h.idle _ res
  | killsReading n x σ stat req rest m res =>
    exact h.kill (s.read x σ rest) rfl rfl h.idle _ res
  | killsBegun n x σ stat req rest m res hpc =>
    set s₁ := (s.setCoord c ((s.coord c).setSlot n { fd := some x, stat := .hasBegin })).read x σ rest
      with hs₁
    have hT : (s₁.coord c).beginTs = (s.coord c).beginTs := by
      simp [hs₁, Sys.read, Sys.setSess, Sys.setCoord, Coord.setSlot]
    exact h.kill s₁ rfl rfl (fun he => absurd (hT.symm.trans he) (h.begins n req hpc)) _ res

end Turns

def PreparesWrite (c : CoordId) (s : Sys) (ℓ : Label) : Prop := s.failsPrepare c ℓ = false

instance (c : CoordId) (s : Sys) (ℓ : Label) : Decidable (PreparesWrite c s ℓ) :=
  inferInstanceAs (Decidable (_ = _))

section Reply

variable {cfg : Config} {s s' : Sys} {c : CoordId}

theorem Reach.turns {A : Hist → Prop} {C : Sys → Label → Prop} (hA : Closed A)
    (hC : MayFail A → ∀ s ℓ, C s ℓ → PreparesWrite c s ℓ) (hs : Reach cfg C s) (ha : A s.hist)
    (hu : DistinctBegin s.hist) (hwait : .note (.early c) ∉ s.hist) : Turns cfg c s := by
  induction hs with
  | init => exact turns_init cfg c
  | @step s s' ℓ hr hc hstep ih =>
    have hl := step_hist hstep
    have hu₀ := closed_distinctBegin _ _ hl hu
    have hsafe := hr.safe hu₀
    have ih := ih (hA _ _ hl ha) hu₀ fun hm => hwait (hl.subset hm)
    rcases step_cases hA hstep ha with hn | ⟨d, hd⟩
    · exact ih.node hsafe.disc (fun T => .of_later (hsafe.later hstep hu T)) hn
        fun h => hC h s ℓ hc
    · by_cases hcd : c = d
      · subst hcd
        exact ih.coord hsafe.disc hd hwait
      · exact ih.apart hsafe.disc (hd.apart (hsafe.disc.owns d) hcd) hd.node_eq hl

/-- Where all participants have voted yes, none of them rolls back. -/
theorem Safe.holds (h : Safe cfg s) {T : String} {L : List Host} (hL : OnlyPlan s.hist T L)
    (hv : ∀ n ∈ L, Voted s n T) {n : Host} (hn : n ∈ L) :
    ∃ t, transOf (s.node n).store T = some t ∧ (t.state = .prepared ∨ t.state = .commited) := by
  obtain ⟨x, hx⟩ := hv n hn
  change (voteOf (transOf (s.node n).store T)).self? = some x at hx
  cases ht : transOf (s.node n).store T with
  | none => simp [ht, voteOf, Vote.self?] at hx
  | some t =>
    refine ⟨t, rfl, ?_⟩
    cases hs : t.state with
    | begin => simp [ht, voteOf, hs, Vote.self?] at hx
    | prepared => exact .inl rfl
    | commited => exact .inr rfl
    | rollback =>
      have hview : (s.view T).vote n = voteOf (some t) := by rw [← ht]; rfl
      rcases voteOf_rollback hs with he | ⟨y, he⟩
      · rw [ht, he] at hx
        cases hx
      · -- a participant that rolled back after its vote learned it from one that never voted
        obtain ⟨m, hm, ha⟩ := (h.inv T L hL).rolledBack n y (hview.trans he)
        obtain ⟨z, hz⟩ := hv m hm
        rw [ha] at hz
        cases hz

end Reply

/-- A commit that was answered with result 0 stands on every node on which the transaction was
begun, from the answer on. -/
theorem commit_reply_true (cfg : Config) (c : CoordId) {s s' : Sys}
    (hs : Reach cfg (PreparesWrite c) s) (hwait : .note (.early c) ∉ s.hist)
    (hrun : Run cfg anyStep s s') (hu : DistinctBegin s'.hist) {T : String} {res : CliRes}
    (hm : .note (.replied c .commit T res) ∈ s.hist) (h0 : res.result = 0) :
    ∃ st L, Planned s.hist c T st L ∧
      (∀ h ∈ L, ∃ t, transOf (s'.node h).store T = some t ∧
        (t.state = .prepared ∨ t.state = .commited)) ∧
      ∀ h, h ∉ L → transOf (s'.node h).store T = none := by
  have hu₀ := closed_distinctBegin _ _ hrun.hist hu
  have hturns := hs.turns closed_true (fun _ _ _ hc => hc) trivial hu₀ hwait
  obtain ⟨st, L, hp, hv⟩ := hturns.told T res hm h0
  obtain ⟨hsafe, hl⟩ := (hs.safe hu₀).run hrun hu
  have hp' : Planned s'.hist c T st L := hrun.hist.subset hp
  obtain ⟨L', hL'⟩ := hsafe.disc.exists_onlyPlan hu T
  obtain rfl := hL' c st L hp'
  refine ⟨st, L, hp, fun n hn => ?_, fun n hn => (hsafe.disc.plan_only c T st L n hp' hn).2⟩
  exact hsafe.holds hL' (fun m hm => (Keeps.of_later (hl T)).voted m (hv m hm)) hn

def commitReply : List Label :=
  toCommit ++
  [.recv 0 { clocks := [atUsec 102] }, .recv 1 { clocks := [atUsec 103] },
   .collect (client 0) hostA, .collect (client 0) hostB, .collected (client 0)]

def committed : Event :=
  .replied (client 0) .commit "ts100" { startTs := "ts101", beginTs := "ts100" }

theorem commit_reply_true_both : ∃ (s : Sys) (st : String) (L : List Host),
    Planned s.hist (client 0) "ts100" st L ∧
      (∀ h ∈ L, ∃ t, transOf (s.node h).store "ts100" = some t ∧
        (t.state = .prepared ∨ t.state = .commited)) ∧
      ∀ h, h ∉ L → transOf (s.node h).store "ts100" = none := by
  have hrun : ((steps twoHosts (PreparesWrite (client 0)) {} commitReply).map fun s =>
      (decide (DistinctBegin s.hist), decide (.note (.early (client 0)) ∈ s.hist),
        decide (.note committed ∈ s.hist))) = some (true, false, true) := by
    decide +kernel
  obtain ⟨s, hs, hf⟩ := reach_of_map hrun
  obtain ⟨hu, hf⟩ := Prod.mk.inj hf
  obtain ⟨he, hm⟩ := Prod.mk.inj hf
  obtain ⟨st, L, h⟩ := commit_reply_true twoHosts (client 0) hs (of_decide_eq_false he) .refl
    (of_decide_eq_true hu) (of_decide_eq_true hm) rfl
  exact ⟨s, st, L, h⟩

/-- The Put of `updateTransPrepared` fails on `hostB`, whose answer is only logged. -/
def refusedPrepare : List Label :=
  toCommit ++
  [.recv 0 { clocks := [atUsec 102] }, .recv 1 { fates := [.ok, .fail] },
   .collect (client 0) hostA, .collect (client 0) hostB, .collected (client 0)]

theorem commit_reply_not_true :
    ¬ ∀ (s : Sys) (c : CoordId) (T : String) (res : CliRes) (h : Host) (t : Trans),
      Reach twoHosts anyStep s → DistinctBegin s.hist → .note (.replied c .commit T res) ∈ s.hist →
      res.result = 0 → transOf (s.node h).store T = some t →
      t.state = .prepared ∨ t.state = .commited := by
  intro h
  have hrun : ((steps twoHosts anyStep {} refusedPrepare).map fun s =>
      (decide (DistinctBegin s.hist), decide (.note committed ∈ s.hist),
        transOf (s.node hostB).store "ts100")) = some (true, true, some {}) := by
    decide +kernel
  obtain ⟨s, hs, hf⟩ := reach_of_map hrun
  obtain ⟨hu, hf⟩ := Prod.mk.inj hf
  obtain ⟨hm, ht⟩ := Prod.mk.inj hf
  rcases h s (client 0) "ts100" _ hostB {} hs (of_decide_eq_true hu) (of_decide_eq_true hm) rfl ht
    with h | h <;> cases h

end Tpc
