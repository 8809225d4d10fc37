import Tpc.Answers

/-! The variables of a storage session and the slot at the other end of its connection: the requests
under way take the one to what the other says. Only a refused Prepare request breaks this. -/

namespace Tpc
open Durable

/-- The requests take a storage session from transaction `v` to `v'`, and none is refused for `v`. -/
inductive Settles : String → List RpcReq → String → Prop
  | nil (v : String) : Settles v [] v
  | begin {T v' : String} {ms : List RpcReq} : T ≠ "" → Settles T ms v' →
      Settles "" (beginReq T :: ms) v'
  | prepare {T v' : String} {ms : List RpcReq} (st : String) (L : List Host) : T ≠ "" →
      Settles "" ms v' → Settles T (prepareReq T st L :: ms) v'
  | op {v v' : String} {m : RpcReq} {ms : List RpcReq} : m.IsOp → Settles v ms v' →
      Settles v (m :: ms) v'

namespace Settles

variable {v v' v'' : String} {m : RpcReq} {ms ms' : List RpcReq}

theorem append (h : Settles v ms v') (h' : Settles v' ms' v'') : Settles v (ms ++ ms') v'' := by
  induction h with
  | nil => exact h'
  | begin hT _ ih => exact .begin hT (ih h')
  | prepare st L hT _ ih => exact .prepare st L hT (ih h')
  | op hop _ ih => exact .op hop (ih h')

theorem of_nil (h : Settles v [] v') : v = v' := by
  cases h
  rfl

theorem of_begin (h : Settles v (m :: ms) v') (hm : m.requestType = .begin) :
    v = "" ∧ Settles m.beginTs ms v' := by
  cases h with
  | begin _ h => exact ⟨rfl, h⟩
  | prepare => cases hm
  | op hop => exact absurd hm hop.1

theorem of_prepare (h : Settles v (m :: ms) v') (hm : m.requestType = .prepare) :
    v ≠ "" ∧ v = m.beginTs ∧ Settles "" ms v' := by
  cases h with
  | begin => cases hm
  | prepare st L hT h => exact ⟨hT, rfl, h⟩
  | op hop => exact absurd hm hop.2

theorem of_op (h : Settles v (m :: ms) v') (hm : m.IsOp) : Settles v ms v' := by
  cases h with
  | begin => exact absurd hm (beginReq_not_isOp _)
  | prepare => exact absurd hm (prepareReq_not_isOp _ _ _)
  | op _ h => exact h

end Settles

def Session.Open (σ : Session) : Prop :=
  σ.live = true ∧ σ.clClosed = false ∧ σ.servClosed = false

instance (σ : Session) : Decidable σ.Open := inferInstanceAs (Decidable (_ ∧ _))

def SlotView.begun (v : SlotView) : String := if v.stat = .hasBegin then v.beginTs else ""

/-- The transaction of the storage session once it has handled all requests under way. -/
def SlotView.settled (v : SlotView) : String :=
  match v.asked with
  | none => v.begun
  | some m =>
    match m.requestType with
    | .begin => v.beginTs
    | .prepare => ""
    | _ => v.begun

/-- The storage session agrees with the slot, up to the requests under way. -/
structure Aligned (σ : Session) (v : SlotView) : Prop where
  waits : ∀ m, σ.wait.req? = some m → m.IsOp
  settles : σ.Open → Settles σ.vars.beginTs σ.toServ v.settled

/-- A connection of `c` handles a Prepare request in the step, and refuses it: the record of the
transaction is not in Begin, or a database call of `updateTransPrepared` fails. -/
def Sys.refusesPrepare (s : Sys) (c : CoordId) : Label → Bool
  | .recv x env =>
    match s.sess x with
    | none => false
    | some σ =>
      match σ.toServ with
      | [] => false
      | m :: _ => σ.owner = c ∧ m.requestType = .prepare ∧
          ((transOf (s.node σ.host).store m.beginTs).map (·.state) ≠ some .begin ∨
            writeFails env.fates)
  | _ => false

def PreparesAccepted (c : CoordId) (s : Sys) (ℓ : Label) : Prop := s.refusesPrepare c ℓ = false

instance (c : CoordId) (s : Sys) (ℓ : Label) : Decidable (PreparesAccepted c s ℓ) :=
  inferInstanceAs (Decidable (_ = _))

section Connection

variable {A : Hist → Prop} {s : Sys} {x : Nat} {σ σ' : Session} {v v' : SlotView} {ℓ : Label}
  {c : CoordId} {m : RpcReq} {rest : List RpcReq} {seg : Seg}

theorem after_open (h : (σ.after seg).Open) : σ.Open := by
  unfold Session.after Session.answer at h
  split at h
  · split_ifs at h <;> exact h
  · exact h
  · exact absurd h.2.1 (by simp)

theorem send_open (h : (σ.send m).Open) : σ.Open ∧ (σ.send m).toServ = σ.toServ ++ [m] := by
  unfold Session.send at h ⊢
  split at h
  · rename_i hc
    simp [h.2.1, h.2.2] at hc
  · rename_i hc
    exact ⟨h, by rw [if_neg hc]⟩

theorem waits_after (hs : seg.Serves m) (hm : ∀ w, seg.next = .wait w → m.IsOp) :
    ∀ q, (σ.after seg).wait.req? = some q → q.IsOp := by
  intro q hq
  rcases hs with ⟨r, hr⟩ | ⟨w, hw, hreq⟩
  · simp [Session.after, hr, Wait.req?] at hq
  · simp only [Session.after, hw, hreq, Option.some.injEq] at hq
    exact hq ▸ hm w hw

theorem prepare_accepted {env : Env} (hc : PreparesAccepted c s (.recv x env))
    (hσ : s.sess x = some σ) (howner : σ.owner = c) (hserv : σ.toServ = m :: rest)
    (hm : m.requestType = .prepare) :
    (∃ t, transOf (s.node σ.host).store m.beginTs = some t ∧ t.state = .begin) ∧
      writeFails env.fates = false := by
  have hc : ¬ ((transOf (s.node σ.host).store m.beginTs).map (·.state) ≠ some .begin ∨
      writeFails env.fates = true) := by
    simpa [PreparesAccepted, Sys.refusesPrepare, hσ, hserv, howner, hm] using hc
  rw [not_or, not_not, Bool.not_eq_true] at hc
  exact ⟨Option.map_eq_some_iff.mp hc.1, hc.2⟩

theorem Aligned.serves {env : Env} {w : DbWorld} (h : Aligned σ v) (hserv : σ.toServ = m :: rest)
    (hσ : s.sess x = some σ) (howner : σ.owner = c)
    (hh : Handled A env.fates σ.host (s.idle σ.host) env.fuel σ.vars m (s.world σ.host) seg w)
    (hc : PreparesAccepted c s (.recv x env)) :
    Aligned (({ σ with toServ := rest } : Session).after seg) v := by
  have hs := hh.serves
  have before : (({ σ with toServ := rest } : Session).after seg).Open →
      σ.Open ∧ Settles σ.vars.beginTs (m :: rest) v.settled := fun hopen => by
    have hopen : ({ σ with toServ := rest } : Session).Open := after_open hopen
    exact ⟨hopen, hserv ▸ h.settles hopen⟩
  cases hh with
  | begin hm hb =>
    generalize w.store = st at hb
    refine ⟨waits_after hs fun wt hw => ?_, fun hopen => ?_⟩
    · cases hb <;> cases hw
    · obtain ⟨hv, hset⟩ := (before hopen).2.of_begin hm
      rw [after_toServ, after_vars]
      cases hb with
      | refused _ hne => exact absurd hv hne
      | begun => exact hset
      | failed => exact hset
  | prepare hm hp =>
    obtain ⟨hrec, hw⟩ := prepare_accepted hc hσ howner hserv hm
    generalize w.store = st at hp
    refine ⟨waits_after hs fun wt hw => ?_, fun hopen => ?_⟩
    · cases hp <;> cases hw
    · obtain ⟨hne, hv, hset⟩ := (before hopen).2.of_prepare hm
      rw [after_toServ, after_vars]
      cases hp with
      | refused ts res _ hB =>
        have hfail := (hB hne hv (hv ▸ hrec)).2
        rw [hw] at hfail
        cases hfail
      | votes => exact hset
  | op hm _ hk =>
    refine ⟨waits_after hs fun _ _ => hm, fun hopen => ?_⟩
    have hset := (before hopen).2.of_op hm
    rw [after_toServ, after_vars, hk.1]
    exact hset

theorem SessStep.aligned (hs : SessStep A s x σ ℓ σ') (h : Aligned σ v) (hσ : s.sess x = some σ)
    (howner : σ.owner = c) (hc : PreparesAccepted c s ℓ) : Aligned σ' v := by
  cases hs with
  | same => exact h
  | serves _ _ hserv hh => exact h.serves hserv hσ howner hh hc
  | resumes hreq hvars hserves =>
    refine ⟨waits_after hserves fun _ _ => h.waits _ hreq, fun hopen => ?_⟩
    rw [after_vars, after_toServ, hvars]
    exact h.settles (after_open hopen)
  | stops =>
    exact ⟨fun m hm => by simp [Session.stop, Wait.req?] at hm,
      fun hopen => absurd hopen.1 (by simp [Session.stop])⟩
  | closes b =>
    refine ⟨h.waits, fun hopen => h.settles ⟨hopen.1, ?_, hopen.2.2⟩⟩
    exact (Bool.or_eq_false_iff.mp hopen.2.1).1
  | cuts i j => exact ⟨h.waits, fun hopen => absurd hopen.2.1 (by simp)⟩

theorem settled_none (hask : v.asked = none) : v.settled = v.begun := by
  simp only [SlotView.settled, hask]

theorem settled_op (hask : v.asked = some m) (hm : m.IsOp) : v.settled = v.begun := by
  simp only [SlotView.settled, hask]
  split
  · rename_i he
    exact absurd he hm.1
  · rename_i he
    exact absurd he hm.2
  · rfl

theorem Aligned.send (h : Aligned σ v) (hm : Settles v.settled [m] v'.settled) :
    Aligned (σ.send m) v' := by
  refine ⟨fun q hq => h.waits q (by rwa [send_wait] at hq), fun hopen => ?_⟩
  obtain ⟨hopen, hserv⟩ := send_open hopen
  rw [send_vars, hserv]
  exact (h.settles hopen).append hm

theorem SlotStep.aligned {E : Prop} (hs : SlotStep E v σ v' σ')
    (hbase : v.stat = .hasBegin → v.beginTs ≠ "") (h : Aligned σ v) : Aligned σ' v' := by
  cases hs with
  | same => exact h
  | renames T hst hask =>
    refine ⟨h.waits, fun hopen => ?_⟩
    simpa [SlotView.settled, SlotView.begun, hst, hask] using h.settles hopen
  | sends m hask hm =>
    refine h.send ?_
    cases hm with
    | begin hst hT =>
      simp only [SlotView.settled, SlotView.begun, hst, hask, beginReq]
      exact .begin hT (.nil _)
    | op req hst hop =>
      rw [settled_none hask, settled_op rfl (opReq_isOp hop)]
      exact .op (opReq_isOp hop) (.nil _)
    | prepare st L hst =>
      simp only [SlotView.settled, SlotView.begun, hst, hask, prepareReq]
      exact .prepare st L (hbase hst) (.nil _)
  | begun req res rest hst hT hask hcl h0 hop =>
    refine Aligned.send (v := v) ⟨h.waits, h.settles⟩ ?_
    have hset : v.settled = v.beginTs := by simp only [SlotView.settled, hask, beginReq]
    rw [hset, settled_op (m := opReq v.beginTs req) rfl (opReq_isOp hop)]
    exact .op (opReq_isOp hop) (.nil _)
  | hears req m rest hask hop =>
    refine ⟨h.waits, fun hopen => ?_⟩
    have hset := h.settles hopen
    rw [settled_op hask (opReq_isOp hop)] at hset
    exact hset
  | leaves req hask hop =>
    refine ⟨h.waits, fun hopen => ?_⟩
    have hset := h.settles hopen
    rw [settled_op hask (opReq_isOp hop)] at hset
    exact hset
  | collects st L m rest hst hask =>
    refine ⟨h.waits, fun hopen => ?_⟩
    have hset := h.settles hopen
    simp only [SlotView.settled, hask, prepareReq] at hset
    exact hset

end Connection

def Alignment (c : CoordId) (s : Sys) : Prop := ¬ (s.coord c).Over → ∀ k x σ,
  ((s.coord c).storageCl k).fd = some x → s.sess x = some σ → Aligned σ ((s.coord c).view k)

section Runs

variable {cfg : Config} {s s' : Sys} {c : CoordId} {ℓ : Label}

theorem Alignment.step (h : Alignment c s) (hd : ∀ d, Slotted cfg s d)
    (hs : step cfg s ℓ = some s') (hc : PreparesAccepted c s ℓ) : Alignment c s' := by
  intro hover k x σ' hx hσ'
  rcases session_cases closed_true hd hs trivial c with ⟨hco, -, hsess⟩ | ⟨-, hcs⟩
  · rw [hco] at hx hover ⊢
    obtain ⟨σ, hσ, -, howner⟩ := (hd c).owns k x hx
    obtain ⟨τ, hτ, hstep⟩ := hsess x σ hσ howner
    obtain rfl := Option.some.inj (hσ'.symm.trans hτ)
    exact hstep.aligned (h hover k x σ hx hσ) hσ howner hc
  · cases hcs.slot (hd c).table (hd c).owns hover hx hσ' with
    | moves σ hfd hσ hlive hstep =>
      refine hstep.aligned (fun hst hT => ?_) (h hlive k x σ hfd hσ)
      have hinit := (hd c).table.idle hT k
      exact absurd (hst.symm.trans hinit) (by decide)
    | connects _ _ _ hT hview hnew =>
      rw [hview, hnew]
      have hfresh : Aligned { host := k, owner := c }
          { stat := .init, beginTs := (s.coord c).beginTs, asked := none } :=
        ⟨fun m hm => by simp [Wait.req?] at hm, fun _ => .nil _⟩
      refine hfresh.send ?_
      simp only [SlotView.settled, SlotView.begun, beginReq]
      exact .begin hT (.nil _)

theorem Reach.alignment (hs : Reach cfg (PreparesAccepted c) s) : Alignment c s := by
  induction hs with
  | init => exact fun _ k x σ hx => by simp at hx
  | step hr hc hs ih => exact ih.step hr.slotted hs hc

theorem begin_taken {x : Nat} {env : Env} {σ σ' : Session} {m : RpcReq} {rest : List RpcReq}
    (hσ : s.sess x = some σ) (hserv : σ.toServ = m :: rest) (hm : m.requestType = .begin)
    (hv : σ.vars.beginTs = "") (hs : step cfg s (.recv x env) = some s')
    (hσ' : s'.sess x = some σ') (hlive : σ'.live = true) : σ'.vars.beginTs = m.beginTs := by
  simp only [step, hσ] at hs
  split at hs
  · rename_i m' rest' _ _ hserv'
    obtain ⟨rfl, rfl⟩ := List.cons.inj (hserv.symm.trans hserv')
    have sat := fun o ho (_ : True) =>
      @handled_of_run (fun _ => True) σ.host (s.idle σ.host) env.fuel σ.vars m env.fates env.clocks
        (s.world σ.host) o closed_true ho trivial
    obtain ⟨-, ⟨seg, w, hh, rfl⟩ | ⟨w, -, rfl⟩⟩ :=
      serve_inv (σ := { σ with toServ := rest }) (A := fun _ => True) sat hs trivial
    · have he : some (({ σ with toServ := rest } : Session).after seg) = some σ' := by
        rw [← hσ']
        simp [Sys.served, Sys.setSess]
      rw [← Option.some.inj he, after_vars]
      cases hh with
      | begin _ hb =>
        generalize w.store = st at hb
        cases hb with
        | refused _ hne => exact absurd hv hne
        | begun => rfl
        | failed => rfl
      | prepare hp => exact absurd (hm.symm.trans hp) (by decide)
      | op hop => exact absurd hm hop.1
    · obtain ⟨τ, hτ, rfl⟩ := Option.map_eq_some_iff.mp hσ'
      obtain rfl := Option.some.inj (hσ.symm.trans hτ)
      simp [Session.stop] at hlive
  · cases hs

/-- As long as no Prepare request is refused, the slots of a session that is at the head of its loop
agree with the storage sessions at the other ends of their connections, and a storage session that
reads a Begin request has no transaction yet and takes the new one. -/
theorem slots_aligned (hs : Reach cfg (PreparesAccepted c) s) {h : Host} {x : Nat} {σ : Session}
    (hx : ((s.coord c).storageCl h).fd = some x) (hσ : s.sess x = some σ) (hopen : σ.Open) :
    ((s.coord c).pc = .top → σ.toServ = [] →
      (((s.coord c).storageCl h).stat = .hasBegin ↔
        (s.coord c).beginTs ≠ "" ∧ σ.vars.beginTs = (s.coord c).beginTs) ∧
      (((s.coord c).storageCl h).stat = .init ↔ σ.vars.beginTs = "")) ∧
    (¬ (s.coord c).Over → ∀ m rest, σ.toServ = m :: rest → m.requestType = .begin →
      σ.vars.beginTs = "" ∧ ∀ env s' σ', step cfg s (.recv x env) = some s' →
        s'.sess x = some σ' → σ'.live = true → σ'.vars.beginTs = m.beginTs) := by
  refine ⟨fun htop hserv => ?_, fun hover m rest hserv hm => ?_⟩
  · have hset := (hs.alignment (by simp [Coord.Over, htop]) h x σ hx hσ).settles hopen
    have hidle := (hs.slotted c).table.idle
    rw [hserv, settled_none (asked_top htop h)] at hset
    have hv := hset.of_nil
    cases hst : ((s.coord c).storageCl h).stat with
    | init =>
      have hv : σ.vars.beginTs = "" := by simpa [SlotView.begun, Coord.view, hst] using hv
      refine ⟨⟨fun he => (by cases he), fun he => absurd (he.2.symm.trans hv) he.1⟩, fun _ => hv,
        fun _ => rfl⟩
    | hasBegin =>
      have hv : σ.vars.beginTs = (s.coord c).beginTs := by
        simpa [SlotView.begun, Coord.view, hst] using hv
      have hT : (s.coord c).beginTs ≠ "" := fun hT => by simp [hidle hT h] at hst
      exact ⟨⟨fun _ => ⟨hT, hv⟩, fun _ => rfl⟩, fun he => (by cases he),
        fun he => absurd (hv.symm.trans he) hT⟩
  · have hset := (hs.alignment hover h x σ hx hσ).settles hopen
    rw [hserv] at hset
    obtain ⟨hv, -⟩ := hset.of_begin hm
    exact ⟨hv, fun env s' σ' hstep hσ' hlive => begin_taken hσ hserv hm hv hstep hσ' hlive⟩

end Runs

theorem slots_aligned_committed : ∃ (s : Sys) (σ : Session), s.sess 0 = some σ ∧
    (((s.coord (client 0)).storageCl hostA).stat = .init ↔ σ.vars.beginTs = "") := by
  have hrun : ((steps twoHosts (PreparesAccepted (client 0)) {} commitReply).map fun s =>
      (decide ((s.coord (client 0)).pc = .top ∧ ((s.coord (client 0)).storageCl hostA).fd = some 0),
        (s.sess 0).map fun σ => decide (σ.Open ∧ σ.toServ = []))) = some (true, some true) := by
    decide +kernel
  obtain ⟨s, hs, hf⟩ := reach_of_map hrun
  obtain ⟨hco, hσ⟩ := Prod.mk.inj hf
  obtain ⟨hpc, hfd⟩ := of_decide_eq_true hco
  obtain ⟨σ, hσ, hσ'⟩ := Option.map_eq_some_iff.mp hσ
  obtain ⟨hopen, hserv⟩ := of_decide_eq_true hσ'
  exact ⟨s, σ, hσ, ((slots_aligned hs hfd hσ hopen).1 hpc hserv).2⟩

/-- `hostB` refuses Prepare in `refusedPrepare`: the slot is reset, the storage session is not. -/
theorem slot_reset_alone : ¬ ∀ (s : Sys) (c : CoordId) (h : Host) (x : Nat) (σ : Session),
    Reach twoHosts anyStep s → (s.coord c).pc = .top → ((s.coord c).storageCl h).fd = some x →
      s.sess x = some σ → σ.Open → σ.toServ = [] → σ.toCl = [] → σ.wait = .idle →
      (((s.coord c).storageCl h).stat = .init ↔ σ.vars.beginTs = "") := by
  intro h
  have hrun : ((steps twoHosts anyStep {} refusedPrepare).map fun s =>
      (decide ((s.coord (client 0)).pc = .top ∧
          (s.coord (client 0)).storageCl hostB = { fd := some 1, stat := .init }),
        (s.sess 1).map fun σ => decide (σ.Open ∧ σ.toServ = [] ∧ σ.toCl = [] ∧ σ.wait = .idle ∧
          σ.vars.beginTs = "ts100"))) = some (true, some true) := by
    decide +kernel
  obtain ⟨s, hs, hf⟩ := reach_of_map hrun
  obtain ⟨hco, hσ⟩ := Prod.mk.inj hf
  obtain ⟨hpc, hslot⟩ := of_decide_eq_true hco
  obtain ⟨σ, hσ, hσ'⟩ := Option.map_eq_some_iff.mp hσ
  obtain ⟨hopen, hserv, hcl, hwait, hv⟩ := of_decide_eq_true hσ'
  have hfd : ((s.coord (client 0)).storageCl hostB).fd = some 1 := by rw [hslot]
  have hstat : ((s.coord (client 0)).storageCl hostB).stat = .init := by rw [hslot]
  have hv' := (h s (client 0) hostB 1 σ hs hpc hfd hσ hopen hserv hcl hwait).mp hstat
  exact absurd (hv.symm.trans hv') (by decide)

end Tpc
