import Tpc.Answers
import Tpc.Dated

/-! Operations and the end of their transaction. As long as clients wait for each reply, a
transaction whose end has been planned has no operation under way on any connection. -/

namespace Tpc
open Durable PollCommit

section Plans

variable {cfg : Config} {s s' : Sys} {c d : CoordId} {ℓ : Label} {T st : String} {L : List Host}

theorem CoordStep.planned (hs : CoordStep cfg s c ℓ s') (hp : Planned s'.hist d T st L) :
    Planned s.hist d T st L ∨ (s.coord c).pc = .top ∧ (s.coord c).gone = false ∧
      (s.coord c).beginTs ≠ "" ∧ T = (s.coord c).beginTs ∧ s'.sess = s.sess := by
  have old : ∀ {e : Entry Proc Timeval Event}, s'.hist = e :: s.hist →
      e ≠ .note (.prepare d T st L) → Planned s.hist d T st L := by
    intro e he hne
    rw [Planned, he] at hp
    exact (List.mem_cons.mp hp).resolve_left fun h => hne h.symm
  cases hs with
  | replies | rollsBack | hearsOp | completes | kills | killsCollecting | killsReading
  | killsBegun => exact .inl (old rfl (by simp))
  | begins tv =>
    refine .inl ?_
    simpa [Planned, Sys.reply, Sys.logBegin, Sys.log, Sys.setCoord] using hp
  | plans tv htop hgone hT =>
    have hp' : .note (.prepare d T st L) ∈ .note (.prepare c (s.coord c).beginTs (getTS tv)
        ((s.coord c).participants cfg)) :: .clock (.logic c.serv) tv :: s.hist := hp
    rcases List.mem_cons.mp hp' with he | hm
    · obtain ⟨rfl, rfl, rfl, rfl⟩ := Event.prepare.inj (Entry.note.inj he)
      exact .inr ⟨htop, hgone, hT, rfl, rfl⟩
    · exact .inl ((List.mem_cons.mp hm).resolve_left (by simp))
  | leavesOp n req =>
    refine .inl ?_
    simp only [Planned, Sys.reply, Sys.log, Sys.setCoord] at hp ⊢
    split_ifs at hp <;> simpa using hp
  | collects n msg y τ rest r =>
    cases r with
    | rpcResponse => exact .inl (old rfl (by simp))
    | transStateResponse => exact .inl hp
  | _ => exact .inl hp

end Plans

/-- Nothing is under way on the connections of `c` that its table does not hold. -/
def Detached (c : CoordId) (s : Sys) : Prop :=
  ¬ (s.coord c).Over → ((s.coord c).pc = .top → (s.coord c).gone = false) → ∀ x σ,
    s.sess x = some σ → σ.owner = c → (∀ k, ((s.coord c).storageCl k).fd ≠ some x) → σ.Quiet

section Detached

variable {cfg : Config} {A : Hist → Prop} {s s' : Sys} {c d : CoordId} {ℓ : Label} {x : Nat}
  {σ σ' : Session}

theorem SessStep.quiet (h : SessStep A s x σ ℓ σ') (hq : σ.Quiet) : σ'.Quiet := by
  cases h with
  | same => exact hq
  | serves _ _ hm => simp [hq.toServ] at hm
  | resumes hw => simp [hq.wait, Wait.req?] at hw
  | stops => exact ⟨hq.toServ, rfl, hq.toCl⟩
  | closes => exact ⟨hq.toServ, hq.wait, hq.toCl⟩
  | cuts => exact ⟨by simp [hq.toServ], hq.wait, by simp [hq.toCl]⟩

theorem others_sess (hsl : ∀ d, Slotted cfg s d)
    (hs : NodeStep A s ℓ s' ∨ ∃ d, c ≠ d ∧ CoordStep cfg s d ℓ s') :
    s'.coord c = s.coord c ∧ ∀ x σ', s'.sess x = some σ' → σ'.owner = c →
      ∃ σ, s.sess x = some σ ∧ σ.owner = c ∧ SessStep A s x σ ℓ σ' := by
  rcases hs with hn | ⟨d, hcd, hd⟩
  · refine ⟨by rw [hn.coord_eq], fun x σ' hσ' howner => ?_⟩
    obtain ⟨σ, hσ, hstep⟩ := hn.sess_inv hσ'
    exact ⟨σ, hσ, hstep.owner ▸ howner, hstep⟩
  · have hap := hd.apart (hsl d).owns hcd
    refine ⟨hap.coord, fun x σ' hσ' howner => ?_⟩
    cases hσ : s.sess x with
    | none =>
      obtain ⟨k, T, rfl⟩ := hd.opens (hsl d).table hσ hσ'
      exact absurd (howner.symm.trans (send_owner _ _)) hcd
    | some σ =>
      obtain ⟨τ, hτ, ht⟩ := hd.touches hσ
      obtain rfl := Option.some.inj (hτ.symm.trans hσ')
      have ho : σ.owner = c := ht.owner ▸ howner
      obtain ⟨b, hb⟩ := hap.sess x σ hσ ho
      obtain rfl := Option.some.inj (hb.symm.trans hσ')
      exact ⟨σ, rfl, ho, .closes b⟩

theorem Turns.quiet_init (h : Turns cfg c s) (hgone : (s.coord c).pc = .top → (s.coord c).gone = false)
    (hpc : (s.coord c).pc = .top ∨ ∃ msg, (s.coord c).pc = .preparing [] msg) {n : Host}
    (hslot : s.Slot c n .init x σ) : σ.Quiet := by
  rcases hpc with htop | ⟨msg, hp⟩
  · exact (h.quiet htop (hgone htop) hslot).1
  · have hin := h.slot n x σ (by rw [hslot.slot]) hslot.sess
    rw [show (s.coord c).stage n = .idle by simp [Coord.stage, hp, hslot.slot]] at hin
    exact hin

theorem Detached.coord (h : Detached c s) (ht : Turns cfg c s)
    (hstat : ∀ k, ((s.coord c).storageCl k).stat = .hasBegin → ((s.coord c).storageCl k).fd ≠ none)
    (hs : CoordStep cfg s c ℓ s') : Detached c s' := by
  intro hover hgone x σ' hσ' howner hfd
  have old : ¬ (s.coord c).Over → ((s.coord c).pc = .top → (s.coord c).gone = false) →
      s.sess x = some σ' → (∀ k, ((s.coord c).storageCl k).fd ≠ some x) → σ'.Quiet :=
    fun h₁ h₂ hσ hx => h h₁ h₂ x σ' hσ howner hx
  -- connection `y` is in a slot before and after the step, so it is not `x`
  have kept : ∀ {n y τ stat} (υ : Session), s.Slot c n stat y τ →
      ((s'.coord c).storageCl n).fd = some y → (s.setSess y υ).sess x = some σ' →
      s.sess x = some σ' := by
    intro n y τ stat υ hslot hn hσ
    exact ((setSess_cases hσ).resolve_left fun he => hfd n (by rw [hn, he.1])).2
  have fds : ∀ {n y τ stat} (stat' : Stat), s.Slot c n stat y τ →
      (s'.coord c).storageCl = ((s.coord c).setSlot n { fd := some y, stat := stat' }).storageCl →
      ((s'.coord c).storageCl n).fd = some y ∧ ∀ k, ((s.coord c).storageCl k).fd ≠ some x := by
    intro n y τ stat stat' hslot he
    refine ⟨by rw [he, setSlot_storageCl, if_pos rfl], fun k hk => hfd k ?_⟩
    rw [he, setSlot_storageCl]
    split_ifs with hkn
    · rw [← hk, hkn, hslot.slot]
    · exact hk
  cases hs with
  | replies type res htop => exact old (by simp [Coord.Over, htop]) hgone hσ' hfd
  | begins tv htop hg => exact old (by simp [Coord.Over, htop]) (fun _ => hg) hσ' (by simpa using hfd)
  | plans tv htop hg => exact old (by simp [Coord.Over, htop]) (fun _ => hg) hσ' (by simpa using hfd)
  | rollsBack reused htop hg =>
    obtain ⟨τ, hτ, rfl⟩ := Option.map_eq_some_iff.mp hσ'
    have hτ : s.sess x = some τ := hτ
    have hq : τ.Quiet := by
      by_cases hx : ∃ k, ((s.coord c).storageCl k).fd = some x
      · obtain ⟨k, hk⟩ := hx
        exact (ht.quiet htop hg (slot_of hk hτ)).1
      · refine h (by simp [Coord.Over, htop]) (fun _ => hg) x τ hτ ?_ (not_exists.mp hx)
        split_ifs at howner
        · exact howner
        · exact howner
    split_ifs
    · exact ⟨hq.toServ, hq.wait, hq.toCl⟩
    · exact hq
  | connectsBegin n y req htop hg _ _ _ hn hst =>
    have hfd : ∀ k, (((s.coord c).setSlot n { (s.coord c).storageCl n with fd := some y }).storageCl
        k).fd ≠ some x := by
      simpa [Sys.sendBegin, Sys.connect] using hfd
    have hne : x ≠ y := fun he => hfd n (by rw [setSlot_storageCl, if_pos rfl, he])
    refine old (by simp [Coord.Over, htop]) (fun _ => hg) ?_ fun k hk => hfd k ?_
    · simpa [Sys.sendBegin, Sys.connect, Sys.setSess, Sys.setCoord, hne] using hσ'
    · rw [setSlot_storageCl]
      split_ifs with hkn
      · simp [hkn, hn] at hk
      · exact hk
  | connectsOp n y req _ _ _ _ _ hn hst => exact absurd hn (hstat n hst)
  | sendsBegin n y τ req htop hg _ _ _ hslot =>
    obtain ⟨hn, hx⟩ := fds .init hslot (by simp [Sys.sendBegin, Coord.setSlot, ← hslot.slot])
    exact old (by simp [Coord.Over, htop]) (fun _ => hg) (kept _ hslot hn hσ') hx
  | sendsOp n y τ req htop hg _ _ _ hslot =>
    obtain ⟨hn, hx⟩ := fds .hasBegin hslot (by simp [Sys.sendOp, Coord.setSlot, ← hslot.slot])
    exact old (by simp [Coord.Over, htop]) (fun _ => hg) (kept _ hslot hn hσ') hx
  | hearsBegin n y τ stat req res rest hpc hslot =>
    obtain ⟨hn, hx⟩ := fds .hasBegin hslot (by simp [Sys.sendOp])
    exact old (by simp [Coord.Over, hpc]) (by simp [hpc]) (kept _ hslot hn hσ') hx
  | dangles n y τ stat req rest r hpc hslot => exact absurd (.inr (by simp)) hover
  | hearsOp n y τ stat req rest r hpc hslot =>
    obtain ⟨hn, hx⟩ := fds stat hslot (by simp [Coord.setSlot, ← hslot.slot])
    exact old (by simp [Coord.Over, hpc]) (by simp [hpc]) (kept _ hslot hn hσ') hx
  | leavesOp n req _ hpc =>
    refine old (by simp [Coord.Over, hpc]) (by simp [hpc]) ?_ (by simpa using hfd)
    simp only [Sys.reply, Sys.log, Sys.setCoord] at hσ'
    split_ifs at hσ' <;> exact hσ'
  | sendsPrepare n todo msg y τ stat hpc hslot =>
    obtain ⟨hn, hx⟩ := fds stat hslot (by simp [Coord.setSlot, ← hslot.slot])
    exact old (by simp [Coord.Over, hpc]) (by simp [hpc]) (kept _ hslot hn hσ') hx
  | collects n msg y τ rest r hpc hslot =>
    obtain ⟨hn, hx⟩ := fds .init hslot (by simp)
    refine old (by simp [Coord.Over, hpc]) (by simp [hpc]) (kept { τ with toCl := rest } hslot hn ?_) hx
    · cases r <;> exact hσ'
  | completes msg hpc =>
    exact old (by simp [Coord.Over, hpc]) (by simp [hpc]) hσ' (by simpa using hfd)
  | drops n y τ hpc hslot =>
    have hco : (s.drop c n y τ).coord c = (s.coord c).setSlot n {} := by simp [Sys.drop]
    rw [hco] at hover hgone hfd
    rcases setSess_cases hσ' with ⟨rfl, rfl⟩ | ⟨hne, hσ⟩
    · have hq := ht.quiet_init hgone hpc hslot
      exact ⟨hq.toServ, hq.wait, hq.toCl⟩
    · refine old hover hgone hσ fun k hk => hfd k ?_
      rw [setSlot_storageCl]
      split_ifs with hkn
      · rw [hkn, hslot.slot] at hk
        exact absurd (Option.some.inj hk).symm hne
      · exact hk
  | goes =>
    have hco : (s.setCoord c { s.coord c with gone := true }).coord c =
        { s.coord c with gone := true } := by simp
    rw [hco] at hover hgone hfd
    exact old hover (fun htop => absurd (hgone htop) (by simp)) hσ' hfd
  | ends | kills | killsCollecting | killsReading | killsBegun =>
    exact absurd (.inl (by simp)) hover

theorem Detached.others (h : Detached c s) (hsl : ∀ d, Slotted cfg s d)
    (hs : NodeStep A s ℓ s' ∨ ∃ d, c ≠ d ∧ CoordStep cfg s d ℓ s') : Detached c s' := by
  obtain ⟨hco, hsess⟩ := others_sess hsl hs
  intro hover hgone x σ' hσ' howner hfd
  rw [hco] at hover hgone hfd
  obtain ⟨σ, hσ, ho, hstep⟩ := hsess x σ' hσ' howner
  exact hstep.quiet (h hover hgone x σ hσ ho hfd)

/-- Before the end of its transaction is planned, nothing is under way on the connections of a
session that waits for its client. -/
theorem Detached.quiet_top (h : Detached c s) (ht : Turns cfg c s) (htop : (s.coord c).pc = .top)
    (hgone : (s.coord c).gone = false) (hσ : s.sess x = some σ) (howner : σ.owner = c) :
    σ.Quiet := by
  by_cases hx : ∃ k, ((s.coord c).storageCl k).fd = some x
  · obtain ⟨k, hk⟩ := hx
    exact (ht.quiet htop hgone (slot_of hk hσ)).1
  · exact h (by simp [Coord.Over, htop]) (fun _ => hgone) x σ hσ howner (not_exists.mp hx)

end Detached

structure Session.Operates (σ : Session) (T : String) : Prop where
  live : σ.live = true
  trace : σ.Trace T
  op : ∃ m : RpcReq, m.IsOp ∧ (σ.wait.req? = some m ∨ m ∈ σ.toServ)

/-- A transaction whose end has been planned has no operation under way. -/
def Unplanned (s : Sys) : Prop := ∀ x σ T, s.sess x = some σ → T ≠ "" → σ.Operates T →
  ∀ d st L, ¬ Planned s.hist d T st L

section Unplanned

variable {cfg : Config} {A : Hist → Prop} {s s' : Sys} {c d : CoordId} {ℓ : Label} {x : Nat}
  {σ σ' : Session} {T : String}

theorem Session.Quiet.not_operates (h : σ.Quiet) : ¬ σ.Operates T := by
  rintro ⟨-, -, m, -, hw | hm⟩
  · simp [h.wait, Wait.req?] at hw
  · simp [h.toServ] at hm

theorem SessStep.req? {m : RpcReq} (h : SessStep A s x σ ℓ σ') (hw : σ'.wait.req? = some m) :
    σ.wait.req? = some m ∨ m ∈ σ.toServ := by
  have after : ∀ {τ : Session} {seg : Seg} {r : RpcReq}, seg.Serves r →
      (τ.after seg).wait.req? = some m → m = r := by
    rintro τ seg r (⟨q, hn⟩ | ⟨w, hn, hr⟩) hw
    · rw [(after_response hn).1] at hw
      simp [Wait.req?] at hw
    · rw [Session.after, hn] at hw
      exact Option.some.inj (hw.symm.trans hr)
  cases h with
  | same | closes | cuts => exact .inl hw
  | serves _ _ hm hh => exact .inr (by rw [hm, after hh.serves hw]; exact .head _)
  | resumes hr _ hs => exact .inl (by rw [hr, after hs hw])
  | stops => simp [Session.stop, Wait.req?] at hw

theorem SessStep.operates (h : SessStep A s x σ ℓ σ') (hmsg : ∀ m ∈ σ.toServ, MsgOk cfg s.hist σ m)
    (hT : T ≠ "") (ho : σ'.Operates T) : σ.Operates T := by
  obtain ⟨hlive, htr, m, hop, hm⟩ := ho
  refine ⟨h.live hlive, h.trace hmsg hT htr, m, hop, ?_⟩
  rcases hm with hw | hm
  · exact h.req? hw
  · exact .inr (h.mem hm)

theorem Unplanned.node (h : Unplanned s) (hd : Disc cfg s) (hs : NodeStep A s ℓ s') :
    Unplanned s' := by
  intro x σ' T hσ' hT ho d st L hp
  obtain ⟨σ, hσ, hstep⟩ := hs.sess_inv hσ'
  obtain ⟨n, hg⟩ := hs.grown
  exact h x σ T hσ hT (hstep.operates (fun m => hd.msg x σ m hσ) hT ho) d st L
    (hg.old_note (fun hn => hn) hp)

theorem Disc.owner_of_trace (hd : Disc cfg s) (hu : DistinctBegin s.hist) (hσ : s.sess x = some σ)
    (hT : T ≠ "") (htr : σ.Trace T) (hb : Begun s.hist c T) : σ.owner = c := by
  refine begun_unique hu ?_ hb
  rcases htr with rfl | hm
  · exact hd.vars x σ hσ hT
  · exact (hd.msg x σ _ hσ hm).begun

theorem Touches.live (h : Touches s c σ σ') : σ'.live = σ.live := by
  induction h with
  | same | reads => rfl
  | sends | answers => simp
  | closes _ ih => exact ih

theorem Turns.joined (h : Turns cfg c s) (ho : s.Owns c) {m : RpcReq} (hop : m.IsOp)
    (hm : s.Requests c x m) (hσ : s.sess x = some σ) :
    (σ.toServ = [] ∧ ∀ r, s.Requests c x r → r.requestType ≠ .begin) ∧
      Joined s (s.coord c).beginTs σ ∧ ¬ (s.coord c).pc.Past := by
  cases hm with
  | begin => exact absurd hop (beginReq_not_isOp _)
  | prepare => exact absurd hop (prepareReq_not_isOp _ _ _)
  | op k τ req htop hgone _ _ hslot =>
    obtain rfl := Option.some.inj (hslot.sess.symm.trans hσ)
    obtain ⟨hq, hj⟩ := h.quiet htop hgone hslot
    refine ⟨⟨hq.toServ, fun r hr hb => ?_⟩, hj rfl, by simp [htop, CoordPc.Past]⟩
    obtain ⟨-, -, n, hinit⟩ := hr.slot_of_begin hb hσ
    have hk : k = n := Decidable.by_contra fun hne =>
      ho.sess_ne hne (by rw [hslot.slot]) (by rw [hinit.slot]) rfl
    subst hk
    simpa using hslot.slot.symm.trans hinit.slot
  | first k stat τ req res rest hpc _ hslot hcl h0 =>
    obtain rfl := Option.some.inj (hslot.sess.symm.trans hσ)
    have hin := h.slot k x τ (by rw [hslot.slot]) hσ
    rw [show (s.coord c).stage k = .begins by simp [Coord.stage, hpc]] at hin
    cases hin with
    | asked _ _ _ _ he => simp [hcl] at he
    | working _ he => simp [hcl] at he
    | answered r hr hs _ he =>
      obtain ⟨rfl, rfl⟩ := List.cons_eq_cons.mp (hcl.symm.trans he)
      refine ⟨⟨hs, fun r hr hb => ?_⟩, hr res rfl h0, by simp [hpc, CoordPc.Past]⟩
      have htop := (hr.slot_of_begin hb hσ).1
      simp [hpc] at htop

theorem Unplanned.coord (h : Unplanned s) (hd : Disc cfg s) (hu : DistinctBegin s.hist)
    (ht : Turns cfg c s) (hdr : Detached c s) (htab : Table cfg (s.coord c))
    (hs : CoordStep cfg s c ℓ s') : Unplanned s' := by
  intro x σ' T hσ' hT ho d st L hp
  obtain ⟨hlive, htr, m, hop, hm⟩ := ho
  cases hσ : s.sess x with
  | none =>
    obtain ⟨k, U, rfl⟩ := hs.opens htab hσ hσ'
    rcases hm with hw | hm
    · simp [Wait.req?] at hw
    · rcases mem_send hm with hm | rfl
      · cases hm
      · exact beginReq_not_isOp U hop
  | some σ =>
    obtain ⟨τ, hτ, hto⟩ := hs.touches hσ
    obtain rfl := Option.some.inj (hτ.symm.trans hσ')
    have hlive' : σ.live = true := hto.live ▸ hlive
    have hmem : ∀ r ∈ τ.toServ, r ∈ σ.toServ ∨ s.Requests c x r := by
      intro r hr
      rcases hs.requests htab hσ' hr with ⟨ρ, hρ, hr⟩ | hr
      · obtain rfl := Option.some.inj (hσ.symm.trans hρ)
        exact .inl hr
      · exact .inr hr
    have hold : (σ.wait.req? = some m ∨ m ∈ σ.toServ) ∨ m ∈ τ.toServ ∧ s.Requests c x m := by
      rcases hm with hw | hm
      · exact .inl (.inl (hto.vars.2 ▸ hw))
      · exact (hmem m hm).imp .inr fun h => ⟨hm, h⟩
    rcases hold with hold | ⟨hm, hnew⟩
    · -- the operation was under way before
      have hbusy : ¬ σ.Quiet := fun hq =>
        hq.not_operates (T := σ.vars.beginTs) ⟨hlive', .inl rfl, m, hop, hold⟩
      have htr' : σ.Trace T := by
        rcases htr with hv | hb
        · exact .inl (hto.vars.1 ▸ hv)
        · rcases hmem _ hb with hb | hb
          · exact .inr hb
          · obtain ⟨htop, hgone, k, hslot⟩ := hb.slot_of_begin rfl hσ
            exact absurd (ht.quiet htop hgone hslot).1 hbusy
      rcases hs.planned hp with hp | ⟨htop, hgone, hT', rfl, -⟩
      · exact h x σ T hσ hT ⟨hlive', htr', m, hop, hold⟩ d st L hp
      · have howner := hd.owner_of_trace hu hσ hT htr' ((hd.session c).begun hT')
        exact hbusy (hdr.quiet_top ht htop hgone hσ howner)
    · -- the operation is sent in this step
      obtain ⟨⟨hnil, hone⟩, hj, hpast⟩ := ht.joined (hd.owns c) hop hnew hσ
      have hv : T = (s.coord c).beginTs := by
        rcases htr with hv | hb
        · rw [← hv, hto.vars.1]
          exact (hj hlive').1
        · rcases hmem _ hb with hb | hb
          · simp [hnil] at hb
          · exact absurd rfl (hone _ hb)
      rcases hs.planned hp with hp | ⟨-, -, -, -, he⟩
      · subst hv
        have hb := (hd.planned d _ st L hp).1
        obtain rfl := begun_unique hu hb ((hd.session c).begun hT)
        exact hpast ((hd.session d).plan_past st L hp)
      · obtain rfl : σ = τ := Option.some.inj (hσ.symm.trans (he ▸ hσ'))
        simp [hnil] at hm

end Unplanned

def Recorded (s : Sys) : Prop := ∀ x σ, s.sess x = some σ → σ.live = true → σ.vars.beginTs ≠ "" →
  transOf (s.node σ.host).store σ.vars.beginTs ≠ none

section Recorded

variable {cfg : Config} {A : Hist → Prop} {s s' : Sys} {c : CoordId} {ℓ : Label}

theorem Recorded.node (h : Recorded s) (hA : ¬ MayFail A) (hk : ∀ T, Keeps T s s')
    (hs : NodeStep A s ℓ s') : Recorded s' := by
  intro x σ' hσ' hlive hne
  have old : ∀ {σ : Session}, s.sess x = some σ → σ.host = σ'.host → σ.live = true →
      σ'.vars.beginTs = σ.vars.beginTs → transOf (s'.node σ'.host).store σ'.vars.beginTs ≠ none := by
    intro σ hσ hhost hl hv
    rw [hv] at hne ⊢
    rw [← hhost]
    exact (hk _).known _ (h x σ hσ hl hne)
  have other : ∀ {y τ}, (s.setSess y τ).sess x = some σ' → x ≠ y →
      transOf (s'.node σ'.host).store σ'.vars.beginTs ≠ none := fun hσ hne =>
    old ((setSess_cases hσ).resolve_left fun he => hne he.1).2 rfl hlive rfl
  cases hs with
  | @recv y env σ m rest seg w hσ hl _ hm _ hh =>
    rcases setSess_cases hσ' with ⟨rfl, rfl⟩ | ⟨hne, -⟩
    · have hst : ((s.served x { σ with toServ := rest } seg w).node σ.host).store = w.store := by
        rw [served_store, if_pos rfl]
      simp only [after_vars, after_host] at hne old ⊢
      cases hh with
      | op _ _ hkeep => exact old hσ rfl hl (by rw [hkeep.1])
      | prepare _ hend =>
        generalize w.store = st at hend
        cases hend with
        | refused => exact old hσ rfl hl rfl
        | votes => exact absurd rfl hne
      | begin _ hend =>
        rw [hst]
        generalize w.store = st at hend ⊢
        cases hend with
        | refused => exact h x σ hσ hl hne
        | begun => simp [transOf_insert_self]
        | failed _ _ _ hf => exact fun hn => hA (hf hn)
    · exact other hσ' hne
  | @timeout y env σ seg w hσ hl _ _ hkeep =>
    rcases setSess_cases hσ' with ⟨rfl, rfl⟩ | ⟨hne, -⟩
    · exact old hσ (by simp) hl (by rw [after_vars, hkeep.1])
    · exact other hσ' hne
  | @event y σ res hσ hl =>
    rcases setSess_cases hσ' with ⟨rfl, rfl⟩ | ⟨hne, -⟩
    · exact old hσ (by simp) hl (by simp)
    · exact other hσ' hne
  | @hangup y env σ o w hσ =>
    rcases setSess_cases hσ' with ⟨rfl, rfl⟩ | ⟨hne, -⟩
    · cases hlive
    · exact other hσ' hne
  | taskSkip | taskRecv | taskAsk | startUp => exact old hσ' rfl hlive rfl
  | lost =>
    obtain ⟨τ, hτ, rfl⟩ := Option.map_eq_some_iff.mp hσ'
    split_ifs at hlive hne old ⊢
    · cases hlive
    · exact old hτ rfl hlive rfl
  | @cut y a b σ hσ =>
    rcases setSess_cases hσ' with ⟨rfl, rfl⟩ | ⟨hne, -⟩
    · exact old hσ rfl hlive rfl
    · exact other hσ' hne

theorem Recorded.coord (h : Recorded s) (htab : Table cfg (s.coord c)) (hs : CoordStep cfg s c ℓ s') :
    Recorded s' := by
  intro x σ' hσ' hlive hne
  rw [hs.node_eq]
  cases hσ : s.sess x with
  | none =>
    obtain ⟨k, U, rfl⟩ := hs.opens htab hσ hσ'
    simp at hne
  | some σ =>
    obtain ⟨τ, hτ, hto⟩ := hs.touches hσ
    obtain rfl := Option.some.inj (hτ.symm.trans hσ')
    rw [hto.vars.1] at hne ⊢
    rw [hto.host]
    exact h x σ hσ (hto.live ▸ hlive) hne

end Recorded

/-- All database calls succeed, transactions have distinct `begin_ts`, and clients wait for each
reply. -/
def Orderly (l : Hist) : Prop := NoDbError l ∧ DistinctBegin l ∧ ClientsWait l

instance orderlyDecidable (l : Hist) : Decidable (Orderly l) :=
  inferInstanceAs (Decidable (_ ∧ _))

theorem closed_orderly : Closed Orderly := fun _ _ h hm =>
  ⟨closed_noDbError _ _ h hm.1, closed_distinctBegin _ _ h hm.2.1, closed_clientsWait _ _ h hm.2.2⟩

theorem orderly_not_mayFail : ¬ MayFail Orderly := fun ⟨p, l, h⟩ => not_mayFail ⟨p, l, h.1⟩

structure Regular (cfg : Config) (s : Sys) : Prop where
  safe : Safe cfg s
  slotted : ∀ c, Slotted cfg s c
  turns : ∀ c, Turns cfg c s
  detached : ∀ c, Detached c s
  unplanned : Unplanned s
  recorded : Recorded s

section Runs

variable {cfg : Config} {C : Sys → Label → Prop} {s s' : Sys} {ℓ : Label}

theorem Regular.step (h : Regular cfg s) (ht : ∀ c, Turns cfg c s') (hs : step cfg s ℓ = some s')
    (ha : Orderly s'.hist) : Regular cfg s' := by
  have ha₀ := closed_orderly _ _ (step_hist hs) ha
  refine ⟨h.safe.step hs ha.2.1, Slotted.step h.slotted hs, ht, fun c => ?_, ?_, ?_⟩
  · rcases step_cases closed_orderly hs ha with hn | ⟨d, hd⟩
    · exact (h.detached c).others h.slotted (.inl hn)
    · by_cases hcd : c = d
      · subst hcd
        exact (h.detached c).coord (h.turns c) (h.slotted c).table.stat hd
      · exact (h.detached c).others (A := Orderly) h.slotted (.inr ⟨d, hcd, hd⟩)
  · rcases step_cases closed_orderly hs ha with hn | ⟨d, hd⟩
    · exact h.unplanned.node h.safe.disc hn
    · exact h.unplanned.coord h.safe.disc ha₀.2.1 (h.turns d) (h.detached d) (h.slotted d).table hd
  · rcases step_cases closed_orderly hs ha with hn | ⟨d, hd⟩
    · exact h.recorded.node orderly_not_mayFail
        (fun T => .of_later (h.safe.later hs ha.2.1 T)) hn
    · exact h.recorded.coord (h.slotted d).table hd

theorem Reach.regular (hs : Reach cfg C s) (ha : Orderly s.hist) : Regular cfg s := by
  have hturns : ∀ {t : Sys}, Reach cfg C t → Orderly t.hist → ∀ c, Turns cfg c t := fun hr ha c =>
    hr.turns closed_orderly (fun h => absurd h orderly_not_mayFail) ha ha.2.1 fun hm => ha.2.2 _ hm
  induction hs with
  | init =>
    refine ⟨safe_init cfg, Reach.slotted (C := C) .init, turns_init cfg, fun c => ?_, ?_, ?_⟩
    · exact fun _ _ x σ hσ => by simp at hσ
    · exact fun x σ T hσ => by simp at hσ
    · exact fun x σ hσ => by simp at hσ
  | @step s s' ℓ hr hc hstep ih =>
    have ha₀ := closed_orderly _ _ (step_hist hstep) ha
    exact (ih ha₀).step (hturns (.step hr hc hstep) ha) hstep ha

end Runs

end Tpc
