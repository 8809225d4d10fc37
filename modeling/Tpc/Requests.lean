import Tpc.Handlers
import Tpc.Slots

/-! Requests carry no ids: which request a response on a connection answers follows from the order
in which the requests went out. The talk on each connection is noted beside the run, and compared
with what the client session takes the responses for. -/

namespace Tpc
open Durable

structure Talk where
  /-- the requests that were sent -/
  asked : List RpcReq := []
  /-- the requests that the responses under way answer -/
  owed : List RpcReq := []
  /-- the requests whose responses have been read -/
  heard : List RpcReq := []
deriving DecidableEq, Repr

def Session.answering (σ : Session) : Option RpcReq := σ.wait.req?.or σ.toServ.head?

def Coord.sent (co co' : Coord) (h : Host) : Option RpcReq :=
  match co.pc, co'.pc with
  | .top, .beginSent n _ => if n = h then some (beginReq co'.beginTs) else none
  | .top, .opSent n req => if n = h then some (opReq co'.beginTs req) else none
  | .beginSent _ _, .opSent n req => if n = h then some (opReq co'.beginTs req) else none
  | .preparing (n :: todo) msg, .preparing todo' _ => if n = h ∧ todo' = todo then some msg else none
  | _, _ => none

def Sys.sent (s s' : Sys) (x : Nat) (σ' : Session) : Option RpcReq :=
  if ((s'.coord σ'.owner).storageCl σ'.host).fd = some x then
    (s.coord σ'.owner).sent (s'.coord σ'.owner) σ'.host
  else none

def Talk.after (g : Talk) (ℓ : Label) (σ σ' : Session) (sent : Option RpcReq) : Talk :=
  let g := { g with asked := g.asked ++ sent.toList }
  if σ.toCl.length < σ'.toCl.length then { g with owed := g.owed ++ σ.answering.toList }
  else
    match ℓ with
    | .cut .. => { g with owed := g.owed.take σ'.toCl.length }
    | _ =>
      let read := σ.toCl.length - σ'.toCl.length
      { g with owed := g.owed.drop read, heard := g.heard ++ g.owed.take read }

def talkAfter (s : Sys) (ℓ : Label) (s' : Sys) (g : Nat → Talk) (x : Nat) : Talk :=
  match s.sess x, s'.sess x with
  | some σ, some σ' => (g x).after ℓ σ σ' (s.sent s' x σ')
  | none, some σ' => { asked := (s.sent s' x σ').toList }
  | _, none => {}

/-- The states that runs reach whose steps all satisfy `C`, with the talk on their connections. -/
inductive Talking (cfg : Config) (C : Sys → Label → Prop) : Sys → (Nat → Talk) → Prop
  | init : Talking cfg C {} fun _ => {}
  | step {s s' : Sys} {g : Nat → Talk} {ℓ : Label} : Talking cfg C s g → C s ℓ →
      step cfg s ℓ = some s' → Talking cfg C s' (talkAfter s ℓ s' g)

theorem Talking.reach {cfg : Config} {C : Sys → Label → Prop} {s : Sys} {g : Nat → Talk}
    (h : Talking cfg C s g) : Reach cfg C s := by
  induction h with
  | init => exact .init
  | step _ hc hs ih => exact .step ih hc hs

theorem Reach.talking {cfg : Config} {C : Sys → Label → Prop} {s : Sys} (h : Reach cfg C s) :
    ∃ g, Talking cfg C s g := by
  induction h with
  | init => exact ⟨_, .init⟩
  | step _ hc hs ih =>
    obtain ⟨g, hg⟩ := ih
    exact ⟨_, .step hg hc hs⟩

def talkSteps (cfg : Config) (C : Sys → Label → Prop) [∀ s ℓ, Decidable (C s ℓ)] :
    Sys → (Nat → Talk) → List Label → Option (Sys × (Nat → Talk))
  | s, g, [] => some (s, g)
  | s, g, ℓ :: ls =>
    if C s ℓ then (step cfg s ℓ).bind fun s' => talkSteps cfg C s' (talkAfter s ℓ s' g) ls else none

theorem talking_of_steps {cfg : Config} {C : Sys → Label → Prop} [∀ s ℓ, Decidable (C s ℓ)]
    {ls : List Label} {s s' : Sys} {g g' : Nat → Talk} (hs : Talking cfg C s g)
    (h : talkSteps cfg C s g ls = some (s', g')) : Talking cfg C s' g' := by
  induction ls generalizing s g with
  | nil =>
    obtain ⟨rfl, rfl⟩ := Prod.mk.inj (Option.some.inj h)
    exact hs
  | cons ℓ ls ih =>
    rw [talkSteps] at h
    split_ifs at h with hc
    obtain ⟨s₁, h₁, h₂⟩ := Option.bind_eq_some_iff.mp h
    exact ih (.step hs hc h₁) h₂

/-- The session waits for `a` on the connection: nothing else is under way, and all that was sent
before has been answered. -/
structure Matched (σ : Session) (a : Option RpcReq) (g : Talk) : Prop where
  owed : g.owed.length = σ.toCl.length
  pending : (g.owed ++ σ.wait.req?.toList ++ σ.toServ).Sublist a.toList
  asked : g.asked = g.heard ++ a.toList

section Connection

variable {A : Hist → Prop} {s : Sys} {x : Nat} {σ σ' : Session} {a : Option RpcReq} {g : Talk} {ℓ : Label}
  {m : RpcReq} {seg : Seg}

theorem Talk.after_same (hl : σ'.toCl.length = σ.toCl.length) (ho : g.owed.length = σ.toCl.length)
    (sent : Option RpcReq) : g.after ℓ σ σ' sent = { g with asked := g.asked ++ sent.toList } := by
  unfold Talk.after
  rw [if_neg (by omega)]
  split
  · rw [hl, ← ho, List.take_length]
  · simp [hl]

theorem Talk.after_grown (hl : σ.toCl.length < σ'.toCl.length) : g.after ℓ σ σ' none =
    { g with owed := g.owed ++ σ.answering.toList } := by
  simp [Talk.after, hl]

theorem Talk.after_read {q : RpcReq} {os : List RpcReq} (hcut : ∀ y i j, ℓ ≠ .cut y i j)
    (hl : σ.toCl.length = σ'.toCl.length + 1) (ho : g.owed = q :: os) (sent : Option RpcReq) :
    g.after ℓ σ σ' sent =
      { asked := g.asked ++ sent.toList, owed := os, heard := g.heard ++ [q] } := by
  unfold Talk.after
  rw [if_neg (by omega)]
  split
  · exact absurd rfl (hcut _ _ _)
  · simp [hl, ho]

theorem Matched.only (h : Matched σ a g) {q : RpcReq}
    (hq : q ∈ g.owed ++ σ.wait.req?.toList ++ σ.toServ) :
    a = some q ∧ g.owed ++ σ.wait.req?.toList ++ σ.toServ = [q] := by
  have hp := h.pending
  cases a with
  | none =>
    rw [Option.toList_none, List.sublist_nil] at hp
    simp [hp] at hq
  | some b =>
    rcases List.sublist_singleton.mp hp with hn | hb
    · simp [hn] at hq
    · rw [hb] at hq ⊢
      obtain rfl := List.mem_singleton.mp hq
      exact ⟨rfl, rfl⟩

theorem Matched.quiet (h : Matched σ none g) :
    g.owed = [] ∧ σ.wait.req? = none ∧ σ.toServ = [] ∧ g.asked = g.heard := by
  have hp := List.sublist_nil.mp h.pending
  have ha := h.asked
  simp only [List.append_eq_nil_iff, Option.toList_eq_nil_iff] at hp
  exact ⟨hp.1.1, hp.1.2, hp.2, by simpa using ha⟩

theorem eq_nil_of_middle {q : RpcReq} {xs ys : List RpcReq} (h : xs ++ q :: ys = [q]) :
    xs = [] ∧ ys = [] := by
  have hlen := congrArg List.length h
  simp only [List.length_append, List.length_cons, List.length_nil] at hlen
  exact ⟨List.length_eq_zero_iff.mp (by omega), List.length_eq_zero_iff.mp (by omega)⟩

theorem Matched.read (h : Matched σ a g) {r : ResMsg} {rest : List ResMsg} (hcl : σ.toCl = r :: rest) :
    ∃ q, a = some q ∧ g.owed = [q] ∧ rest = [] ∧ σ.wait.req? = none ∧ σ.toServ = [] := by
  have hlen := h.owed
  rw [hcl] at hlen
  cases ho : g.owed with
  | nil => simp [ho] at hlen
  | cons q os =>
    obtain ⟨ha, hall⟩ := h.only (q := q) (by simp [ho])
    have hos : os ++ σ.wait.req?.toList ++ σ.toServ = [] := by simpa [ho] using hall
    simp only [List.append_eq_nil_iff, Option.toList_eq_nil_iff] at hos
    have hrest : rest.length = 0 := by
      rw [ho, hos.1.1] at hlen
      simpa using hlen.symm
    exact ⟨q, ha, by rw [hos.1.1], List.length_eq_zero_iff.mp hrest, hos.1.2, hos.2⟩

theorem Matched.handled {τ : Session} (h : Matched σ (some m) g) (ho : g.owed = [])
    (hans : σ.answering = some m) (hcl : τ.toCl = σ.toCl) (hserv : τ.toServ = [])
    (hs : seg.Serves m) :
    Matched (τ.after seg) (some m) (g.after ℓ σ (τ.after seg) none) := by
  have hnil : σ.toCl = [] := by
    have hlen := h.owed
    rw [ho] at hlen
    exact List.length_eq_zero_iff.mp hlen.symm
  rw [hnil] at hcl
  rcases hs with ⟨r, hr⟩ | ⟨w, hw, hreq⟩
  · have hidle : (τ.after seg).wait = .idle := by simp [Session.after, hr]
    have htoCl : (τ.after seg).toCl = [] ∨ (τ.after seg).toCl = [r] := by
      simp only [Session.after, hr, Session.answer]
      split_ifs <;> simp [hcl]
    rcases htoCl with hc | hc
    · rw [Talk.after_same (by rw [hc, hnil]) h.owed]
      refine ⟨by simp [ho, hc], ?_, by simpa using h.asked⟩
      simp [ho, hidle, Wait.req?, hserv]
    · rw [Talk.after_grown (by simp [hc, hnil])]
      refine ⟨by simp [ho, hc, hans], ?_, h.asked⟩
      simp [ho, hans, hidle, Wait.req?, hserv]
  · have hwait : (τ.after seg).wait = w := by simp [Session.after, hw]
    have hc : (τ.after seg).toCl = [] := by simp [Session.after, hw, hcl]
    rw [Talk.after_same (by rw [hc, hnil]) h.owed]
    refine ⟨by simp [ho, hc], ?_, by simpa using h.asked⟩
    simp [ho, hwait, hreq, hserv]

theorem SessStep.matched (hs : SessStep A s x σ ℓ σ') (h : Matched σ a g) :
    Matched σ' a (g.after ℓ σ σ' none) := by
  cases hs with
  | same =>
    rw [Talk.after_same rfl h.owed]
    exact ⟨h.owed, h.pending, by simpa using h.asked⟩
  | @serves _ m rest _ _ _ hwait hserv hh =>
    obtain ⟨rfl, hall⟩ := h.only (q := m) (by simp [hserv])
    have hno := eq_nil_of_middle (by simpa [hwait, Wait.req?, hserv] using hall)
    exact h.handled hno.1 (by simp [Session.answering, hwait, Wait.req?, hserv]) rfl hno.2 hh.serves
  | @resumes _ m seg hreq _ hseg =>
    obtain ⟨rfl, hall⟩ := h.only (q := m) (by simp [hreq])
    have hno := eq_nil_of_middle (by simpa [hreq] using hall)
    exact h.handled hno.1 (by simp [Session.answering, hreq]) rfl hno.2 hseg
  | stops =>
    have hl : σ.stop.toCl.length = σ.toCl.length := rfl
    rw [Talk.after_same hl h.owed]
    refine ⟨h.owed, List.Sublist.trans ?_ h.pending, by simpa using h.asked⟩
    exact ((List.Sublist.refl _).append (List.nil_sublist _)).append (.refl _)
  | closes b =>
    have hl : ({ σ with clClosed := σ.clClosed || b } : Session).toCl.length = σ.toCl.length := rfl
    rw [Talk.after_same hl h.owed]
    exact ⟨h.owed, h.pending, by simpa using h.asked⟩
  | cuts i j =>
    have hle : ¬ σ.toCl.length < (σ.toCl.take j).length := by simp
    have he : g.after (.cut x i j) σ { σ with
        toServ := σ.toServ.take i, toCl := σ.toCl.take j, clClosed := true, servClosed := true } none =
        { g with owed := g.owed.take (σ.toCl.take j).length } := by
      simp [Talk.after]
    rw [he]
    refine ⟨by simp [h.owed], ?_, h.asked⟩
    refine List.Sublist.trans ?_ h.pending
    exact ((List.take_sublist _ _).append (.refl _)).append (List.take_sublist _ _)

theorem Matched.hears (h : Matched σ a g) (hcut : ∀ y i j, ℓ ≠ .cut y i j) {r : ResMsg}
    {rest : List ResMsg} (hcl : σ.toCl = r :: rest) :
    Matched { σ with toCl := rest } none (g.after ℓ σ { σ with toCl := rest } none) := by
  obtain ⟨q, rfl, ho, rfl, hw, hserv⟩ := h.read hcl
  have ha := h.asked
  rw [Talk.after_read hcut (by simp [hcl]) ho]
  exact ⟨rfl, by simp [hw, hserv], by simp [ha]⟩

theorem sublist_send {m : RpcReq} (hw : σ.wait.req? = none) (hserv : σ.toServ = []) :
    ([] ++ (σ.send m).wait.req?.toList ++ (σ.send m).toServ).Sublist [m] := by
  rcases send_toServ σ m with hs | hs <;> simp [hw, hserv, hs]

theorem SlotStep.matched {E : Prop} {v v' : SlotView} (hs : SlotStep E v σ v' σ') (hE : ¬ E)
    (hcut : ∀ y i j, ℓ ≠ .cut y i j) (h : Matched σ v.asked g) :
    Matched σ' v'.asked (g.after ℓ σ σ' (if v'.asked = v.asked then none else v'.asked)) := by
  cases hs with
  | same =>
    rw [if_pos rfl, Talk.after_same rfl h.owed]
    exact ⟨h.owed, h.pending, by simpa using h.asked⟩
  | renames T =>
    rw [if_pos rfl, Talk.after_same rfl h.owed]
    exact ⟨h.owed, h.pending, by simpa using h.asked⟩
  | sends m hnone =>
    rw [hnone] at h ⊢
    obtain ⟨ho, hw, hserv, ha⟩ := h.quiet
    rw [if_neg (by simp), Talk.after_same (by simp) h.owed]
    exact ⟨by simpa using h.owed, ho ▸ sublist_send hw hserv, by simp [ha]⟩
  | begun req res rest _ _ hask hcl _ hop =>
    obtain ⟨q, hq, ho, rfl, hw, hserv⟩ := h.read hcl
    have hne : opReq v.beginTs req ≠ beginReq v.beginTs := fun he =>
      hop.1 (congrArg RpcReq.requestType he)
    have ha := h.asked
    rw [hq] at ha
    rw [hask] at hq ⊢
    rw [if_neg (by simpa using hne), Talk.after_read hcut (by simp [hcl]) ho]
    exact ⟨by simp, sublist_send hw hserv, by simp [ha]⟩
  | hears req m rest hask _ hcl =>
    rw [hask, if_neg (by simp)]
    exact h.hears hcut hcl
  | leaves _ _ _ he => exact absurd he hE
  | collects st L m rest _ hask hcl =>
    rw [hask, if_neg (by simp)]
    exact h.hears hcut hcl

end Connection

/-- No event of the client's socket ends the wait for an operation of session `c`: no byte of the
client arrives during the operation, nor the end of its stream. -/
def Undisturbed (c : CoordId) (_ : Sys) : Label → Prop
  | .clientEvent d => d ≠ c
  | _ => True

instance (c : CoordId) (s : Sys) (ℓ : Label) : Decidable (Undisturbed c s ℓ) := by
  cases ℓ <;> unfold Undisturbed <;> exact inferInstance

section Sessions

variable {cfg : Config} {s s' : Sys} {c : CoordId} {co co' : Coord} {k : Host} {ℓ : Label}

theorem Coord.sent_of_pc (h : co'.pc = co.pc) : co.sent co' k = none := by
  unfold Coord.sent
  rw [h]
  cases co.pc with
  | preparing todo msg => cases todo <;> simp
  | _ => rfl

theorem Coord.asked_of_pc (h : co'.pc = co.pc) (hT : co'.beginTs = co.beginTs)
    (hst : (co'.storageCl k).stat = (co.storageCl k).stat) : co'.asked k = co.asked k := by
  unfold Coord.asked
  rw [h, hT, hst]

theorem CoordStep.sent (ht : Table cfg (s.coord c)) (hs : CoordStep cfg s c ℓ s')
    (hover : ¬ (s'.coord c).Over) (k : Host) : (s.coord c).sent (s'.coord c) k =
      if (s'.coord c).asked k = (s.coord c).asked k then none else (s'.coord c).asked k := by
  have pc : (s'.coord c).pc = (s.coord c).pc → (s'.coord c).asked k = none ∨
      (s'.coord c).asked k = (s.coord c).asked k → (s.coord c).sent (s'.coord c) k =
      if (s'.coord c).asked k = (s.coord c).asked k then none else (s'.coord c).asked k := by
    rintro hpc (ha | ha)
    · rw [Coord.sent_of_pc hpc, ha]
      split_ifs <;> rfl
    · rw [Coord.sent_of_pc hpc, if_pos ha]
  cases hs with
  | replies => exact pc rfl (.inr rfl)
  | begins tv hpc =>
    refine pc (by simp) (.inl ?_)
    simp [Coord.asked, hpc]
  | plans tv hpc =>
    rw [setCoord_coord_self]
    have hnone : Coord.asked { s.coord c with
        startTs := getTS tv
        pc := .preparing ((s.coord c).participants cfg)
          (prepareReq (s.coord c).beginTs (getTS tv) ((s.coord c).participants cfg)) } k = none := by
      refine if_neg fun h => h.1 (mem_participants.mpr ?_)
      have hfd := ht.stat k h.2
      exact ⟨ht.host k hfd, Option.isSome_iff_ne_none.mpr hfd, h.2⟩
    rw [hnone, asked_top hpc, if_pos rfl]
    simp [Coord.sent, hpc]
  | rollsBack reused hpc =>
    rw [setCoord_coord_self] at hover ⊢
    cases reused with
    | false => exact absurd (.inr rfl) hover
    | true => simp [Coord.sent, Coord.asked, hpc]
  | connectsBegin n x req hpc =>
    simp [Sys.sendBegin, Sys.connect, Coord.sent, Coord.asked, hpc]
  | connectsOp n x req hpc =>
    simp [Sys.sendOp, Sys.connect, Coord.sent, Coord.asked, hpc]
  | sendsBegin n x σ req hpc => simp [Sys.sendBegin, Coord.sent, Coord.asked, hpc]
  | sendsOp n x σ req hpc => simp [Sys.sendOp, Coord.sent, Coord.asked, hpc]
  | hearsBegin n x σ stat req res rest hpc =>
    have hop := (ht.begins n req hpc).2.1
    have hne : opReq (s.coord c).beginTs req ≠ beginReq (s.coord c).beginTs := fun he =>
      hop.1 (congrArg RpcReq.requestType he)
    by_cases hk : n = k
    · simp [Sys.sendOp, Coord.sent, Coord.asked, hpc, hk, hne]
    · simp [Sys.sendOp, Coord.sent, Coord.asked, hpc, hk]
  | dangles => exact absurd (.inr (by simp)) hover
  | hearsOp n x σ stat req rest m hpc => simp [Coord.sent, Coord.asked, hpc]
  | leavesOp n req _ hpc => simp [Coord.sent, Coord.asked, hpc]
  | sendsPrepare n todo msg x σ stat hpc hslot =>
    obtain ⟨-, -, hnodup, hhas⟩ := ht.preparing _ _ hpc
    have hn := hhas n (.head _)
    by_cases hk : n = k
    · subst hk
      simp [Coord.sent, Coord.asked, hpc, hn, (List.nodup_cons.mp hnodup).1]
    · simp [Coord.sent, Coord.asked, hpc, hk, Ne.symm hk]
  | collects n msg x σ rest m hpc hslot =>
    refine pc (by simp) ?_
    by_cases hk : k = n
    · exact .inl (by simp [Coord.asked, hpc, setSlot_storageCl, hk])
    · exact .inr (by simp [Coord.asked, hpc, setSlot_storageCl, hk])
  | completes msg hpc => simp [Coord.sent, Coord.asked, hpc]
  | drops n x σ hpc hslot =>
    refine pc (by simp [Sys.drop]) (.inr (Coord.asked_of_pc (by simp [Sys.drop])
      (by simp [Sys.drop]) ?_))
    rw [Sys.drop, setCoord_coord_self, setSlot_storageCl]
    split_ifs with hk
    · rw [hk, hslot.slot]
    · rfl
  | goes => exact pc (by simp) (.inr (Coord.asked_of_pc (by simp) (by simp) (by simp)))
  | ends => exact absurd (.inl (by simp)) hover
  | kills | killsCollecting => exact absurd (.inl (by simp)) hover
  | killsReading => exact absurd (.inl (by simp)) hover
  | killsBegun => exact absurd (.inl (by simp)) hover

def Matching (c : CoordId) (s : Sys) (g : Nat → Talk) : Prop := ¬ (s.coord c).Over → ∀ k x σ,
  ((s.coord c).storageCl k).fd = some x → s.sess x = some σ → Matched σ ((s.coord c).asked k) (g x)

theorem Sys.sent_slot {x : Nat} {σ' : Session} (hhost : σ'.host = k) (howner : σ'.owner = c)
    (hx : ((s'.coord c).storageCl k).fd = some x) :
    s.sent s' x σ' = (s.coord c).sent (s'.coord c) k := by
  subst hhost howner
  exact if_pos hx

theorem talkAfter_kept {g : Nat → Talk} {x : Nat} {σ σ' : Session} (hσ : s.sess x = some σ)
    (hσ' : s'.sess x = some σ') : talkAfter s ℓ s' g x = (g x).after ℓ σ σ' (s.sent s' x σ') := by
  simp only [talkAfter, hσ, hσ']

theorem Matching.step {g : Nat → Talk} (h : Matching c s g) (hd : ∀ d, Slotted cfg s d)
    (hs : step cfg s ℓ = some s') (hq : Undisturbed c s ℓ) : Matching c s' (talkAfter s ℓ s' g) := by
  intro hover k x σ' hx hσ'
  obtain ⟨τ, hτ, hhost, howner⟩ := (Slotted.step hd hs c).owns k x hx
  obtain rfl := Option.some.inj (hσ'.symm.trans hτ)
  rcases session_cases closed_true hd hs trivial c with ⟨hco, -, hsess⟩ | ⟨hcut, hc⟩
  · rw [hco] at hx hover
    obtain ⟨σ, hσ, -, hσowner⟩ := (hd c).owns k x hx
    obtain ⟨υ, hυ, hstep⟩ := hsess x σ hσ hσowner
    obtain rfl := Option.some.inj (hσ'.symm.trans hυ)
    rw [talkAfter_kept hσ hσ', Sys.sent_slot hhost howner (by rw [hco]; exact hx), hco,
      Coord.sent_of_pc rfl]
    exact hstep.matched (h hover k x σ hx hσ)
  · have hE : ¬ ℓ = .clientEvent c := by
      rintro rfl
      exact hq rfl
    have hsent := (Sys.sent_slot hhost howner hx).trans (hc.sent (hd c).table hover k)
    cases hc.slot (hd c).table (hd c).owns hover hx hσ' with
    | moves σ hfd hσ hlive hstep =>
      rw [talkAfter_kept hσ hσ', hsent]
      exact hstep.matched hE hcut (h hlive k x σ hfd hσ)
    | connects hnone hpc _ _ hview hnew =>
      have hask : (s'.coord c).asked k = some (beginReq (s.coord c).beginTs) :=
        congrArg SlotView.asked hview
      rw [hask, asked_top hpc, if_neg (by simp)] at hsent
      have htalk : talkAfter s ℓ s' g x = { asked := [beginReq (s.coord c).beginTs] } := by
        simp only [talkAfter, hnone, hσ', hsent, Option.toList_some]
      rw [htalk, hask, hnew]
      exact ⟨by simp, sublist_send rfl rfl, rfl⟩

theorem Talking.matching {g : Nat → Talk} (h : Talking cfg (Undisturbed c) s g) :
    Matching c s g := by
  induction h with
  | init => exact fun _ k x σ hx => by simp at hx
  | step hr hc hs ih => exact ih.step hr.reach.slotted hs hc

/-- In a step from `s` to `s'`, session `c` sends a request only where every earlier one on the
connection has been answered, it takes each response for the response to the request that it answers,
and it tells its client that an operation has been done only when it has read the response to it. -/
structure Attributed (c : CoordId) (s : Sys) (g : Nat → Talk) (s' : Sys) (g' : Nat → Talk) : Prop where
  sends : ∀ h m x, (s.coord c).sent (s'.coord c) h = some m →
    ((s'.coord c).storageCl h).fd = some x → (g' x).asked = (g' x).heard ++ [m]
  reads : ∀ h x, ((s.coord c).storageCl h).fd = some x → (g' x).heard = (g x).heard ∨
    ∃ q, (s.coord c).asked h = some q ∧ (g' x).heard = (g x).heard ++ [q]
  replies : ∀ l type T res, s'.hist = l ++ s.hist → .note (.replied c type T res) ∈ l →
    ({ requestType := type } : CliReq).IsOp → res.result = 0 →
      ∃ h req x σ m rest, (s.coord c).pc = .opSent h req ∧ type = req.requestType ∧
        ((s.coord c).storageCl h).fd = some x ∧ s.sess x = some σ ∧ σ.toCl = m :: rest ∧
        res = opReply m ∧ (g' x).heard = (g x).heard ++ [opReq (s.coord c).beginTs req]

theorem Talk.after_heard {g : Talk} {σ σ' : Session} {sent : Option RpcReq}
    (h : σ.toCl.length ≤ σ'.toCl.length ∨ ∃ y i j, ℓ = .cut y i j) :
    (g.after ℓ σ σ' sent).heard = g.heard := by
  unfold Talk.after
  split_ifs with hlt
  · rfl
  · rcases h with hle | ⟨y, i, j, rfl⟩
    · have he : σ.toCl.length - σ'.toCl.length = 0 := by omega
      rw [he]
      split <;> simp
    · rfl

theorem SessStep.grows {A : Hist → Prop} {x : Nat} {σ σ' : Session} (hs : SessStep A s x σ ℓ σ') :
    σ.toCl.length ≤ σ'.toCl.length ∨ ∃ y i j, ℓ = .cut y i j := by
  have after : ∀ (τ : Session) (seg : Seg), τ.toCl.length ≤ (τ.after seg).toCl.length := by
    intro τ seg
    unfold Session.after Session.answer
    split
    · split_ifs <;> simp
    · simp
    · simp
  cases hs with
  | same => exact .inl le_rfl
  | @serves _ _ rest seg => exact .inl (after { σ with toServ := rest } seg)
  | resumes => exact .inl (after _ _)
  | stops => exact .inl le_rfl
  | closes => exact .inl le_rfl
  | cuts i j => exact .inr ⟨_, i, j, rfl⟩

theorem Matching.heard {g : Nat → Talk} (h : Matching c s g) (hlive : ¬ (s.coord c).Over)
    (hcut : ∀ y i j, ℓ ≠ .cut y i j) {x : Nat} {σ σ' : Session} {r : ResMsg}
    (hx : ((s.coord c).storageCl k).fd = some x) (hσ : s.sess x = some σ)
    (hσ' : s'.sess x = some σ') (hcl : σ.toCl = r :: σ'.toCl) :
    ∃ q, (s.coord c).asked k = some q ∧ (talkAfter s ℓ s' g x).heard = (g x).heard ++ [q] := by
  obtain ⟨q, hq, ho, -⟩ := (h hlive k x σ hx hσ).read hcl
  refine ⟨q, hq, ?_⟩
  rw [talkAfter_kept hσ hσ', Talk.after_read hcut (by simp [hcl]) ho]

theorem Coord.not_over_of_sent {m : RpcReq} (h : co.sent co' k = some m) : ¬ co'.Over := by
  rintro (he | he)
  · unfold Coord.sent at h
    rw [he] at h
    cases hpc : co.pc with
    | preparing todo msg => cases todo <;> simp [hpc] at h
    | _ => simp [hpc] at h
  · unfold Coord.sent at h
    rw [he] at h
    cases hpc : co.pc with
    | preparing todo msg => cases todo <;> simp [hpc] at h
    | _ => simp [hpc] at h

theorem attributed_step {g : Nat → Talk} (h : Talking cfg (Undisturbed c) s g)
    (hs : step cfg s ℓ = some s') (hq : Undisturbed c s ℓ) :
    Attributed c s g s' (talkAfter s ℓ s' g) := by
  have hd := h.reach.slotted
  have hm := h.matching
  have hm' := hm.step hd hs hq
  have hd' := Slotted.step hd hs
  rcases session_cases closed_true hd hs trivial c with ⟨hco, ⟨l, hl, hn⟩, hsess⟩ | ⟨hcut, hc⟩
  · refine ⟨fun k m x hm => ?_, fun k x hx => .inl ?_, fun l' type T res hl' hmem => ?_⟩
    · rw [hco, Coord.sent_of_pc rfl] at hm
      cases hm
    · obtain ⟨σ, hσ, -, howner⟩ := (hd c).owns k x hx
      obtain ⟨σ', hσ', hstep⟩ := hsess x σ hσ howner
      rw [talkAfter_kept hσ hσ', Talk.after_heard hstep.grows]
    · rw [List.append_cancel_right (hl'.symm.trans hl)] at hmem
      exact absurd hmem (hn type T res)
  · refine ⟨fun k m x hsent hx => ?_, fun k x hx => ?_, fun l type T res hl hmem hop h0 => ?_⟩
    · have hover := Coord.not_over_of_sent hsent
      rw [hc.sent (hd c).table hover k] at hsent
      obtain ⟨σ', hσ', -⟩ := (hd' c).owns k x hx
      split_ifs at hsent
      rw [(hm' hover k x σ' hx hσ').asked, hsent, Option.toList_some]
    · obtain ⟨σ, hσ, -⟩ := (hd c).owns k x hx
      obtain ⟨σ', hσ', -⟩ := hc.kept x σ hσ
      rcases hc.reads hσ hσ' with he | ⟨⟨r, hcl⟩, hlive⟩
      · rw [talkAfter_kept hσ hσ', Talk.after_heard (.inl (by rw [he]))]
        exact .inl rfl
      · exact .inr (hm.heard hlive hcut hx hσ hσ' hcl)
    · rcases hc.replied hl hmem hop h0 with
        rfl | ⟨k, req, x, σ, stat, m, rest, hpc, hslot, hcl, ht, hr, hσ'⟩
      · exact absurd rfl hq
      · have hx : ((s.coord c).storageCl k).fd = some x := by rw [hslot.slot]
        obtain ⟨q, hask, hheard⟩ :=
          hm.heard (by simp [Coord.Over, hpc]) hcut hx hslot.sess hσ' hcl
        have he : opReq (s.coord c).beginTs req = q := by simpa [Coord.asked, hpc] using hask
        exact ⟨k, req, x, σ, m, rest, hpc, ht, hx, hslot.sess, hcl, hr, by rw [hheard, he]⟩

theorem not_undisturbed (h : ¬ Undisturbed c s ℓ) : ℓ = .clientEvent c := by
  cases ℓ with
  | clientEvent d => exact congrArg _ (not_not.mp h)
  | _ => exact absurd trivial h

theorem not_attributed {g : Nat → Talk} (hs : step cfg s (.clientEvent c) = some s')
    (ht : Table cfg (s.coord c)) : ¬ Attributed c s g s' (talkAfter s (.clientEvent c) s' g) := by
  intro ha
  simp only [step] at hs
  split at hs
  · rename_i n req hpc
    obtain rfl := Option.some.inj hs
    have hsess : (if (s.coord c).gone then s else s.log (.note (.early c))).sess = s.sess := by
      split_ifs <;> rfl
    have hcoord : (if (s.coord c).gone then s else s.log (.note (.early c))).coord = s.coord := by
      split_ifs <;> rfl
    have hl : ∃ l, (if (s.coord c).gone then s else s.log (.note (.early c))).hist = l ++ s.hist := by
      split_ifs
      · exact ⟨[], rfl⟩
      · exact ⟨[.note (.early c)], rfl⟩
    obtain ⟨l, hl⟩ := hl
    generalize (if (s.coord c).gone then s else s.log (.note (.early c))) = s₁ at *
    obtain ⟨h, req', x, σ, m, rest, -, -, -, hσ, -, -, hheard⟩ :=
      ha.replies (.note (.replied c req.requestType _ {}) :: l) req.requestType _ {}
        (congrArg _ hl) (.head _) (ht.op n req hpc).2 rfl
    have hσ' : ((s₁.setCoord c { s.coord c with pc := .top }).reply c req.requestType {}).sess x =
        some σ := (congrFun hsess x).trans hσ
    rw [talkAfter_kept hσ hσ', Talk.after_heard (.inl le_rfl)] at hheard
    simp at hheard
  · cases hs

/-- As long as no event of the client's socket ends the wait for an operation, and only then, every
request finds the earlier ones answered and every response goes to its own request. -/
theorem requests_attributed {g : Nat → Talk} (h : Talking cfg (Undisturbed c) s g)
    (hs : step cfg s ℓ = some s') :
    Attributed c s g s' (talkAfter s ℓ s' g) ↔ Undisturbed c s ℓ := by
  constructor
  · intro ha
    by_contra hq
    obtain rfl := not_undisturbed hq
    exact not_attributed hs (h.reach.slotted c).table ha
  · exact attributed_step h hs

end Sessions

def oneUpdate : List Label :=
  [.request (client 0) { requestType := .begin } (atUsec 100) 0 true true,
   .request (client 0) { requestType := .update, key := "b" } (atUsec 0) 0 true true,
   .recv 0 {}, .beginAnswer (client 0) true, .recv 0 {}]

theorem requests_attributed_update : ∃ s g s',
    Talking twoHosts (Undisturbed (client 0)) s g ∧ step twoHosts s (.opAnswer (client 0)) = some s' ∧
      Attributed (client 0) s g s' (talkAfter s (.opAnswer (client 0)) s' g) ∧
      (talkAfter s (.opAnswer (client 0)) s' g 0).heard =
        [beginReq "ts100", opReq "ts100" { requestType := .update, key := "b" }] := by
  have hrun : ((talkSteps twoHosts (Undisturbed (client 0)) {} (fun _ => {}) oneUpdate).bind
      fun (s, g) => (step twoHosts s (.opAnswer (client 0))).map fun s' =>
        (talkAfter s (.opAnswer (client 0)) s' g 0).heard) =
      some [beginReq "ts100", opReq "ts100" { requestType := .update, key := "b" }] := by
    decide +kernel
  obtain ⟨⟨s, g⟩, hsg, hf⟩ := Option.bind_eq_some_iff.mp hrun
  obtain ⟨s', hs', hheard⟩ := Option.map_eq_some_iff.mp hf
  have ht := talking_of_steps .init hsg
  exact ⟨s, g, s', ht, hs', (requests_attributed ht hs').mpr trivial, hheard⟩

/-- The client of `earlyBytes` is told that its insert has been done, and its next request is sent
while the insert waits for a lock. -/
theorem request_overtakes : ¬ ∀ (s s' : Sys) (g : Nat → Talk) (ℓ : Label),
    Talking twoHosts anyStep s g → step twoHosts s ℓ = some s' →
      Attributed (client 1) s g s' (talkAfter s ℓ s' g) := by
  intro h
  set last : Label := .request (client 1) { requestType := .get, key := "b" } (atUsec 0) 1 true true
    with hlast
  have hrun : ((talkSteps twoHosts anyStep {} (fun _ => {}) earlyBytes.dropLast).bind
      fun (s, g) => (step twoHosts s last).map fun s' =>
        ((s.coord (client 1)).sent (s'.coord (client 1)) hostA,
          ((s'.coord (client 1)).storageCl hostA).fd, talkAfter s last s' g 1)) =
      some (some (opReq "ts101" { requestType := .get, key := "b" }), some 1,
        { asked := [beginReq "ts101",
            opReq "ts101" { requestType := .insert, key := "b", value := "v" },
            opReq "ts101" { requestType := .get, key := "b" }]
          owed := []
          heard := [beginReq "ts101"] }) := by
    decide +kernel
  obtain ⟨⟨s, g⟩, hsg, hf⟩ := Option.bind_eq_some_iff.mp hrun
  obtain ⟨s', hs', hall⟩ := Option.map_eq_some_iff.mp hf
  obtain ⟨hsent, hrest⟩ := Prod.mk.inj hall
  obtain ⟨hfd, htalk⟩ := Prod.mk.inj hrest
  have hsends := (h s s' g last (talking_of_steps .init hsg) hs').sends hostA _ 1 hsent hfd
  rw [htalk] at hsends
  exact absurd hsends (by decide)

end Tpc
