import Tpc.Locking

/-! The calls of `ReadData` in a history: what one step of the system reads, and on which database. -/

namespace Tpc
open Durable

structure Read where
  key : String
  beginTs : String
  forUpdate : Bool
  inBeginTs : String
  res : ReadRes
deriving DecidableEq, Repr

def Event.read? (n : Host) : Event → Option Read
  | .read h beginTs key forUpdate inBeginTs res =>
    if h = n then some ⟨key, beginTs, forUpdate, inBeginTs, res⟩ else none
  | _ => none

def reads (n : Host) (l : Hist) : List Read :=
  l.filterMap fun
    | .note e => e.read? n
    | _ => none

section Reads

variable {n : Host} {me : Proc} {N : Event → Prop} {l l' : Hist}

theorem reads_note (e : Event) : reads n (.note e :: l) = (e.read? n).toList ++ reads n l := by
  simp only [reads, List.filterMap_cons]
  cases e.read? n <;> rfl

theorem reads_grown (h : Grown me N l l') (hN : ∀ e, N e → e.read? n = none) :
    reads n l' = reads n l := by
  obtain ⟨new, rfl, hnew⟩ := h
  rw [reads, List.filterMap_append, List.filterMap_eq_nil_iff.mpr, List.nil_append, reads]
  intro e he
  cases e with
  | note e => exact hN e (hnew _ he)
  | _ => rfl

theorem reads_silent (h : Silent me l l') : reads n l' = reads n l :=
  reads_grown h fun _ h => h.elim

end Reads

/-- The database on which a handler of `req` reads, on the connection `σ`: a Get that locks has the
lock by then. -/
inductive ReadsOn (s : Sys) (σ : Session) (req : RpcReq) (ℓ : Label) : Db.Store → Prop
  | plain : req.getForUpdate = 0 → ReadsOn s σ req ℓ (s.node σ.host).store
  | again (res : RpcRes) : σ.wait = .read req res → ReadsOn s σ req ℓ (s.node σ.host).store
  | locked (fates : List Fate) (st : Db.Store) : Locks s σ req fates ℓ →
      LockBy fates req.key σ.vars.beginTs (s.node σ.host).store st → ReadsOn s σ req ℓ st

structure Reading (A : Hist → Prop) (l l' : Hist) (v : Vars) (req : RpcReq) (st : Db.Store)
    (a : Read) : Prop where
  key : a.key = req.key
  beginTs : a.beginTs = v.beginTs
  plain : req.getForUpdate = 0 → a.forUpdate = false ∧ a.inBeginTs = v.beginTs
  update : req.getForUpdate ≠ 0 → a.forUpdate = true ∧ Fresh l l' a.inBeginTs
  result : (∃ fuel, readOf st a.inBeginTs a.key fuel "" = some a.res) ∨ a.res.code = -1 ∧ MayFail A

inductive ReadMove (A : Hist → Prop) (s : Sys) (n : Host) (ℓ : Label) (s' : Sys) : Prop
  | quiet : reads n s'.hist = reads n s.hist → ReadMove A s n ℓ s'
  | reads (x : Nat) (σ : Session) (req : RpcReq) (a : Read) : s.sess x = some σ → σ.live = true →
      σ.host = n → (req ∈ σ.toServ ∧ req.IsOp ∧ σ.vars.beginTs ≠ "") ∨ σ.wait.req? = some req →
      ReadsOn s σ req ℓ (s'.node n).store →
      Reading A s.hist s'.hist σ.vars req (s'.node n).store a →
      Tpc.reads n s'.hist = a :: Tpc.reads n s.hist → writes n s'.hist = writes n s.hist →
      ReadMove A s n ℓ s'

section ReadMove

variable {cfg : Config} {A : Hist → Prop} {s s' : Sys} {n self : Host} {ℓ : Label} {σ : Session}
  {req : RpcReq} {res : RpcRes} {fates : List Fate} {w w' : DbWorld} {seg : Seg} {v : Vars}
  {fuel : Nat} {l : Hist}

theorem ReadEnd.reading {me : Proc} (h : ReadEnd A me self fuel v req res w seg w')
    (hl : l <:+ w.hist) : ∃ a, Reading A l w'.hist v req w'.store a ∧
      Tpc.reads self w'.hist = a :: Tpc.reads self w.hist := by
  obtain ⟨hst, l₁, ts, m, r, hts, hm, hw, hr, -⟩ := h
  have hlog : Tpc.reads self l₁ = Tpc.reads self w.hist := by
    rcases hts with ⟨-, -, rfl⟩ | ⟨-, tv, -, rfl⟩
    · rfl
    · rfl
  refine ⟨⟨req.key, v.beginTs, req.getForUpdate ≠ 0, ts, r⟩, ⟨rfl, rfl, fun hf => ?_, fun hf => ?_, ?_⟩,
    ?_⟩
  · rcases hts with ⟨-, rfl, -⟩ | ⟨hne, -⟩
    · exact ⟨by simp [hf], rfl⟩
    · exact absurd hf hne
  · rcases hts with ⟨he, -⟩ | ⟨-, tv, rfl, rfl⟩
    · exact absurd he hf
    · refine ⟨by simp [hf], me, tv, w.hist, hl, ?_, rfl⟩
      rw [hw]
      exact hm.suffix.trans (List.suffix_cons _ _)
  · rw [hst]
    exact hr.imp_left fun h => ⟨fuel, h⟩
  · rw [hw, reads_note, Event.read?, if_pos rfl, reads_silent hm, hlog]
    rfl

theorem LockEnd.reads {G : Db.Store → Db.Store → Prop} {me : Proc} {key T : String}
    (h : LockEnd G me self key T w w') : reads n w'.hist = reads n w.hist := by
  refine reads_grown h.grown fun e he => ?_
  rw [he]
  rfl

theorem AccessEnd.readMove {x : Nat} (hst : (s'.node σ.host).store = w.store) (hw : s'.hist = w.hist)
    (hσ : s.sess x = some σ) (hlive : σ.live = true)
    (hreq : (req ∈ σ.toServ ∧ req.IsOp ∧ σ.vars.beginTs ≠ "") ∨ σ.wait.req? = some req)
    (hl : (req.requestType = .get → req.getForUpdate ≠ 0) → Locks s σ req fates ℓ)
    (h : AccessEnd A fates σ.host fuel σ.vars req res (s.world σ.host) seg w) :
    ReadMove A s σ.host ℓ s' := by
  cases h with
  | reads _ hf hr =>
    obtain ⟨a, ha, hlog⟩ := hr.reading (List.suffix_refl s.hist)
    refine .reads x σ req a hσ hlive rfl hreq ?_ (hw ▸ hst ▸ ha) (hw ▸ hlog) (hw ▸ hr.writes)
    rw [hst, hr.1]
    exact .plain hf
  | gets _ hf hg =>
    cases hg with
    | waits _ hwait =>
      refine .quiet ?_
      rw [hw]
      exact reads_silent hwait.2.1
    | reads w₁ _ _ hlock hr =>
      obtain ⟨a, ha, hlog⟩ := hr.reading (l := s.hist) hlock.grown.suffix
      refine .reads x σ req a hσ hlive rfl hreq ?_ (hw ▸ hst ▸ ha) ?_ ?_
      · rw [hst, hr.1]
        exact .locked fates w₁.store (hl fun _ => hf) hlock.1
      · rw [hw, hlog, hlock.reads]
        rfl
      · rw [hw, hr.writes, hlock.writes]
        rfl
  | writes hne hwr =>
    refine .quiet ?_
    rw [hw]
    cases hwr with
    | waits _ hwait => exact reads_silent hwait.2.1
    | fails w₁ _ ret hlock _ _ hm _ => exact (reads_silent hm).trans hlock.reads
    | writes w₁ _ m hlock _ hm he =>
      rw [he, reads_note, reads_silent hm, hlock.reads]
      rfl

theorem AccessLost.reads {G : Db.Store → Db.Store → Prop} {me : Proc} {key T : String}
    (h : AccessLost G me self key T w w') : reads n w'.hist = reads n w.hist := by
  cases h with
  | before _ hm => exact reads_silent hm
  | after w₁ hlock hm _ => exact (reads_silent hm).trans hlock.reads

theorem ReadMove.of_ne {h : Host} (hne : n ≠ h)
    (hg : Grown (.storage h) (Event.Of h) s.hist s'.hist) : ReadMove A s n ℓ s' := by
  refine .quiet (reads_grown hg fun e he => ?_)
  cases e with
  | read h' T key u ts r =>
    obtain rfl : h' = h := he
    exact if_neg (Ne.symm hne)
  | _ => rfl

theorem ReadMove.recv (hA : Closed A) {x : Nat} {env : Env}
    (hs : step cfg s (.recv x env) = some s') (ha : A s'.hist) (n : Host) :
    ReadMove A s n (.recv x env) s' := by
  simp only [step] at hs
  split at hs
  · cases hs
  rename_i σ hσ
  split at hs
  case h_2 => cases hs
  rename_i m rest hlive hwait hm
  have hmem : m ∈ σ.toServ := by simp [hm]
  -- the notes of a segment come from its node, and a segment that is no operation makes none
  have grown : ∀ o, (onMessage σ.host (s.idle σ.host) env.fuel σ.vars (.rpcRequest m)).run
      (.storage σ.host) env.fates env.clocks (s.world σ.host) = o → A o.2.hist → Outcome.Sat
        (fun _ w => Grown (.storage σ.host) (Event.Of σ.host) s.hist w.hist)
        (fun w => Grown (.storage σ.host) (Event.Of σ.host) s.hist w.hist) o := by
    rintro o rfl ha
    exact Prog.sat_of_wp hA (Prog.wp_grown (onMessage_tells σ.host (s.idle σ.host) env.fuel σ.vars
      (.rpcRequest m)) (.refl _ _ s.hist)) ha
  by_cases hop : m.IsOp
  · obtain ⟨-, ⟨seg, w, ⟨hend, hg⟩, rfl⟩ | ⟨w, ⟨hdies, hg⟩, rfl⟩⟩ :=
      serve_inv (σ := { σ with toServ := rest })
        (fun o ho ha => (op_end hA hop ho ha).and (grown o ho ha)) hs ha
    · by_cases hn : n = σ.host
      · subst hn
        cases hend with
        | answers res => exact .quiet rfl
        | accesses res hv hacc hend =>
          refine hend.readMove ((served_store ..).trans (if_pos rfl)) rfl hσ hlive
            (.inl ⟨hmem, hop, hv⟩) fun hget => ?_
          exact .recv hσ hlive hm hv hacc hget
      · exact .of_ne hn hg
    · by_cases hn : n = σ.host
      · subst hn
        exact .quiet (AccessLost.reads hdies)
      · exact .of_ne hn hg
  · have ran : ∀ o, (onMessage σ.host (s.idle σ.host) env.fuel σ.vars (.rpcRequest m)).run
        (.storage σ.host) env.fates env.clocks (s.world σ.host) = o → A o.2.hist → Outcome.Sat
          (fun _ w => Tpc.reads n w.hist = Tpc.reads n s.hist)
          (fun w => Tpc.reads n w.hist = Tpc.reads n s.hist) o := by
      rintro o rfl ha
      exact (Prog.sat_of_wp hA (onMessage_ran hop) ha).mono (fun _ _ h => reads_silent h.grown)
        fun _ h => reads_silent h.grown
    obtain ⟨-, ⟨seg, w, h, rfl⟩ | ⟨w, h, rfl⟩⟩ :=
      serve_inv (σ := { σ with toServ := rest }) ran hs ha
    · exact .quiet h
    · exact .quiet h

theorem ReadMove.timeout (hA : Closed A) {x : Nat} {env : Env}
    (hs : step cfg s (.timeout x env) = some s') (ha : A s'.hist) (n : Host) :
    ReadMove A s n (.timeout x env) s' := by
  simp only [step] at hs
  split at hs
  · cases hs
  rename_i σ hσ
  split_ifs at hs with hc
  obtain ⟨hlive, hwait⟩ := hc
  have sat : ∀ {Q : Seg → DbWorld → Prop} {R : DbWorld → Prop},
      (∀ o, (onTimeout σ.host env.fuel σ.vars σ.wait).run (.storage σ.host) env.fates env.clocks
        (s.world σ.host) = o → A o.2.hist → Outcome.Sat Q R o) →
      (∀ seg w, Q seg w → (s'.node σ.host).store = w.store → s'.hist = w.hist →
        ReadMove A s σ.host (.timeout x env) s') →
      (∀ w, R w → Tpc.reads σ.host w.hist = Tpc.reads σ.host s.hist) →
      ReadMove A s n (.timeout x env) s' := by
    intro Q R h hQ hR
    have grown : ∀ o, (onTimeout σ.host env.fuel σ.vars σ.wait).run (.storage σ.host) env.fates
        env.clocks (s.world σ.host) = o → A o.2.hist → Outcome.Sat
          (fun _ w => Grown (.storage σ.host) (Event.Of σ.host) s.hist w.hist)
          (fun w => Grown (.storage σ.host) (Event.Of σ.host) s.hist w.hist) o := by
      rintro o rfl ha
      exact Prog.sat_of_wp (A := A) hA (Prog.wp_grown (onTimeout_tells σ.host env.fuel σ.vars σ.wait)
        (.refl _ _ s.hist)) ha
    obtain ⟨-, ⟨seg, w, ⟨hw, hg⟩, rfl⟩ | ⟨w, ⟨hw, hg⟩, rfl⟩⟩ :=
      serve_inv (fun o ho ha => (h o ho ha).and (grown o ho ha)) hs ha
    · by_cases hn : n = σ.host
      · subst hn
        exact hQ seg w hw ((served_store ..).trans (if_pos rfl)) rfl
      · exact .of_ne hn hg
    · by_cases hn : n = σ.host
      · subst hn
        exact .quiet (hR w hw)
      · exact .of_ne hn hg
  cases hwt : σ.wait with
  | idle => exact absurd hwt hwait
  | lock req res =>
    refine sat (Q := AccessEnd A env.fates σ.host env.fuel σ.vars req res (s.world σ.host))
      (R := AccessDies env.fates σ.host σ.vars req (s.world σ.host)) (fun o ho ha => ?_)
      (fun seg w h hst hw => h.readMove hst hw hσ hlive (.inr (by rw [hwt]; rfl)) fun hget => ?_)
      fun w h => h.reads
    · rw [hwt] at ho
      simp only [onTimeout] at ho
      split_ifs at ho with hreq
      · exact serveGet_end hA hreq ho ha
      · exact serveWrite_end hA hreq ho ha
    · exact .timeout hσ hlive hwt hget
  | read req res =>
    refine sat (Q := ReadEnd A (.storage σ.host) σ.host env.fuel σ.vars req res (s.world σ.host))
      (R := fun w => w.store = (s.world σ.host).store ∧ Silent (.storage σ.host) s.hist w.hist)
      (fun o ho ha => ?_) (fun seg w h hst hw => ?_) fun w h => reads_silent h.2
    · rw [hwt] at ho
      exact readRound_sat hA ho ha
    · obtain ⟨a, har, hlog⟩ := h.reading (List.suffix_refl s.hist)
      refine .reads x σ req a hσ hlive rfl (.inr (by rw [hwt]; rfl)) ?_ (hw ▸ hst ▸ har)
        (hw ▸ hlog) (hw ▸ h.writes)
      rw [hst, h.1]
      exact .again res hwt

theorem CoordStep.reads_eq {c : CoordId} (hs : CoordStep cfg s c ℓ s') :
    reads n s'.hist = reads n s.hist := by
  cases hs with
  | leavesOp h req =>
    cases (s.coord c).gone <;> rfl
  | collects h msg x σ rest m => cases m <;> rfl
  | _ => rfl

theorem NodeStep.readMove (hs : NodeStep A s ℓ s') (hre : ∀ x env, ℓ ≠ .recv x env)
    (hti : ∀ x env, ℓ ≠ .timeout x env) (n : Host) : ReadMove A s n ℓ s' := by
  cases hs with
  | @recv x env => exact absurd rfl (hre x env)
  | @timeout x env => exact absurd rfl (hti x env)
  | event | cut => exact .quiet rfl
  | hangup _ _ _ _ _ _ hr => exact .quiet (reads_silent hr.grown)
  | taskSkip _ _ _ hr => exact .quiet (reads_silent hr.grown)
  | taskRecv _ _ _ _ hr => exact .quiet (reads_silent hr.grown)
  | taskAsk _ _ _ _ _ _ hg => exact .quiet (reads_silent hg)
  | startUp _ _ hr => exact .quiet (reads_silent hr.grown)
  | lost hd =>
    cases hd with
    | same _ hg => exact .quiet (reads_silent hg)
    | @recv x env => exact absurd rfl (hre x env)
    | @timeout x env => exact absurd rfl (hti x env)
    | startUp _ _ hr => exact .quiet (reads_silent hr.grown)

theorem read_move (hA : Closed A) (hs : step cfg s ℓ = some s') (ha : A s'.hist) (n : Host) :
    ReadMove A s n ℓ s' := by
  rcases step_cases hA hs ha with hn | ⟨c, hc⟩
  · cases ℓ with
    | recv x env => exact .recv hA hs ha n
    | timeout x env => exact .timeout hA hs ha n
    | _ => exact hn.readMove (fun _ _ => by simp) (fun _ _ => by simp) n
  · exact .quiet hc.reads_eq

end ReadMove

end Tpc
