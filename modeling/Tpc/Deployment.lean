import Tpc.Client
import Tpc.Dated

/-! The system together with its clients: where the clients run `client.cpp`, every one of them waits
for each reply. -/

namespace Tpc
open Durable

structure Client where
  waitRecvFlg : Bool := false
  /-- the request that has been sent and that the `logicServ` has not read -/
  sent : Option CliReq := none
  /-- the number of replies that have been read -/
  received : Nat := 0

structure Deployment where
  sys : Sys := {}
  client : CoordId → Client := fun _ => {}

inductive DeploymentLabel
  /-- a step of the servers -/
  | serv (ℓ : Label)
  /-- the client of `c` reads a reply -/
  | reads (c : CoordId)
  /-- the client of `c` reads an input; `ok` says whether `SendMsg` succeeds -/
  | types (c : CoordId) (i : Input) (ok : Bool)

def replyCount (c : CoordId) (l : Hist) : Nat :=
  l.countP fun
    | .note (.replied d _ _ _) => d = c
    | _ => false

namespace Deployment

def setClient (s : Deployment) (c : CoordId) (cl : Client) : Deployment :=
  { s with client := Function.update s.client c cl }

def allows (s : Deployment) : Label → Bool
  | .request c req _ _ _ _ => (s.client c).sent = some req
  | .clientEvent c => (s.sys.coord c).gone || (s.client c).sent.isSome
  | _ => true

def taken (s : Deployment) : Label → Deployment
  | .request c _ _ _ _ _ => s.setClient c { s.client c with sent := none }
  | _ => s

def step (cfg : Config) (s : Deployment) : DeploymentLabel → Option Deployment
  | .serv ℓ =>
    if s.allows ℓ then (Tpc.step cfg s.sys ℓ).map fun t => { s.taken ℓ with sys := t } else none
  | .reads c =>
    let cl := s.client c
    if cl.received < replyCount c s.sys.hist then
      some (s.setClient c { cl with waitRecvFlg := false, received := cl.received + 1 })
    else none
  | .types c i ok =>
    if (s.sys.coord c).gone then none
    -- the input is thrown away
    else if (s.client c).waitRecvFlg then some s
    else
      match i.action with
      | .send req =>
        if ok then some (s.setClient c { s.client c with waitRecvFlg := true, sent := some req })
        else some s
      | .overrun => none
      | _ => some s

end Deployment

def CoordPc.busy : CoordPc → Nat
  | .beginSent _ _ | .opSent _ _ | .preparing _ _ => 1
  | _ => 0

section Replies

variable {cfg : Config} {A : Hist → Prop} {s s' : Sys} {c d : CoordId} {ℓ : Label} {l m : Hist}
  {me : Proc} {N : Event → Prop}

theorem CoordPc.busy_le (pc : CoordPc) : pc.busy ≤ 1 := by cases pc <;> simp [CoordPc.busy]

theorem replyCount_append : replyCount c (l ++ m) = replyCount c l + replyCount c m :=
  List.countP_append

theorem replyCount_none (h : ∀ type T res, .note (.replied c type T res) ∉ l) :
    replyCount c l = 0 := by
  rw [replyCount, List.countP_eq_zero]
  intro e he
  cases e with
  | note e =>
    cases e with
    | replied d type T res =>
      intro hd
      obtain rfl : d = c := by simpa using hd
      exact h type T res he
    | _ => simp
  | _ => simp

theorem replyCount_grown (hg : Grown me N l m) (hN : ∀ type T res, ¬ N (.replied c type T res)) :
    replyCount c m = replyCount c l := by
  obtain ⟨new, rfl, hnew⟩ := hg
  rw [replyCount_append, replyCount_none fun type T res he => hN type T res (hnew _ he), Nat.zero_add]

theorem Apart.replyCount (h : Apart c s s') : replyCount c s'.hist = replyCount c s.hist := by
  obtain ⟨l, hl, hn⟩ := h.news
  rw [hl, replyCount_append, replyCount_none hn, Nat.zero_add]

theorem replyCount_replied (type : RequestType) (T : String) (res : CliRes) :
    replyCount c (.note (.replied c type T res) :: l) = replyCount c l + 1 := by
  simp [Tpc.replyCount]

theorem replyCount_other {e : Entry Proc Timeval Event}
    (he : ∀ type T res, e ≠ .note (.replied c type T res)) : replyCount c (e :: l) = replyCount c l := by
  rw [← List.singleton_append, replyCount_append, replyCount_none, Nat.zero_add]
  intro type T res hm
  exact he type T res (List.mem_singleton.mp hm).symm

theorem CoordStep.replyCount_le (hs : CoordStep cfg s c ℓ s') :
    replyCount c s'.hist + (s'.coord c).pc.busy ≤
      replyCount c s.hist + (s.coord c).pc.busy + if (s.coord c).pc = .top then 1 else 0 := by
  -- a reply, after which the session is not busy
  have answers : ∀ {l type T res}, s'.hist = .note (.replied c type T res) :: l →
      replyCount c l = replyCount c s.hist → (s'.coord c).pc.busy = 0 →
      (s.coord c).pc = .top ∨ (s.coord c).pc.busy = 1 →
      replyCount c s'.hist + (s'.coord c).pc.busy ≤
        replyCount c s.hist + (s.coord c).pc.busy + if (s.coord c).pc = .top then 1 else 0 := by
    intro l type T res hh hl hb hpc
    rw [hh, replyCount_replied, hl, hb]
    rcases hpc with hpc | hpc
    · rw [if_pos hpc]
      omega
    · omega
  -- no reply
  have serves : replyCount c s'.hist = replyCount c s.hist →
      (s'.coord c).pc.busy ≤ (s.coord c).pc.busy ∨ (s.coord c).pc = .top →
      replyCount c s'.hist + (s'.coord c).pc.busy ≤
        replyCount c s.hist + (s.coord c).pc.busy + if (s.coord c).pc = .top then 1 else 0 := by
    intro hh hpc
    have hle := (s'.coord c).pc.busy_le
    rw [hh]
    rcases hpc with hpc | hpc
    · omega
    · rw [if_pos hpc]
      omega
  cases hs with
  | replies type res hpc => exact answers rfl rfl (by simp [hpc, CoordPc.busy]) (.inl hpc)
  | begins tv hpc =>
    refine answers (l := (s.logBegin c tv).hist) rfl ?_ (by simp [Sys.logBegin, hpc, CoordPc.busy])
      (.inl hpc)
    simp only [Sys.logBegin, Sys.log]
    rw [replyCount_other (by simp), replyCount_other (by simp)]
  | plans tv hpc =>
    refine serves ?_ (.inr hpc)
    simp only [Sys.logPlan, Sys.log, Sys.setCoord]
    rw [replyCount_other (by simp), replyCount_other (by simp)]
  | rollsBack reused hpc =>
    exact answers rfl rfl (by cases reused <;> simp [CoordPc.busy]) (.inl hpc)
  | connectsBegin h x req hpc | connectsOp h x req hpc | sendsBegin h x σ req hpc
  | sendsOp h x σ req hpc =>
    exact serves rfl (.inr hpc)
  | hearsBegin h x σ stat req res rest hpc =>
    exact serves rfl (.inl (by simp [Sys.sendOp, hpc, CoordPc.busy]))
  | dangles h x σ stat req rest m hpc => exact serves rfl (.inl (by simp [CoordPc.busy]))
  | hearsOp h x σ stat req rest m hpc =>
    exact answers rfl rfl (by simp [CoordPc.busy]) (.inr (by simp [hpc, CoordPc.busy]))
  | leavesOp h req _ hpc =>
    refine answers rfl ?_ (by simp [CoordPc.busy]) (.inr (by simp [hpc, CoordPc.busy]))
    simp only [Sys.setCoord]
    split_ifs
    · rfl
    · exact replyCount_other (by simp)
  | sendsPrepare h todo msg x σ stat hpc => exact serves rfl (.inl (by simp [hpc, CoordPc.busy]))
  | collects h msg x σ rest m hpc =>
    cases m with
    | rpcResponse res => exact serves (replyCount_other (by simp)) (.inl (by simp [CoordPc.busy]))
    | transStateResponse => exact serves rfl (.inl (by simp [CoordPc.busy]))
  | completes msg hpc =>
    exact answers rfl rfl (by simp [CoordPc.busy]) (.inr (by simp [hpc, CoordPc.busy]))
  | drops h x σ hpc => exact serves rfl (.inl (by simp [Sys.drop]))
  | goes => exact serves rfl (.inl (by simp))
  | ends => exact serves rfl (.inl (by simp [CoordPc.busy]))
  | kills type res hf =>
    refine answers rfl rfl (by simp [CoordPc.busy]) ?_
    cases hf with
    | getFd req hpc => exact .inl hpc
    | begin h req hpc => exact .inr (by simp [hpc, CoordPc.busy])
    | op h req hpc => exact .inr (by simp [hpc, CoordPc.busy])
    | sendPrepare h todo msg hpc => exact .inr (by simp [hpc, CoordPc.busy])
  | killsCollecting h msg x σ res _ hpc =>
    exact answers rfl rfl (by simp [CoordPc.busy]) (.inr (by simp [hpc, CoordPc.busy]))
  | killsReading h x σ stat req rest m res hpc =>
    exact answers rfl rfl (by simp [CoordPc.busy]) (.inr (by simp [hpc, CoordPc.busy]))
  | killsBegun h x σ stat req rest m res hpc =>
    exact answers rfl rfl (by simp [CoordPc.busy]) (.inr (by simp [hpc, CoordPc.busy]))

/-- The replies to the client of `c`, and the one that its session owes. -/
def Sys.due (s : Sys) (c : CoordId) : Nat := replyCount c s.hist + (s.coord c).pc.busy

def Label.reader : Label → Option CoordId
  | .request c _ _ _ _ _ => some c
  | _ => none

theorem NodeStep.due (hn : NodeStep A s ℓ s') : s'.due c = s.due c := by
  obtain ⟨h, hg⟩ := hn.grown
  rw [Sys.due, Sys.due, hn.coord_eq, replyCount_grown hg fun _ _ _ => id]

theorem CoordStep.due_le (ho : s.Owns d) (hs : CoordStep cfg s d ℓ s')
    (hd : d = c → s'.due c ≤ s.due c) : s'.due c ≤ s.due c := by
  by_cases hdc : d = c
  · exact hd hdc
  · have hap := hs.apart ho (Ne.symm hdc)
    rw [Sys.due, hap.coord, hap.replyCount]
    exact Nat.le_refl _

theorem CoordStep.due_of_busy (ho : s.Owns d) (hs : CoordStep cfg s d ℓ s')
    (hpc : (s.coord d).pc ≠ .top) : s'.due c ≤ s.due c := by
  refine hs.due_le ho ?_
  rintro rfl
  have hle := hs.replyCount_le
  rw [if_neg hpc] at hle
  exact hle

theorem step_due (hsl : ∀ d, Slotted cfg s d) (hs : step cfg s ℓ = some s') (c : CoordId) :
    s'.due c ≤ s.due c + if ℓ.reader = some c then 1 else 0 := by
  have hnode : NodeStep (fun _ => True) s ℓ s' → s'.due c ≤ s.due c := fun hn => hn.due.le
  have serves : ∀ d, CoordStep cfg s d ℓ s' → (s.coord d).pc ≠ .top → s'.due c ≤ s.due c :=
    fun d hd hpc => hd.due_of_busy (hsl d).owns hpc
  -- steps at the head of the loop that read no request
  have quiet : ∀ d, CoordStep cfg s d ℓ s' → s'.hist = s.hist →
      (s'.coord d).pc.busy ≤ (s.coord d).pc.busy → s'.due c ≤ s.due c := by
    intro d hd hh hb
    refine hd.due_le (hsl d).owns ?_
    rintro rfl
    rw [Sys.due, Sys.due, hh]
    exact Nat.add_le_add_left hb _
  cases ℓ with
  | recv x env => exact hnode (node_recv closed_true hs trivial)
  | timeout x env => exact hnode (node_timeout closed_true hs trivial)
  | event x => exact hnode (node_event hs)
  | hangup x env => exact hnode (node_hangup closed_true hs trivial)
  | taskSkip h i env => exact hnode (node_taskSkip closed_true hs trivial)
  | taskAsk h peer i env => exact hnode (node_taskAsk closed_true hs trivial)
  | taskRecv h i env => exact hnode (node_taskRecv closed_true hs trivial)
  | crash h => exact hnode (node_crash hs)
  | startUp h env => exact hnode (node_startUp closed_true hs trivial)
  | cut x a b => exact hnode (node_cut hs)
  | request d req tv x ok reused =>
    have hd := coord_request hs
    by_cases hdc : d = c
    · subst hdc
      have hle := hd.replyCount_le
      rw [if_pos (by rfl)]
      simp only [Sys.due]
      split_ifs at hle <;> omega
    · exact (hd.due_le (hsl d).owns fun h => absurd h hdc).trans (Nat.le_add_right _ _)
  | beginAnswer d ok => exact serves d (coord_beginAnswer hs) fun h => by simp [step, h] at hs
  | opAnswer d => exact serves d (coord_opAnswer hs) fun h => by simp [step, h] at hs
  | clientEvent d => exact serves d (coord_clientEvent hs) fun h => by simp [step, h] at hs
  | sendPrepare d ok => exact serves d (coord_sendPrepare hs) fun h => by simp [step, h] at hs
  | collect d h => exact serves d (coord_collect hs) fun h => by simp [step, h] at hs
  | collected d => exact serves d (coord_collected hs) fun h => by simp [step, h] at hs
  | storageEvent d h =>
    have hd := coord_storageEvent hs
    simp only [step] at hs
    split at hs
    · split at hs
      · cases hs
      split at hs
      · cases hs
      split_ifs at hs
      split at hs
      · obtain rfl := Option.some.inj hs
        exact quiet d hd rfl (by simp)
      · obtain rfl := Option.some.inj hs
        exact quiet d hd rfl (by simp [CoordPc.busy])
    · cases hs
  | clientGone d =>
    obtain rfl := Option.some.inj hs
    exact quiet d .goes rfl (by simp)
  | die d =>
    simp only [step] at hs
    split_ifs at hs
    obtain rfl := Option.some.inj hs
    exact quiet d .ends rfl (by simp [CoordPc.busy])

theorem clientsWait_iff : ClientsWait l ↔ ∀ c, .note (.early c) ∉ l := by
  constructor
  · exact fun h c hm => h _ hm
  · intro h e he
    cases e with
    | note e =>
      cases e with
      | early c => exact h c he
      | _ => trivial
    | _ => trivial

theorem step_early (hs : step cfg s ℓ = some s') (hm : .note (.early c) ∈ s'.hist) :
    .note (.early c) ∈ s.hist ∨
      ℓ = .clientEvent c ∧ (s.coord c).gone = false ∧ (s.coord c).pc.busy = 1 := by
  rcases step_cases closed_true hs trivial with hn | ⟨d, hd⟩
  · obtain ⟨h, hg⟩ := hn.grown
    exact .inl (hg.old_note id hm)
  · have old : ∀ l, s'.hist = l ++ s.hist → .note (.early c) ∉ l → .note (.early c) ∈ s.hist := by
      intro l hl hn
      rw [hl] at hm
      exact (List.mem_append.mp hm).resolve_left hn
    cases hd with
    | leavesOp h req hℓ hpc =>
      have hm : .note (.early c) ∈ (if (s.coord d).gone then s else s.log (.note (.early d))).hist :=
        (List.mem_cons.mp hm).resolve_left (by simp)
      split_ifs at hm with hgone
      · exact .inl hm
      · rcases List.mem_cons.mp hm with he | hm
        · obtain rfl : c = d := by simpa using he
          exact .inr ⟨hℓ, by simpa using hgone, by simp [hpc, CoordPc.busy]⟩
        · exact .inl hm
    | replies | rollsBack | hearsOp | completes | kills | killsCollecting | killsReading | killsBegun =>
      exact .inl (old [.note (.replied d _ _ _)] rfl (by simp))
    | begins tv =>
      exact .inl (old [.note (.replied d _ _ _), .note (.begun d _), .clock (.logic d.serv) tv] rfl
        (by simp))
    | plans tv => exact .inl (old [.note (.prepare d _ _ _), .clock (.logic d.serv) tv] rfl (by simp))
    | collects h msg x σ rest m =>
      cases m with
      | rpcResponse res => exact .inl (old [.note (.answered d _ h res.result)] rfl (by simp))
      | transStateResponse => exact .inl hm
    | _ => exact .inl hm

end Replies

namespace Deployment

inductive Reach (cfg : Config) : Deployment → Prop
  | init : Reach cfg {}
  | step {s s' : Deployment} {ℓ : DeploymentLabel} : Reach cfg s → s.step cfg ℓ = some s' → Reach cfg s'

/-- Nothing is under way for a client that does not wait; for one that waits, its request or the reply to
it. -/
structure Turn (s : Deployment) (c : CoordId) : Prop where
  received_le : (s.client c).received ≤ replyCount c s.sys.hist
  due_le : (s.client c).sent.toList.length + s.sys.due c ≤
    (s.client c).received + (s.client c).waitRecvFlg.toNat

section Runs

variable {cfg : Config} {s s' : Deployment} {c d : CoordId} {ℓ : Label} {t : Sys}

theorem setClient_client (cl : Client) :
    (s.setClient c cl).client d = if d = c then cl else s.client d := by
  simp only [setClient, Function.update_apply]

theorem Turn.setClient (h : s.Turn d) {cl : Client}
    (hcl : s.Turn c → cl.received ≤ replyCount c s.sys.hist ∧
      cl.sent.toList.length + s.sys.due c ≤ cl.received + cl.waitRecvFlg.toNat) :
    (s.setClient c cl).Turn d := by
  by_cases hd : d = c
  · subst hd
    obtain ⟨hr, hdue⟩ := hcl h
    exact ⟨by rwa [setClient_client, if_pos rfl], by rwa [setClient_client, if_pos rfl]⟩
  · exact ⟨by rw [setClient_client, if_neg hd]; exact h.received_le,
      by rw [setClient_client, if_neg hd]; exact h.due_le⟩

theorem taken_client (hread : ℓ.reader ≠ some c) : (s.taken ℓ).client c = s.client c := by
  unfold taken
  split
  · rw [setClient_client, if_neg]
    rintro rfl
    exact hread rfl
  · rfl

theorem taken_reader (hread : ℓ.reader = some c) :
    (s.taken ℓ).client c = { s.client c with sent := none } := by
  cases ℓ with
  | request d req tv x ok reused =>
    obtain rfl : d = c := Option.some.inj hread
    simp only [taken, setClient_client, if_true]
  | _ => cases hread

theorem sent_of_reader (ha : s.allows ℓ = true) (hread : ℓ.reader = some c) :
    ∃ req, (s.client c).sent = some req := by
  cases ℓ with
  | request d req tv x ok reused =>
    obtain rfl : d = c := Option.some.inj hread
    exact ⟨req, of_decide_eq_true ha⟩
  | _ => cases hread

theorem Turn.serv (h : s.Turn c) (hsl : ∀ d, Slotted cfg s.sys d) (ha : s.allows ℓ = true)
    (hs : Tpc.step cfg s.sys ℓ = some t) : Turn { s.taken ℓ with sys := t } c := by
  have hdue := step_due hsl hs c
  have hle := h.due_le
  have hcount : replyCount c s.sys.hist ≤ replyCount c t.hist := by
    obtain ⟨m, hm⟩ := step_hist hs
    rw [← hm, replyCount_append]
    exact Nat.le_add_left _ _
  suffices hcl : ((s.taken ℓ).client c).received ≤ replyCount c t.hist ∧
      ((s.taken ℓ).client c).sent.toList.length + t.due c ≤
        ((s.taken ℓ).client c).received + ((s.taken ℓ).client c).waitRecvFlg.toNat from ⟨hcl.1, hcl.2⟩
  by_cases hread : ℓ.reader = some c
  · obtain ⟨req, hreq⟩ := sent_of_reader ha hread
    rw [hreq, Option.toList_some, List.length_singleton] at hle
    rw [if_pos hread] at hdue
    rw [taken_reader hread]
    refine ⟨h.received_le.trans hcount, ?_⟩
    simp only [Option.toList_none, List.length_nil]
    omega
  · rw [if_neg hread] at hdue
    rw [taken_client hread]
    exact ⟨h.received_le.trans hcount, by omega⟩

theorem types_cases {i : Input} {ok : Bool} (hs : s.step cfg (.types d i ok) = some s') :
    s' = s ∨ (s.client d).waitRecvFlg = false ∧
      ∃ req, s' = s.setClient d { s.client d with waitRecvFlg := true, sent := some req } := by
  simp only [Deployment.step] at hs
  by_cases hgone : (s.sys.coord d).gone = true
  · rw [if_pos hgone] at hs
    cases hs
  rw [if_neg hgone] at hs
  by_cases hwait : (s.client d).waitRecvFlg = true
  · rw [if_pos hwait] at hs
    exact .inl (Option.some.inj hs).symm
  rw [if_neg hwait] at hs
  split at hs
  · rename_i req hreq
    by_cases hok : ok = true
    · rw [if_pos hok] at hs
      exact .inr ⟨by simpa using hwait, req, (Option.some.inj hs).symm⟩
    · rw [if_neg hok] at hs
      exact .inl (Option.some.inj hs).symm
  · cases hs
  · exact .inl (Option.some.inj hs).symm

/-- A client reads a reply and sends a request in turn. -/
theorem Turn.step (h : ∀ c, s.Turn c) (hsl : ∀ d, Slotted cfg s.sys d) {ℓ : DeploymentLabel}
    (hs : s.step cfg ℓ = some s') (c : CoordId) : s'.Turn c := by
  cases ℓ with
  | serv ℓ =>
    simp only [Deployment.step] at hs
    split_ifs at hs with ha
    obtain ⟨t, ht, rfl⟩ := Option.map_eq_some_iff.mp hs
    exact (h c).serv hsl ha ht
  | reads d =>
    simp only [Deployment.step] at hs
    split_ifs at hs with hlt
    obtain rfl := Option.some.inj hs
    refine (h c).setClient fun hd => ⟨hlt, ?_⟩
    have hdue := hd.due_le
    have hb := Bool.toNat_le (s.client d).waitRecvFlg
    simp only [Bool.toNat_false]
    omega
  | types d i ok =>
    obtain rfl | ⟨hw, req, rfl⟩ := types_cases hs
    · exact h c
    · refine (h c).setClient fun hd => ⟨hd.received_le, ?_⟩
      have hdue := hd.due_le
      have hr : replyCount d s.sys.hist ≤ s.sys.due d := Nat.le_add_right _ _
      rw [hw, Bool.toNat_false] at hdue
      simp only [Option.toList_some, List.length_singleton, Bool.toNat_true]
      omega

theorem clientsWait_step (h : ∀ c, s.Turn c) (hw : ClientsWait s.sys.hist) (ha : s.allows ℓ = true)
    (hs : Tpc.step cfg s.sys ℓ = some t) : ClientsWait t.hist := by
  refine clientsWait_iff.mpr fun c hm => ?_
  rcases step_early hs hm with hm | ⟨rfl, hgone, hbusy⟩
  · exact clientsWait_iff.mp hw c hm
  · have hsent : (s.client c).sent.isSome = true := by simpa [allows, hgone] using ha
    obtain ⟨req, hreq⟩ := Option.isSome_iff_exists.mp hsent
    have hdue := (h c).due_le
    have hr := (h c).received_le
    have hb := Bool.toNat_le (s.client c).waitRecvFlg
    rw [hreq, Option.toList_some, List.length_singleton, Sys.due, hbusy] at hdue
    omega

theorem Reach.turns (hs : Reach cfg s) :
    Tpc.Reach cfg anyStep s.sys ∧ ClientsWait s.sys.hist ∧ ∀ c, s.Turn c := by
  induction hs with
  | init => exact ⟨.init, by simp [ClientsWait], fun c => ⟨Nat.le_refl 0, Nat.le_refl 0⟩⟩
  | @step s s' ℓ _ hstep ih =>
    obtain ⟨hreach, hw, hturn⟩ := ih
    have hturn' := Turn.step hturn hreach.slotted hstep
    cases ℓ with
    | serv ℓ =>
      simp only [Deployment.step] at hstep
      split_ifs at hstep with ha
      obtain ⟨t, ht, rfl⟩ := Option.map_eq_some_iff.mp hstep
      exact ⟨hreach.step trivial ht, clientsWait_step hturn hw ha ht, hturn'⟩
    | reads d =>
      simp only [Deployment.step] at hstep
      split_ifs at hstep
      obtain rfl := Option.some.inj hstep
      exact ⟨hreach, hw, hturn'⟩
    | types d i ok =>
      obtain rfl | ⟨-, req, rfl⟩ := types_cases hstep
      · exact ⟨hreach, hw, hturn'⟩
      · exact ⟨hreach, hw, hturn'⟩

def steps (cfg : Config) : Deployment → List DeploymentLabel → Option Deployment
  | s, [] => some s
  | s, ℓ :: ls => (s.step cfg ℓ).bind fun s => steps cfg s ls

theorem Reach.steps {ls : List DeploymentLabel} (hs : Reach cfg s)
    (h : Deployment.steps cfg s ls = some s') : Reach cfg s' := by
  induction ls generalizing s with
  | nil =>
    obtain rfl := Option.some.inj h
    exact hs
  | cons ℓ ls ih =>
    obtain ⟨s₁, h₁, h₂⟩ := Option.bind_eq_some_iff.mp h
    exact ih (hs.step h₁) h₂

end Runs

end Deployment

/-- Where the clients run `client.cpp`, no session ever leaves a request early, so that what has been
proved of histories in which the clients wait holds of every run: a client that does not wait has read
every reply and nothing of it is under way; one that waits has at most one reply to read. -/
theorem clients_take_turns {cfg : Config} {s : Deployment} (hs : Deployment.Reach cfg s) :
    Reach cfg anyStep s.sys ∧ ClientsWait s.sys.hist ∧
      ∀ c, (s.client c).received ≤ replyCount c s.sys.hist ∧
        (s.client c).sent.toList.length + s.sys.due c ≤
          (s.client c).received + (s.client c).waitRecvFlg.toNat ∧
        replyCount c s.sys.hist ≤ (s.client c).received + 1 ∧
        ((s.client c).waitRecvFlg = false → (s.client c).sent = none ∧ (s.sys.coord c).pc.busy = 0 ∧
          replyCount c s.sys.hist = (s.client c).received) := by
  obtain ⟨hreach, hw, hturn⟩ := hs.turns
  refine ⟨hreach, hw, fun c => ?_⟩
  have hr := (hturn c).received_le
  have hdue := (hturn c).due_le
  have hb := Bool.toNat_le (s.client c).waitRecvFlg
  refine ⟨hr, hdue, ?_⟩
  rw [Sys.due] at hdue
  refine ⟨by omega, fun hwait => ?_⟩
  rw [hwait, Bool.toNat_false] at hdue
  have hsent : (s.client c).sent.toList.length = 0 := by omega
  exact ⟨by simpa using hsent, by omega, by omega⟩

def typesTwice : List DeploymentLabel :=
  [.types (client 0) ⟨"begin\n".toList, by decide⟩ true,
   .serv (.request (client 0) { requestType := .begin } (atUsec 1) 0 true false),
   .types (client 0) ⟨"commit\n".toList, by decide⟩ true,
   .reads (client 0),
   .types (client 0) ⟨"c\n".toList, by decide⟩ true,
   .serv (.request (client 0) { requestType := .commit } (atUsec 2) 0 true false),
   .serv (.collected (client 0))]

theorem clients_take_turns_twice :
    ∃ s, Deployment.Reach twoHosts s ∧ ClientsWait s.sys.hist ∧
      replyCount (client 0) s.sys.hist = (s.client (client 0)).received + 1 := by
  have h : (Deployment.steps twoHosts {} typesTwice).map
      (fun s => (replyCount (client 0) s.sys.hist, (s.client (client 0)).received)) = some (2, 1) := by
    decide +kernel
  obtain ⟨s, hs, he⟩ := Option.map_eq_some_iff.mp h
  have hreach := Deployment.Reach.init.steps hs
  have hcount : replyCount (client 0) s.sys.hist = 2 := congrArg Prod.fst he
  have hread : (s.client (client 0)).received = 1 := congrArg Prod.snd he
  exact ⟨s, hreach, (clients_take_turns hreach).2.1, by rw [hcount, hread]⟩

end Tpc
