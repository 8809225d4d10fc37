import Tpc.Renaming
import Tpc.Slots

/-! What an accepted Rollback request leaves of a client session. The table of `StorageCl` is
allocated when the connection is accepted. Rollback deletes it and binds the new one to a variable
of the branch, so the outer `storageCl` keeps the address of the block that was freed. A run is
taken together with what the allocator does for the session. -/

namespace Tpc

/-- The outer variable `storageCl` and the tables that are allocated, by their addresses. -/
structure Tables where
  storageCl : Nat
  live : List Nat
deriving DecidableEq, Repr

namespace Tables

def accept (a : Nat) : Tables := { storageCl := a, live := [a] }

/-- `delete [] storageCl`; undefined unless `storageCl` points to an allocated table. -/
def delete (t : Tables) : Option Tables :=
  if t.storageCl ∈ t.live then some { t with live := t.live.erase t.storageCl } else none

/-- A new table at `a`, which is not in use; the outer variable does not get the address. -/
def allocate (t : Tables) (a : Nat) : Option Tables :=
  if a ∈ t.live then none else some { t with live := a :: t.live }

def rollback (t : Tables) (a : Nat) : Option Tables := t.delete.bind (·.allocate a)

def ReleasedOnce (t : Tables) : Prop := t.delete = some { t with live := [] }

variable {t t' : Tables} {a : Nat}

theorem releasedOnce_of_live (h : t.live = [t.storageCl]) : t.ReleasedOnce := by
  simp [ReleasedOnce, delete, h]

theorem rollback_eq (h : t.live = [t.storageCl]) :
    t.rollback a = some { t with live := [a] } := by
  simp [rollback, delete, allocate, h]

theorem rollback_releasedOnce_iff (h : t.live = [t.storageCl]) (ht : t.rollback a = some t') :
    t'.ReleasedOnce ↔ a = t.storageCl := by
  obtain rfl := Option.some.inj ((rollback_eq h).symm.trans ht)
  constructor
  · intro hr
    by_contra hne
    have hnone : delete { t with live := [a] } = none := if_neg (by simpa using Ne.symm hne)
    rw [ReleasedOnce, hnone] at hr
    cases hr
  · rintro rfl
    exact releasedOnce_of_live rfl

end Tables

def RollsBack (c : CoordId) (s : Sys) : Label → Prop
  | .request d req .. => d = c ∧ req.requestType = .rollback ∧ (s.coord c).beginTs ≠ ""
  | _ => False

structure RollbackStep (cfg : Config) (c : CoordId) (s : Sys) (t : Tables) (a : Nat) (s' : Sys)
    (t' : Tables) : Prop where
  tables : t.rollback a = some t'
  step : ∃ req tv x ok, req.requestType = .rollback ∧
    step cfg s (.request c req tv x ok (a = t.storageCl)) = some s'
  begun : (s.coord c).beginTs ≠ ""

/-- Runs of the system, with the tables of the session `c`. -/
inductive Allocates (cfg : Config) (c : CoordId) : Sys → Tables → Prop
  | accept (a : Nat) : Allocates cfg c {} (.accept a)
  | rollback {s s' : Sys} {t t' : Tables} {a : Nat} : Allocates cfg c s t →
      RollbackStep cfg c s t a s' t' → Allocates cfg c s' t'
  | other {s s' : Sys} {t : Tables} {ℓ : Label} : Allocates cfg c s t → ¬ RollsBack c s ℓ →
      step cfg s ℓ = some s' → Allocates cfg c s' t

section Allocates

variable {cfg : Config} {c : CoordId} {s s' : Sys} {t t' : Tables} {a : Nat} {ℓ : Label}

theorem Allocates.reach (h : Allocates cfg c s t) : Reach cfg anyStep s := by
  induction h with
  | accept a => exact .init
  | rollback _ hr ih =>
    obtain ⟨req, tv, x, ok, -, hs⟩ := hr.step
    exact .step ih trivial hs
  | other _ _ hs ih => exact .step ih trivial hs

theorem RollbackStep.coord (h : RollbackStep cfg c s t a s' t') :
    (s.coord c).pc = .top ∧
      s'.coord c = { pc := if a = t.storageCl then .top else .dangling } := by
  obtain ⟨req, tv, x, ok, hreq, hs⟩ := h.step
  simp only [Tpc.step] at hs
  split at hs
  · rename_i htop
    split_ifs at hs with hgone
    simp only [Sys.clientRequest, hreq, if_neg h.begun, Option.some.injEq] at hs
    subst hs
    refine ⟨htop, ?_⟩
    simp [Sys.setCoord, Bool.eq_false_iff.mpr hgone]
  · cases hs

theorem CoordStep.over (hs : CoordStep cfg s c ℓ s') (h : (s.coord c).Over) :
    (s'.coord c).Over := by
  have hpc : (s.coord c).pc = .closed ∨ (s.coord c).pc = .dangling := h
  cases hs with
  | goes => simpa [Sys.setCoord, Coord.Over] using hpc
  | ends => exact .inl (by simp [Sys.endSession, Sys.setCoord])
  | drops n x σ h => rcases h with h | ⟨m, h⟩ <;> simp [h] at hpc
  | kills type res hf => cases hf <;> simp_all
  | _ => simp_all

theorem step_over (hsl : ∀ d, Slotted cfg s d) (hs : step cfg s ℓ = some s')
    (h : (s.coord c).Over) : (s'.coord c).Over := by
  rcases session_cases closed_true hsl hs trivial c with ⟨hco, -⟩ | ⟨-, hc⟩
  · rwa [hco]
  · exact hc.over h

theorem Allocates.live (h : Allocates cfg c s t) (hover : ¬ (s.coord c).Over) :
    t.live = [t.storageCl] := by
  induction h with
  | accept a => rfl
  | @rollback s s' t t' a h hr ih =>
    obtain ⟨htop, hco⟩ := hr.coord
    have hlive := ih (by simp [Coord.Over, htop])
    -- the session goes on only where the allocator has returned the old block
    have ha : a = t.storageCl := by
      by_contra hne
      exact hover (.inr (by rw [hco, if_neg hne]))
    obtain rfl := Option.some.inj ((Tables.rollback_eq hlive).symm.trans hr.tables)
    rw [ha]
  | other h _ hs ih => exact ih fun ho => hover (step_over h.reach.slotted hs ho)

end Allocates

/-- The session `c` is as a freshly accepted one: its variables are, it does what any fresh
session `d` of its process would do in its place, and its table is released once. -/
structure Renewed (cfg : Config) (c : CoordId) (s : Sys) (t : Tables) : Prop where
  state : s.coord c = {}
  behaves : ∀ d : CoordId, d.serv = c.serv → s.coord d = {} → ∀ ls : List Label,
    Option.Rel (Twin (.swap c d) s.hist s.hist) (steps cfg anyStep s ls)
      (steps cfg anyStep s (ls.map (Label.rename (.swap c d))))
  released : t.ReleasedOnce

theorem renewed_iff {cfg : Config} {c : CoordId} {s : Sys} {t : Tables} :
    Renewed cfg c s t ↔ s.coord c = {} ∧ t.ReleasedOnce := by
  constructor
  · exact fun h => ⟨h.state, h.released⟩
  · rintro ⟨hstate, hreleased⟩
    refine ⟨hstate, fun d hserv hd ls => ?_, hreleased⟩
    exact (twin_swap (hstate.trans hd.symm)).steps cfg (swap_serv hserv) ls

/-- An accepted Rollback renews the session if and only if the allocator returns the block that
has just been freed. -/
theorem rollback_renews_iff {cfg : Config} {c : CoordId} {s s' : Sys} {t t' : Tables} {a : Nat}
    (h : Allocates cfg c s t) (hr : RollbackStep cfg c s t a s' t') :
    Renewed cfg c s' t' ↔ a = t.storageCl := by
  obtain ⟨htop, hco⟩ := hr.coord
  have hlive := h.live (by simp [Coord.Over, htop])
  rw [renewed_iff, Tables.rollback_releasedOnce_iff hlive hr.tables, and_iff_right_iff_imp]
  intro ha
  rw [hco, if_pos ha]

theorem rolls_back_once (a : Nat) : ∃ s s' t', Allocates twoHosts (client 0) s (.accept 0) ∧
    RollbackStep twoHosts (client 0) s (.accept 0) a s' t' := by
  have hbegin : ¬ RollsBack (client 0) {} (.request (client 0) {} (atUsec 1) 0 true false) := by
    simp [RollsBack]
  exact ⟨_, _, _, .other (.accept 0) hbegin rfl, rfl,
    ⟨{ requestType := .rollback }, atUsec 1, 0, true, rfl, rfl⟩, by decide⟩

theorem rollback_renews_same_block : ∃ s s' t', RollbackStep twoHosts (client 0) s (.accept 0) 0 s' t' ∧
    Renewed twoHosts (client 0) s' t' := by
  obtain ⟨s, s', t', h, hr⟩ := rolls_back_once 0
  exact ⟨s, s', t', hr, (rollback_renews_iff h hr).mpr rfl⟩

theorem rollback_loses_table : ¬ ∀ (s s' : Sys) (t t' : Tables) (a : Nat),
    Allocates twoHosts (client 0) s t → RollbackStep twoHosts (client 0) s t a s' t' →
      Renewed twoHosts (client 0) s' t' := by
  intro hall
  obtain ⟨s, s', t', h, hr⟩ := rolls_back_once 1
  have hstate := (hall s s' _ t' 1 h hr).state
  rw [hr.coord.2, if_neg (by decide)] at hstate
  exact absurd (congrArg Coord.pc hstate) (by decide)

end Tpc
