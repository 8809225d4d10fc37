import Tpc.Segments
import Tpc.System

/-! Runs of the system, what is assumed of their histories, and what one segment of a storage node
contributes to a step. -/

namespace Tpc
open Durable

inductive Reach (cfg : Config) (C : Sys → Label → Prop) : Sys → Prop
  | init : Reach cfg C {}
  | step {s s' : Sys} {ℓ : Label} : Reach cfg C s → C s ℓ → step cfg s ℓ = some s' →
      Reach cfg C s'

def Run (cfg : Config) (C : Sys → Label → Prop) : Sys → Sys → Prop :=
  Relation.ReflTransGen fun s s' => ∃ ℓ, C s ℓ ∧ step cfg s ℓ = some s'

theorem Reach.run {cfg : Config} {C : Sys → Label → Prop} {s s' : Sys} (h : Reach cfg C s)
    (hr : Run cfg C s s') : Reach cfg C s' := by
  induction hr with
  | refl => exact h
  | tail _ hs ih =>
    obtain ⟨ℓ, hc, hs⟩ := hs
    exact .step ih hc hs

def anyStep : Sys → Label → Prop := fun _ _ => True

theorem Reach.mono {cfg : Config} {C D : Sys → Label → Prop} (hC : ∀ s ℓ, C s ℓ → D s ℓ) {s : Sys}
    (h : Reach cfg C s) : Reach cfg D s := by
  induction h with
  | init => exact .init
  | step _ hc hs ih => exact .step ih (hC _ _ hc) hs

theorem Run.mono {cfg : Config} {C D : Sys → Label → Prop} (hC : ∀ s ℓ, C s ℓ → D s ℓ) {s s' : Sys}
    (h : Run cfg C s s') : Run cfg D s s' := by
  induction h with
  | refl => exact .refl
  | tail _ hs ih =>
    obtain ⟨ℓ, hc, hs⟩ := hs
    exact .tail ih ⟨ℓ, hC _ _ hc, hs⟩

instance (s : Sys) (ℓ : Label) : Decidable (anyStep s ℓ) := inferInstanceAs (Decidable True)

def steps (cfg : Config) (C : Sys → Label → Prop) [∀ s ℓ, Decidable (C s ℓ)] :
    Sys → List Label → Option Sys
  | s, [] => some s
  | s, ℓ :: ls => if C s ℓ then (step cfg s ℓ).bind fun s => steps cfg C s ls else none

theorem reach_of_steps {cfg : Config} {C : Sys → Label → Prop} [∀ s ℓ, Decidable (C s ℓ)]
    {ls : List Label} {s s' : Sys} (hs : Reach cfg C s) (h : steps cfg C s ls = some s') :
    Reach cfg C s' := by
  induction ls generalizing s with
  | nil =>
    obtain rfl := Option.some.inj h
    exact hs
  | cons ℓ ls ih =>
    rw [steps] at h
    split_ifs at h with hc
    obtain ⟨s₁, h₁, h₂⟩ := Option.bind_eq_some_iff.mp h
    exact ih (.step hs hc h₁) h₂

theorem reach_of_map {cfg : Config} {C : Sys → Label → Prop} [∀ s ℓ, Decidable (C s ℓ)]
    {α : Type} {ls : List Label} {f : Sys → α} {a : α}
    (h : (steps cfg C {} ls).map f = some a) : ∃ s, Reach cfg C s ∧ f s = a := by
  obtain ⟨s, hs, hf⟩ := Option.map_eq_some_iff.mp h
  exact ⟨s, reach_of_steps .init hs, hf⟩

theorem run_of_steps {cfg : Config} {C : Sys → Label → Prop} [∀ s ℓ, Decidable (C s ℓ)]
    {ls : List Label} {s s' : Sys} (h : steps cfg C s ls = some s') : Run cfg C s s' := by
  induction ls generalizing s with
  | nil =>
    obtain rfl := Option.some.inj h
    exact .refl
  | cons ℓ ls ih =>
    rw [steps] at h
    split_ifs at h with hc
    obtain ⟨s₁, h₁, h₂⟩ := Option.bind_eq_some_iff.mp h
    exact .head ⟨ℓ, hc, h₁⟩ (ih h₂)

theorem run_of_bind {cfg : Config} {C : Sys → Label → Prop} [∀ s ℓ, Decidable (C s ℓ)]
    {α : Type} {ls ls' : List Label} {f : Sys → Sys → α} {a : α}
    (h : ((steps cfg C {} ls).bind fun s => (steps cfg C s ls').map (f s)) = some a) :
    ∃ s s', Reach cfg C s ∧ Run cfg C s s' ∧ f s s' = a := by
  obtain ⟨s, hs, h⟩ := Option.bind_eq_some_iff.mp h
  obtain ⟨s', hs', hf⟩ := Option.map_eq_some_iff.mp h
  exact ⟨s, s', reach_of_steps .init hs, run_of_steps hs', hf⟩

def Closed (A : Hist → Prop) : Prop := ∀ l m, l <:+ m → A m → A l

def begunTs (l : Hist) : List String :=
  l.filterMap fun
    | .note (.begun _ t) => some t
    | _ => none

def DistinctBegin (l : Hist) : Prop := (begunTs l).Nodup

def clockTs (l : Hist) : List String :=
  l.filterMap fun
    | .clock _ tv => some (getTS tv)
    | _ => none

/-- The timestamps of all processes do not decrease; the newest comes first. -/
def ClockMono (l : Hist) : Prop := (clockTs l).Pairwise fun x y => y ≤ x

def ClockStrict (l : Hist) : Prop := (clockTs l).Pairwise fun x y => y < x

def NoDbError (l : Hist) : Prop :=
  ∀ e ∈ l, match e with
    | .dbError _ => False
    | _ => True

def ClientsWait (l : Hist) : Prop :=
  ∀ e ∈ l, match e with
    | .note (.early _) => False
    | _ => True

instance (l : Hist) : Decidable (DistinctBegin l) := inferInstanceAs (Decidable (List.Nodup _))

instance (l : Hist) : Decidable (ClockMono l) := inferInstanceAs (Decidable (List.Pairwise _ _))

instance (l : Hist) : Decidable (ClockStrict l) := inferInstanceAs (Decidable (List.Pairwise _ _))

instance (l : Hist) : Decidable (NoDbError l) :=
  @List.decidableBAll _ _ (fun e => by cases e <;> exact inferInstance) l

instance (l : Hist) : Decidable (ClientsWait l) :=
  @List.decidableBAll _ _ (fun e => by
    cases e with
    | note e => cases e <;> exact inferInstance
    | _ => exact inferInstance) l

theorem closed_distinctBegin : Closed DistinctBegin :=
  fun _ _ h hm => hm.sublist (h.sublist.filterMap _)

theorem closed_clockMono : Closed ClockMono :=
  fun _ _ h hm => hm.sublist (h.sublist.filterMap _)

theorem closed_clockStrict : Closed ClockStrict :=
  fun _ _ h hm => hm.sublist (h.sublist.filterMap _)

theorem closed_noDbError : Closed NoDbError := fun _ _ h hm e he => hm e (h.subset he)

theorem closed_clientsWait : Closed ClientsWait := fun _ _ h hm e he => hm e (h.subset he)

theorem closed_true : Closed fun _ => True := fun _ _ _ h => h

theorem not_mayFail : ¬ MayFail NoDbError := fun ⟨_, _, h⟩ => h _ (.head _)

theorem exec_inv {α : Type} {s s' : Sys} {h : Host} {env : Env} {p : Db α} {k : α → Sys → Sys}
    {A : Hist → Prop} {Q : α → DbWorld → Prop} {R : DbWorld → Prop}
    (hp : ∀ o, p.run (.storage h) env.fates env.clocks (s.world h) = o → A o.2.hist →
      Outcome.Sat Q R o)
    (hk : ∀ a s, (k a s).hist = s.hist) (hs : s.exec h env p k = some s') (ha : A s'.hist) :
    (s.node h).up = true ∧ ((∃ a w, Q a w ∧ s' = k a (s.setWorld h w)) ∨
      ∃ w, R w ∧ s' = (s.setWorld h w).lose h) := by
  unfold Sys.exec at hs
  split_ifs at hs with hup
  refine ⟨hup, ?_⟩
  have sat := hp _ rfl
  rcases hr : p.run (.storage h) env.fates env.clocks (s.world h) with ⟨_ | _ | _, w⟩
  · rw [hr] at hs sat
    obtain rfl := Option.some.inj hs
    rw [hk] at ha
    exact .inl ⟨_, w, sat ha, rfl⟩
  · rw [hr] at hs sat
    obtain rfl := Option.some.inj hs
    exact .inr ⟨w, sat ha, rfl⟩
  · simp [hr] at hs

def hostA : Host := { hashId := 0, host := "127.0.0.1", port := 9800 }

def hostB : Host := { hashId := 1, host := "127.0.0.1", port := 9801 }

/-- Keys with an even byte sum belong to `hostA`, the others to `hostB`. -/
def twoHosts : Config := { hosts := [hostA, hostB], hashId_nodup := by decide }

def atUsec (usec : Nat) : Timeval := { sec := 0, usec := usec }

def client (n : Nat) : CoordId := { serv := n, session := 0 }

end Tpc
