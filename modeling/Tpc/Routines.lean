import Mathlib.Data.List.Basic
import Mathlib.Data.List.Nodup
import Mathlib.Order.Lattice
import Mathlib.Tactic.SplitIfs
import Tpc.Lib.Ending

/-! The coroutines of a server. `accept_routine` hands each connection to a coroutine that waits on
`g_readwrite`, and makes a new one where none waits. -/

namespace Tpc
open Ending

/-- `task_t`, with the connection that its coroutine serves. -/
structure Routine where
  fd : Int := -1
  serving : Option Int := none
deriving DecidableEq, Repr

/-- `g_readwrite_routine_count`, the coroutines and `g_readwrite`, its top first. -/
structure Routines where
  count : Nat := 0
  task : Nat → Routine := fun _ => {}
  readwrite : List Nat := []

namespace Routines

/-- `readwrite_routine` from the head of its loop to the point where it waits. -/
def loopHead (s : Routines) (i : Nat) : Routines :=
  if (s.task i).fd = -1 then { s with readwrite := i :: s.readwrite }
  else { s with task := Function.update s.task i { fd := -1, serving := some (s.task i).fd } }

/-- `calloc`, `co_create` and the first `co_resume`. -/
def create (s : Routines) : Routines :=
  { s with count := s.count + 1, task := Function.update s.task s.count {} }.loopHead s.count

/-- `accept_routine` with what `co_accept` returned. The top of an empty stack is undefined. -/
def accept (s : Routines) (fd : Int) : Ending Routines :=
  if fd < 0 then returned s
  else
    let s := if s.readwrite = [] then s.create else s
    match s.readwrite with
    | [] => undefined
    | i :: rest =>
      returned ({ s with
        task := Function.update s.task i { s.task i with fd := fd }, readwrite := rest }.loopHead i)

/-- The connection of coroutine `i` is at its end: `close`, and back to the head of the loop. -/
def finish (s : Routines) (i : Nat) : Routines :=
  { s with task := Function.update s.task i { s.task i with serving := none } }.loopHead i

def createAll : Nat → Routines
  | 0 => {}
  | n + 1 => (createAll n).create

def busy (s : Routines) : Nat := (List.range s.count).countP fun i => (s.task i).serving.isSome

def Serves (s : Routines) (fd : Int) : Prop := ∃ i, (s.task i).serving = some fd

/-- Runs, with the largest number of connections so far. `accept` returns no descriptor that is open. -/
inductive Reach : Routines → Nat → Prop
  | main : Reach (createAll 100) 0
  | accept {s s' : Routines} {peak : Nat} (fd : Int) : Reach s peak → ¬ s.Serves fd →
      s.accept fd = returned s' → Reach s' (max peak s'.busy)
  | finish {s : Routines} {peak : Nat} (i : Nat) : Reach s peak → (s.task i).serving ≠ none →
      Reach (s.finish i) peak

structure Inv (s : Routines) : Prop where
  nodup : s.readwrite.Nodup
  waits : ∀ i, i ∈ s.readwrite ↔ i < s.count ∧ (s.task i).serving = none
  taken : ∀ i, (s.task i).fd = -1
  served : ∀ i, (s.task i).serving ≠ none → i < s.count
  apart : ∀ i j fd, (s.task i).serving = some fd → (s.task j).serving = some fd → i = j

section Steps

variable {s s' : Routines} {i : Nat} {fd : Int}

theorem Inv.length_add_busy (h : Inv s) : s.readwrite.length + s.busy = s.count := by
  have hp : s.readwrite.Perm ((List.range s.count).filter fun i => !(s.task i).serving.isSome) := by
    refine (List.perm_ext_iff_of_nodup h.nodup (List.nodup_range.filter _)).mpr fun i => ?_
    simp [h.waits]
  have hc := List.length_eq_length_filter_add (l := List.range s.count) fun i =>
    (s.task i).serving.isSome
  rw [List.length_range] at hc
  rw [hp.length_eq, busy, List.countP_eq_length_filter, Nat.add_comm]
  exact hc.symm

theorem serves_congr (h : ∀ i, (s'.task i).serving = (s.task i).serving) (fd : Int) :
    s'.Serves fd ↔ s.Serves fd := by
  simp only [Serves, h]

theorem create_eq (s : Routines) : s.create =
    { count := s.count + 1, task := Function.update s.task s.count {},
      readwrite := s.count :: s.readwrite } := by
  rw [create, loopHead, if_pos (by simp)]

theorem Inv.free (h : Inv s) {i : Nat} (hi : s.count ≤ i) : (s.task i).serving = none := by
  by_contra hne
  exact absurd (h.served i hne) (Nat.not_lt.mpr hi)

theorem Inv.create_serving (h : Inv s) (i : Nat) : (s.create.task i).serving = (s.task i).serving := by
  rw [create_eq]
  rcases eq_or_ne i s.count with rfl | hi
  · simp [h.free le_rfl]
  · simp [hi]

theorem Inv.create (h : Inv s) : Inv s.create := by
  have hserving := h.create_serving
  refine ⟨?_, fun i => ?_, fun i => ?_, fun i hi => ?_, fun i j fd hi hj => ?_⟩
  · rw [create_eq]
    refine List.nodup_cons.mpr ⟨fun hm => ?_, h.nodup⟩
    exact absurd ((h.waits _).mp hm).1 (lt_irrefl _)
  · rw [hserving, create_eq]
    simp only [List.mem_cons, h.waits]
    constructor
    · rintro (rfl | ⟨hi, hs⟩)
      · exact ⟨Nat.lt_succ_self _, h.free le_rfl⟩
      · exact ⟨Nat.lt_succ_of_lt hi, hs⟩
    · rintro ⟨hi, hs⟩
      exact (Nat.lt_succ_iff_lt_or_eq.mp hi).symm.imp id fun hi => ⟨hi, hs⟩
  · rw [create_eq]
    rcases eq_or_ne i s.count with rfl | hi
    · simp
    · simpa [hi] using h.taken i
  · rw [hserving] at hi
    rw [create_eq]
    exact Nat.lt_succ_of_lt (h.served i hi)
  · rw [hserving] at hi hj
    exact h.apart i j fd hi hj

def hand (s : Routines) (i : Nat) (rest : List Nat) (fd : Int) : Routines :=
  { s with task := Function.update s.task i { fd := -1, serving := some fd }, readwrite := rest }

@[simp] theorem hand_self (s : Routines) (i : Nat) (rest : List Nat) (fd : Int) :
    (s.hand i rest fd).task i = { fd := -1, serving := some fd } := Function.update_self ..

theorem hand_ne (s : Routines) (rest : List Nat) (fd : Int) {j : Nat} (hj : j ≠ i) :
    (s.hand i rest fd).task j = s.task j := Function.update_of_ne hj ..

theorem Inv.hand (h : Inv s) {rest : List Nat} (hi : s.readwrite = i :: rest) (hfd : ¬ s.Serves fd) :
    Inv (s.hand i rest fd) := by
  have hn := h.nodup
  rw [hi] at hn
  have hmem : ∀ j, j ∈ i :: rest ↔ j < s.count ∧ (s.task j).serving = none := fun j => hi ▸ h.waits j
  have hlt : i < s.count := ((hmem i).mp (.head _)).1
  have hself := hand_self s i rest fd
  have hother : ∀ {j}, j ≠ i → (s.hand i rest fd).task j = s.task j := fun hj => hand_ne s rest fd hj
  refine ⟨hn.of_cons, fun j => ?_, fun j => ?_, fun j hj => ?_, fun j k g hj hk => ?_⟩
  · rcases eq_or_ne j i with rfl | hne
    · rw [hself]
      exact ⟨fun hm => absurd hm hn.notMem, fun hm => nomatch hm.2⟩
    · rw [hother hne]
      change j ∈ rest ↔ j < s.count ∧ _
      rw [← hmem j, List.mem_cons, or_iff_right hne]
  · rcases eq_or_ne j i with rfl | hne
    · rw [hself]
    · rw [hother hne]
      exact h.taken j
  · rcases eq_or_ne j i with rfl | hne
    · exact hlt
    · rw [hother hne] at hj
      exact h.served j hj
  · rcases eq_or_ne j i with rfl | hne
    · rcases eq_or_ne k j with rfl | hne
      · rfl
      · rw [hself] at hj
        rw [hother hne, ← hj] at hk
        exact absurd ⟨k, hk⟩ hfd
    · rw [hother hne] at hj
      rcases eq_or_ne k i with rfl | hne'
      · rw [hself] at hk
        rw [← hk] at hj
        exact absurd ⟨j, hj⟩ hfd
      · rw [hother hne'] at hk
        exact h.apart j k g hj hk

def ready (s : Routines) : Routines := if s.readwrite = [] then s.create else s

theorem Inv.ready (h : Inv s) : Inv s.ready := by
  unfold Routines.ready
  split_ifs
  · exact h.create
  · exact h

theorem ready_readwrite (s : Routines) : ∃ i rest, s.ready.readwrite = i :: rest := by
  unfold Routines.ready
  split_ifs with hnil
  · rw [create_eq]
    exact ⟨_, _, rfl⟩
  · exact List.exists_cons_of_ne_nil hnil

theorem Inv.ready_serving (h : Inv s) (i : Nat) : (s.ready.task i).serving = (s.task i).serving := by
  unfold Routines.ready
  split_ifs
  · exact h.create_serving i
  · rfl

theorem accept_eq (hfd : 0 ≤ fd) {rest : List Nat} (hi : s.ready.readwrite = i :: rest) :
    s.accept fd = returned (s.ready.hand i rest fd) := by
  rw [accept, if_neg (Int.not_lt.mpr hfd)]
  change (match s.ready.readwrite with
    | [] => undefined
    | i :: rest => returned ({ s.ready with
        task := Function.update s.ready.task i { s.ready.task i with fd := fd }
        readwrite := rest }.loopHead i)) = _
  rw [hi]
  have hne : fd ≠ -1 := by omega
  simp [loopHead, hne, hand]

theorem finish_eq (h : (s.task i).fd = -1) : s.finish i =
    { s with
      task := Function.update s.task i { fd := -1, serving := none }
      readwrite := i :: s.readwrite } := by
  rw [finish, loopHead, if_pos (by simpa using h)]
  simp [h]

theorem Inv.finish (h : Inv s) (hi : (s.task i).serving ≠ none) : Inv (s.finish i) := by
  have hlt : i < s.count := h.served i hi
  have hout : i ∉ s.readwrite := fun hm => hi ((h.waits i).mp hm).2
  have hother : ∀ {j}, j ≠ i → (s.finish i).task j = s.task j := fun hj => by
    rw [finish_eq (h.taken i)]
    exact Function.update_of_ne hj ..
  have hself : (s.finish i).task i = { fd := -1, serving := none } := by
    rw [finish_eq (h.taken i)]
    exact Function.update_self ..
  have hread : (s.finish i).readwrite = i :: s.readwrite := by rw [finish_eq (h.taken i)]
  have hcount : (s.finish i).count = s.count := by rw [finish_eq (h.taken i)]
  refine ⟨?_, fun j => ?_, fun j => ?_, fun j hj => ?_, fun j k g hj hk => ?_⟩
  · rw [hread]
    exact List.nodup_cons.mpr ⟨hout, h.nodup⟩
  · rw [hread, hcount]
    rcases eq_or_ne j i with rfl | hne
    · simp [hself, hlt]
    · simp [hother hne, hne, h.waits]
  · rcases eq_or_ne j i with rfl | hne
    · rw [hself]
    · rw [hother hne]
      exact h.taken j
  · rcases eq_or_ne j i with rfl | hne
    · rw [hcount]
      exact hlt
    · rw [hother hne] at hj
      rw [hcount]
      exact h.served j hj
  · have hne : ∀ {j}, ((s.finish i).task j).serving = some g → j ≠ i := by
      rintro j hj rfl
      rw [hself] at hj
      nomatch hj
    rw [hother (hne hj)] at hj
    rw [hother (hne hk)] at hk
    exact h.apart j k g hj hk

theorem inv_createAll (n : Nat) :
    Inv (createAll n) ∧ (createAll n).count = n ∧ (createAll n).busy = 0 := by
  induction n with
  | zero =>
    exact ⟨⟨List.nodup_nil, by simp [createAll], fun _ => rfl, by simp [createAll],
      by simp [createAll]⟩, rfl, rfl⟩
  | succ n ih =>
    obtain ⟨h, hcount, hbusy⟩ := ih
    have hlen := h.length_add_busy
    have hlen' := h.create.length_add_busy
    have hc : (createAll n).create.count = n + 1 := by rw [create_eq, hcount]
    have hr : (createAll n).create.readwrite.length = (createAll n).readwrite.length + 1 := by
      rw [create_eq, List.length_cons]
    refine ⟨h.create, hc, ?_⟩
    rw [createAll]
    omega

theorem createAll_serves (n : Nat) (fd : Int) : ¬ (createAll n).Serves fd := by
  induction n with
  | zero => simp [createAll, Serves]
  | succ n ih => exact fun hs => ih ((serves_congr (inv_createAll n).1.create_serving fd).mp hs)

end Steps

section Runs

variable {s s' : Routines} {peak : Nat} {fd : Int}

theorem Inv.accept (h : Inv s) (hfd : 0 ≤ fd) (hfree : ¬ s.Serves fd) :
    ∃ s' i, s.accept fd = returned s' ∧ Inv s' ∧ (s.task i).serving = none ∧
      (s'.task i).serving = some fd ∧ (∀ j, j ≠ i → (s'.task j).serving = (s.task j).serving) ∧
      s'.busy = s.busy + 1 ∧ s'.count = max s.count s'.busy := by
  obtain ⟨i, rest, hi⟩ := ready_readwrite s
  have hserving := h.ready_serving
  have hfree' : ¬ s.ready.Serves fd := fun hs => hfree ((serves_congr hserving fd).mp hs)
  have hinv := h.ready.hand hi hfree'
  have hbusy : (s.ready.hand i rest fd).busy = s.busy + 1 ∧
      (s.ready.hand i rest fd).count = max s.count (s.busy + 1) := by
    have hlen := h.length_add_busy
    have hlen₁ := h.ready.length_add_busy
    have hlen₂ := hinv.length_add_busy
    have hr : s.ready.readwrite.length = (s.ready.hand i rest fd).readwrite.length + 1 := by
      rw [hi]
      rfl
    have hc : (s.ready.hand i rest fd).count = s.ready.count := rfl
    by_cases hnil : s.readwrite = []
    · have hready : s.ready = s.create := if_pos hnil
      have hcount : s.ready.count = s.count + 1 := by rw [hready, create_eq]
      have hread : s.ready.readwrite.length = s.readwrite.length + 1 := by
        rw [hready, create_eq, List.length_cons]
      have hzero : s.readwrite.length = 0 := congrArg List.length hnil
      omega
    · have hready : s.ready = s := if_neg hnil
      have hcount : s.ready.count = s.count := congrArg count hready
      have hread : s.ready.readwrite.length = s.readwrite.length :=
        congrArg (fun s => s.readwrite.length) hready
      omega
  refine ⟨_, i, accept_eq hfd hi, hinv, ?_, ?_, fun j hj => ?_, hbusy.1, hbusy.1 ▸ hbusy.2⟩
  · rw [← hserving]
    exact ((h.ready.waits i).mp (hi ▸ .head _)).2
  · rw [hand_self]
  · rw [hand_ne _ _ _ hj, hserving]

theorem Inv.finish_busy (h : Inv s) {i : Nat} (hi : (s.task i).serving ≠ none) :
    (s.finish i).busy + 1 = s.busy ∧ (s.finish i).count = s.count := by
  have hlen := h.length_add_busy
  have hlen' := (h.finish hi).length_add_busy
  have hcount : (s.finish i).count = s.count := by rw [finish_eq (h.taken i)]
  have hread : (s.finish i).readwrite.length = s.readwrite.length + 1 := by
    rw [finish_eq (h.taken i), List.length_cons]
  exact ⟨by omega, hcount⟩

/-- Every connection is served by one coroutine of its own, and there are as many coroutines as
connections were open at once, but at least 100. -/
theorem every_connection_served (hr : Reach s peak) :
    s.Inv ∧ s.busy ≤ peak ∧ s.count = max 100 peak ∧
    ∀ fd, 0 ≤ fd → ¬ s.Serves fd → ∃ s' i, s.accept fd = returned s' ∧ s'.busy = s.busy + 1 ∧
      (s.task i).serving = none ∧ (s'.task i).serving = some fd ∧
      ∀ j, j ≠ i → (s'.task j).serving = (s.task j).serving := by
  suffices h : s.Inv ∧ s.busy ≤ peak ∧ s.count = max 100 peak by
    refine ⟨h.1, h.2.1, h.2.2, fun fd hfd hfree => ?_⟩
    obtain ⟨s', i, hs', -, hnone, hsome, hother, hbusy, -⟩ := h.1.accept hfd hfree
    exact ⟨s', i, hs', hbusy, hnone, hsome, hother⟩
  induction hr with
  | main =>
    obtain ⟨h, hcount, hbusy⟩ := inv_createAll 100
    exact ⟨h, hbusy.le, hcount⟩
  | @accept s s' peak fd _ hfree hs' ih =>
    obtain ⟨h, hle, hcount⟩ := ih
    rcases lt_or_ge fd 0 with hneg | hfd
    · rw [Routines.accept, if_pos hneg] at hs'
      obtain rfl := Ending.returned.inj hs'
      exact ⟨h, le_max_right _ _, by rw [hcount]; omega⟩
    · obtain ⟨t, i, ht, hinv, -, -, -, hbusy, hgrown⟩ := h.accept hfd hfree
      obtain rfl := Ending.returned.inj (ht.symm.trans hs')
      exact ⟨hinv, le_max_right _ _, by omega⟩
  | @finish s peak i _ hi ih =>
    obtain ⟨h, hle, hcount⟩ := ih
    obtain ⟨hbusy, hsame⟩ := h.finish_busy hi
    exact ⟨h.finish hi, by omega, hsame.trans hcount⟩

theorem every_connection_served_two : ∃ s : Routines, s.count = 100 ∧ s.busy = 2 ∧
    ∃ i j, i ≠ j ∧ (s.task i).serving = some 7 ∧ (s.task j).serving = some 8 := by
  obtain ⟨s₁, i, h₁, hb₁, -, hi, hother⟩ :=
    (every_connection_served .main).2.2.2 7 (by decide) (createAll_serves 100 7)
  have hr₁ := Reach.main.accept 7 (createAll_serves 100 7) h₁
  have hfree : ¬ s₁.Serves 8 := by
    rintro ⟨j, hj⟩
    by_cases hji : j = i
    · rw [hji, hi] at hj
      exact absurd hj (by decide)
    · exact createAll_serves 100 8 ⟨j, (hother j hji) ▸ hj⟩
  obtain ⟨s₂, j, h₂, hb₂, hnone, hj, hother'⟩ := (every_connection_served hr₁).2.2.2 8 (by decide) hfree
  have hij : i ≠ j := by
    rintro rfl
    rw [hi] at hnone
    nomatch hnone
  have hcount := (every_connection_served (hr₁.accept 8 hfree h₂)).2.2.1
  have hzero := (inv_createAll 100).2.2
  exact ⟨s₂, by omega, by omega, i, j, hij, (hother' i hij).trans hi, hj⟩

end Runs

end Routines

end Tpc
