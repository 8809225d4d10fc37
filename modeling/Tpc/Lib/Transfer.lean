import Mathlib.Data.List.Infix
import Mathlib.Order.Monotone.Basic

/-! Transfers in pieces. Each call moves as much as the other side grants, at least one item and
at most what is asked for; reading may also end early. -/

namespace Transfer

def granted (g n : Nat) : Nat := min (max 1 g) n

theorem granted_le (g n : Nat) : granted g n ≤ n := Nat.min_le_right _ _

theorem granted_pos {g n : Nat} (h : 0 < n) : 0 < granted g n := by
  simp only [granted]
  omega

def progress (grant : Nat → Nat) (total : Nat) : Nat → Nat
  | 0 => 0
  | k + 1 => progress grant total k + granted (grant k) (total - progress grant total k)

section Progress

variable {grant : Nat → Nat} {total k : Nat}

theorem progress_le (grant : Nat → Nat) (total k : Nat) : progress grant total k ≤ total := by
  induction k with
  | zero => exact Nat.zero_le _
  | succ k ih =>
    have hle := granted_le (grant k) (total - progress grant total k)
    simp only [progress]
    omega

theorem progress_mono (grant : Nat → Nat) (total : Nat) : Monotone (progress grant total) :=
  monotone_nat_of_le_succ fun _ => Nat.le_add_right _ _

theorem progress_succ_lt (h : progress grant total k < total) :
    total - progress grant total (k + 1) < total - progress grant total k := by
  have hpos := granted_pos (g := grant k) (Nat.sub_pos_of_lt h)
  simp only [progress]
  omega

end Progress

structure Source (α : Type) where
  rest : List α
  calls : Nat

namespace Source

variable {α : Type}

def advance (s : Source α) (k : Nat) : Source α := ⟨s.rest.drop k, s.calls + 1⟩

def piece (grant : Nat → Nat) (n : Nat) (s : Source α) : Nat :=
  min (grant s.calls) (min n s.rest.length)

theorem piece_le (s : Source α) (grant : Nat → Nat) (n : Nat) : s.piece grant n ≤ n := by
  simp only [piece]
  omega

/-- What arrives of `n` items before a call returns none. -/
def receive (grant : Nat → Nat) (n : Nat) (s : Source α) : List α × Source α :=
  if s.piece grant n = 0 then ([], if n = 0 then s else s.advance 0)
  else
    let r := receive grant (n - s.piece grant n) (s.advance (s.piece grant n))
    (s.rest.take (s.piece grant n) ++ r.1, r.2)
termination_by n
decreasing_by
  have := s.piece_le grant n
  omega

section Receive

variable {grant : Nat → Nat} {n : Nat} {s : Source α}

@[simp] theorem receive_zero : s.receive grant 0 = ([], s) := by
  rw [receive, if_pos (by simp [piece]), if_pos rfl]

theorem receive_end (hn : n ≠ 0) (hp : s.piece grant n = 0) :
    s.receive grant n = ([], s.advance 0) := by
  rw [receive, if_pos hp, if_neg hn]

theorem receive_more (hp : s.piece grant n ≠ 0) :
    s.receive grant n =
      (s.rest.take (s.piece grant n) ++
        ((s.advance (s.piece grant n)).receive grant (n - s.piece grant n)).1,
      ((s.advance (s.piece grant n)).receive grant (n - s.piece grant n)).2) := by
  rw [receive, if_neg hp]

theorem receive_append (s : Source α) (grant : Nat → Nat) (n : Nat) :
    (s.receive grant n).1 ++ (s.receive grant n).2.rest = s.rest := by
  induction n, s using receive.induct grant with
  | case1 n s h =>
    rw [receive, if_pos h]
    split_ifs
    · rfl
    · rfl
  | case2 n s h ih =>
    rw [receive_more h, List.append_assoc, ih, advance, List.take_append_drop]

theorem receive_of_pos (hgrant : ∀ i, 1 ≤ grant i) :
    (s.receive grant n).1 = s.rest.take n ∧ (s.receive grant n).2.rest = s.rest.drop n := by
  have hlen : (s.receive grant n).1.length = min n s.rest.length := by
    induction n, s using receive.induct grant with
    | case1 n s h =>
      rw [receive, if_pos h]
      have hg := hgrant s.calls
      simp only [piece] at h
      simp only [List.length_nil]
      omega
    | case2 n s h ih =>
      rw [receive_more h]
      have hle : s.piece grant n ≤ min n s.rest.length := Nat.min_le_right _ _
      have hrest : (s.advance (s.piece grant n)).rest.length = s.rest.length - s.piece grant n :=
        List.length_drop
      simp only [List.length_append, List.length_take]
      omega
  have happ := s.receive_append grant n
  constructor
  · have htake := congrArg (List.take (s.receive grant n).1.length) happ
    rw [List.take_left, hlen] at htake
    rw [htake, List.take_eq_take_iff]
    omega
  · have hdrop := congrArg (List.drop (s.receive grant n).1.length) happ
    rw [List.drop_left, hlen] at hdrop
    rcases Nat.le_total n s.rest.length with hle | hle
    · rw [hdrop, Nat.min_eq_left hle]
    · rw [hdrop, Nat.min_eq_right hle, List.drop_length, List.drop_eq_nil_of_le hle]

end Receive

end Source

/-- Of blocks that come one after the other, `k` have arrived and the part `tail` of the next one. -/
structure EndsIn {α β : Type} (block : α → List β) (as : List α) (arrived : List β) (k : Nat)
    (tail : List β) : Prop where
  le : k ≤ as.length
  eq : arrived = (as.take k).flatMap block ++ tail
  tail : k = as.length ∧ tail = [] ∨ ∃ a, as[k]? = some a ∧ tail <+: block a ∧ tail ≠ block a

section Blocks

variable {α β : Type} {block : α → List β} {as : List α} {arrived arrived' tail tail' : List β}
  {k n : Nat}

theorem exists_endsIn (h : arrived <+: as.flatMap block) : ∃ k tail, EndsIn block as arrived k tail := by
  induction as generalizing arrived with
  | nil =>
    obtain rfl := List.prefix_nil.mp h
    exact ⟨0, [], le_rfl, rfl, .inl ⟨rfl, rfl⟩⟩
  | cons a as ih =>
    rw [List.flatMap_cons] at h
    rcases Nat.lt_or_ge arrived.length (block a).length with hlt | hge
    · have ha : arrived <+: block a :=
        List.prefix_of_prefix_length_le h (List.prefix_append _ _) hlt.le
      exact ⟨0, arrived, Nat.zero_le _, rfl, .inr ⟨a, rfl, ha, fun he => by simp [he] at hlt⟩⟩
    · have ha : block a <+: arrived :=
        List.prefix_of_prefix_length_le (List.prefix_append _ _) h hge
      obtain ⟨rest, rfl⟩ := ha
      obtain ⟨k, tail, hle, heq, htail⟩ := ih ((List.prefix_append_right_inj _).mp h)
      refine ⟨k + 1, tail, Nat.succ_le_succ hle, ?_, ?_⟩
      · rw [heq, List.take_succ_cons, List.flatMap_cons, List.append_assoc]
      · rcases htail with ⟨rfl, rfl⟩ | ⟨b, hb, hp⟩
        · exact .inl ⟨rfl, rfl⟩
        · exact .inr ⟨b, by simpa using hb, hp⟩

theorem EndsIn.length_lt (h : EndsIn block as arrived k tail) (hk : k < as.length) :
    arrived.length < ((as.take (k + 1)).flatMap block).length := by
  rcases h.tail with ⟨rfl, -⟩ | ⟨a, ha, hp, hne⟩
  · exact absurd hk (lt_irrefl _)
  · have hlt : tail.length < (block a).length :=
      lt_of_le_of_ne hp.length_le fun he => hne (hp.eq_of_length he)
    rw [h.eq, List.take_add_one, ha]
    simpa using hlt

theorem EndsIn.isPrefix (h : EndsIn block as arrived k tail) : arrived <+: as.flatMap block := by
  rw [h.eq]
  rcases h.tail with ⟨rfl, rfl⟩ | ⟨a, ha, hp, -⟩
  · rw [List.take_length, List.append_nil]
  · have hsplit : as.flatMap block = (as.take k).flatMap block ++ (as.drop k).flatMap block := by
      rw [← List.flatMap_append, List.take_append_drop]
    obtain ⟨hk, rfl⟩ := List.getElem?_eq_some_iff.mp ha
    rw [hsplit, List.drop_eq_getElem_cons hk, List.flatMap_cons]
    exact (List.prefix_append_right_inj _).mpr (hp.trans (List.prefix_append _ _))

theorem EndsIn.mono (h : EndsIn block as arrived k tail) (h' : EndsIn block as arrived' n tail')
    (hle : arrived.length ≤ arrived'.length) : k ≤ n := by
  by_contra hlt
  have hn : n < as.length := (Nat.lt_of_not_le hlt).trans_le h.le
  have hshort := h'.length_lt hn
  have hsub : ((as.take (n + 1)).flatMap block).length ≤ ((as.take k).flatMap block).length :=
    ((List.take_prefix_take_left (Nat.lt_of_not_le hlt)).flatMap block).length_le
  have hk : arrived.length = ((as.take k).flatMap block).length + tail.length := by
    rw [h.eq, List.length_append]
  omega

end Blocks

end Transfer
