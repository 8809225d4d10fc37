import Mathlib.Data.List.Basic
import Mathlib.Logic.Function.Basic
import Mathlib.Logic.Relation
import Mathlib.Order.BoundedOrder.Basic
import Mathlib.Order.MinMax

/-! Atomic commitment of one transaction without a coordinator's log. Every participant of the
list `L` votes once, with a timestamp or, after a crash, without one (`⊥`). A prepared participant
asks the members of `L` in turn, again and again. It commits with the greatest timestamp of a round
in which it counted all of them as prepared, and it takes over a decision it is told. A participant
that was never prepared may abort alone. -/

namespace PollCommit

variable {N I τ : Type}

inductive Vote (τ : Type)
  | absent
  | running
  | prepared (self : τ)
  | commited (self commit : τ)
  /-- rolled back before it was prepared -/
  | aborted
  /-- rolled back after it was prepared -/
  | rolledBack (self : τ)

inductive Answer (τ : Type)
  | wait
  | yes (self : τ)
  | commited (commit : τ)
  | rolledBack

namespace Vote

def self? : Vote τ → Option τ
  | prepared s => some s
  | commited s _ => some s
  | rolledBack s => some s
  | _ => none

def answer : Vote τ → Answer τ
  | absent => .wait
  | running => .wait
  | prepared s => .yes s
  | commited _ c => .commited c
  | aborted => .rolledBack
  | rolledBack _ => .rolledBack

end Vote

/-- A round of questions: the next position in the list, the participants counted as prepared, the
own timestamp, the greatest one so far and an answer on its way. -/
structure Poll (τ : Type) where
  pos : Nat
  count : Nat
  self : τ
  max : τ
  reply : Option (Answer τ)

structure State (N I τ : Type) where
  vote : N → Vote τ
  poll : N → I → Option (Poll τ)

structure Later (a b : State N I τ) : Prop where
  known : ∀ n, a.vote n ≠ .absent → b.vote n ≠ .absent
  self : ∀ n s, (a.vote n).self? = some s → (b.vote n).self? = some s
  aborted : ∀ n, a.vote n = .aborted → b.vote n = .aborted
  commited : ∀ n s c, a.vote n = .commited s c → b.vote n = .commited s c
  rolledBack : ∀ n s, a.vote n = .rolledBack s → b.vote n = .rolledBack s

namespace Later

theorem refl (a : State N I τ) : Later a a :=
  ⟨fun _ h => h, fun _ _ h => h, fun _ h => h, fun _ _ _ h => h, fun _ _ h => h⟩

theorem trans {a b c : State N I τ} (h : Later a b) (h' : Later b c) : Later a c :=
  ⟨fun n hn => h'.known n (h.known n hn), fun n s hs => h'.self n s (h.self n s hs),
    fun n hn => h'.aborted n (h.aborted n hn), fun n s c hn => h'.commited n s c (h.commited n s c hn),
    fun n s hn => h'.rolledBack n s (h.rolledBack n s hn)⟩

theorem of_vote_eq {a b : State N I τ} (h : b.vote = a.vote) : Later a b := by
  constructor <;> intro n <;> simp only [h] <;> exact fun _ => by simp_all

end Later

namespace State

variable [DecidableEq N] [DecidableEq I]

def setVote (a : State N I τ) (n : N) (v : Vote τ) : State N I τ :=
  { a with vote := Function.update a.vote n v }

def setPoll (a : State N I τ) (n : N) (i : I) (q : Option (Poll τ)) : State N I τ :=
  { a with poll := Function.update a.poll n (Function.update (a.poll n) i q) }

def lose (a : State N I τ) (n : N) : State N I τ :=
  { a with poll := Function.update a.poll n fun _ => none }

omit [DecidableEq I] in
@[simp] theorem setVote_self (a : State N I τ) (n : N) (v : Vote τ) :
    (a.setVote n v).vote n = v := Function.update_self ..

omit [DecidableEq I] in
theorem setVote_of_ne (a : State N I τ) {n m : N} (v : Vote τ) (h : m ≠ n) :
    (a.setVote n v).vote m = a.vote m := Function.update_of_ne h ..

@[simp] theorem setPoll_vote (a : State N I τ) (n : N) (i : I) (q : Option (Poll τ)) :
    (a.setPoll n i q).vote = a.vote := rfl

theorem setPoll_poll (a : State N I τ) (n m : N) (i j : I) (q : Option (Poll τ)) :
    (a.setPoll n i q).poll m j = if m = n ∧ j = i then q else a.poll m j := by
  unfold setPoll
  by_cases hm : m = n
  · subst hm
    by_cases hj : j = i
    · simp [hj]
    · simp [hj]
  · simp [hm]

@[simp] theorem setPoll_setPoll (a : State N I τ) (n : N) (i : I) (q q' : Option (Poll τ)) :
    (a.setPoll n i q).setPoll n i q' = a.setPoll n i q' := by
  simp [setPoll]

theorem setPoll_eq_self {a : State N I τ} {n : N} {i : I} {q : Option (Poll τ)}
    (h : a.poll n i = q) : a.setPoll n i q = a := by
  subst h
  simp [setPoll]

omit [DecidableEq I] in
theorem setVote_eq_self {a : State N I τ} {n : N} {v : Vote τ} (h : a.vote n = v) :
    a.setVote n v = a := by
  subst h
  simp [setVote]

theorem setPoll_setVote (a : State N I τ) (n : N) (i : I) (q : Option (Poll τ)) (v : Vote τ) :
    (a.setPoll n i q).setVote n v = (a.setVote n v).setPoll n i q := rfl

omit [DecidableEq I] in
theorem lose_poll (a : State N I τ) (n m : N) (j : I) :
    (a.lose n).poll m j = if m = n then none else a.poll m j := by
  unfold lose
  by_cases hm : m = n
  · subst hm
    simp
  · simp [hm]

omit [DecidableEq I] in
theorem later_setVote {a : State N I τ} {n : N} {v : Vote τ}
    (hv : a.vote n = .absent ∨ a.vote n = .running) (hne : v ≠ .absent) :
    Later a (a.setVote n v) := by
  have key : ∀ m, a.vote m ≠ .absent → a.vote m ≠ .running →
      (a.setVote n v).vote m = a.vote m := by
    intro m h1 h2
    refine setVote_of_ne a v fun e => ?_
    subst e
    rcases hv with hv | hv
    · exact h1 hv
    · exact h2 hv
  constructor
  · intro m hm
    by_cases hmn : m = n
    · rw [hmn, setVote_self]
      exact hne
    · rw [setVote_of_ne a v hmn]
      exact hm
  · intro m s hs
    rw [key m (fun e => by simp [e, Vote.self?] at hs) (fun e => by simp [e, Vote.self?] at hs)]
    exact hs
  · intro m hm
    rw [key m (by simp [hm]) (by simp [hm]), hm]
  · intro m s c hm
    rw [key m (by simp [hm]) (by simp [hm]), hm]
  · intro m s hm
    rw [key m (by simp [hm]) (by simp [hm]), hm]

theorem later_close {a : State N I τ} {n : N} {i : I} {s : τ} {v : Vote τ}
    (hp : a.vote n = .prepared s) (hv : v.self? = some s) :
    Later a ((a.setVote n v).setPoll n i none) := by
  have key : ∀ m, m ≠ n → ((a.setVote n v).setPoll n i none).vote m = a.vote m :=
    fun m hm => setVote_of_ne a v hm
  have self : ((a.setVote n v).setPoll n i none).vote n = v := setVote_self a n v
  constructor
  · intro m hm
    by_cases hmn : m = n
    · rw [hmn, self]
      rintro rfl
      simp [Vote.self?] at hv
    · rw [key m hmn]
      exact hm
  · intro m t ht
    by_cases hm : m = n
    · subst hm
      rw [hp] at ht
      rw [self, hv]
      exact ht
    · rw [key m hm]
      exact ht
  · intro m hm
    rw [key m (fun e => by simp [← e, hm] at hp), hm]
  · intro m t c hm
    rw [key m (fun e => by simp [← e, hm] at hp), hm]
  · intro m t hm
    rw [key m (fun e => by simp [← e, hm] at hp), hm]

end State

variable [LinearOrder τ] [OrderBot τ]

def Opening (G : τ → Prop) (s m : τ) : Prop := (s = ⊥ ∧ G m) ∨ (s ≠ ⊥ ∧ m = s)

section Step

variable [DecidableEq N] [DecidableEq I]

/-- `G` holds of the timestamps that can be drawn in the step; `B` says whether a participant can
break between its vote and its timestamp. -/
inductive Step (B : Prop) (G : τ → Prop) (L : List N) : State N I τ → State N I τ → Prop
  | begin {a : State N I τ} {n : N} : a.vote n = .absent → Step B G L a (a.setVote n .running)
  | prepare {a : State N I τ} {n : N} {s : τ} : a.vote n = .running → n ∈ L →
      G s ∨ (B ∧ s = ⊥) →
      Step B G L a (a.setVote n (.prepared s))
  | abort {a : State N I τ} {n : N} : a.vote n = .running → Step B G L a (a.setVote n .aborted)
  | start {a : State N I τ} {n : N} {i : I} {s m : τ} : a.vote n = .prepared s →
      (∀ j, a.poll n j = none) → Opening G s m →
      Step B G L a (a.setPoll n i (some ⟨0, 0, s, m, none⟩))
  | own {a : State N I τ} {n : N} {i : I} {p : Poll τ} : a.poll n i = some p →
      L[p.pos]? = some n →
      Step B G L a (a.setPoll n i
        (some { p with pos := p.pos + 1, count := p.count + 1, reply := none }))
  | skip {a : State N I τ} {n : N} {i : I} {p : Poll τ} : a.poll n i = some p →
      p.pos < L.length →
      Step B G L a (a.setPoll n i (some { p with pos := p.pos + 1, reply := none }))
  | ask {a : State N I τ} {n m : N} {i : I} {p : Poll τ} {r : Answer τ} : a.poll n i = some p →
      L[p.pos]? = some m → r = .wait ∨ r = (a.vote m).answer →
      Step B G L a (a.setPoll n i (some { p with reply := some r }))
  | yes {a : State N I τ} {n : N} {i : I} {p : Poll τ} {s : τ} : a.poll n i = some p →
      p.reply = some (.yes s) → p.pos < L.length →
      Step B G L a (a.setPoll n i (some
        { p with pos := p.pos + 1, count := p.count + 1, max := max p.max s, reply := none }))
  | adopt {a : State N I τ} {n : N} {i : I} {p : Poll τ} {c : τ} : a.poll n i = some p →
      p.reply = some (.commited c) →
      Step B G L a ((a.setVote n (.commited p.self c)).setPoll n i none)
  | undo {a : State N I τ} {n : N} {i : I} {p : Poll τ} : a.poll n i = some p →
      p.reply = some .rolledBack →
      Step B G L a ((a.setVote n (.rolledBack p.self)).setPoll n i none)
  | decide {a : State N I τ} {n : N} {i : I} {p : Poll τ} : a.poll n i = some p →
      p.pos = L.length → p.count = L.length →
      Step B G L a ((a.setVote n (.commited p.self p.max)).setPoll n i none)
  | round {a : State N I τ} {n : N} {i : I} {p : Poll τ} {m : τ} : a.poll n i = some p →
      Opening G p.self m → Step B G L a (a.setPoll n i (some ⟨0, 0, p.self, m, none⟩))
  | lose {a : State N I τ} {n : N} : Step B G L a (a.lose n)

end Step

omit [OrderBot τ] in
def Below (a : State N I τ) (c : τ) (m : N) : Prop := ∃ s, (a.vote m).self? = some s ∧ s ≤ c

omit [OrderBot τ] in
theorem Below.later {a b : State N I τ} (hl : Later a b) {c : τ} {m : N} (h : Below a c m) :
    Below b c m := by
  obtain ⟨s, hs, hle⟩ := h
  exact ⟨s, hl.self m s hs, hle⟩

/-- `c` is the timestamp of a member, or a member was prepared without one. -/
def Attained (L : List N) (a : State N I τ) (c : τ) : Prop :=
  ∃ m ∈ L, (a.vote m).self? = some c ∨ (a.vote m).self? = some ⊥

theorem Attained.later {L : List N} {a b : State N I τ} (hl : Later a b) {c : τ}
    (h : Attained L a c) : Attained L b c := by
  obtain ⟨m, hm, hs | hs⟩ := h
  · exact ⟨m, hm, .inl (hl.self m c hs)⟩
  · exact ⟨m, hm, .inr (hl.self m ⊥ hs)⟩

def ReplyOk (L : List N) (a : State N I τ) (pos : Nat) : Answer τ → Prop
  | .wait => True
  | .yes s => ∀ m, L[pos]? = some m → (a.vote m).self? = some s
  | .commited c => ∃ m s, a.vote m = .commited s c
  | .rolledBack => ∃ m ∈ L, a.vote m = .aborted

structure PollOk (L : List N) (a : State N I τ) (n : N) (p : Poll τ) : Prop where
  vote : a.vote n = .prepared p.self
  pos_le : p.pos ≤ L.length
  count_le : p.count ≤ p.pos
  self_le : p.self ≤ p.max
  attained : p.self ≠ ⊥ → ∃ m ∈ L, (a.vote m).self? = some p.max
  counted : p.count = p.pos → ∀ m ∈ L.take p.pos, Below a p.max m
  reply : ∀ r, p.reply = some r → ReplyOk L a p.pos r

structure Inv (L : List N) (a : State N I τ) : Prop where
  poll : ∀ n i p, a.poll n i = some p → PollOk L a n p
  unique : ∀ n i j p q, a.poll n i = some p → a.poll n j = some q → i = j
  member : ∀ n s, (a.vote n).self? = some s → n ∈ L
  commited : ∀ n s c, a.vote n = .commited s c → Attained L a c ∧ ∀ m ∈ L, Below a c m
  rolledBack : ∀ n s, a.vote n = .rolledBack s → ∃ m ∈ L, a.vote m = .aborted

theorem inv_init {L : List N} {a : State N I τ} (hv : ∀ n, a.vote n = .absent)
    (hp : ∀ n i, a.poll n i = none) : Inv L a where
  poll := fun n i p h => by simp [hp n i] at h
  unique := fun n i j p q h => by simp [hp n i] at h
  member := fun n s h => by simp [hv n, Vote.self?] at h
  commited := fun n s c h => by simp [hv n] at h
  rolledBack := fun n s h => by simp [hv n] at h

omit [LinearOrder τ] [OrderBot τ] in
theorem ReplyOk.later {L : List N} {a b : State N I τ} (hl : Later a b) {pos : Nat} {r : Answer τ}
    (h : ReplyOk L a pos r) : ReplyOk L b pos r := by
  cases r with
  | wait => trivial
  | yes s => exact fun m hm => hl.self m s (h m hm)
  | commited c =>
    obtain ⟨m, s, hm⟩ := h
    exact ⟨m, s, hl.commited m s c hm⟩
  | rolledBack =>
    obtain ⟨m, hL, hm⟩ := h
    exact ⟨m, hL, hl.aborted m hm⟩

theorem PollOk.later {L : List N} {a b : State N I τ} (hl : Later a b) {n : N} {p : Poll τ}
    (hv : b.vote n = a.vote n) (h : PollOk L a n p) : PollOk L b n p where
  vote := hv.trans h.vote
  pos_le := h.pos_le
  count_le := h.count_le
  self_le := h.self_le
  attained := by
    intro hs
    obtain ⟨m, hm, ht⟩ := h.attained hs
    exact ⟨m, hm, hl.self m p.max ht⟩
  counted := fun hc m hm => (h.counted hc m hm).later hl
  reply := fun r hr => (h.reply r hr).later hl

theorem PollOk.self? {L : List N} {a : State N I τ} {n : N} {p : Poll τ} (h : PollOk L a n p) :
    (a.vote n).self? = some p.self := by
  rw [h.vote]
  rfl

theorem Inv.others_none {L : List N} {a : State N I τ} (h : Inv L a) {n : N} {i : I} {p : Poll τ}
    (hp : a.poll n i = some p) : ∀ j, j ≠ i → a.poll n j = none := by
  intro j hj
  by_contra hne
  obtain ⟨q, hq⟩ := Option.ne_none_iff_exists'.mp hne
  exact hj (h.unique n j i q p hq hp)

theorem Inv.replyOk_answer {L : List N} {a : State N I τ} (h : Inv L a) {pos : Nat} {m : N}
    (hm : L[pos]? = some m) : ReplyOk L a pos (a.vote m).answer := by
  have hL := List.mem_of_getElem? hm
  cases hv : a.vote m with
  | absent => trivial
  | running => trivial
  | prepared s =>
    intro k hk
    obtain rfl : m = k := Option.some.inj (hm.symm.trans hk)
    rw [hv]
    rfl
  | commited s c => exact ⟨m, s, hv⟩
  | aborted => exact ⟨m, hL, hv⟩
  | rolledBack s => exact h.rolledBack m s hv

theorem PollOk.advance {L : List N} {a : State N I τ} {n m : N} {p q : Poll τ} {s : τ}
    (h : PollOk L a n p) (hm : L[p.pos]? = some m) (hs : (a.vote m).self? = some s)
    (hq : q = { p with
      pos := p.pos + 1, count := p.count + 1, max := max p.max s, reply := none }) :
    PollOk L a n q := by
  obtain ⟨hlt, -⟩ := List.getElem?_eq_some_iff.mp hm
  rw [hq]
  refine ⟨h.vote, hlt, Nat.succ_le_succ h.count_le, h.self_le.trans (le_max_left _ _), ?_, ?_,
    by simp⟩
  · intro hp
    rcases max_choice p.max s with he | he
    · simp only [he]
      exact h.attained hp
    · simp only [he]
      exact ⟨m, List.mem_of_getElem? hm, hs⟩
  · intro hc k hk
    rw [List.take_add_one, hm] at hk
    rcases List.mem_append.mp hk with hk | hk
    · obtain ⟨t, ht, hle⟩ := h.counted (Nat.succ.inj hc) k hk
      exact ⟨t, ht, hle.trans (le_max_left _ _)⟩
    · obtain rfl : k = m := by simpa using hk
      exact ⟨s, hs, le_max_right _ _⟩

theorem PollOk.open {G : τ → Prop} {L : List N} {a : State N I τ} (h : Inv L a) {n : N} {s m : τ}
    (hv : a.vote n = .prepared s) (ho : Opening G s m) : PollOk L a n ⟨0, 0, s, m, none⟩ := by
  have hs : (a.vote n).self? = some s := by
    rw [hv]
    rfl
  refine ⟨hv, Nat.zero_le _, le_rfl, ?_, ?_, by simp, by simp⟩
  · rcases ho with ⟨rfl, -⟩ | ⟨-, rfl⟩
    · exact bot_le
    · exact le_rfl
  · intro hne
    rcases ho with ⟨he, -⟩ | ⟨-, rfl⟩
    · exact absurd he hne
    · exact ⟨n, h.member n m hs, hs⟩

section Preservation

variable [DecidableEq N] [DecidableEq I] {L : List N} {a b : State N I τ}

theorem Inv.setPoll (h : Inv L a) {n : N} {i : I} {p : Poll τ}
    (ho : ∀ j, j ≠ i → a.poll n j = none) (hp : PollOk L a n p) :
    Inv L (a.setPoll n i (some p)) := by
  have hl : Later a (a.setPoll n i (some p)) := .of_vote_eq rfl
  refine ⟨?_, ?_, h.member, h.commited, h.rolledBack⟩
  · intro m j q hq
    rw [State.setPoll_poll] at hq
    split_ifs at hq with hm
    · obtain ⟨rfl, rfl⟩ := hm
      obtain rfl := Option.some.inj hq
      exact hp.later hl rfl
    · exact (h.poll m j q hq).later hl rfl
  · intro m j k q r hq hr
    rw [State.setPoll_poll] at hq hr
    split_ifs at hq hr with hj hk hk
    · exact hj.2.trans hk.2.symm
    · obtain ⟨rfl, rfl⟩ := hj
      have hne : k ≠ j := fun e => hk ⟨rfl, e⟩
      rw [ho k hne] at hr
      cases hr
    · obtain ⟨rfl, rfl⟩ := hk
      have hne : j ≠ k := fun e => hj ⟨rfl, e⟩
      rw [ho j hne] at hq
      cases hq
    · exact h.unique m j k q r hq hr

omit [DecidableEq I] in
theorem Inv.setVote (h : Inv L a) {n : N} {v : Vote τ}
    (hv : a.vote n = .absent ∨ a.vote n = .running)
    (hv' : v = .running ∨ v = .aborted ∨ ∃ s, v = .prepared s ∧ n ∈ L) :
    Inv L (a.setVote n v) := by
  have hne : v ≠ .absent := by
    rcases hv' with rfl | rfl | ⟨s, rfl, -⟩ <;> simp
  have hl : Later a (a.setVote n v) := State.later_setVote hv hne
  refine ⟨?_, h.unique, ?_, ?_, ?_⟩
  · intro m i p hp
    have hok := h.poll m i p hp
    have hm : m ≠ n := by
      rintro rfl
      rcases hv with hv | hv <;> simp [hok.vote] at hv
    exact hok.later hl (State.setVote_of_ne a v hm)
  · intro m s hs
    by_cases hm : m = n
    · subst hm
      rw [State.setVote_self] at hs
      rcases hv' with rfl | rfl | ⟨t, rfl, hL⟩
      · simp [Vote.self?] at hs
      · simp [Vote.self?] at hs
      · exact hL
    · rw [State.setVote_of_ne a v hm] at hs
      exact h.member m s hs
  · intro m s c hc
    have hm : m ≠ n := by
      rintro rfl
      rw [State.setVote_self] at hc
      rcases hv' with rfl | rfl | ⟨t, rfl, -⟩ <;> simp at hc
    rw [State.setVote_of_ne a v hm] at hc
    obtain ⟨ha, hb⟩ := h.commited m s c hc
    exact ⟨ha.later hl, fun k hk => (hb k hk).later hl⟩
  · intro m s hr
    have hm : m ≠ n := by
      rintro rfl
      rw [State.setVote_self] at hr
      rcases hv' with rfl | rfl | ⟨t, rfl, -⟩ <;> simp at hr
    rw [State.setVote_of_ne a v hm] at hr
    obtain ⟨k, hk, ha⟩ := h.rolledBack m s hr
    exact ⟨k, hk, hl.aborted k ha⟩

theorem Inv.close (h : Inv L a) {n : N} {i : I} {p : Poll τ} {v : Vote τ}
    (hp : a.poll n i = some p) (hv : v.self? = some p.self)
    (hc : ∀ s c, v = .commited s c → Attained L a c ∧ ∀ m ∈ L, Below a c m)
    (hr : ∀ s, v = .rolledBack s → ∃ m ∈ L, a.vote m = .aborted) :
    Inv L ((a.setVote n v).setPoll n i none) := by
  have hok := h.poll n i p hp
  have hl : Later a ((a.setVote n v).setPoll n i none) := State.later_close hok.vote hv
  have key : ∀ m, m ≠ n → ((a.setVote n v).setPoll n i none).vote m = a.vote m :=
    fun m hm => State.setVote_of_ne a v hm
  have self : ((a.setVote n v).setPoll n i none).vote n = v := State.setVote_self a n v
  have polls : ∀ m j q, ((a.setVote n v).setPoll n i none).poll m j = some q →
      m ≠ n ∧ a.poll m j = some q := by
    intro m j q hq
    rw [State.setPoll_poll] at hq
    split_ifs at hq with hm
    refine ⟨?_, hq⟩
    rintro rfl
    exact hm ⟨rfl, (h.unique m j i q p hq hp)⟩
  refine ⟨?_, ?_, ?_, ?_, ?_⟩
  · intro m j q hq
    obtain ⟨hm, hq⟩ := polls m j q hq
    exact (h.poll m j q hq).later hl (key m hm)
  · intro m j k q r hq hr
    exact h.unique m j k q r (polls m j q hq).2 (polls m k r hr).2
  · intro m s hs
    by_cases hm : m = n
    · subst hm
      exact h.member m p.self hok.self?
    · rw [key m hm] at hs
      exact h.member m s hs
  · intro m s c hm
    by_cases he : m = n
    · subst he
      obtain ⟨ha, hb⟩ := hc s c (self.symm.trans hm)
      exact ⟨ha.later hl, fun k hk => (hb k hk).later hl⟩
    · rw [key m he] at hm
      obtain ⟨ha, hb⟩ := h.commited m s c hm
      exact ⟨ha.later hl, fun k hk => (hb k hk).later hl⟩
  · intro m s hm
    by_cases he : m = n
    · subst he
      obtain ⟨k, hk, ha⟩ := hr s (self.symm.trans hm)
      exact ⟨k, hk, hl.aborted k ha⟩
    · rw [key m he] at hm
      obtain ⟨k, hk, ha⟩ := h.rolledBack m s hm
      exact ⟨k, hk, hl.aborted k ha⟩

omit [DecidableEq I] in
theorem Inv.lose (h : Inv L a) (n : N) : Inv L (a.lose n) := by
  have hl : Later a (a.lose n) := .of_vote_eq rfl
  have polls : ∀ m j q, (a.lose n).poll m j = some q → a.poll m j = some q := by
    intro m j q hq
    rw [State.lose_poll] at hq
    split_ifs at hq
    exact hq
  exact ⟨fun m j q hq => (h.poll m j q (polls m j q hq)).later hl rfl,
    fun m j k q r hq hr => h.unique m j k q r (polls m j q hq) (polls m k r hr),
    h.member, h.commited, h.rolledBack⟩

omit [DecidableEq N] [DecidableEq I] in
theorem PollOk.complete {n : N} {p : Poll τ} (h : PollOk L a n p) (hn : n ∈ L)
    (hpos : p.pos = L.length) (hcount : p.count = L.length) :
    Attained L a p.max ∧ ∀ m ∈ L, Below a p.max m := by
  constructor
  · by_cases hs : p.self = ⊥
    · exact ⟨n, hn, .inr (hs ▸ h.self?)⟩
    · obtain ⟨m, hm, ht⟩ := h.attained hs
      exact ⟨m, hm, .inl ht⟩
  · have hc := h.counted (hcount.trans hpos.symm)
    rwa [hpos, List.take_length] at hc

theorem inv_step {B : Prop} {G : τ → Prop} (hs : Step B G L a b) (h : Inv L a) : Inv L b ∧ Later a b := by
  cases hs with
  | begin hv => exact ⟨h.setVote (.inl hv) (.inl rfl), State.later_setVote (.inl hv) (by simp)⟩
  | @prepare n s hv hL _ =>
    exact ⟨h.setVote (.inr hv) (.inr (.inr ⟨s, rfl, hL⟩)), State.later_setVote (.inr hv) (by simp)⟩
  | abort hv => exact ⟨h.setVote (.inr hv) (.inr (.inl rfl)), State.later_setVote (.inr hv) (by simp)⟩
  | start hv hn ho => exact ⟨h.setPoll (fun j _ => hn j) (.open h hv ho), .of_vote_eq rfl⟩
  | @own n i p hp hn =>
    have hok := h.poll n i p hp
    refine ⟨h.setPoll (h.others_none hp) (hok.advance hn hok.self? ?_), .of_vote_eq rfl⟩
    rw [max_eq_left hok.self_le]
  | @skip n i p hp hlt =>
    have hok := h.poll n i p hp
    refine ⟨h.setPoll (h.others_none hp) ⟨hok.vote, hlt, ?_, hok.self_le, hok.attained, ?_,
      by simp⟩, .of_vote_eq rfl⟩
    · exact hok.count_le.trans (Nat.le_succ _)
    · intro hc
      have hle := hok.count_le
      simp only at hc
      omega
  | @ask n m i p r hp hm ha =>
    have hok := h.poll n i p hp
    refine ⟨h.setPoll (h.others_none hp) ⟨hok.vote, hok.pos_le, hok.count_le, hok.self_le,
      hok.attained, hok.counted, ?_⟩, .of_vote_eq rfl⟩
    intro r' hr
    obtain rfl := Option.some.inj hr
    rcases ha with rfl | rfl
    · trivial
    · exact h.replyOk_answer hm
  | @yes n i p s hp hr hlt =>
    have hok := h.poll n i p hp
    have hm : L[p.pos]? = some L[p.pos] := List.getElem?_eq_getElem hlt
    have hv := hok.reply _ hr _ hm
    exact ⟨h.setPoll (h.others_none hp) (hok.advance hm hv rfl), .of_vote_eq rfl⟩
  | @adopt n i p c hp hr =>
    have hok := h.poll n i p hp
    obtain ⟨m, s, hm⟩ := hok.reply _ hr
    refine ⟨h.close hp rfl (fun t d he => ?_) (by simp), State.later_close hok.vote rfl⟩
    obtain ⟨rfl, rfl⟩ := Vote.commited.inj he
    exact h.commited m s c hm
  | @undo n i p hp hr =>
    have hok := h.poll n i p hp
    exact ⟨h.close hp rfl (by simp) fun _ _ => hok.reply _ hr, State.later_close hok.vote rfl⟩
  | @decide n i p hp hpos hcount =>
    have hok := h.poll n i p hp
    refine ⟨h.close hp rfl (fun t d he => ?_) (by simp), State.later_close hok.vote rfl⟩
    obtain ⟨rfl, rfl⟩ := Vote.commited.inj he
    exact hok.complete (h.member n p.self hok.self?) hpos hcount
  | @round n i p m hp ho =>
    exact ⟨h.setPoll (h.others_none hp) (.open h (h.poll n i p hp).vote ho), .of_vote_eq rfl⟩
  | @lose n => exact ⟨h.lose n, .of_vote_eq rfl⟩

abbrev Steps (B : Prop) (G : τ → Prop) (L : List N) : State N I τ → State N I τ → Prop :=
  Relation.ReflTransGen (Step B G L)

theorem inv_steps {B : Prop} {G : τ → Prop} (hs : Steps B G L a b) (h : Inv L a) :
    Inv L b ∧ Later a b := by
  induction hs with
  | refl => exact ⟨h, .refl a⟩
  | tail _ hs ih =>
    obtain ⟨hb, hl⟩ := ih
    obtain ⟨hc, hl'⟩ := inv_step hs hb
    exact ⟨hc, hl.trans hl'⟩

end Preservation

theorem Steps.own_run {N I τ : Type} [LinearOrder τ] [OrderBot τ] [DecidableEq N] [DecidableEq I]
    {B : Prop} {G : τ → Prop} {L : List N} {a : State N I τ} {n : N} {i : I} {p : Poll τ} {k : Nat}
    (hp : a.poll n i = some p) (hr : p.reply = none) (hown : ∀ j < k, L[p.pos + j]? = some n) :
    Steps B G L a (a.setPoll n i (some { p with pos := p.pos + k, count := p.count + k })) := by
  induction k with
  | zero =>
    rw [State.setPoll_eq_self (q := some { p with pos := p.pos + 0, count := p.count + 0 }) hp]
  | succ k ih =>
    have hs := ih fun j hj => hown j (Nat.lt_succ_of_lt hj)
    refine hs.tail ?_
    have hpoll : (a.setPoll n i (some { p with pos := p.pos + k, count := p.count + k })).poll n i =
        some { p with pos := p.pos + k, count := p.count + k } := by
      rw [State.setPoll_poll, if_pos ⟨rfl, rfl⟩]
    have hstep := Step.own (B := B) (G := G) (L := L) hpoll (hown k (Nat.lt_succ_self k))
    rw [State.setPoll_setPoll] at hstep
    simpa only [hr, Nat.add_assoc] using hstep

def Stamped (a : State N I τ) : Prop := ∀ n, (a.vote n).self? ≠ some ⊥

section

variable [DecidableEq N] [DecidableEq I] {B : Prop} {G : τ → Prop} {L : List N} {a b : State N I τ}

omit [DecidableEq I] in
theorem Stamped.setVote (h : Stamped a) {n : N} {v : Vote τ} (hv : v.self? ≠ some ⊥) :
    Stamped (a.setVote n v) := by
  intro m
  by_cases hm : m = n
  · rw [hm, State.setVote_self]
    exact hv
  · rw [State.setVote_of_ne a v hm]
    exact h m

theorem Stamped.step (h : Stamped a) (hB : ¬ B) (hG : ¬ G ⊥) (hs : Step B G L a b) (hi : Inv L a) :
    Stamped b := by
  have polled : ∀ {n i p}, a.poll n i = some p → some p.self ≠ some ⊥ := fun hp he =>
    h _ ((hi.poll _ _ _ hp).self?.trans he)
  cases hs with
  | begin hv => exact h.setVote (by simp [Vote.self?])
  | prepare hv hL hs =>
    refine h.setVote fun he => ?_
    rcases hs with hs | ⟨hs, -⟩
    · rw [Option.some.inj he] at hs
      exact hG hs
    · exact hB hs
  | abort hv => exact h.setVote (by simp [Vote.self?])
  | adopt hp hr => exact h.setVote (polled hp)
  | undo hp hr => exact h.setVote (polled hp)
  | decide hp _ _ => exact h.setVote (polled hp)
  | _ => exact h

theorem Stamped.steps (h : Stamped a) (hB : ¬ B) (hG : ¬ G ⊥) (hs : Steps B G L a b)
    (hi : Inv L a) : Stamped b := by
  induction hs with
  | refl => exact h
  | tail hs hs' ih => exact ih.step hB hG hs' (inv_steps hs hi).1

end

/-- No participant commits while another one in the list has rolled back. -/
theorem Inv.agree {L : List N} {a : State N I τ} (h : Inv L a) {n m : N} {s c : τ}
    (hn : a.vote n = .commited s c) (hm : m ∈ L) :
    a.vote m ≠ .aborted ∧ ∀ t, a.vote m ≠ .rolledBack t := by
  have no : ∀ k ∈ L, a.vote k ≠ .aborted := by
    intro k hk he
    obtain ⟨t, ht, -⟩ := (h.commited n s c hn).2 k hk
    simp [he, Vote.self?] at ht
  refine ⟨no m hm, fun t ht => ?_⟩
  obtain ⟨k, hk, ha⟩ := h.rolledBack m t ht
  exact no k hk ha

/-- A decision that a round learns is not below the greatest timestamp of the round. -/
theorem Inv.max_le {L : List N} {a : State N I τ} (h : Inv L a) {n : N} {i : I} {p : Poll τ} {c : τ}
    (hp : a.poll n i = some p) (hr : p.reply = some (.commited c)) (hs : p.self ≠ ⊥) : p.max ≤ c := by
  have hok := h.poll n i p hp
  obtain ⟨m, hm, hmax⟩ := hok.attained hs
  obtain ⟨k, s, hk⟩ := hok.reply _ hr
  obtain ⟨t, ht, hle⟩ := (h.commited k s c hk).2 m hm
  obtain rfl := Option.some.inj (hmax.symm.trans ht)
  exact hle

/-- The commit timestamp is the greatest one when every member was prepared with a timestamp. -/
theorem Inv.commit_agree {L : List N} {a : State N I τ} (h : Inv L a)
    (hstamped : Stamped a) {n m : N} {s c t d : τ}
    (hn : a.vote n = .commited s c) (hm : a.vote m = .commited t d) : c = d := by
  have le : ∀ {n m : N} {s c t d : τ}, a.vote n = .commited s c → a.vote m = .commited t d →
      c ≤ d := by
    intro n m s c t d hn hm
    obtain ⟨⟨k, hk, hc | hb⟩, -⟩ := h.commited n s c hn
    · obtain ⟨u, hu, hle⟩ := (h.commited m t d hm).2 k hk
      rw [hc] at hu
      obtain rfl := Option.some.inj hu
      exact hle
    · exact absurd hb (hstamped k)
  exact le_antisymm (le hn hm) (le hm hn)

structure Bounded (G : τ → Prop) (a : State N I τ) : Prop where
  self : ∀ n s, (a.vote n).self? = some s → s ≠ ⊥ → G s
  commited : ∀ n s c, a.vote n = .commited s c → G c
  max : ∀ n i p, a.poll n i = some p → G p.max

omit [LinearOrder τ] [OrderBot τ] in
theorem Bounded.mono {G G' : τ → Prop} [LinearOrder τ] [OrderBot τ] {a : State N I τ}
    (hG : ∀ x, G x → G' x) (h : Bounded G a) : Bounded G' a :=
  ⟨fun n s hs hne => hG s (h.self n s hs hne), fun n s c hn => hG c (h.commited n s c hn),
    fun n i p hp => hG p.max (h.max n i p hp)⟩

section

variable [DecidableEq N] [DecidableEq I] {B : Prop} {G G₀ : τ → Prop} {L : List N}
  {a b : State N I τ}

omit [DecidableEq N] [DecidableEq I] in
theorem Bounded.of_nil (h : Inv [] a) : Bounded G a where
  self n s hs := by simpa using h.member n s hs
  commited n s c hc := by simpa using h.member n s (by rw [hc]; rfl)
  max n i p hp := by simpa using h.member n p.self (h.poll n i p hp).self?

theorem Bounded.setPoll (h : Bounded G a) {n : N} {i : I} {p : Poll τ} (hp : G p.max) :
    Bounded G (a.setPoll n i (some p)) := by
  refine ⟨h.self, h.commited, fun m j q hq => ?_⟩
  rw [State.setPoll_poll] at hq
  split_ifs at hq
  · obtain rfl := Option.some.inj hq
    exact hp
  · exact h.max m j q hq

omit [DecidableEq I] in
theorem Bounded.setVote (h : Bounded G a) {n : N} {v : Vote τ}
    (hs : ∀ s, v.self? = some s → s ≠ ⊥ → G s) (hc : ∀ s c, v = .commited s c → G c) :
    Bounded G (a.setVote n v) := by
  refine ⟨fun m s hm hne => ?_, fun m s c hm => ?_, h.max⟩
  · by_cases he : m = n
    · subst he
      rw [State.setVote_self] at hm
      exact hs s hm hne
    · rw [State.setVote_of_ne a v he] at hm
      exact h.self m s hm hne
  · by_cases he : m = n
    · subst he
      rw [State.setVote_self] at hm
      exact hc s c hm
    · rw [State.setVote_of_ne a v he] at hm
      exact h.commited m s c hm

theorem Bounded.close (h : Bounded G a) {n : N} {i : I} {v : Vote τ}
    (hs : ∀ s, v.self? = some s → s ≠ ⊥ → G s) (hc : ∀ s c, v = .commited s c → G c) :
    Bounded G ((a.setVote n v).setPoll n i none) := by
  have hb := h.setVote (n := n) hs hc
  refine ⟨hb.self, hb.commited, fun m j q hq => ?_⟩
  rw [State.setPoll_poll] at hq
  split_ifs at hq
  exact h.max m j q hq

theorem Bounded.opening (hG : ∀ x, G₀ x → G x) {s m : τ} (ho : Opening G₀ s m)
    (hs : s ≠ ⊥ → G s) : G m := by
  rcases ho with ⟨-, hm⟩ | ⟨hne, rfl⟩
  · exact hG m hm
  · exact hs hne

theorem Bounded.step (hG : ∀ x, G₀ x → G x) (hb : Bounded G a) (hs : Step B G₀ L a b)
    (h : Inv L a) : Bounded G b := by
  have polled : ∀ {n i p}, a.poll n i = some p → ∀ s, some p.self = some s → s ≠ ⊥ → G s := by
    intro n i p hp s he hne
    obtain rfl := Option.some.inj he
    exact hb.self n p.self (h.poll n i p hp).self? hne
  cases hs with
  | begin hv => exact hb.setVote (by simp [Vote.self?]) (by simp)
  | prepare hv hL hd =>
    refine hb.setVote (fun t ht hne => ?_) (by simp)
    obtain rfl := Option.some.inj ht
    rcases hd with hd | ⟨-, hd⟩
    · exact hG _ hd
    · exact absurd hd hne
  | abort hv => exact hb.setVote (by simp [Vote.self?]) (by simp)
  | @start n i s m hv hn ho =>
    exact hb.setPoll (Bounded.opening hG ho (hb.self n s (by rw [hv]; rfl)))
  | @own n i p hp hn => exact hb.setPoll (hb.max n i p hp)
  | @skip n i p hp hlt => exact hb.setPoll (hb.max n i p hp)
  | @ask n m i p r hp hm ha => exact hb.setPoll (hb.max n i p hp)
  | @yes n i p s hp hr hlt =>
    refine hb.setPoll ?_
    have hm := (h.poll n i p hp).reply _ hr _ (List.getElem?_eq_getElem hlt)
    rcases max_choice p.max s with he | he
    · simp only [he]
      exact hb.max n i p hp
    · simp only [he]
      by_cases hs : s = ⊥
      · -- an unset timestamp never raises the maximum
        have hle : p.max ≤ ⊥ := hs ▸ max_eq_right_iff.mp he
        rw [hs, ← le_bot_iff.mp hle]
        exact hb.max n i p hp
      · exact hb.self _ s hm hs
  | @adopt n i p c hp hr =>
    obtain ⟨m, s, hm⟩ := (h.poll n i p hp).reply _ hr
    refine hb.close (polled hp) fun t d he => ?_
    obtain ⟨rfl, rfl⟩ := Vote.commited.inj he
    exact hb.commited m s c hm
  | @undo n i p hp hr => exact hb.close (polled hp) (by simp)
  | @decide n i p hp hpos hcount =>
    refine hb.close (polled hp) fun t d he => ?_
    obtain ⟨rfl, rfl⟩ := Vote.commited.inj he
    exact hb.max n i p hp
  | @round n i p m hp ho =>
    exact hb.setPoll (Bounded.opening hG ho fun hne => polled hp p.self rfl hne)
  | @lose n =>
    refine ⟨hb.self, hb.commited, fun m j q hq => ?_⟩
    rw [State.lose_poll] at hq
    split_ifs at hq
    exact hb.max m j q hq

theorem Bounded.steps (hG : ∀ x, G₀ x → G x) (hb : Bounded G a) (hs : Steps B G₀ L a b)
    (h : Inv L a) : Bounded G b := by
  induction hs with
  | refl => exact hb
  | tail hs hs' ih => exact ih.step hG hs' (inv_steps hs h).1

end

omit [OrderBot τ] in
/-- Whatever becomes of the vote, it is not committed before `t`. -/
def Vote.Late (t : τ) : Vote τ → Prop
  | prepared s => t ≤ s
  | commited _ c => t ≤ c
  | _ => True

theorem Inv.self_le {L : List N} {a : State N I τ} (h : Inv L a) {n : N} {s c : τ}
    (hn : a.vote n = .commited s c) : s ≤ c := by
  obtain ⟨u, hu, hle⟩ := (h.commited n s c hn).2 n (h.member n s (by rw [hn]; rfl))
  rw [hn] at hu
  obtain rfl := Option.some.inj hu
  exact hle

section

variable [DecidableEq N] [DecidableEq I] {B : Prop} {G : τ → Prop} {L : List N}
  {a b : State N I τ} {n : N} {t : τ}

theorem Step.self_new (hs : Step B G L a b) (hi : Inv L a) (ha : (a.vote n).self? = none) {x : τ}
    (hb : (b.vote n).self? = some x) : G x ∨ (B ∧ x = ⊥) := by
  have cast : ∀ {m v}, (v.self? = some x → G x ∨ (B ∧ x = ⊥)) →
      ((a.setVote m v).vote n).self? = some x → G x ∨ (B ∧ x = ⊥) := by
    intro m v hv hx
    by_cases hm : n = m
    · rw [hm, State.setVote_self] at hx
      exact hv hx
    · rw [State.setVote_of_ne a v hm, ha] at hx
      simp at hx
  have close : ∀ {m i p v}, a.poll m i = some p → v.self? = some p.self →
      ((a.setVote m v).vote n).self? = some x → G x ∨ (B ∧ x = ⊥) := by
    intro m i p v hp hv hx
    by_cases hm : n = m
    · rw [hm, (hi.poll m i p hp).self?] at ha
      simp at ha
    · rw [State.setVote_of_ne a v hm, ha] at hx
      simp at hx
  cases hs with
  | begin | abort => exact cast (by simp [Vote.self?]) hb
  | prepare _ _ hx =>
    refine cast (fun he => ?_) hb
    rwa [← Option.some.inj he]
  | adopt hp | undo hp | decide hp => exact close hp rfl hb
  | _ => exact absurd (ha.symm.trans hb) (by simp)

theorem Vote.Late.step (hB : ¬ B) (hG : ∀ x, G x → t ≤ x) (hs : Step B G L a b) (hi : Inv L a)
    (h : (a.vote n).Late t) : (b.vote n).Late t := by
  obtain ⟨hib, hl⟩ := inv_step hs hi
  -- a vote that is cast in this step
  have cast : (a.vote n).self? = none → (b.vote n).Late t := by
    intro ha
    have new : ∀ x, (b.vote n).self? = some x → t ≤ x := fun x hx =>
      (hs.self_new hi ha hx).elim (hG x) fun hx => absurd hx.1 hB
    cases hb : b.vote n with
    | prepared s => exact new s (by rw [hb]; rfl)
    | commited s c => exact (new s (by rw [hb]; rfl)).trans (hib.self_le hb)
    | absent | running | aborted | rolledBack => trivial
  cases ha : a.vote n with
  | absent | running => exact cast (by rw [ha]; rfl)
  | prepared s =>
    rw [ha] at h
    have hs := hl.self n s (by rw [ha]; rfl)
    cases hb : b.vote n with
    | prepared u =>
      rw [hb] at hs
      obtain rfl := Option.some.inj hs
      exact h
    | commited u c =>
      have hle := hib.self_le hb
      rw [hb] at hs
      obtain rfl := Option.some.inj hs
      exact le_trans h hle
    | absent | running | aborted | rolledBack => trivial
  | commited s c =>
    rw [hl.commited n s c ha]
    rwa [ha] at h
  | aborted =>
    rw [hl.aborted n ha]
    trivial
  | rolledBack s =>
    rw [hl.rolledBack n s ha]
    trivial

theorem Vote.Late.steps (hB : ¬ B) (hG : ∀ x, G x → t ≤ x) (hs : Steps B G L a b) (hi : Inv L a)
    (h : (a.vote n).Late t) : (b.vote n).Late t := by
  induction hs with
  | refl => exact h
  | tail hs hs' ih => exact ih.step hB hG hs' (inv_steps hs hi).1

end

end PollCommit
