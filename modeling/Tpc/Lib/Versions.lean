import Mathlib.Data.List.Basic
import Mathlib.Order.Lattice

/-! Multi-version reads. The versions of a key form a list, newest first; the state of the writer
of a version decides what a reader with a timestamp sees of it. -/

namespace Versions

inductive Writer (C : Type)
  | running
  | prepared (start : C)
  | committed (commit : C)
  | aborted

inductive Seen (α : Type)
  | value (v : α)
  | wait (v : α)
  | missing

variable {α C : Type} [LinearOrder C]

/-- The newest version that the reader wrote itself or that was committed before `b`. -/
def read (own : α → Prop) [DecidablePred own] (writer : α → Writer C) (b : C) : List α → Seen α
  | [] => .missing
  | v :: l =>
    if own v then .value v
    else
      match writer v with
      | .running => read own writer b l
      | .prepared s => if s < b then .wait v else read own writer b l
      | .committed c => if c < b then .value v else read own writer b l
      | .aborted => read own writer b l

/-- The newest version is replaced when it is the writer's own; otherwise the new one goes before
it. -/
def write (own : α → Prop) [DecidablePred own] (v : α) : List α → List α
  | [] => [v]
  | w :: l => if own w then v :: l else v :: w :: l

def Before (writer : α → Writer C) (b : C) (v : α) (c : C) : Prop := writer v = .committed c ∧ c < b

/-- May come to be committed before `b`. -/
def Pending (writer : α → Writer C) (b : C) (v : α) : Prop := ∃ s, writer v = .prepared s ∧ s < b

def Undecided (writer : α → Writer C) (v : α) : Prop :=
  writer v = .running ∨ ∃ s, writer v = .prepared s

/-- Only the newest version may be undecided, and the others were committed in the order of the
list. -/
structure Ordered (writer : α → Writer C) (l : List α) : Prop where
  tail : ∀ v ∈ l.tail, ¬ Undecided writer v
  commits : l.Pairwise fun v w =>
    ∀ c d, writer v = .committed c → writer w = .committed d → d ≤ c

section Read

variable {own : α → Prop} [DecidablePred own] {writer : α → Writer C} {b : C} {v : α} {l : List α}

theorem Ordered.head_of_undecided (h : Ordered writer l) (hv : v ∈ l) (hu : Undecided writer v) :
    l.head? = some v := by
  cases l with
  | nil => cases hv
  | cons w l =>
    rcases List.mem_cons.mp hv with rfl | hm
    · rfl
    · exact absurd hu (h.tail v hm)

theorem read_own (hv : l.head? = some v) (ho : own v) : read own writer b l = .value v := by
  cases l with
  | nil => cases hv
  | cons w l =>
    obtain rfl := Option.some.inj hv
    rw [read, if_pos ho]

theorem read_pending (hv : l.head? = some v) (ho : ¬ own v) (hp : Pending writer b v) :
    read own writer b l = .wait v := by
  obtain ⟨s, hs, hlt⟩ := hp
  cases l with
  | nil => cases hv
  | cons w l =>
    obtain rfl := Option.some.inj hv
    simp only [read, if_neg ho, hs, if_pos hlt]

/-- A list without versions of the reader and without pending ones: the first version that is
committed before `b` is one with the greatest commit. -/
theorem read_greatest (ho : ∀ v ∈ l, ¬ own v) (hp : ∀ v ∈ l, ¬ Pending writer b v)
    (hc : l.Pairwise fun v w => ∀ c d, writer v = .committed c → writer w = .committed d → d ≤ c) :
    (∃ v ∈ l, ∃ c, read own writer b l = .value v ∧ Before writer b v c ∧
      ∀ w ∈ l, ∀ d, Before writer b w d → d ≤ c) ∨
    (read own writer b l = .missing ∧ ∀ w ∈ l, ∀ d, ¬ Before writer b w d) := by
  induction l with
  | nil => exact .inr ⟨rfl, by simp⟩
  | cons v l ih =>
    rw [List.pairwise_cons] at hc
    -- the version is passed over when it is not committed before `b`
    have older : (∀ c, ¬ Before writer b v c) → read own writer b (v :: l) = read own writer b l →
        (∃ w ∈ v :: l, ∃ c, read own writer b (v :: l) = .value w ∧ Before writer b w c ∧
          ∀ w ∈ v :: l, ∀ d, Before writer b w d → d ≤ c) ∨
        (read own writer b (v :: l) = .missing ∧ ∀ w ∈ v :: l, ∀ d, ¬ Before writer b w d) := by
      intro hv hr
      rw [hr]
      rcases ih (fun w hw => ho w (.tail _ hw)) (fun w hw => hp w (.tail _ hw)) hc.2 with
        ⟨w, hw, c, he, hb, hmax⟩ | ⟨he, hnone⟩
      · refine .inl ⟨w, .tail _ hw, c, he, hb, fun u hu d hd => ?_⟩
        rcases List.mem_cons.mp hu with rfl | hu
        · exact absurd hd (hv d)
        · exact hmax u hu d hd
      · refine .inr ⟨he, fun u hu d hd => ?_⟩
        rcases List.mem_cons.mp hu with rfl | hu
        · exact hv d hd
        · exact hnone u hu d hd
    have hov := ho v (.head _)
    cases hw : writer v with
    | running => exact older (by simp [Before, hw]) (by simp only [read, if_neg hov, hw])
    | aborted => exact older (by simp [Before, hw]) (by simp only [read, if_neg hov, hw])
    | prepared s =>
      have hlt : ¬ s < b := fun h => hp v (.head _) ⟨s, hw, h⟩
      exact older (by simp [Before, hw]) (by simp only [read, if_neg hov, hw, if_neg hlt])
    | committed c =>
      by_cases hlt : c < b
      · refine .inl ⟨v, .head _, c, by simp only [read, if_neg hov, hw, if_pos hlt], ⟨hw, hlt⟩, ?_⟩
        intro u hu d hd
        rcases List.mem_cons.mp hu with rfl | hu
        · rw [hd.1] at hw
          exact le_of_eq (Writer.committed.inj hw)
        · exact hc.1 u hu c d hw hd.1
      · refine older ?_ (by simp only [read, if_neg hov, hw, if_neg hlt])
        rintro d ⟨hd, hdlt⟩
        obtain rfl := Writer.committed.inj (hw.symm.trans hd)
        exact hlt hdlt

def Hidden (writer : α → Writer C) (b : C) (v : α) : Prop :=
  match writer v with
  | .running => True
  | .prepared s => b ≤ s
  | .committed c => b ≤ c
  | .aborted => True

theorem read_split (h : ∀ v, read own writer b l ≠ .wait v) :
    ∃ l₁ l₂, l = l₁ ++ l₂ ∧ (∀ v ∈ l₁, ¬ own v ∧ Hidden writer b v) ∧
      ((l₂ = [] ∧ read own writer b l = .missing) ∨
        ∃ v l', l₂ = v :: l' ∧ read own writer b l = .value v ∧
          (own v ∨ ∃ c, Before writer b v c)) := by
  induction l with
  | nil => exact ⟨[], [], rfl, by simp, .inl ⟨rfl, rfl⟩⟩
  | cons v l ih =>
    have value : read own writer b (v :: l) = .value v → (own v ∨ ∃ c, Before writer b v c) →
        ∃ l₁ l₂, v :: l = l₁ ++ l₂ ∧ (∀ v ∈ l₁, ¬ own v ∧ Hidden writer b v) ∧
          ((l₂ = [] ∧ read own writer b (v :: l) = .missing) ∨
            ∃ w l', l₂ = w :: l' ∧ read own writer b (v :: l) = .value w ∧
              (own w ∨ ∃ c, Before writer b w c)) :=
      fun hr hv => ⟨[], v :: l, rfl, by simp, .inr ⟨v, l, rfl, hr, hv⟩⟩
    have pass : ¬ own v → Hidden writer b v → read own writer b (v :: l) = read own writer b l →
        ∃ l₁ l₂, v :: l = l₁ ++ l₂ ∧ (∀ v ∈ l₁, ¬ own v ∧ Hidden writer b v) ∧
          ((l₂ = [] ∧ read own writer b (v :: l) = .missing) ∨
            ∃ w l', l₂ = w :: l' ∧ read own writer b (v :: l) = .value w ∧
              (own w ∨ ∃ c, Before writer b w c)) := by
      intro ho hv hr
      obtain ⟨l₁, l₂, hl, hl₁, hres⟩ := ih fun w => hr ▸ h w
      refine ⟨v :: l₁, l₂, by rw [hl, List.cons_append], ?_, by rwa [hr]⟩
      rintro w (_ | ⟨_, hw⟩)
      · exact ⟨ho, hv⟩
      · exact hl₁ w hw
    by_cases ho : own v
    · exact value (by rw [read, if_pos ho]) (.inl ho)
    cases hw : writer v with
    | running => exact pass ho (by simp [Hidden, hw]) (by simp [read, ho, hw])
    | aborted => exact pass ho (by simp [Hidden, hw]) (by simp [read, ho, hw])
    | prepared s =>
      by_cases hs : s < b
      · exact absurd (by simp [read, ho, hw, hs]) (h v)
      · exact pass ho (by simpa [Hidden, hw] using hs) (by simp [read, ho, hw, hs])
    | committed c =>
      by_cases hc : c < b
      · exact value (by simp [read, ho, hw, hc]) (.inr ⟨c, hw, hc⟩)
      · exact pass ho (by simpa [Hidden, hw] using hc) (by simp [read, ho, hw, hc])

theorem read_ne_wait (h : ∀ v ∈ l, ¬ Pending writer b v) (v : α) : read own writer b l ≠ .wait v := by
  induction l with
  | nil => simp [read]
  | cons w l ih =>
    have hl : read own writer b l ≠ .wait v := ih fun u hu => h u (.tail _ hu)
    by_cases ho : own w
    · simp [read, ho]
    cases hw : writer w with
    | running | aborted => simpa [read, ho, hw] using hl
    | prepared s =>
      have hs : ¬ s < b := fun hs => h w (.head _) ⟨s, hw, hs⟩
      simpa [read, ho, hw, hs] using hl
    | committed c =>
      by_cases hc : c < b
      · simp [read, ho, hw, hc]
      · simpa [read, ho, hw, hc] using hl

omit [DecidablePred own] [LinearOrder C] in
theorem rest_unique {P : α → Prop} {l₁ l₂ m₁ m₂ : List α} (h : l₁ ++ l₂ = m₁ ++ m₂)
    (hl₁ : ∀ v ∈ l₁, P v) (hm₁ : ∀ v ∈ m₁, P v) (hl₂ : ∀ v, l₂.head? = some v → ¬ P v)
    (hm₂ : ∀ v, m₂.head? = some v → ¬ P v) : l₂ = m₂ := by
  rcases List.append_eq_append_iff.mp h with ⟨a, rfl, rfl⟩ | ⟨a, rfl, rfl⟩
  · cases a with
    | nil => rfl
    | cons v a => exact absurd (hm₁ v (by simp)) (hl₂ v rfl)
  · cases a with
    | nil => rfl
    | cons v a => exact absurd (hl₁ v (by simp)) (hm₂ v rfl)

end Read

end Versions
