import Mathlib.Data.List.TakeWhile

/-! Words between separators: the first words of a text, each with the separators before it. -/

namespace Words

variable {α : Type} {sep : α → Bool} {k : Nat} {w l rest : List α} {c : α}

def words (sep : α → Bool) : Nat → List α → List (List α)
  | 0, _ => []
  | k + 1, l =>
    match l.dropWhile sep with
    | [] => []
    | c :: l =>
      (c :: l).takeWhile (fun c => !sep c) :: words sep k ((c :: l).dropWhile fun c => !sep c)

def IsWord (sep : α → Bool) (w : List α) : Prop := w ≠ [] ∧ ∀ c ∈ w, sep c = false

instance [DecidableEq α] (sep : α → Bool) (w : List α) : Decidable (IsWord sep w) :=
  inferInstanceAs (Decidable (_ ∧ _))

theorem isWord_of_mem (hw : w ∈ words sep k l) : IsWord sep w := by
  induction k generalizing l with
  | zero => cases hw
  | succ k ih =>
    rw [words] at hw
    split at hw
    · cases hw
    · rename_i c l' hl
      rcases List.mem_cons.mp hw with rfl | hw
      · have hc : sep c = false := by
          have := List.head?_dropWhile_not sep l
          simpa [hl] using this
        refine ⟨by simp [hc], fun d hd => ?_⟩
        simpa using List.mem_takeWhile_imp hd
      · exact ih hw

theorem mem_of_mem_words (hw : w ∈ words sep k l) (hc : c ∈ w) : c ∈ l := by
  induction k generalizing l with
  | zero => cases hw
  | succ k ih =>
    rw [words] at hw
    split at hw
    · cases hw
    · rename_i d l' hl
      have hsub : ∀ c, c ∈ d :: l' → c ∈ l := fun c hc =>
        (List.dropWhile_suffix sep).subset (hl ▸ hc)
      rcases List.mem_cons.mp hw with rfl | hw
      · exact hsub c ((List.takeWhile_prefix _).subset hc)
      · exact hsub c ((List.dropWhile_suffix _).subset (ih hw))

theorem words_sep (hc : sep c = true) : words sep k (c :: l) = words sep k l := by
  cases k with
  | zero => rfl
  | succ k => rw [words, words, List.dropWhile_cons_of_pos hc]

theorem words_nil : words sep k [] = [] := by
  cases k <;> rfl

theorem words_cons (hw : IsWord sep w) (hrest : ∀ c, rest.head? = some c → sep c = true) :
    words sep (k + 1) (w ++ rest) = w :: words sep k rest := by
  obtain ⟨hne, hw⟩ := hw
  have hstart : (w ++ rest).dropWhile sep = w ++ rest := by
    cases w with
    | nil => exact absurd rfl hne
    | cons c w =>
      rw [List.cons_append, List.dropWhile_cons_of_neg]
      simp [hw c (.head _)]
  have hall : ∀ c ∈ w, (!sep c) = true := fun c hc => by simp [hw c hc]
  have htake : (w ++ rest).takeWhile (fun c => !sep c) = w := by
    rw [List.takeWhile_append_of_pos hall]
    cases rest with
    | nil => simp
    | cons c rest => simp [hrest c rfl]
  have hdrop : (w ++ rest).dropWhile (fun c => !sep c) = rest := by
    rw [List.dropWhile_append_of_pos hall]
    cases rest with
    | nil => rfl
    | cons c rest => simp [hrest c rfl]
  rw [words, hstart]
  cases w with
  | nil => exact absurd rfl hne
  | cons c w =>
    rw [List.cons_append] at htake hdrop ⊢
    simp only [htake, hdrop]

theorem words_flatMap {ws : List (List α)} (hc : sep c = true) (hws : ∀ w ∈ ws, IsWord sep w)
    (hk : ws.length ≤ k) (hrest : ∀ c ∈ rest, sep c = true) :
    words sep k ((ws.flatMap fun w => w ++ [c]) ++ rest) = ws := by
  induction ws generalizing k with
  | nil =>
    induction rest with
    | nil => exact words_nil
    | cons d rest ih =>
      rw [List.flatMap_nil, List.nil_append] at ih ⊢
      rw [words_sep (hrest d (.head _))]
      exact ih fun c hc => hrest c (.tail _ hc)
  | cons w ws ih =>
    cases k with
    | zero => cases hk
    | succ k =>
      rw [List.flatMap_cons, List.append_assoc, List.append_assoc,
        words_cons (hws w (.head _)) (by simp [hc])]
      rw [List.singleton_append, words_sep hc]
      rw [ih (fun w hw => hws w (.tail _ hw)) (Nat.le_of_succ_le_succ hk)]

end Words
