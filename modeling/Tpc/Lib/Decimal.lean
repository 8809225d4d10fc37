import Mathlib.Algebra.Group.Nat.Defs
import Mathlib.Data.List.Lex

/-! Decimal notation: numbers with equally many digits are ordered as their notations are. -/

namespace Decimal

theorem toDigits_eq {n : Nat} (h : 10 ≤ n) :
    Nat.toDigits 10 n = Nat.toDigits 10 (n / 10) ++ [Nat.digitChar (n % 10)] := by
  have hd : n % 10 < 10 := Nat.mod_lt _ (by decide)
  have hs := Nat.toDigits_append_toDigits (b := 10) (n := n / 10) (d := n % 10) (by decide)
    (by omega) hd
  rw [Nat.toDigits_of_lt_base hd, Nat.div_add_mod] at hs
  exact hs.symm

theorem digitChar_lt {m n : Nat} (hmn : m < n) (hn : n < 10) : Nat.digitChar m < Nat.digitChar n := by
  have h : ∀ n < 10, ∀ m < n, Nat.digitChar m < Nat.digitChar n := by decide
  exact h n hn m hmn

section Lists

variable {α : Type} [LT α] {xs ys : List α}

theorem append_lt_append (hlen : xs.length = ys.length) (h : xs < ys) (xs' ys' : List α) :
    xs ++ xs' < ys ++ ys' := by
  induction h with
  | nil => simp at hlen
  | rel hlt => exact .rel hlt
  | cons _ ih => exact .cons (ih (by simpa using hlen))

end Lists

def HasDigits (k n : Nat) : Prop := 10 ^ k ≤ n ∧ n < 10 ^ (k + 1)

theorem HasDigits.div {k n : Nat} (h : HasDigits (k + 1) n) : HasDigits k (n / 10) := by
  obtain ⟨h1, h2⟩ := h
  constructor
  · rw [Nat.le_div_iff_mul_le (by decide)]
    calc 10 ^ k * 10 = 10 ^ (k + 1) := (Nat.pow_succ ..).symm
      _ ≤ n := h1
  · rw [Nat.div_lt_iff_lt_mul (by decide)]
    calc n < 10 ^ (k + 1 + 1) := h2
      _ = 10 ^ (k + 1) * 10 := Nat.pow_succ ..

theorem HasDigits.ten_le {k n : Nat} (h : HasDigits (k + 1) n) : 10 ≤ n := by
  calc 10 = 10 ^ 1 := rfl
    _ ≤ 10 ^ (k + 1) := Nat.pow_le_pow_right (by decide) (by omega)
    _ ≤ n := h.1

theorem HasDigits.length {k n : Nat} (h : HasDigits k n) : (Nat.toDigits 10 n).length = k + 1 := by
  induction k generalizing n with
  | zero =>
    rw [Nat.toDigits_of_lt_base (by simpa using h.2)]
    rfl
  | succ k ih =>
    rw [toDigits_eq h.ten_le, List.length_append, ih h.div]
    rfl

theorem toDigits_lt {k m n : Nat} (hm : HasDigits k m) (hn : HasDigits k n) (h : m < n) :
    Nat.toDigits 10 m < Nat.toDigits 10 n := by
  induction k generalizing m n with
  | zero =>
    have hn' : n < 10 := by simpa using hn.2
    rw [Nat.toDigits_of_lt_base hn', Nat.toDigits_of_lt_base (h.trans hn')]
    exact .rel (digitChar_lt h hn')
  | succ k ih =>
    rw [toDigits_eq hm.ten_le, toDigits_eq hn.ten_le]
    -- the digits before the last one decide, unless they are the same
    rcases (Nat.div_le_div_right (c := 10) h.le).lt_or_eq with hlt | heq
    · exact append_lt_append (hm.div.length.trans hn.div.length.symm) (ih hm.div hn.div hlt) _ _
    · rw [heq]
      refine List.append_left_lt (.rel (digitChar_lt ?_ (Nat.mod_lt _ (by decide))))
      omega

theorem toDigits_lt_iff {k m n : Nat} (hm : HasDigits k m) (hn : HasDigits k n) :
    Nat.toDigits 10 m < Nat.toDigits 10 n ↔ m < n := by
  refine ⟨fun h => ?_, toDigits_lt hm hn⟩
  by_contra hle
  rcases (not_lt.mp hle).lt_or_eq with hlt | rfl
  · exact List.lt_irrefl _ (List.lt_trans h (toDigits_lt hn hm hlt))
  · exact List.lt_irrefl _ h

end Decimal
