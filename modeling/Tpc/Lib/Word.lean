import Mathlib.Algebra.Group.Nat.Defs
import Mathlib.Data.List.Basic

/-! Words of four bytes in either byte order. -/

namespace Word

inductive Endian
  | little
  | big
deriving DecidableEq, Repr

def digits : Nat → Nat → List UInt8
  | 0, _ => []
  | k + 1, n => UInt8.ofNat n :: digits k (n / 256)

def ofDigits : List UInt8 → Nat
  | [] => 0
  | b :: bs => b.toNat + 256 * ofDigits bs

@[simp] theorem length_digits (k n : Nat) : (digits k n).length = k := by
  induction k generalizing n with
  | zero => rfl
  | succ k ih => rw [digits, List.length_cons, ih]

theorem ofDigits_digits {k n : Nat} (h : n < 256 ^ k) : ofDigits (digits k n) = n := by
  induction k generalizing n with
  | zero =>
    simp only [Nat.pow_zero] at h
    simp only [digits, ofDigits]
    omega
  | succ k ih =>
    have hdiv : n / 256 < 256 ^ k := by
      rw [Nat.pow_succ] at h
      exact Nat.div_lt_of_lt_mul (by omega)
    rw [digits, ofDigits, ih hdiv, UInt8.toNat_ofNat']
    omega

/-- An `unsigned int` in memory; a larger number loses its upper digits. -/
def encode (e : Endian) (n : Nat) : List UInt8 :=
  match e with
  | .little => digits 4 n
  | .big => (digits 4 n).reverse

def decode (e : Endian) (bs : List UInt8) : Nat :=
  match e with
  | .little => ofDigits bs
  | .big => ofDigits bs.reverse

@[simp] theorem length_encode (e : Endian) (n : Nat) : (encode e n).length = 4 := by
  cases e with
  | little => exact length_digits 4 n
  | big => rw [encode, List.length_reverse, length_digits]

theorem decode_encode (e : Endian) {n : Nat} (h : n < 2 ^ 32) : decode e (encode e n) = n := by
  have hn : n < 256 ^ 4 := h
  cases e with
  | little => exact ofDigits_digits hn
  | big => rw [decode, encode, List.reverse_reverse, ofDigits_digits hn]

end Word
