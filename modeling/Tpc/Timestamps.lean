import Tpc.Keys
import Tpc.Lib.Decimal

/-! Timestamps as text. In the years from 2001 to 2286 they have seventeen digits, so that their
order as strings is the order of time. -/

namespace Tpc
open Decimal

abbrev Bytes := List UInt8

def bytes (s : String) : Bytes := s.toList.flatMap String.utf8EncodeChar

theorem bytes_append (s t : String) : bytes (s ++ t) = bytes s ++ bytes t := by
  simp [bytes]

section Ascii

variable {c d : Char} {l l' : List Char}

def IsAscii (c : Char) : Prop := c.utf8Size = 1

theorem IsAscii.toNat_toUInt8 (h : IsAscii c) : c.val.toUInt8.toNat = c.toNat := by
  have hc : c.val.toNat ≤ 127 := by
    simpa using UInt32.le_iff_toNat_le.mp (Char.utf8Size_eq_one_iff.mp h)
  rw [UInt32.toNat_toUInt8, Nat.mod_eq_of_lt (by omega)]
  rfl

theorem IsAscii.toUInt8_lt (hc : IsAscii c) (hd : IsAscii d) (h : c < d) :
    c.val.toUInt8 < d.val.toUInt8 := by
  rw [UInt8.lt_iff_toNat_lt, hc.toNat_toUInt8, hd.toNat_toUInt8]
  exact UInt32.lt_iff_toNat_lt.mp h

theorem isAscii_of_isDigit (h : c.isDigit = true) : IsAscii c := by
  simp only [Char.isDigit, Bool.and_eq_true, decide_eq_true_eq] at h
  rw [IsAscii, Char.utf8Size_eq_one_iff]
  exact UInt32.le_iff_toNat_le.mpr (le_trans (UInt32.le_iff_toNat_le.mp h.2) (by decide))

theorem flatMap_ascii (h : ∀ c ∈ l, IsAscii c) :
    l.flatMap String.utf8EncodeChar = l.map fun c => c.val.toUInt8 := by
  induction l with
  | nil => rfl
  | cons c l ih =>
    rw [List.flatMap_cons, String.utf8EncodeChar_eq_singleton (h c (.head _)),
      ih fun d hd => h d (.tail _ hd)]
    rfl

theorem map_toUInt8_lt (h : ∀ c ∈ l, IsAscii c) (h' : ∀ c ∈ l', IsAscii c) (hlt : l < l') :
    (l.map fun c => c.val.toUInt8) < l'.map fun c => c.val.toUInt8 := by
  induction hlt with
  | nil => exact .nil
  | rel hcd => exact .rel ((h _ (.head _)).toUInt8_lt (h' _ (.head _)) hcd)
  | cons _ ih =>
    exact .cons (ih (fun c hc => h c (.tail _ hc)) fun c hc => h' c (.tail _ hc))

end Ascii

namespace Timeval

/-- A reading from the years of ten-digit seconds. -/
structure Valid (tv : Timeval) : Prop where
  usec_lt : tv.usec < 10 ^ 6
  le_sec : 10 ^ 9 ≤ tv.sec
  sec_lt : tv.sec < 10 ^ 10

def Before (a b : Timeval) : Prop := a.sec < b.sec ∨ a.sec = b.sec ∧ a.usec < b.usec

def count (tv : Timeval) : Nat := tv.sec * 1000000 * 10 + tv.usec

variable {a b : Timeval}

theorem Valid.hasDigits (h : a.Valid) : HasDigits 16 a.count := by
  obtain ⟨h1, h2, h3⟩ := h
  constructor <;> simp only [count] <;> omega

theorem count_lt_iff (ha : a.Valid) (hb : b.Valid) : a.count < b.count ↔ a.Before b := by
  obtain ⟨ha, -, -⟩ := ha
  obtain ⟨hb, -, -⟩ := hb
  simp only [count, Before]
  omega

theorem before_trichotomy (a b : Timeval) : a.Before b ∨ a = b ∨ b.Before a := by
  obtain ⟨s, u⟩ := a
  obtain ⟨s', u'⟩ := b
  simp only [Before, mk.injEq]
  omega

theorem eq_of_not_before (hab : ¬ a.Before b) (hba : ¬ b.Before a) : a = b := by
  rcases before_trichotomy a b with h | rfl | h
  · exact absurd h hab
  · rfl
  · exact absurd h hba

end Timeval

open Timeval

section Order

variable {a b : Timeval}

theorem isAscii_getTS {c : Char} (h : c ∈ (getTS a).toList) : IsAscii c := by
  rw [toList_getTS] at h
  rcases List.mem_cons.mp h with rfl | h
  · rfl
  rcases List.mem_cons.mp h with rfl | h
  · rfl
  · exact isAscii_of_isDigit (mem_digits h)

theorem bytes_getTS (a : Timeval) :
    bytes (getTS a) = (getTS a).toList.map fun c => c.val.toUInt8 :=
  flatMap_ascii fun _ hc => isAscii_getTS hc

theorem toList_getTS_lt (ha : a.Valid) (hb : b.Valid) :
    (getTS a).toList < (getTS b).toList ↔ a.Before b := by
  rw [toList_getTS, toList_getTS, List.cons_lt_cons_self, List.cons_lt_cons_self,
    Nat.toString_eq_repr, Nat.toString_eq_repr, Nat.toList_repr, Nat.toList_repr]
  exact (toDigits_lt_iff ha.hasDigits hb.hasDigits).trans (count_lt_iff ha hb)

theorem getTS_lt (ha : a.Valid) (hb : b.Valid) : getTS a < getTS b ↔ a.Before b :=
  String.lt_iff_toList_lt.trans (toList_getTS_lt ha hb)

theorem getTS_inj (ha : a.Valid) (hb : b.Valid) : getTS a = getTS b ↔ a = b := by
  refine ⟨fun h => ?_, fun h => h ▸ rfl⟩
  apply eq_of_not_before
  · exact fun hlt => ((getTS_lt ha hb).mpr hlt).ne h
  · exact fun hlt => ((getTS_lt hb ha).mpr hlt).ne' h

theorem bytes_getTS_lt (ha : a.Valid) (hb : b.Valid) :
    bytes (getTS a) < bytes (getTS b) ↔ a.Before b := by
  have hmono : ∀ {a b : Timeval}, a.Valid → b.Valid → a.Before b →
      bytes (getTS a) < bytes (getTS b) := fun {a b} ha hb h => by
    rw [bytes_getTS, bytes_getTS]
    exact map_toUInt8_lt (fun _ => isAscii_getTS) (fun _ => isAscii_getTS)
      ((toList_getTS_lt ha hb).mpr h)
  refine ⟨fun h => ?_, hmono ha hb⟩
  rcases before_trichotomy a b with hlt | rfl | hgt
  · exact hlt
  · exact absurd h (List.lt_irrefl _)
  · exact absurd (List.lt_trans h (hmono hb ha hgt)) (List.lt_irrefl _)

theorem bytes_getTS_inj (ha : a.Valid) (hb : b.Valid) :
    bytes (getTS a) = bytes (getTS b) ↔ a = b := by
  refine ⟨fun h => ?_, fun h => h ▸ rfl⟩
  apply eq_of_not_before
  · intro hlt
    have hl := (bytes_getTS_lt ha hb).mpr hlt
    rw [h] at hl
    exact List.lt_irrefl _ hl
  · intro hlt
    have hl := (bytes_getTS_lt hb ha).mpr hlt
    rw [h] at hl
    exact List.lt_irrefl _ hl

/-- Timestamps are ordered as time: as `std::string`s byte by byte, as the strings of the model,
and without overflow on the way. -/
theorem getTS_ordered_as_time (ha : a.Valid) (hb : b.Valid) :
    (bytes (getTS a) < bytes (getTS b) ↔ a.Before b) ∧
    (getTS a < getTS b ↔ a.Before b) ∧
    (bytes (getTS a) = bytes (getTS b) ↔ a = b) ∧
    (getTS a = getTS b ↔ a = b) ∧
    a.sec * 1000000 * 10 + a.usec < 2 ^ 63 := by
  refine ⟨bytes_getTS_lt ha hb, getTS_lt ha hb, bytes_getTS_inj ha hb, getTS_inj ha hb, ?_⟩
  calc a.count < 10 ^ 17 := ha.hasDigits.2
    _ < 2 ^ 63 := by decide

theorem getTS_ordered_across_a_second :
    bytes (getTS ⟨1575961199, 999999⟩) < bytes (getTS ⟨1575961200, 0⟩) ∧
    getTS ⟨1575961199, 999999⟩ < getTS ⟨1575961200, 0⟩ := by
  have h := @getTS_ordered_as_time ⟨1575961199, 999999⟩ ⟨1575961200, 0⟩
    ⟨by decide, by decide, by decide⟩ ⟨by decide, by decide, by decide⟩
  exact ⟨h.1.mpr (.inl (by decide)), h.2.1.mpr (.inl (by decide))⟩

end Order

end Tpc
