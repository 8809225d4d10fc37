import Mathlib.Data.List.Infix
import Tpc.Timestamps

/-! The keys as `std::string`s: user keys are arbitrary bytes, of which the strings of `Records`
are the ones in UTF-8. Only the shape of the timestamps keeps versions and entries apart. -/

namespace Tpc

namespace Bytes

def makeTrans (ts : Bytes) : Bytes := bytes "trans_" ++ ts

/-- `key.substr(strlen("trans_"))`, which throws when the key is shorter. -/
def parseTrans (key : Bytes) : Option Bytes :=
  if (bytes "trans_").length ≤ key.length then some (key.drop (bytes "trans_").length) else none

def makeLock (key : Bytes) : Bytes := bytes "lock_" ++ key

def makeDataEntry (key : Bytes) : Bytes := bytes "data_" ++ key ++ bytes "_entry"

def makeData (key beginTs : Bytes) : Bytes := bytes "data_" ++ key ++ bytes "_" ++ beginTs

def IsDigit (b : UInt8) : Prop := 48 ≤ b ∧ b ≤ 57

def IsTimestamp (t : Bytes) : Prop := ∃ ds : Bytes, t = bytes "ts" ++ ds ∧ ∀ d ∈ ds, IsDigit d

section Strings

variable (k t : String)

theorem bytes_makeTrans : bytes (Tpc.makeTrans t) = makeTrans (bytes t) :=
  bytes_append _ _

theorem bytes_makeLock : bytes (Tpc.makeLock k) = makeLock (bytes k) :=
  bytes_append _ _

theorem bytes_makeDataEntry : bytes (Tpc.makeDataEntry k) = makeDataEntry (bytes k) := by
  rw [Tpc.makeDataEntry, bytes_append, bytes_append, makeDataEntry]

theorem bytes_makeData : bytes (Tpc.makeData k t) = makeData (bytes k) (bytes t) := by
  rw [Tpc.makeData, bytes_append, bytes_append, bytes_append, makeData]

theorem isTimestamp_getTS (tv : Timeval) : IsTimestamp (bytes (getTS tv)) := by
  refine ⟨_, bytes_append _ _, fun d hd => ?_⟩
  have hdigits : ∀ c ∈ (toString (tv.sec * 1000000 * 10 + tv.usec)).toList, c.isDigit = true :=
    fun c hc => mem_digits hc
  rw [bytes, flatMap_ascii fun c hc => isAscii_of_isDigit (hdigits c hc)] at hd
  obtain ⟨c, hc, rfl⟩ := List.mem_map.mp hd
  have hdig := hdigits c hc
  have hn := (isAscii_of_isDigit hdig).toNat_toUInt8
  simp only [Char.isDigit, Bool.and_eq_true, decide_eq_true_eq] at hdig
  have h1 : 48 ≤ c.toNat := UInt32.le_iff_toNat_le.mp hdig.1
  have h2 : c.toNat ≤ 57 := UInt32.le_iff_toNat_le.mp hdig.2
  constructor
  · rw [UInt8.le_iff_toNat_le, hn]
    exact h1
  · rw [UInt8.le_iff_toNat_le, hn]
    exact h2

end Strings

namespace IsTimestamp

variable {t : Bytes}

theorem notMem_of_lt {b : UInt8} (h : IsTimestamp t) (hb : 57 < b) (hts : b ∉ bytes "ts") :
    b ∉ t := by
  obtain ⟨ds, rfl, hds⟩ := h
  intro hm
  rcases List.mem_append.mp hm with hm | hm
  · exact hts hm
  · exact absurd (hds b hm).2 (UInt8.not_le.mpr hb)

theorem underscore_notMem (h : IsTimestamp t) : 95 ∉ t :=
  h.notMem_of_lt (by decide) (by decide)

theorem ne_entry (h : IsTimestamp t) : t ≠ bytes "entry" := by
  rintro rfl
  exact absurd (show (101 : UInt8) ∈ bytes "entry" by decide) (h.notMem_of_lt (by decide) (by decide))

end IsTimestamp

section Separation

variable {k k' t t' : Bytes}

theorem append_ne_append {p q r r' : Bytes} (h : p.head? ≠ q.head?) (hp : p ≠ []) (hq : q ≠ []) :
    p ++ r ≠ q ++ r' := by
  intro he
  have hh := congrArg List.head? he
  rw [List.head?_append_of_ne_nil _ hp, List.head?_append_of_ne_nil _ hq] at hh
  exact h hh

theorem makeTrans_ne_makeLock : makeTrans t ≠ makeLock k :=
  append_ne_append (by decide) (by decide) (by decide)

theorem makeTrans_ne_makeDataEntry : makeTrans t ≠ makeDataEntry k := by
  rw [makeDataEntry, List.append_assoc]
  exact append_ne_append (by decide) (by decide) (by decide)

theorem makeTrans_ne_makeData : makeTrans t ≠ makeData k t' := by
  rw [makeData, List.append_assoc, List.append_assoc]
  exact append_ne_append (by decide) (by decide) (by decide)

theorem makeLock_ne_makeDataEntry : makeLock k ≠ makeDataEntry k' := by
  rw [makeDataEntry, List.append_assoc]
  exact append_ne_append (by decide) (by decide) (by decide)

theorem makeLock_ne_makeData : makeLock k ≠ makeData k' t := by
  rw [makeData, List.append_assoc, List.append_assoc]
  exact append_ne_append (by decide) (by decide) (by decide)

theorem makeTrans_injective : Function.Injective makeTrans :=
  fun _ _ h => List.append_cancel_left h

theorem makeLock_injective : Function.Injective makeLock :=
  fun _ _ h => List.append_cancel_left h

theorem makeDataEntry_injective : Function.Injective makeDataEntry :=
  fun _ _ h => List.append_cancel_left (List.append_cancel_right h)

theorem data_eq (k t : Bytes) : makeData k t = bytes "data_" ++ (k ++ 95 :: t) := by
  rw [makeData, List.append_assoc, List.append_assoc]
  rfl

theorem entry_eq (k : Bytes) : makeDataEntry k = makeData k (bytes "entry") := by
  rw [makeData, makeDataEntry, List.append_assoc _ (bytes "_")]
  rfl

theorem makeData_cancel (ht : 95 ∉ t) (ht' : 95 ∉ t') (h : makeData k t = makeData k' t') :
    k = k' ∧ t = t' := by
  rw [data_eq, data_eq] at h
  exact append_cons_inj_of_last ht ht' (List.append_cancel_left h)

theorem makeData_ne_makeDataEntry (ht : IsTimestamp t) : makeData k t ≠ makeDataEntry k' := by
  rw [entry_eq]
  intro h
  exact ht.ne_entry (makeData_cancel ht.underscore_notMem (by decide) h).2

theorem prefix_iff {key : Bytes} : makeTrans [] <+: key ↔ ∃ t, key = makeTrans t := by
  rw [makeTrans, List.append_nil]
  constructor
  · rintro ⟨t, rfl⟩
    exact ⟨t, rfl⟩
  · rintro ⟨t, rfl⟩
    exact ⟨t, rfl⟩

theorem parseTrans_makeTrans (t : Bytes) : parseTrans (makeTrans t) = some t := by
  rw [parseTrans, makeTrans, if_pos (by simp), List.drop_left]

end Separation

/-- The key space is injectively encoded. -/
theorem key_space :
    (∀ t k, makeTrans t ≠ makeLock k) ∧
    (∀ t k, makeTrans t ≠ makeDataEntry k) ∧
    (∀ t k t', makeTrans t ≠ makeData k t') ∧
    (∀ k k', makeLock k ≠ makeDataEntry k') ∧
    (∀ k k' t, makeLock k ≠ makeData k' t) ∧
    (∀ k k' t, IsTimestamp t → makeData k t ≠ makeDataEntry k') ∧
    (∀ k k' t t', IsTimestamp t → IsTimestamp t' → makeData k t = makeData k' t' →
      k = k' ∧ t = t') ∧
    Function.Injective makeTrans ∧ Function.Injective makeLock ∧
    Function.Injective makeDataEntry ∧
    (∀ key, makeTrans [] <+: key ↔ ∃ t, key = makeTrans t) ∧
    ∀ t, parseTrans (makeTrans t) = some t :=
  ⟨fun _ _ => makeTrans_ne_makeLock, fun _ _ => makeTrans_ne_makeDataEntry,
    fun _ _ _ => makeTrans_ne_makeData, fun _ _ => makeLock_ne_makeDataEntry,
    fun _ _ _ => makeLock_ne_makeData, fun _ _ _ => makeData_ne_makeDataEntry,
    fun _ _ _ _ ht ht' => makeData_cancel ht.underscore_notMem ht'.underscore_notMem,
    makeTrans_injective, makeLock_injective, makeDataEntry_injective,
    fun _ => prefix_iff, parseTrans_makeTrans⟩

/-- Keys that contain the separator and end as an entry or as a version does. -/
theorem key_space_ambiguous :
    makeData (bytes "b_entry") (bytes "ts1") ≠ makeDataEntry (bytes "b_entry_ts1") ∧
    makeData (bytes "b") (bytes "ts1") ≠ makeData (bytes "b_ts1") (bytes "ts1") := by
  have ht : IsTimestamp (bytes "ts1") := ⟨[49], rfl, by simp [IsDigit]⟩
  obtain ⟨-, -, -, -, -, hentry, hdata, -⟩ := key_space
  exact ⟨hentry _ _ _ ht, fun h => absurd (hdata _ _ _ _ ht ht h).1 (by decide)⟩

end Bytes

end Tpc
