import Mathlib.Data.List.Basic
import Mathlib.Data.String.Basic
import Mathlib.Order.BoundedOrder.Basic
import Tpc.Records

/-! The four kinds of keys do not collide: user keys are arbitrary, only the timestamps have the
shape that `getTS` gives them. So a write to one record leaves the readings of all others. -/

namespace Tpc
open Durable

theorem append_cons_inj_of_last {α : Type} {sep : α} {a a' t t' : List α} (ht : sep ∉ t)
    (ht' : sep ∉ t') (h : a ++ sep :: t = a' ++ sep :: t') : a = a' ∧ t = t' := by
  rcases List.append_eq_append_iff.mp h with ⟨c, rfl, hc⟩ | ⟨c, rfl, hc⟩
  · cases c with
    | nil => exact ⟨(List.append_nil _).symm, (List.cons.inj hc).2⟩
    | cons x c =>
      obtain ⟨-, rfl⟩ := List.cons.inj hc
      exact absurd (by simp) ht
  · cases c with
    | nil => exact ⟨List.append_nil _, (List.cons.inj hc).2.symm⟩
    | cons x c =>
      obtain ⟨-, rfl⟩ := List.cons.inj hc
      exact absurd (by simp) ht'

/-- The strings that `getTS` returns. -/
def IsTS (t : String) : Prop := ∃ tv, t = getTS tv

theorem mem_digits {n : Nat} {c : Char} (h : c ∈ (toString n).toList) : c.isDigit = true := by
  rw [Nat.toString_eq_repr, Nat.toList_repr] at h
  exact Nat.isDigit_of_mem_toDigits (by decide) (by decide) h

theorem toList_getTS (tv : Timeval) :
    (getTS tv).toList = 't' :: 's' :: (toString (tv.sec * 1000000 * 10 + tv.usec)).toList := by
  simp [getTS]

namespace IsTS

theorem ne_empty {t : String} (h : IsTS t) : t ≠ "" := by
  obtain ⟨tv, rfl⟩ := h
  intro he
  have hl := congrArg String.toList he
  rw [toList_getTS] at hl
  simp at hl

theorem underscore_notMem {t : String} (h : IsTS t) : '_' ∉ t.toList := by
  obtain ⟨tv, rfl⟩ := h
  rw [toList_getTS]
  intro hm
  rcases List.mem_cons.mp hm with hm | hm
  · exact absurd hm (by decide)
  rcases List.mem_cons.mp hm with hm | hm
  · exact absurd hm (by decide)
  · exact absurd (mem_digits hm) (by decide)

theorem ne_entry {t : String} (h : IsTS t) : t ≠ "entry" := by
  obtain ⟨tv, rfl⟩ := h
  intro he
  have hl := congrArg String.toList he
  rw [toList_getTS] at hl
  simp at hl

end IsTS

/-- Timestamps are compared as strings; one that is not set is the empty string. -/
instance stringOrderBot : OrderBot String where
  bot := ""
  bot_le := fun s => by
    have h : ¬ s < "" := by
      rw [String.lt_iff_toList_lt]
      simp
    exact not_lt.mp h

@[simp] theorem makeTrans_inj {a b : String} : makeTrans a = makeTrans b ↔ a = b := by
  simp [makeTrans]

@[simp] theorem makeLock_inj {a b : String} : makeLock a = makeLock b ↔ a = b := by
  simp [makeLock]

@[simp] theorem makeDataEntry_inj {a b : String} : makeDataEntry a = makeDataEntry b ↔ a = b := by
  simp [makeDataEntry, String.append_assoc]

theorem ne_of_head {a b : String} (h : a.toList.head? ≠ b.toList.head?) : a ≠ b :=
  fun e => h (e ▸ rfl)

@[simp] theorem makeTrans_ne_makeLock (t k : String) : makeTrans t ≠ makeLock k :=
  ne_of_head (by simp [makeTrans, makeLock])

@[simp] theorem makeLock_ne_makeTrans (k t : String) : makeLock k ≠ makeTrans t :=
  (makeTrans_ne_makeLock t k).symm

@[simp] theorem makeTrans_ne_makeDataEntry (t k : String) : makeTrans t ≠ makeDataEntry k :=
  ne_of_head (by simp [makeTrans, makeDataEntry])

@[simp] theorem makeDataEntry_ne_makeTrans (k t : String) : makeDataEntry k ≠ makeTrans t :=
  (makeTrans_ne_makeDataEntry t k).symm

@[simp] theorem makeTrans_ne_makeData (t k v : String) : makeTrans t ≠ makeData k v :=
  ne_of_head (by simp [makeTrans, makeData])

@[simp] theorem makeData_ne_makeTrans (k v t : String) : makeData k v ≠ makeTrans t :=
  (makeTrans_ne_makeData t k v).symm

@[simp] theorem makeLock_ne_makeDataEntry (k k' : String) : makeLock k ≠ makeDataEntry k' :=
  ne_of_head (by simp [makeLock, makeDataEntry])

@[simp] theorem makeDataEntry_ne_makeLock (k k' : String) : makeDataEntry k ≠ makeLock k' :=
  (makeLock_ne_makeDataEntry k' k).symm

@[simp] theorem makeLock_ne_makeData (k k' v : String) : makeLock k ≠ makeData k' v :=
  ne_of_head (by simp [makeLock, makeData])

@[simp] theorem makeData_ne_makeLock (k v k' : String) : makeData k v ≠ makeLock k' :=
  (makeLock_ne_makeData k' k v).symm

theorem makeData_ne_makeDataEntry {k k' t : String} (ht : IsTS t) :
    makeData k t ≠ makeDataEntry k' := by
  intro h
  have hl : k.toList ++ '_' :: t.toList = k'.toList ++ '_' :: "entry".toList := by
    simpa [makeData, makeDataEntry] using congrArg String.toList h
  have he := (append_cons_inj_of_last ht.underscore_notMem (by decide) hl).2
  exact ht.ne_entry (String.toList_inj.mp he)

theorem makeData_inj {k k' t t' : String} (ht : IsTS t) (ht' : IsTS t') :
    makeData k t = makeData k' t' ↔ k = k' ∧ t = t' := by
  constructor
  · intro h
    have hl : k.toList ++ '_' :: t.toList = k'.toList ++ '_' :: t'.toList := by
      simpa [makeData] using congrArg String.toList h
    obtain ⟨h1, h2⟩ := append_cons_inj_of_last ht.underscore_notMem ht'.underscore_notMem hl
    exact ⟨String.toList_inj.mp h1, String.toList_inj.mp h2⟩
  · rintro ⟨rfl, rfl⟩
    rfl

abbrev Db.Store := Durable.Store String Record

def transOf (st : Db.Store) (beginTs : String) : Option Trans :=
  (st.lookup (makeTrans beginTs)).map Record.toTrans

def lockOf (st : Db.Store) (key : String) : Option String :=
  (st.lookup (makeLock key)).map fun r => r.toLock.trans

def dataAt (st : Db.Store) (datakey : String) : Option Data :=
  (st.lookup datakey).map Record.toData

theorem lookup_insert_of (st : Db.Store) (k k' : String) (r : Record) :
    (st.insert k r).lookup k' = if k' = k then some r else st.lookup k' := by
  split_ifs with h
  · rw [h, AList.lookup_insert]
  · exact AList.lookup_insert_ne h

section Insert

variable (st : Db.Store) (r : Record)

theorem transOf_insert_trans (t t' : String) :
    transOf (st.insert (makeTrans t) r) t' = if t' = t then some r.toTrans else transOf st t' := by
  simp only [transOf, lookup_insert_of, makeTrans_inj]
  split_ifs <;> rfl

@[simp] theorem transOf_insert_self (t : String) :
    transOf (st.insert (makeTrans t) r) t = some r.toTrans := by
  rw [transOf_insert_trans, if_pos rfl]

@[simp] theorem transOf_insert_entry (k t : String) :
    transOf (st.insert (makeDataEntry k) r) t = transOf st t := by
  simp [transOf]

@[simp] theorem transOf_insert_data (k v t : String) :
    transOf (st.insert (makeData k v) r) t = transOf st t := by
  simp [transOf]

theorem lockOf_insert_lock (k k' : String) :
    lockOf (st.insert (makeLock k) r) k' = if k' = k then some r.toLock.trans else lockOf st k' := by
  simp only [lockOf, lookup_insert_of, makeLock_inj]
  split_ifs <;> rfl

@[simp] theorem lockOf_insert_trans (t k : String) :
    lockOf (st.insert (makeTrans t) r) k = lockOf st k := by
  simp [lockOf]

@[simp] theorem lockOf_insert_entry (k k' : String) :
    lockOf (st.insert (makeDataEntry k) r) k' = lockOf st k' := by
  simp [lockOf]

@[simp] theorem lockOf_insert_data (k v k' : String) :
    lockOf (st.insert (makeData k v) r) k' = lockOf st k' := by
  simp [lockOf]

theorem dataAt_insert (k k' : String) :
    dataAt (st.insert k r) k' = if k' = k then some r.toData else dataAt st k' := by
  simp only [dataAt, lookup_insert_of]
  split_ifs <;> rfl

end Insert

end Tpc
