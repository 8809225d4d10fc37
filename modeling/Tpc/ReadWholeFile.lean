import Tpc.Lib.Ending
import Tpc.Timestamps

/-! The configuration file is read in blocks of 1000 bytes. A block is appended as a C string, but
a full block leaves no room for the terminating NUL. -/

namespace Tpc
open Ending

/-- `retStr += buff`: undefined behaviour when the buffer holds no NUL. -/
def appendCStr (retStr buff : Bytes) : Ending Bytes :=
  if 0 ∈ buff then returned (retStr ++ buff.takeWhile (· ≠ 0)) else undefined

/-- `memset` and `infile.read`: what the file lacks of the block stays zero. -/
def readBlock (file : Bytes) : Bytes := file.take 1000 ++ List.replicate (1000 - file.length) 0

/-- `eof()` is set by the first read that stops short. -/
def readBlocks (file retStr : Bytes) : Ending Bytes :=
  (appendCStr retStr (readBlock file)).andThen fun retStr =>
    if file.length < 1000 then returned retStr else readBlocks (file.drop 1000) retStr
termination_by file.length
decreasing_by
  rw [List.length_drop]
  omega

def readWholeFile (file : Option Bytes) : Ending Bytes :=
  match file with
  | none => returned []
  | some file => readBlocks file []

/-- `parse` throws on what is not JSON; what `Json2Message` returns is not looked at. -/
def getConfig {Json Config : Type} (parse : Bytes → Ending Json) (json2Message : Json → Config)
    (file : Option Bytes) : Ending Config :=
  (readWholeFile file).andThen fun jsonStr =>
    (parse jsonStr).andThen fun json => returned (json2Message json)

section Blocks

variable {file : Bytes}

theorem mem_readBlock_of_lt (h : file.length < 1000) : 0 ∈ readBlock file := by
  rw [readBlock, List.mem_append]
  exact .inr (List.mem_replicate.mpr ⟨by omega, rfl⟩)

theorem readBlock_of_le (h : 1000 ≤ file.length) : readBlock file = file.take 1000 := by
  rw [readBlock, Nat.sub_eq_zero_of_le h, List.replicate_zero, List.append_nil]

theorem takeWhile_readBlock (hnul : 0 ∉ file) (h : file.length < 1000) :
    (readBlock file).takeWhile (· ≠ 0) = file := by
  have hall : ∀ b ∈ file, decide (b ≠ 0) = true := fun b hb => by
    rw [decide_eq_true_eq]
    rintro rfl
    exact hnul hb
  obtain ⟨n, hn⟩ : ∃ n, 1000 - file.length = n + 1 := ⟨999 - file.length, by omega⟩
  rw [readBlock, List.take_of_length_le h.le, hn, List.replicate_succ,
    List.takeWhile_append_of_pos hall, List.takeWhile_cons_of_neg (by simp), List.append_nil]

theorem readBlocks_of_lt (hnul : 0 ∉ file) (h : file.length < 1000) (retStr : Bytes) :
    readBlocks file retStr = returned (retStr ++ file) := by
  rw [readBlocks, appendCStr, if_pos (mem_readBlock_of_lt h), andThen_returned, if_pos h,
    takeWhile_readBlock hnul h]

theorem readBlocks_of_le (hnul : 0 ∉ file.take 1000) (h : 1000 ≤ file.length) (retStr : Bytes) :
    readBlocks file retStr = undefined := by
  rw [readBlocks, appendCStr, readBlock_of_le h, if_neg hnul, andThen_undefined]

/-- The loop ends within the buffer if and only if every full block of the file has a NUL. -/
theorem readBlocks_returns_iff (file retStr : Bytes) :
    (∃ str, readBlocks file retStr = returned str) ↔
      ∀ k, 1000 * (k + 1) ≤ file.length → 0 ∈ (file.drop (1000 * k)).take 1000 := by
  induction file, retStr using readBlocks.induct with
  | case1 file retStr ih =>
    rw [readBlocks, appendCStr]
    rcases Nat.lt_or_ge file.length 1000 with hlt | hge
    · rw [if_pos (mem_readBlock_of_lt hlt), andThen_returned, if_pos hlt]
      exact iff_of_true ⟨_, rfl⟩ fun k hk => absurd hk (by omega)
    · rw [readBlock_of_le hge]
      by_cases hnul : 0 ∈ file.take 1000
      · rw [if_pos hnul, andThen_returned, if_neg (Nat.not_lt.mpr hge), ih _ (Nat.not_lt.mpr hge)]
        constructor
        · intro hrest k hk
          cases k with
          | zero => exact hnul
          | succ k =>
            have hmem := hrest k (by rw [List.length_drop]; omega)
            rwa [List.drop_drop, show 1000 + 1000 * k = 1000 * (k + 1) by omega] at hmem
        · intro hall k hk
          rw [List.length_drop] at hk
          rw [List.drop_drop, show 1000 + 1000 * k = 1000 * (k + 1) by omega]
          exact hall (k + 1) (by omega)
      · rw [if_neg hnul, andThen_undefined]
        refine iff_of_false (fun ⟨_, h⟩ => nomatch h) fun hall => ?_
        exact hnul (hall 0 (by omega))

end Blocks

def ReadsWhole (file : Bytes) : Prop :=
  readWholeFile (some file) = returned file ∧
    ∀ (Json Config : Type) (parse : Bytes → Ending Json) (json2Message : Json → Config),
      getConfig parse json2Message (some file) =
        (parse file).andThen fun json => returned (json2Message json)

section ReadsWhole

variable {file : Bytes}

/-- A file is read whole if and only if it is shorter than one block. -/
theorem readsWhole_iff (hnul : 0 ∉ file) : ReadsWhole file ↔ file.length < 1000 := by
  constructor
  · rintro ⟨hread, -⟩
    by_contra hle
    have hnul' : 0 ∉ file.take 1000 := fun h => hnul (List.mem_of_mem_take h)
    rw [readWholeFile, readBlocks_of_le hnul' (Nat.not_lt.mp hle)] at hread
    nomatch hread
  · intro hlt
    have hread : readWholeFile (some file) = returned file := readBlocks_of_lt hnul hlt []
    refine ⟨hread, fun _ _ parse json2Message => ?_⟩
    rw [getConfig, hread, andThen_returned]

theorem readsWhole_empty_object : ReadsWhole [123, 125] :=
  (readsWhole_iff (by decide)).mpr (by decide)

/-- A configuration of exactly one block. -/
theorem not_readsWhole_block :
    0 ∉ List.replicate 1000 (32 : UInt8) ∧ ¬ ReadsWhole (List.replicate 1000 32) := by
  have hnul : 0 ∉ List.replicate 1000 (32 : UInt8) :=
    fun h => absurd (List.eq_of_mem_replicate h) (by decide)
  have hlen : 1000 ≤ (List.replicate 1000 (32 : UInt8)).length := List.length_replicate.ge
  refine ⟨hnul, fun ⟨hread, _⟩ => ?_⟩
  rw [readWholeFile, readBlocks_of_le (fun h => hnul (List.mem_of_mem_take h)) hlen] at hread
  nomatch hread

end ReadsWhole

end Tpc
