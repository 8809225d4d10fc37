import Tpc.Lib.Words
import Tpc.Records

/-! The command line of `client.cpp`. A character stands for a byte. -/

namespace Tpc
open Words

/-- What `scanf` takes for white space. -/
def isSpace (c : Char) : Bool :=
  c = ' ' || c = '\t' || c = '\n' || c = '\x0b' || c = '\x0c' || c = '\r'

/-- What one call of `read` puts into `buff`. -/
structure Input where
  bytes : List Char
  length_le : bytes.length ≤ 1000

inductive Action
  | printUsage
  | hash (key size : String)
  | send (req : CliReq)
  /-- `sscanf` reads behind `buff` or writes behind one of the `args` -/
  | overrun
deriving DecidableEq, Repr

def command : List String → Action
  | [cmd] =>
    if cmd = "begin" ∨ cmd = "b" then .send { requestType := .begin }
    else if cmd = "commit" ∨ cmd = "c" then .send { requestType := .commit }
    else if cmd = "rollback" ∨ cmd = "r" then .send { requestType := .rollback }
    else .printUsage
  | [cmd, key] =>
    if cmd = "get" ∨ cmd = "g" then .send { requestType := .get, key := key }
    else if cmd = "get_for_update" ∨ cmd = "gf" then
      .send { requestType := .get, key := key, getForUpdate := 1 }
    else if cmd = "delete" ∨ cmd = "d" then .send { requestType := .delete, key := key }
    else .printUsage
  | [cmd, key, value] =>
    if cmd = "update" ∨ cmd = "u" then .send { requestType := .update, key := key, value := value }
    else if cmd = "insert" ∨ cmd = "i" then
      .send { requestType := .insert, key := key, value := value }
    else if cmd = "hash" then .hash key value
    else .printUsage
  | _ => .printUsage

/-- `buff` as a C string: it was filled with zeroes before. -/
def Input.text (i : Input) : List Char := i.bytes.takeWhile fun c => c ≠ '\x00'

/-- The input is scanned into four arguments of 100 bytes. -/
def Input.action (i : Input) : Action :=
  let args := words isSpace 4 i.text
  if i.bytes.length = 1000 ∧ '\x00' ∉ i.bytes then .overrun
  else if ∃ a ∈ args, 100 ≤ a.length then .overrun
  else command (args.map String.ofList)

def IsArg (a : String) : Prop :=
  IsWord isSpace a.toList ∧ '\x00' ∉ a.toList ∧ a.toList.length < 100

instance (a : String) : Decidable (IsArg a) := inferInstanceAs (Decidable (_ ∧ _))

/-- The requests for which there is a command. -/
def CliReq.Typed (req : CliReq) : Prop :=
  match req.requestType with
  | .begin | .commit | .rollback => req.key = "" ∧ req.value = "" ∧ req.getForUpdate = 0
  | .get => IsArg req.key ∧ req.value = "" ∧ req.getForUpdate ≤ 1
  | .delete => IsArg req.key ∧ req.value = "" ∧ req.getForUpdate = 0
  | .insert | .update => IsArg req.key ∧ IsArg req.value ∧ req.getForUpdate = 0
  | .prepare => False

def CliReq.args (req : CliReq) : List String :=
  match req.requestType with
  | .begin => ["begin"]
  | .commit => ["commit"]
  | .rollback => ["rollback"]
  | .get => [if req.getForUpdate = 0 then "get" else "get_for_update", req.key]
  | .delete => ["delete", req.key]
  | .insert => ["insert", req.key, req.value]
  | .update => ["update", req.key, req.value]
  | .prepare => []

section Typed

variable {i : Input} {req : CliReq} {a : String} {as : List String}

theorem command_args (h : req.Typed) : command req.args = .send req := by
  obtain ⟨type, key, value, f⟩ := req
  cases type with
  | begin | commit | rollback =>
    obtain ⟨rfl, rfl, rfl⟩ := h
    rfl
  | get =>
    obtain ⟨-, rfl, hf⟩ := h
    rcases Nat.le_one_iff_eq_zero_or_eq_one.mp hf with hf | hf
    · obtain rfl : f = 0 := hf
      rfl
    · obtain rfl : f = 1 := hf
      rfl
  | delete =>
    obtain ⟨-, rfl, rfl⟩ := h
    rfl
  | insert | update =>
    obtain ⟨-, -, rfl⟩ := h
    rfl
  | prepare => exact h.elim

theorem args_isArg (h : req.Typed) : ∀ a ∈ req.args, IsArg a := by
  obtain ⟨type, key, value, f⟩ := req
  cases type with
  | begin | commit | rollback => simpa [CliReq.args] using by decide
  | get =>
    obtain ⟨hk, -, -⟩ := h
    have hcmd : IsArg (if f = 0 then "get" else "get_for_update") := by split_ifs <;> decide
    simpa [CliReq.args] using ⟨hcmd, hk⟩
  | delete =>
    obtain ⟨hk, -, -⟩ := h
    simpa [CliReq.args] using ⟨by decide, hk⟩
  | insert | update =>
    obtain ⟨hk, hv, -⟩ := h
    simpa [CliReq.args] using ⟨by decide, hk, hv⟩
  | prepare => exact h.elim

theorem command_typed (has : ∀ a ∈ as, IsArg a) (h : command as = .send req) : req.Typed := by
  rcases as with _ | ⟨cmd, _ | ⟨key, _ | ⟨value, _ | ⟨_, _⟩⟩⟩⟩
  · cases h
  · simp only [command] at h
    split_ifs at h <;> obtain rfl := Action.send.inj h <;> exact ⟨rfl, rfl, rfl⟩
  · have hk : IsArg key := has key (by simp)
    simp only [command] at h
    split_ifs at h <;> obtain rfl := Action.send.inj h
    · exact ⟨hk, rfl, Nat.zero_le 1⟩
    · exact ⟨hk, rfl, Nat.le_refl 1⟩
    · exact ⟨hk, rfl, rfl⟩
  · have hk : IsArg key := has key (by simp)
    have hv : IsArg value := has value (by simp)
    simp only [command] at h
    split_ifs at h <;> obtain rfl := Action.send.inj h <;> exact ⟨hk, hv, rfl⟩
  · cases h

theorem action_eq (h : i.action ≠ .overrun) :
    ∃ as, (∀ a ∈ as, IsArg a) ∧ i.action = command as := by
  rw [Input.action] at h ⊢
  split_ifs at h ⊢ with hfull hlong
  · exact absurd rfl h
  · exact absurd rfl h
  · refine ⟨_, fun a ha => ?_, rfl⟩
    obtain ⟨w, hw, rfl⟩ := List.mem_map.mp ha
    have hzero : '\x00' ∉ w := fun hm => by
      simpa using List.mem_takeWhile_imp (mem_of_mem_words hw hm)
    have hlen : w.length < 100 := by
      by_contra hl
      exact hlong ⟨w, hw, Nat.le_of_not_lt hl⟩
    simpa [IsArg] using ⟨isWord_of_mem hw, hzero, hlen⟩

def typedLine (as : List String) : List Char :=
  ((as.map String.toList).flatMap fun a => a ++ [' ']) ++ ['\n']

theorem typedLine_length (has : ∀ a ∈ as, IsArg a) : (typedLine as).length ≤ 100 * as.length + 1 := by
  induction as with
  | nil => exact Nat.le_refl 1
  | cons a as ih =>
    obtain ⟨-, -, hlen⟩ := has a (.head _)
    have ih := ih fun a ha => has a (.tail _ ha)
    simp only [typedLine, List.map_cons, List.flatMap_cons, List.length_append, List.length_cons,
      List.length_nil] at ih ⊢
    omega

theorem typedLine_text (has : ∀ a ∈ as, IsArg a) : '\x00' ∉ typedLine as := by
  have hzero : ∀ a ∈ as, '\x00' ∉ a.toList := fun a ha => (has a ha).2.1
  simpa [typedLine] using hzero

theorem exists_input (has : ∀ a ∈ as, IsArg a) (hlen : as.length ≤ 4) :
    ∃ i : Input, i.action = command as := by
  have hline := typedLine_length has
  have hzero := typedLine_text has
  refine ⟨⟨typedLine as, by omega⟩, ?_⟩
  have htext : (typedLine as).takeWhile (fun c => c ≠ '\x00') = typedLine as := by
    refine List.takeWhile_eq_self_iff.mpr fun c hc => ?_
    have hne : c ≠ '\x00' := fun he => hzero (he ▸ hc)
    simpa using hne
  have hwords : words isSpace 4 (typedLine as) = as.map String.toList := by
    refine words_flatMap rfl (fun w hw => ?_) (by simpa using hlen) (by simp [isSpace])
    obtain ⟨a, ha, rfl⟩ := List.mem_map.mp hw
    exact (has a ha).1
  have hlong : ¬ ∃ a ∈ as.map String.toList, 100 ≤ a.length := by
    rintro ⟨w, hw, hl⟩
    obtain ⟨a, ha, rfl⟩ := List.mem_map.mp hw
    have := (has a ha).2.2
    omega
  rw [Input.action, Input.text]
  simp only [htext, hwords]
  rw [if_neg (by omega), if_neg hlong]
  simp

end Typed

/-- The client sends a request exactly when it is one of those that can be typed: never a Prepare, a
key or a value never empty, with white space or longer than an argument, and every one of these can
be typed. -/
theorem typed_requests (req : CliReq) : (∃ i : Input, i.action = .send req) ↔ req.Typed := by
  constructor
  · rintro ⟨i, hi⟩
    obtain ⟨as, has, he⟩ := action_eq (i := i) (by rw [hi]; simp)
    exact command_typed has (he.symm.trans hi)
  · intro h
    have hlen : req.args.length ≤ 4 := by
      unfold CliReq.args
      split <;> simp
    obtain ⟨i, hi⟩ := exists_input (args_isArg h) hlen
    exact ⟨i, hi.trans (command_args h)⟩

end Tpc
