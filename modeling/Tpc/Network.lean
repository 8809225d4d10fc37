import Tpc.Lib.Ending
import Tpc.Lib.Transfer
import Tpc.Timestamps

/-! Sockets. The kernel takes and delivers bytes in pieces of its own choice; two loops put them
together again. -/

namespace Tpc
open Ending Transfer

abbrev Conn := Source UInt8

def toInt32 (n : Int) : Int := Int.bmod n (2 ^ 32)

/-- The loop of `ReadBuff`; a call of `read` that returns nothing or fails ends it. -/
def readLoop (reads : Nat → Nat) (len : Nat) (retStr : Bytes) (conn : Conn) : Bytes × Conn :=
  if len = 0 then (retStr, conn)
  else if conn.piece reads len = 0 then (retStr, conn.advance 0)
  else
    readLoop reads (len - conn.piece reads len)
      (retStr ++ conn.rest.take (conn.piece reads len)) (conn.advance (conn.piece reads len))
termination_by len
decreasing_by
  have := conn.piece_le reads len
  omega

/-- `new char[len+1]` throws for a negative size; the sum overflows for the largest `len`. -/
def readBuff (reads : Nat → Nat) (len : Int) (conn : Conn) : Ending (Bytes × Conn) :=
  if len < -1 then threw
  else if len = 2 ^ 31 - 1 then undefined
  else returned (readLoop reads len.toNat [] conn)

/-- The loop of `SendBuff`. `pos` is an `int`, `len` a `size_t`; `write` must find its bytes within
the buffer, and what it returns when it fails is -1. -/
def sendLoop (writes : Nat → Option Nat) (buff : Bytes) (len : Nat) (pos : Int) (calls : Nat)
    (sent : Bytes) : Ending (Int × Bytes) :=
  if len = 0 then returned (0, sent)
  else if 0 ≤ pos ∧ pos + len ≤ buff.length then
    match writes calls with
    | none => returned (-1, sent)
    | some g =>
      sendLoop writes buff (len - granted g len) (toInt32 (pos + granted g len)) (calls + 1)
        (sent ++ (buff.drop pos.toNat).take (granted g len))
  else undefined
termination_by len
decreasing_by
  have := granted_pos (g := g) (n := len) (by omega)
  omega

def sendBuff (writes : Nat → Option Nat) (buff : Bytes) (len : Nat) : Ending (Int × Bytes) :=
  sendLoop writes buff len 0 0 []

theorem readLoop_eq (reads : Nat → Nat) (len : Nat) (retStr : Bytes) (conn : Conn) :
    readLoop reads len retStr conn =
      (retStr ++ (conn.receive reads len).1, (conn.receive reads len).2) := by
  induction len, retStr, conn using readLoop.induct reads with
  | case1 retStr conn =>
    rw [readLoop, if_pos rfl, Source.receive_zero, List.append_nil]
  | case2 len retStr conn hlen hp =>
    rw [readLoop, if_neg hlen, if_pos hp, Source.receive_end hlen hp, List.append_nil]
  | case3 len retStr conn hlen hp ih =>
    rw [readLoop, if_neg hlen, if_neg hp, ih, Source.receive_more hp, List.append_assoc]

theorem readBuff_eq {reads : Nat → Nat} {len : Nat} (hreads : ∀ i, 1 ≤ reads i)
    (hlen : len < 2 ^ 31 - 1) (xs rest : Bytes) (hxs : xs.length = len) (calls : Nat) :
    ∃ calls', readBuff reads len ⟨xs ++ rest, calls⟩ = returned (xs, ⟨rest, calls'⟩) := by
  subst hxs
  obtain ⟨hgot, hleft⟩ :=
    Source.receive_of_pos (n := xs.length) (s := ⟨xs ++ rest, calls⟩) hreads
  rw [readBuff, if_neg (by omega), if_neg (by omega), Int.toNat_natCast, readLoop_eq,
    List.nil_append]
  generalize Source.receive reads xs.length ⟨xs ++ rest, calls⟩ = r at hgot hleft ⊢
  obtain ⟨got, left, calls'⟩ := r
  simp only [List.take_left, List.drop_left] at hgot hleft
  subst hgot hleft
  exact ⟨calls', rfl⟩

/-- Every write that leaves bytes behind stops at a position that an `int` can hold. -/
def StopsShort (grant : Nat → Nat) (total : Nat) : Prop :=
  ∀ k, progress grant total k < total → progress grant total k < 2 ^ 31

theorem stopsShort_of_le {total : Nat} (h : total ≤ 2 ^ 31) (grant : Nat → Nat) :
    StopsShort grant total := fun _ hlt => hlt.trans_le h

theorem toInt32_of_lt {n : Nat} (h : n < 2 ^ 31) : toInt32 n = n :=
  Int.bmod_eq_of_le (by omega) (by omega)

theorem toInt32_neg {n : Nat} (h : 2 ^ 31 ≤ n) (h' : n < 2 ^ 32) : toInt32 n < 0 := by
  rw [toInt32, Int.bmod_def, if_neg]
  · omega
  · omega

section SendLoop

variable {grant : Nat → Nat} {buff : Bytes} {k : Nat}

def sendRest (grant : Nat → Nat) (buff : Bytes) (k : Nat) : Ending (Int × Bytes) :=
  sendLoop (fun i => some (grant i)) buff (buff.length - progress grant buff.length k)
    (toInt32 (progress grant buff.length k)) k (buff.take (progress grant buff.length k))

theorem sendBuff_eq :
    sendBuff (fun i => some (grant i)) buff buff.length = sendRest grant buff 0 := by
  rw [sendRest, progress, List.take_zero, Nat.sub_zero, toInt32_of_lt (by decide), sendBuff]
  congr

theorem sendRest_done (h : progress grant buff.length k = buff.length) :
    sendRest grant buff k = returned (0, buff) := by
  rw [sendRest, sendLoop, h, Nat.sub_self, if_pos rfl, List.take_length]

theorem sendRest_step (hlt : progress grant buff.length k < buff.length)
    (hshort : progress grant buff.length k < 2 ^ 31) :
    sendRest grant buff k = sendRest grant buff (k + 1) := by
  rw [sendRest, sendLoop, toInt32_of_lt hshort, if_neg (by omega),
    if_pos ⟨by omega, by omega⟩, sendRest]
  simp only [progress, Int.toNat_natCast]
  rw [← List.take_add, Nat.sub_sub, Int.natCast_add]

theorem sendRest_long (hlt : progress grant buff.length k < buff.length)
    (hlong : 2 ^ 31 ≤ progress grant buff.length k) (hbuff : buff.length ≤ 2 ^ 32) :
    sendRest grant buff k = undefined := by
  have hneg := toInt32_neg hlong (hlt.trans_le hbuff)
  rw [sendRest, sendLoop, if_neg (by omega), if_neg (by omega)]

theorem sendRest_of_short (h : StopsShort grant buff.length) :
    sendRest grant buff k = returned (0, buff) := by
  -- by induction on what is left
  generalize hn : buff.length - progress grant buff.length k = n
  induction n using Nat.strongRecOn generalizing k with
  | ind n ih =>
    rcases (progress_le grant _ k).lt_or_eq with hlt | heq
    · rw [sendRest_step hlt (h k hlt)]
      exact ih _ (hn ▸ progress_succ_lt hlt) rfl
    · exact sendRest_done heq

theorem sendRest_of_long {j : Nat} (hbuff : buff.length ≤ 2 ^ 32)
    (hlt : progress grant buff.length (k + j) < buff.length)
    (hlong : 2 ^ 31 ≤ progress grant buff.length (k + j)) :
    sendRest grant buff k = undefined := by
  induction j generalizing k with
  | zero => exact sendRest_long hlt hlong hbuff
  | succ j ih =>
    have hk : progress grant buff.length k < buff.length :=
      (progress_mono grant buff.length (Nat.le_add_right k (j + 1))).trans_lt hlt
    rcases Nat.lt_or_ge (progress grant buff.length k) (2 ^ 31) with hs | hl
    · rw [sendRest_step hk hs]
      exact ih (by rwa [Nat.add_right_comm]) (by rwa [Nat.add_right_comm])
    · exact sendRest_long hk hl hbuff

end SendLoop

section SendBuff

variable {grant : Nat → Nat} {buff : Bytes}

theorem sendBuff_of_short (h : StopsShort grant buff.length) :
    sendBuff (fun i => some (grant i)) buff buff.length = returned (0, buff) := by
  rw [sendBuff_eq]
  exact sendRest_of_short h

theorem sendBuff_of_long (hbuff : buff.length ≤ 2 ^ 32) (h : ¬ StopsShort grant buff.length) :
    sendBuff (fun i => some (grant i)) buff buff.length = undefined := by
  simp only [StopsShort, not_forall, Nat.not_lt] at h
  obtain ⟨k, hlt, hlong⟩ := h
  rw [sendBuff_eq]
  exact sendRest_of_long (j := k) hbuff (by rwa [Nat.zero_add]) (by rwa [Nat.zero_add])

end SendBuff

end Tpc
