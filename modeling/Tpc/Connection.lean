import Tpc.Msg

/-! A connection that breaks. Wherever the bytes end, what `ReadOneMsg` has returned until then are the
first messages that `SendMsg` was called with, in order. -/

namespace Tpc
open Ending Transfer

section SendLoop

variable {writes : Nat → Option Nat} {buff : Bytes} {pos calls : Nat}

theorem sendLoop_ends (hbuff : buff.length ≤ 2 ^ 31) (hpos : pos ≤ buff.length) :
    sendLoop writes buff (buff.length - pos) pos calls (buff.take pos) = returned (0, buff) ∨
      ∃ sent, sent <+: buff ∧ sent ≠ buff ∧
        sendLoop writes buff (buff.length - pos) pos calls (buff.take pos) = returned (-1, sent) := by
  -- by induction on what is left
  generalize hn : buff.length - pos = n
  induction n using Nat.strongRecOn generalizing pos calls with
  | ind n ih =>
    rw [sendLoop]
    by_cases h0 : n = 0
    · have hfull : pos = buff.length := by omega
      rw [if_pos h0, hfull, List.take_length]
      exact .inl rfl
    have hlt : pos < buff.length := by omega
    rw [if_neg h0, if_pos ⟨by omega, by omega⟩]
    cases hw : writes calls with
    | none =>
      refine .inr ⟨buff.take pos, List.take_prefix _ _, fun he => ?_, rfl⟩
      have hlen := congrArg List.length he
      rw [List.length_take] at hlen
      omega
    | some g =>
      have hg := granted_pos (g := g) (Nat.pos_of_ne_zero h0)
      have hle := granted_le g n
      have hnext : toInt32 (pos + granted g n) = ((pos + granted g n : Nat) : Int) ∨
          n - granted g n = 0 := by
        rcases Nat.lt_or_ge (pos + granted g n) (2 ^ 31) with hs | hl
        · exact .inl (toInt32_of_lt hs)
        · exact .inr (by omega)
      simp only [Int.toNat_natCast]
      rw [← List.take_add]
      rcases hnext with hnext | hdone
      · rw [hnext]
        exact ih (n - granted g n) (by omega) (by omega) (by omega)
      · have hfull : pos + granted g n = buff.length := by omega
        rw [hdone, sendLoop, if_pos rfl, hfull, List.take_length]
        exact .inl rfl

end SendLoop

section Sending

variable {Message : Type} (fmt : Format Message)

/-- Messages are sent one after the other until a call of `SendMsg` fails: how many were sent, and the
bytes that the kernel has taken. -/
def sendUntil : List (Message × (Nat → Option Nat)) → Ending (Nat × Bytes)
  | [] => returned (0, [])
  | (m, writes) :: sends =>
    (sendMsg fmt writes m).andThen fun r =>
      if r.1 < 0 then returned (0, r.2)
      else (sendUntil sends).andThen fun rs => returned (rs.1 + 1, r.2 ++ rs.2)

variable {fmt} {sends : List (Message × (Nat → Option Nat))}

theorem sendMsg_ends {m : Message} {writes : Nat → Option Nat} (hlen : (fmt.dump m).length ≤ 2 ^ 31 - 4) :
    sendMsg fmt writes m = returned (0, frame fmt m) ∨
      ∃ sent, sent <+: frame fmt m ∧ sent ≠ frame fmt m ∧ sendMsg fmt writes m = returned (-1, sent) := by
  rw [sendMsg, sendBuff, ← length_frame fmt]
  have hbuff : (frame fmt m).length ≤ 2 ^ 31 := by
    rw [length_frame]
    omega
  exact sendLoop_ends hbuff (Nat.zero_le _)

theorem sendUntil_ends (hlen : ∀ s ∈ sends, (fmt.dump s.1).length ≤ 2 ^ 31 - 4) :
    ∃ n wire tail, sendUntil fmt sends = returned (n, wire) ∧
      EndsIn (frame fmt) (sends.map Prod.fst) wire n tail := by
  induction sends with
  | nil => exact ⟨0, [], [], rfl, le_rfl, rfl, .inl ⟨rfl, rfl⟩⟩
  | cons s sends ih =>
    obtain ⟨m, writes⟩ := s
    rw [sendUntil, List.map_cons]
    have hsent : sendMsg fmt writes m = returned (0, frame fmt m) ∨
        ∃ sent, sent <+: frame fmt m ∧ sent ≠ frame fmt m ∧ sendMsg fmt writes m = returned (-1, sent) :=
      sendMsg_ends (hlen _ (.head _))
    rcases hsent with hm | ⟨sent, hp, hne, hm⟩
    · obtain ⟨n, wire, tail, hrest, hle, heq, htail⟩ := ih fun s hs => hlen s (.tail _ hs)
      rw [hm, andThen_returned, if_neg (lt_irrefl 0), hrest, andThen_returned]
      refine ⟨n + 1, _, tail, rfl, Nat.succ_le_succ hle, ?_, ?_⟩
      · rw [heq, List.take_succ_cons, List.flatMap_cons, List.append_assoc]
      · rcases htail with ⟨rfl, rfl⟩ | ⟨b, hb, htail⟩
        · exact .inl ⟨rfl, rfl⟩
        · exact .inr ⟨b, by simpa using hb, htail⟩
    · rw [hm, andThen_returned, if_pos (by simp)]
      exact ⟨0, sent, sent, rfl, Nat.zero_le _, rfl, .inr ⟨m, rfl, hp, hne⟩⟩

end Sending

section Reading

variable {Message : Type} {fmt : Format Message} {reads : Nat → Nat} {beyond : Bytes}

theorem readMsgs_whole {ms : List Message} (hreads : ∀ i, 1 ≤ reads i)
    (hparse : ∀ m ∈ ms, fmt.parse (fmt.dump m) = returned m)
    (hlen : ∀ m ∈ ms, (fmt.dump m).length ≤ 2 ^ 31 - 2) (tail : Bytes) (calls : Nat) :
    ∃ calls', readMsgs fmt reads beyond ms.length ⟨ms.flatMap (frame fmt) ++ tail, calls⟩ =
      returned (ms.map fun m => ((fmt.msgType m : Int), some m), ⟨tail, calls'⟩) := by
  induction ms generalizing calls with
  | nil => exact ⟨calls, rfl⟩
  | cons m ms ih =>
    obtain ⟨calls₁, hone⟩ := @readOneMsg_frame _ fmt reads beyond m hreads (hparse m (.head _))
      (hlen m (.head _)) (ms.flatMap (frame fmt) ++ tail) calls
    obtain ⟨calls₂, hrest⟩ := ih (fun m hm => hparse m (.tail _ hm))
      (fun m hm => hlen m (.tail _ hm)) calls₁
    refine ⟨calls₂, ?_⟩
    rw [List.flatMap_cons, List.append_assoc, List.length_cons, readMsgs, hone, andThen_returned, hrest,
      andThen_returned, List.map_cons]

/-- The text of a message cannot be parsed before it is complete. -/
def SelfDelimiting (fmt : Format Message) (m : Message) : Prop :=
  ∀ text, text <+: fmt.dump m → text ≠ fmt.dump m → fmt.parse text = threw

theorem readBuff_returned {len : Int} {conn : Conn} {r : Bytes × Conn}
    (h : readBuff reads len conn = returned r) : r = conn.receive reads len.toNat := by
  unfold readBuff at h
  by_cases hneg : len < -1
  · rw [if_pos hneg] at h
    cases h
  rw [if_neg hneg] at h
  by_cases hmax : len = 2 ^ 31 - 1
  · rw [if_pos hmax] at h
    cases h
  rw [if_neg hmax, readLoop_eq, List.nil_append] at h
  exact (Ending.returned.inj h).symm

theorem readOneMsg_header {tail : Bytes} {calls : Nat} (hreads : ∀ i, 1 ≤ reads i)
    (hempty : fmt.parse [] = threw) (hnil : tail ≠ []) (hshort : tail.length < 4)
    (r : Received Message) : readOneMsg fmt reads beyond ⟨tail, calls⟩ ≠ returned r := by
  obtain ⟨hhead, hleft⟩ : ((⟨tail, calls⟩ : Conn).receive reads 4).1 = tail.take 4 ∧
      ((⟨tail, calls⟩ : Conn).receive reads 4).2.rest = tail.drop 4 := Source.receive_of_pos hreads
  intro hr
  have hrest : ((⟨tail, calls⟩ : Conn).receive reads 4).2.rest = [] := by
    rw [hleft]
    exact List.drop_eq_nil_of_le hshort.le
  have hgot : 0 < ((⟨tail, calls⟩ : Conn).receive reads 4).1.length := by
    have hpos := List.length_pos_iff.mpr hnil
    rw [hhead, List.length_take]
    omega
  rw [readOneMsg, readBuff_four, andThen_returned] at hr
  simp only [if_neg (Nat.not_le.mpr hgot)] at hr
  obtain ⟨⟨text, conn⟩, hbody, hparse⟩ := andThen_eq_returned.mp hr
  have htext : text = [] := by
    have hfst := congrArg Prod.fst (readBuff_returned hbody)
    rwa [(Source.receive_of_pos hreads).1, hrest, List.take_nil] at hfst
  subst htext
  rw [hempty] at hparse
  cases hparse

theorem readOneMsg_body {m : Message} {body : Bytes} {calls : Nat} (hreads : ∀ i, 1 ≤ reads i)
    (hself : SelfDelimiting fmt m) (hlen : (fmt.dump m).length ≤ 2 ^ 31 - 2) (hp : body <+: fmt.dump m)
    (hne : body ≠ fmt.dump m) :
    readOneMsg fmt reads beyond ⟨Word.encode fmt.endian (fmt.dump m).length ++ body, calls⟩ = threw := by
  set conn : Conn := ⟨Word.encode fmt.endian (fmt.dump m).length ++ body, calls⟩ with hconn
  obtain ⟨hhead, hleft⟩ := Source.receive_of_pos (n := 4) (s := conn) hreads
  have htake : conn.rest.take 4 = Word.encode fmt.endian (fmt.dump m).length :=
    List.take_left' (Word.length_encode _ _)
  have hdrop : conn.rest.drop 4 = body := List.drop_left' (Word.length_encode _ _)
  rw [htake] at hhead
  rw [hdrop] at hleft
  have hgot : ((conn.receive reads 4).2.receive reads (fmt.dump m).length).1 = body := by
    rw [(Source.receive_of_pos hreads).1, hleft, List.take_of_length_le hp.length_le]
  have hword : Word.decode fmt.endian (conn.receive reads 4).1 = (fmt.dump m).length := by
    rw [hhead, Word.decode_encode _ (by omega)]
  refine cut_body_throws ?_ hword (by omega) ?_ beyond
  · rw [hhead, Word.length_encode]
  · rw [hgot]
    exact hself body hp hne

theorem readOneMsg_part {m : Message} {tail : Bytes} {calls : Nat} (hreads : ∀ i, 1 ≤ reads i)
    (hself : SelfDelimiting fmt m) (hempty : fmt.parse [] = threw)
    (hlen : (fmt.dump m).length ≤ 2 ^ 31 - 2) (hp : tail <+: frame fmt m) (hne : tail ≠ frame fmt m)
    (hnil : tail ≠ []) (r : Received Message) :
    readOneMsg fmt reads beyond ⟨tail, calls⟩ ≠ returned r := by
  rcases Nat.lt_or_ge tail.length 4 with hshort | hlong
  · exact readOneMsg_header hreads hempty hnil hshort r
  · have hword : (Word.encode fmt.endian (fmt.dump m).length).length ≤ tail.length := by
      rwa [Word.length_encode]
    obtain ⟨body, rfl⟩ := List.prefix_of_prefix_length_le (List.prefix_append _ _) hp hword
    have hbody : body <+: fmt.dump m := (List.prefix_append_right_inj _).mp hp
    rw [readOneMsg_body hreads hself hlen hbody fun he => hne (by rw [he, frame])]
    simp

theorem readOneMsg_nothing {calls : Nat} : Refuses (readOneMsg fmt reads beyond ⟨[], calls⟩) := by
  refine (refuses_iff beyond).mpr ?_
  have hlen := congrArg List.length (Source.receive_append (⟨[], calls⟩ : Conn) reads 4)
  rw [List.length_append] at hlen
  exact List.length_eq_zero_iff.mp (by simpa using Nat.eq_zero_of_add_eq_zero_right hlen)

end Reading

section Both

variable {Message : Type} (fmt : Format Message)

/-- Messages are sent until a call fails, and the first `cut` bytes arrive. The reader gets the first
`k` messages, all that were sent if nothing is cut; the next call returns the error between two frames,
and does not return within one. -/
def ArriveInOrder (reads : Nat → Nat) (beyond : Bytes) (sends : List (Message × (Nat → Option Nat)))
    (cut : Nat) : Prop :=
  ∃ n wire k conn, sendUntil fmt sends = returned (n, wire) ∧ k ≤ n ∧ (wire.length ≤ cut → k = n) ∧
    readMsgs fmt reads beyond k ⟨wire.take cut, 0⟩ =
      returned ((sends.take k).map fun s => ((fmt.msgType s.1 : Int), some s.1), conn) ∧
    (conn.rest = [] → Refuses (readOneMsg fmt reads beyond conn)) ∧
    (conn.rest ≠ [] → ∀ r, readOneMsg fmt reads beyond conn ≠ returned r)

variable {fmt} {reads : Nat → Nat} {sends : List (Message × (Nat → Option Nat))}

/-- Whatever write fails and wherever the connection breaks, no message is lost before one that arrives,
and none is changed or made up. -/
theorem messages_arrive_in_order (hreads : ∀ i, 1 ≤ reads i) (beyond : Bytes)
    (hparse : ∀ s ∈ sends, fmt.parse (fmt.dump s.1) = returned s.1)
    (hself : ∀ s ∈ sends, SelfDelimiting fmt s.1) (hempty : fmt.parse [] = threw)
    (hlen : ∀ s ∈ sends, (fmt.dump s.1).length ≤ 2 ^ 31 - 4) (cut : Nat) :
    ArriveInOrder fmt reads beyond sends cut := by
  obtain ⟨n, wire, tail, hsend, hwire⟩ := sendUntil_ends hlen
  obtain ⟨k, part, hcut⟩ := exists_endsIn ((List.take_prefix cut wire).trans hwire.isPrefix)
  have hkn : k ≤ n := hcut.mono hwire (by rw [List.length_take]; exact Nat.min_le_right _ _)
  obtain ⟨calls, hread⟩ := @readMsgs_whole _ fmt reads beyond ((sends.take k).map Prod.fst) hreads
    (List.forall_mem_map.mpr fun s hs => hparse s (List.mem_of_mem_take hs))
    (List.forall_mem_map.mpr fun s hs => (hlen s (List.mem_of_mem_take hs)).trans (by decide)) part 0
  have hlenk : ((sends.take k).map Prod.fst).length = k := by
    rw [List.length_map, List.length_take]
    exact Nat.min_eq_left (by simpa using hcut.le)
  rw [hlenk, List.map_take, ← hcut.eq] at hread
  refine ⟨n, wire, k, ⟨part, calls⟩, hsend, hkn, fun hle => ?_, ?_, fun hnil => ?_, fun hne r => ?_⟩
  · rw [List.take_of_length_le hle] at hcut
    exact Nat.le_antisymm hkn (hwire.mono hcut le_rfl)
  · rw [hread, ← List.map_take, List.map_map]
    rfl
  · change part = [] at hnil
    rw [hnil]
    exact readOneMsg_nothing
  · rcases hcut.tail with ⟨-, hpart⟩ | ⟨m, hm, hp, hpne⟩
    · exact absurd hpart hne
    · obtain ⟨s, hs, rfl⟩ := List.mem_map.mp (List.mem_of_getElem? hm)
      exact readOneMsg_part hreads (hself s hs) hempty ((hlen s hs).trans (by decide)) hp hpne hne r

theorem replicate_quote_inj {k n : Nat}
    (h : List.replicate k (97 : UInt8) ++ [34] <+: List.replicate n 97 ++ [34]) : k = n := by
  induction k generalizing n with
  | zero =>
    cases n with
    | zero => rfl
    | succ n => simp [List.replicate_succ] at h
  | succ k ih =>
    cases n with
    | zero => simp [List.replicate_succ] at h
    | succ n =>
      rw [List.replicate_succ, List.replicate_succ, List.cons_append, List.cons_append,
        List.prefix_cons_inj] at h
      rw [ih h]

theorem selfDelimiting_string (n : Nat) : SelfDelimiting stringFormat n := by
  intro text hp hne
  refine if_neg fun htext => hne ?_
  generalize text.length - 2 = k at htext
  subst htext
  rw [replicate_quote_inj ((List.prefix_cons_inj _).mp hp)]
  rfl

theorem messages_arrive_in_order_three : ArriveInOrder stringFormat (fun _ => 2) []
    [(5, fun _ => some 6), (0, fun _ => some 4), (1, fun i => if i = 0 then some 3 else none)] 15 := by
  have hself : ∀ s ∈ [(5, fun _ => some 6), (0, fun _ => some 4),
      (1, fun i => if i = 0 then some 3 else none)], SelfDelimiting stringFormat s.1 :=
    fun s _ => selfDelimiting_string s.1
  refine messages_arrive_in_order (fun _ => by decide) [] (fun s _ => parse_dump_string s.1) hself rfl
    ?_ 15
  intro s hs
  rw [length_dump_string]
  simp only [List.mem_cons, List.not_mem_nil, or_false] at hs
  rcases hs with rfl | rfl | rfl
  · decide
  · decide
  · decide

end Both

end Tpc
