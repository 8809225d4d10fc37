import Tpc.Lib.Word
import Tpc.Network

/-! Messages are framed by their length. What `SendMsg` writes, `ReadOneMsg` reads back, however
the kernel cuts it; what ends early is not recognised. -/

namespace Tpc
open Ending Transfer

/-- What both ends agree on: the byte order and the JSON text of a message. `parse` stands for
`Json::parse`, which may throw, and `Json2Message`. -/
structure Format (Message : Type) where
  endian : Word.Endian
  dump : Message → Bytes
  parse : Bytes → Ending Message
  msgType : Message → Nat

structure Received (Message : Type) where
  ret : Int
  msg : Option Message
  conn : Conn

section Framing

variable {Message : Type} (fmt : Format Message)

def frame (m : Message) : Bytes := Word.encode fmt.endian (fmt.dump m).length ++ fmt.dump m

def sendMsg (writes : Nat → Option Nat) (m : Message) : Ending (Int × Bytes) :=
  sendBuff writes (frame fmt m) (4 + (fmt.dump m).length)

/-- The four bytes at `str.c_str()`; behind a short string and its NUL lies what memory holds. -/
def msghead (str beyond : Bytes) : Bytes := (str ++ 0 :: beyond).take 4

def readOneMsg (reads : Nat → Nat) (beyond : Bytes) (conn : Conn) : Ending (Received Message) :=
  (readBuff reads 4 conn).andThen fun (str, conn) =>
    if str.length ≤ 0 then returned ⟨-1, none, conn⟩
    else
      let msgLen := toInt32 (Word.decode fmt.endian (msghead str beyond))
      (readBuff reads msgLen conn).andThen fun (strMsg, conn) =>
        (fmt.parse strMsg).andThen fun msg => returned ⟨fmt.msgType msg, some msg, conn⟩

def sendMsgs : List (Message × (Nat → Nat)) → Ending (List Int × Bytes)
  | [] => returned ([], [])
  | (m, grant) :: sends =>
    (sendMsg fmt (fun i => some (grant i)) m).andThen fun r =>
      (sendMsgs sends).andThen fun rs => returned (r.1 :: rs.1, r.2 ++ rs.2)

def readMsgs (reads : Nat → Nat) (beyond : Bytes) :
    Nat → Conn → Ending (List (Int × Option Message) × Conn)
  | 0, conn => returned ([], conn)
  | n + 1, conn =>
    (readOneMsg fmt reads beyond conn).andThen fun r =>
      (readMsgs reads beyond n r.conn).andThen fun rs => returned ((r.ret, r.msg) :: rs.1, rs.2)

@[simp] theorem length_frame (m : Message) : (frame fmt m).length = 4 + (fmt.dump m).length := by
  rw [frame, List.length_append, Word.length_encode]

variable {fmt} {reads : Nat → Nat} {beyond : Bytes}

theorem readOneMsg_frame {m : Message} (hreads : ∀ i, 1 ≤ reads i)
    (hparse : fmt.parse (fmt.dump m) = returned m) (hlen : (fmt.dump m).length ≤ 2 ^ 31 - 2)
    (rest : Bytes) (calls : Nat) :
    ∃ calls', readOneMsg fmt reads beyond ⟨frame fmt m ++ rest, calls⟩ =
      returned ⟨fmt.msgType m, some m, ⟨rest, calls'⟩⟩ := by
  obtain ⟨calls₁, hhead⟩ := readBuff_eq hreads (by decide) (Word.encode fmt.endian (fmt.dump m).length)
    (fmt.dump m ++ rest) (Word.length_encode _ _) calls
  obtain ⟨calls₂, hbody⟩ := readBuff_eq hreads (by omega) (fmt.dump m) rest rfl calls₁
  have hword : toInt32 (Word.decode fmt.endian
      (msghead (Word.encode fmt.endian (fmt.dump m).length) beyond)) = (fmt.dump m).length := by
    rw [msghead, List.take_left' (Word.length_encode _ _), Word.decode_encode _ (by omega),
      toInt32_of_lt (by omega)]
  refine ⟨calls₂, ?_⟩
  rw [readOneMsg, frame, List.append_assoc, show (4 : Int) = (4 : Nat) from rfl, hhead,
    andThen_returned]
  simp only [hword]
  rw [if_neg (by simp), hbody, andThen_returned, hparse, andThen_returned]

theorem readMsgs_frames {ms : List Message} (hreads : ∀ i, 1 ≤ reads i)
    (hparse : ∀ m ∈ ms, fmt.parse (fmt.dump m) = returned m)
    (hlen : ∀ m ∈ ms, (fmt.dump m).length ≤ 2 ^ 31 - 2) (calls : Nat) :
    ∃ calls', readMsgs fmt reads beyond ms.length ⟨ms.flatMap (frame fmt), calls⟩ =
      returned (ms.map fun m => ((fmt.msgType m : Int), some m), ⟨[], calls'⟩) := by
  induction ms generalizing calls with
  | nil => exact ⟨calls, rfl⟩
  | cons m ms ih =>
    obtain ⟨calls₁, hone⟩ := @readOneMsg_frame _ fmt reads beyond m hreads (hparse m (.head _))
      (hlen m (.head _)) (ms.flatMap (frame fmt)) calls
    obtain ⟨calls₂, hrest⟩ := ih (fun m hm => hparse m (.tail _ hm))
      (fun m hm => hlen m (.tail _ hm)) calls₁
    refine ⟨calls₂, ?_⟩
    rw [List.flatMap_cons, List.length_cons, readMsgs, hone, andThen_returned, hrest,
      andThen_returned, List.map_cons]

theorem sendMsg_of_short {grant : Nat → Nat} {m : Message}
    (h : StopsShort grant (4 + (fmt.dump m).length)) :
    sendMsg fmt (fun i => some (grant i)) m = returned (0, frame fmt m) := by
  rw [← length_frame] at h
  rw [sendMsg, ← length_frame]
  exact sendBuff_of_short h

theorem sendMsg_of_long {grant : Nat → Nat} {m : Message}
    (hlen : (fmt.dump m).length ≤ 2 ^ 31 - 2)
    (h : ¬ StopsShort grant (4 + (fmt.dump m).length)) :
    sendMsg fmt (fun i => some (grant i)) m = undefined := by
  rw [← length_frame] at h
  rw [sendMsg, ← length_frame]
  exact sendBuff_of_long (by rw [length_frame]; omega) h

theorem sendMsgs_of_short {sends : List (Message × (Nat → Nat))}
    (h : ∀ s ∈ sends, StopsShort s.2 (4 + (fmt.dump s.1).length)) :
    sendMsgs fmt sends =
      returned (sends.map fun _ => 0, (sends.map Prod.fst).flatMap (frame fmt)) := by
  induction sends with
  | nil => rfl
  | cons s sends ih =>
    obtain ⟨m, grant⟩ := s
    rw [sendMsgs, sendMsg_of_short (h _ (.head _)), andThen_returned,
      ih fun s hs => h s (.tail _ hs), andThen_returned, List.map_cons, List.map_cons,
      List.flatMap_cons]

theorem sendMsgs_of_long {sends : List (Message × (Nat → Nat))}
    (hlen : ∀ s ∈ sends, (fmt.dump s.1).length ≤ 2 ^ 31 - 2)
    (h : ¬ ∀ s ∈ sends, StopsShort s.2 (4 + (fmt.dump s.1).length)) :
    sendMsgs fmt sends = undefined := by
  induction sends with
  | nil => exact absurd (fun s hs => nomatch hs) h
  | cons s sends ih =>
    obtain ⟨m, grant⟩ := s
    rw [sendMsgs]
    by_cases hshort : StopsShort grant (4 + (fmt.dump m).length)
    · have hrest : ¬ ∀ s ∈ sends, StopsShort s.2 (4 + (fmt.dump s.1).length) := fun hall =>
        h (List.forall_mem_cons.mpr ⟨hshort, hall⟩)
      rw [sendMsg_of_short hshort, andThen_returned, ih (fun s hs => hlen s (.tail _ hs)) hrest,
        andThen_undefined]
    · rw [sendMsg_of_long (hlen _ (.head _)) hshort, andThen_undefined]

end Framing

section RoundTrip

variable {Message : Type} (fmt : Format Message)

/-- All sends succeed, and as many calls of `ReadOneMsg` return the same messages and leave
nothing on the connection. -/
def RoundTrip (reads : Nat → Nat) (beyond : Bytes) (sends : List (Message × (Nat → Nat))) : Prop :=
  ∃ wire calls, sendMsgs fmt sends = returned (sends.map fun _ => 0, wire) ∧
    readMsgs fmt reads beyond sends.length ⟨wire, 0⟩ =
      returned (sends.map fun s => ((fmt.msgType s.1 : Int), some s.1), ⟨[], calls⟩)

variable {fmt} {reads : Nat → Nat} {sends : List (Message × (Nat → Nat))}

/-- Framing round-trips if and only if no write stops behind the positions that `pos` can hold. -/
theorem roundTrip_iff (hreads : ∀ i, 1 ≤ reads i) (beyond : Bytes)
    (hparse : ∀ s ∈ sends, fmt.parse (fmt.dump s.1) = returned s.1)
    (hlen : ∀ s ∈ sends, (fmt.dump s.1).length ≤ 2 ^ 31 - 2) :
    RoundTrip fmt reads beyond sends ↔
      ∀ s ∈ sends, StopsShort s.2 (4 + (fmt.dump s.1).length) := by
  constructor
  · rintro ⟨wire, calls, hsend, -⟩
    by_contra hlong
    rw [sendMsgs_of_long hlen hlong] at hsend
    nomatch hsend
  · intro hshort
    obtain ⟨calls, hread⟩ := @readMsgs_frames _ fmt reads beyond (sends.map Prod.fst) hreads
      (List.forall_mem_map.mpr hparse)
      (List.forall_mem_map.mpr hlen) 0
    refine ⟨_, calls, sendMsgs_of_short hshort, ?_⟩
    rw [List.length_map, List.map_map] at hread
    exact hread

/-- Bodies of at most 2^31 - 4 bytes arrive, whatever the kernel does. -/
theorem roundTrip_of_le (hreads : ∀ i, 1 ≤ reads i) (beyond : Bytes)
    (hparse : ∀ s ∈ sends, fmt.parse (fmt.dump s.1) = returned s.1)
    (hlen : ∀ s ∈ sends, (fmt.dump s.1).length ≤ 2 ^ 31 - 4) : RoundTrip fmt reads beyond sends := by
  obtain ⟨calls, hread⟩ := @readMsgs_frames _ fmt reads beyond (sends.map Prod.fst) hreads
      (List.forall_mem_map.mpr hparse)
    (List.forall_mem_map.mpr fun s hs => (hlen s hs).trans (by decide)) 0
  refine ⟨_, calls, sendMsgs_of_short fun s hs => stopsShort_of_le ?_ _, ?_⟩
  · have hs' := hlen s hs
    omega
  · rw [List.length_map, List.map_map] at hread
    exact hread

/-- A message is a JSON string of so many letters "a". -/
def stringFormat : Format Nat where
  endian := .little
  dump := fun n => 34 :: (List.replicate n 97 ++ [34])
  parse := fun text =>
    if text = 34 :: (List.replicate (text.length - 2) 97 ++ [34]) then returned (text.length - 2)
    else threw
  msgType := fun _ => 1

theorem length_dump_string (n : Nat) : (stringFormat.dump n).length = n + 2 := by
  simp [stringFormat]

theorem parse_dump_string (n : Nat) : stringFormat.parse (stringFormat.dump n) = returned n := by
  simp [stringFormat]

theorem roundTrip_two : RoundTrip stringFormat (fun _ => 3) [] [(5, fun _ => 2), (0, fun _ => 2)] := by
  refine (roundTrip_iff (fun _ => by decide) [] (fun s _ => parse_dump_string s.1) ?_).mpr ?_
  · intro s hs
    rw [length_dump_string]
    simp only [List.mem_cons, List.not_mem_nil, or_false] at hs
    rcases hs with rfl | rfl
    · decide
    · decide
  · intro s hs
    refine stopsShort_of_le ?_ _
    simp only [List.mem_cons, List.not_mem_nil, or_false] at hs
    rcases hs with rfl | rfl
    · decide
    · decide

theorem not_roundTrip_long {n : Nat} (hn : n + 2 = 2 ^ 31 - 3) :
    ¬ RoundTrip stringFormat (fun _ => 1) [] [(n, fun _ => 2 ^ 31)] := by
  rintro ⟨wire, calls, hsend, -⟩
  have hdump : (stringFormat.dump n).length = 2 ^ 31 - 3 := (length_dump_string n).trans hn
  have hlong : ¬ StopsShort (fun _ => 2 ^ 31) (4 + (stringFormat.dump n).length) := by
    intro h
    have h1 : progress (fun _ => 2 ^ 31) (4 + (2 ^ 31 - 3)) 1 = 2 ^ 31 := by decide
    have hlt := h 1
    rw [hdump, h1] at hlt
    exact absurd (hlt (by decide)) (lt_irrefl _)
  rw [sendMsgs, sendMsg_of_long (by rw [hdump]; decide) hlong] at hsend
  nomatch hsend

/-- The body has 2^31 - 3 bytes, and the kernel takes all but the last byte of the frame at first. -/
theorem not_roundTrip_letters :
    (∀ n, stringFormat.parse (stringFormat.dump n) = returned n) ∧
    (stringFormat.dump (2 ^ 31 - 5)).length ≤ 2 ^ 31 - 2 ∧
    ¬ RoundTrip stringFormat (fun _ => 1) [] [(2 ^ 31 - 5, fun _ => 2 ^ 31)] := by
  refine ⟨parse_dump_string, ?_, not_roundTrip_long (by decide)⟩
  rw [length_dump_string]
  decide

end RoundTrip

section Refusal

variable {Message : Type} (fmt : Format Message) (reads : Nat → Nat) (conn : Conn)

/-- The connection ends inside a frame, or its header is no length that an `int` can hold. -/
def CutOrMalformed : Prop :=
  let head := conn.receive reads 4
  let len := Word.decode fmt.endian head.1
  head.1 ≠ [] ∧
    (head.1.length < 4 ∨ 2 ^ 31 ≤ len ∨ (head.2.receive reads len).1.length < len)

/-- The error return, after which a server drops the connection. -/
def Refuses (x : Ending (Received Message)) : Prop := ∃ r, x = returned r ∧ r.ret < 0

variable {fmt reads conn}

/-- For reads that only fail at the end of the stream, the stream decides. -/
theorem cutOrMalformed_iff (hreads : ∀ i, 1 ≤ reads i) :
    CutOrMalformed fmt reads conn ↔
      conn.rest ≠ [] ∧
        (conn.rest.length < 4 ∨ 2 ^ 31 ≤ Word.decode fmt.endian (conn.rest.take 4) ∨
          conn.rest.length < 4 + Word.decode fmt.endian (conn.rest.take 4)) := by
  obtain ⟨hhead, hleft⟩ := Source.receive_of_pos (n := 4) (s := conn) hreads
  have hbody := (Source.receive_of_pos (n := Word.decode fmt.endian (conn.rest.take 4))
    (s := (conn.receive reads 4).2) hreads).1
  simp only [CutOrMalformed, hhead, hbody, hleft, List.length_take, List.length_drop]
  have hnil : conn.rest.take 4 ≠ [] ↔ conn.rest ≠ [] := by simp
  rw [hnil]
  refine and_congr_right fun hne => ?_
  have hpos : 0 < conn.rest.length := List.length_pos_iff.mpr hne
  omega

theorem readBuff_four : readBuff reads 4 conn = returned (conn.receive reads 4) := by
  rw [readBuff, if_neg (by decide), if_neg (by decide), show (4 : Int).toNat = 4 from rfl,
    readLoop_eq, List.nil_append]

/-- There is one way to the error return: not a byte of the header arrives. -/
theorem refuses_iff (beyond : Bytes) :
    Refuses (readOneMsg fmt reads beyond conn) ↔ (conn.receive reads 4).1 = [] := by
  rw [readOneMsg, readBuff_four, andThen_returned]
  constructor
  · rintro ⟨r, hr, hneg⟩
    by_contra hne
    have hpos : 0 < (conn.receive reads 4).1.length := List.length_pos_iff.mpr hne
    simp only [if_neg (Nat.not_le.mpr hpos)] at hr
    obtain ⟨⟨strMsg, conn'⟩, -, hparse⟩ := andThen_eq_returned.mp hr
    obtain ⟨msg, -, hret⟩ := andThen_eq_returned.mp hparse
    cases hret
    exact absurd hneg (by simp)
  · intro hnil
    refine ⟨⟨-1, none, (conn.receive reads 4).2⟩, ?_, (by decide : (-1 : Int) < 0)⟩
    simp [hnil]

theorem readOneMsg_of_head (hlen : (conn.receive reads 4).1.length = 4) (beyond : Bytes) :
    readOneMsg fmt reads beyond conn =
      (readBuff reads (toInt32 (Word.decode fmt.endian (conn.receive reads 4).1))
        (conn.receive reads 4).2).andThen fun r =>
          (fmt.parse r.1).andThen fun msg => returned ⟨fmt.msgType msg, some msg, r.2⟩ := by
  rw [readOneMsg, readBuff_four, andThen_returned]
  have hhead : msghead (conn.receive reads 4).1 beyond = (conn.receive reads 4).1 := by
    rw [msghead, List.take_left' hlen]
  simp only [hhead]
  rw [if_neg (by omega)]

theorem cut_body_throws {len : Nat} (hlen : (conn.receive reads 4).1.length = 4)
    (hword : Word.decode fmt.endian (conn.receive reads 4).1 = len) (hfit : len < 2 ^ 31 - 1)
    (hthrow : fmt.parse ((conn.receive reads 4).2.receive reads len).1 = threw) (beyond : Bytes) :
    readOneMsg fmt reads beyond conn = threw := by
  rw [readOneMsg_of_head hlen, hword, toInt32_of_lt (by omega), readBuff, if_neg (by omega),
    if_neg (by omega), Int.toNat_natCast, andThen_returned, readLoop_eq, List.nil_append, hthrow,
    andThen_threw]

/-- The allocation throws when the length is no `int`, all but the largest. -/
theorem malformed_throws {len : Nat} (hlen : (conn.receive reads 4).1.length = 4)
    (hword : Word.decode fmt.endian (conn.receive reads 4).1 = len) (hlong : 2 ^ 31 ≤ len)
    (hlt : len < 2 ^ 32 - 1) (beyond : Bytes) : readOneMsg fmt reads beyond conn = threw := by
  have hneg : toInt32 len < -1 := by
    rw [toInt32, Int.bmod_def, if_neg (by omega)]
    omega
  rw [readOneMsg_of_head hlen, hword, readBuff, if_pos hneg, andThen_threw]

/-- A cut or malformed frame is never refused, whatever the parser and the memory behind the
header. -/
theorem cut_not_refused (hcut : CutOrMalformed fmt reads conn) (beyond : Bytes) :
    ¬ Refuses (readOneMsg fmt reads beyond conn) := by
  rw [refuses_iff]
  exact hcut.1

theorem cut_header_not_refused :
    ¬ Refuses (readOneMsg stringFormat (fun _ => 1) [] ⟨[7, 0], 0⟩) :=
  cut_not_refused ((cutOrMalformed_iff fun _ => by decide).mpr ⟨by decide, .inl (by decide)⟩) []

/-- The only text of this parser is an empty object. -/
def objectFormat : Format Unit where
  endian := .little
  dump := fun _ => [123, 125]
  parse := fun text => if text = [123, 125] then returned () else threw
  msgType := fun _ => 1

/-- The second byte of the body is missing: an exception, which no caller catches. -/
theorem cut_object_throws :
    CutOrMalformed objectFormat (fun _ => 4096) ⟨[2, 0, 0, 0, 123], 0⟩ ∧
    ¬ Refuses (readOneMsg objectFormat (fun _ => 4096) [] ⟨[2, 0, 0, 0, 123], 0⟩) ∧
    readOneMsg objectFormat (fun _ => 4096) [] ⟨[2, 0, 0, 0, 123], 0⟩ = threw := by
  have hreads : ∀ i : Nat, 1 ≤ (fun _ => 4096) i :=
    fun _ => (by decide : 1 ≤ 4096)
  obtain ⟨hhead, hleft⟩ :=
    Source.receive_of_pos (n := 4) (s := (⟨[2, 0, 0, 0, 123], 0⟩ : Conn)) hreads
  have hthrow : readOneMsg objectFormat (fun _ => 4096) [] ⟨[2, 0, 0, 0, 123], 0⟩ = threw := by
    have hword : Word.decode objectFormat.endian
        ((⟨[2, 0, 0, 0, 123], 0⟩ : Conn).receive (fun _ => 4096) 4).1 = 2 := by
      rw [hhead]
      rfl
    refine cut_body_throws (by rw [hhead]; rfl) hword (by decide) ?_ []
    rw [(Source.receive_of_pos hreads).1, hleft]
    rfl
  refine ⟨(cutOrMalformed_iff hreads).mpr ⟨by decide, .inr (.inr (by decide))⟩, ?_, hthrow⟩
  rw [hthrow]
  rintro ⟨_, h, -⟩
  nomatch h

end Refusal

end Tpc
