import Mathlib
import Emulator.Lib.Buffer

/-!
# Proxy connections (`proxy_common.c`)

A connection of the proxy code has one buffer `str` with a send position. It is filled
by `proxy_connection_receive` and `proxy_connection_receive_line` and emptied by
`proxy_connection_send`, all of which stop where a socket would block.

What a socket answers to a call is an input of the model: a list of answers, used up in
order, and would-block once there are none left. `received` and `sent` log the bytes
that went through each socket; no function reads them.

The C string functions used by the parsers are at the end. A string is the bytes in
front of the first NUL.
-/

namespace Emulator.Proxy

open List

/-- The two sockets of a rewriter connection. -/
inductive Fd
  | slirp
  | proxy
  deriving DecidableEq, Repr

inductive DataStatus
  | error
  | needMore
  | completed
  deriving DecidableEq, Repr

/-- An answer of `socket_recv`: at most the wanted number of bytes, or -1. No bytes means
that the peer has closed the connection. -/
inductive RecvAnswer
  | bytes (b : List UInt8)
  | again
  | error
  deriving DecidableEq, Repr

/-- An answer of `socket_send`: a number of accepted bytes, or -1. -/
inductive SendAnswer
  | accept (n : ℕ)
  | again
  | error
  deriving DecidableEq, Repr

structure ProxyConnection where
  str : List UInt8 := []
  strPos : ℕ := 0
  strSent : ℕ := 0
  strRecv : ℕ := 0
  received : Fd → List UInt8 := fun _ => []
  sent : Fd → List UInt8 := fun _ => []

namespace ProxyConnection

def logReceived (conn : ProxyConnection) (fd : Fd) (b : List UInt8) : ProxyConnection :=
  { conn with received := Function.update conn.received fd (conn.received fd ++ b) }

def logSent (conn : ProxyConnection) (fd : Fd) (b : List UInt8) : ProxyConnection :=
  { conn with sent := Function.update conn.sent fd (conn.sent fd ++ b) }

/-- `proxy_connection_rewind`; freeing a large buffer cannot be seen from outside. -/
def rewind (conn : ProxyConnection) : ProxyConnection := { conn with strPos := 0, str := [] }

/-- The loop of `proxy_connection_send`. -/
def sendLoop (fd : Fd) (conn : ProxyConnection) : List SendAnswer → DataStatus × ProxyConnection
  | [] => if conn.str.length ≤ conn.strPos then (.completed, conn.rewind) else (.needMore, conn)
  | a :: answers =>
    if conn.str.length ≤ conn.strPos then (.completed, conn.rewind)
    else
      match a with
      | .accept k =>
        let n := min k (conn.str.length - conn.strPos)
        if n = 0 then (.error, conn)
        else
          sendLoop fd
            ({ conn with strPos := conn.strPos + n, strSent := conn.strSent + n }.logSent fd
              ((conn.str.drop conn.strPos).take n)) answers
      | .again => (.needMore, conn)
      | .error => (.error, conn)

/-- `proxy_connection_send`. -/
def send (conn : ProxyConnection) (fd : Fd) (answers : List SendAnswer) : DataStatus × ProxyConnection :=
  let conn := { conn with strSent := 0 }
  -- nothing to send: the buffer is not rewound here
  if conn.str.length ≤ conn.strPos then (.completed, conn) else sendLoop fd conn answers

/-- The loop of `proxy_connection_receive`; the answers not used are returned. -/
def receiveLoop (fd : Fd) (conn : ProxyConnection) (wanted : ℕ) :
    List RecvAnswer → DataStatus × ProxyConnection × List RecvAnswer
  | [] => if wanted = 0 then (.completed, conn, []) else (.needMore, conn, [])
  | a :: answers =>
    if wanted = 0 then (.completed, conn, a :: answers)
    else
      match a with
      | .bytes b =>
        let got := b.take wanted
        if got = [] then (.error, conn, answers)
        else
          receiveLoop fd
            ({ conn with str := conn.str ++ got, strRecv := conn.strRecv + got.length }.logReceived fd got)
            (wanted - got.length) answers
      | .again => (.needMore, conn, answers)
      | .error => (.error, conn, answers)

/-- `proxy_connection_receive`. -/
def receive (conn : ProxyConnection) (fd : Fd) (wanted : ℕ) (answers : List RecvAnswer) :
    DataStatus × ProxyConnection × List RecvAnswer :=
  receiveLoop fd { conn with strRecv := 0 } wanted answers

/-- The line in the buffer without its LF or CRLF. -/
def chomp (str : List UInt8) : List UInt8 :=
  let str := str.dropLast
  if str.getLast? = some 13 then str.dropLast else str

/-- `proxy_connection_receive_line`: one byte at a time up to an LF. -/
def receiveLine (fd : Fd) (conn : ProxyConnection) :
    List RecvAnswer → DataStatus × ProxyConnection × List RecvAnswer
  | [] => (.needMore, conn, [])
  | .again :: answers => (.needMore, conn, answers)
  | .error :: answers => (.error, conn, answers)
  | .bytes [] :: answers => (.error, conn, answers)
  | .bytes (c :: _) :: answers =>
    let conn := { conn with str := conn.str ++ [c] }.logReceived fd [c]
    if c = 10 then (.completed, { conn with str := chomp conn.str }, answers)
    else receiveLine fd conn answers

/-- From `conn` to `conn'` the bytes `got` have come in through `fd`. -/
structure Received (fd : Fd) (got : List UInt8) (conn conn' : ProxyConnection) : Prop where
  str : conn'.str = conn.str ++ got
  strPos : conn'.strPos = conn.strPos
  strRecv : conn'.strRecv = conn.strRecv + got.length
  received : conn'.received fd = conn.received fd ++ got
  sent : conn'.sent = conn.sent

theorem Received.nil (fd : Fd) (conn : ProxyConnection) : Received fd [] conn conn := by
  constructor <;> simp

theorem Received.cons {fd : Fd} {b got : List UInt8} {conn conn' : ProxyConnection}
    (h : Received fd got
      ({ conn with str := conn.str ++ b, strRecv := conn.strRecv + b.length }.logReceived fd b) conn') :
    Received fd (b ++ got) conn conn' := by
  obtain ⟨h₁, h₂, h₃, h₄, h₅⟩ := h
  constructor
  · rw [h₁]; simp [logReceived]
  · exact h₂
  · rw [h₃]; simp [logReceived]; omega
  · rw [h₄]; simp [logReceived]
  · exact h₅

/-- Reading appends what came in, at most `wanted` bytes; it fails only where an answer is
an error or the end of the stream. -/
theorem receiveLoop_spec (fd : Fd) (answers : List RecvAnswer) (conn : ProxyConnection) (wanted : ℕ) :
    ∃ got : List UInt8, got.length ≤ wanted ∧
      Received fd got conn (receiveLoop fd conn wanted answers).2.1 ∧
      ((receiveLoop fd conn wanted answers).1 = .error → .error ∈ answers ∨ .bytes [] ∈ answers) := by
  induction answers generalizing conn wanted with
  | nil =>
    refine ⟨[], Nat.zero_le _, ?_⟩
    unfold receiveLoop
    split_ifs <;> exact ⟨Received.nil fd conn, by simp⟩
  | cons a answers ih =>
    unfold receiveLoop
    split_ifs with hw
    · exact ⟨[], Nat.zero_le _, Received.nil fd conn, by simp⟩
    cases a with
    | bytes b =>
      dsimp only
      split_ifs with hb
      · -- no byte although some were wanted: the stream has ended
        have : b = [] := by
          cases b with
          | nil => rfl
          | cons x b => obtain ⟨w, rfl⟩ := Nat.exists_eq_succ_of_ne_zero hw; simp at hb
        exact ⟨[], Nat.zero_le _, Received.nil fd conn, fun _ => .inr (by simp [this])⟩
      · obtain ⟨got, hlen, hrec, herr⟩ := ih
          ({ conn with str := conn.str ++ b.take wanted,
                       strRecv := conn.strRecv + (b.take wanted).length }.logReceived fd (b.take wanted))
          (wanted - (b.take wanted).length)
        refine ⟨b.take wanted ++ got, ?_, hrec.cons, ?_⟩
        · have : (b.take wanted).length ≤ wanted := length_take_le wanted b
          rw [length_append]
          omega
        · intro h
          exact (herr h).imp (mem_cons_of_mem _) (mem_cons_of_mem _)
    | again => exact ⟨[], Nat.zero_le _, Received.nil fd conn, by simp⟩
    | error => exact ⟨[], Nat.zero_le _, Received.nil fd conn, by simp⟩

/-- From `conn` to `conn'` the bytes `out` in front of the buffer have gone out through
`fd`, the rest is `rest`. -/
structure Sent (fd : Fd) (out rest : List UInt8) (conn conn' : ProxyConnection) : Prop where
  split : conn.str.drop conn.strPos = out ++ rest
  drop : conn'.str.drop conn'.strPos = rest
  length : conn'.str.length ≤ conn.str.length
  sent : conn'.sent fd = conn.sent fd ++ out
  received : conn'.received = conn.received

theorem Sent.nil (fd : Fd) (conn : ProxyConnection) : Sent fd [] (conn.str.drop conn.strPos) conn conn := by
  constructor <;> simp

theorem Sent.cons {fd : Fd} {out rest : List UInt8} {n m : ℕ} {conn conn' : ProxyConnection}
    (h : Sent fd out rest
      ({ conn with strPos := conn.strPos + n, strSent := m }.logSent fd ((conn.str.drop conn.strPos).take n)) conn') :
    Sent fd ((conn.str.drop conn.strPos).take n ++ out) rest conn conn' := by
  obtain ⟨h₁, h₂, h₃, h₄, h₅⟩ := h
  simp only [logSent] at h₁
  refine ⟨?_, h₂, h₃, ?_, h₅⟩
  · rw [append_assoc, ← h₁, ← drop_drop, take_append_drop]
  · rw [h₄]; simp [logSent]

theorem Sent.rewind {fd : Fd} {conn : ProxyConnection} (h : conn.str.length ≤ conn.strPos) :
    Sent fd [] [] conn conn.rewind := by
  constructor <;> simp [ProxyConnection.rewind, h]

theorem sendLoop_spec (fd : Fd) (answers : List SendAnswer) (conn : ProxyConnection) :
    ∃ out rest : List UInt8, Sent fd out rest conn (sendLoop fd conn answers).2 ∧
      ((sendLoop fd conn answers).1 = .completed → rest = []) ∧
      ((sendLoop fd conn answers).1 = .error → .error ∈ answers ∨ .accept 0 ∈ answers) := by
  induction answers generalizing conn with
  | nil =>
    unfold sendLoop
    split_ifs with h
    · exact ⟨[], [], Sent.rewind h, by simp, by simp⟩
    · exact ⟨[], _, Sent.nil fd conn, by simp, by simp⟩
  | cons a answers ih =>
    unfold sendLoop
    split_ifs with h
    · exact ⟨[], [], Sent.rewind h, by simp, by simp⟩
    cases a with
    | accept k =>
      dsimp only
      split_ifs with hk
      · have : k = 0 := by omega
        exact ⟨[], _, Sent.nil fd conn, by simp, fun _ => .inr (by simp [this])⟩
      · obtain ⟨out, rest, hsent, hdone, herr⟩ := ih _
        exact ⟨_, rest, hsent.cons, hdone, fun h => (herr h).imp (mem_cons_of_mem _) (mem_cons_of_mem _)⟩
    | again => exact ⟨[], _, Sent.nil fd conn, by simp, by simp⟩
    | error => exact ⟨[], _, Sent.nil fd conn, by simp, by simp⟩

/-- Sending takes bytes from the front; it completes only when all are gone, and fails only
where an answer is an error or accepts nothing. -/
theorem send_spec (conn : ProxyConnection) (fd : Fd) (answers : List SendAnswer) :
    ∃ out rest : List UInt8, Sent fd out rest conn (conn.send fd answers).2 ∧
      ((conn.send fd answers).1 = .completed → rest = []) ∧
      ((conn.send fd answers).1 = .error → .error ∈ answers ∨ .accept 0 ∈ answers) := by
  unfold send
  dsimp only
  split_ifs with h
  · have hnil : conn.str.drop conn.strPos = [] := drop_eq_nil_of_le h
    exact ⟨[], [], ⟨hnil, hnil, le_rfl, by simp, rfl⟩, by simp, by simp⟩
  · obtain ⟨out, rest, hsent, hdone, herr⟩ := sendLoop_spec fd answers { conn with strSent := 0 }
    exact ⟨out, rest, ⟨hsent.split, hsent.drop, hsent.length, hsent.sent, hsent.received⟩, hdone, herr⟩

theorem sendLoop_needMore {fd : Fd} {answers : List SendAnswer} {conn : ProxyConnection}
    (h : (sendLoop fd conn answers).1 = .needMore) :
    (sendLoop fd conn answers).2.strPos < (sendLoop fd conn answers).2.str.length := by
  induction answers generalizing conn with
  | nil =>
    unfold sendLoop at h ⊢
    split_ifs at h ⊢ with hend
    exact Nat.lt_of_not_le hend
  | cons a answers ih =>
    unfold sendLoop at h ⊢
    split_ifs at h ⊢ with hend
    cases a with
    | accept k =>
      dsimp only at h ⊢
      split_ifs at h ⊢
      exact ih h
    | again => exact Nat.lt_of_not_le hend
    | error => cases h

/-- Where sending does not complete, something is left. -/
theorem send_needMore {conn : ProxyConnection} {fd : Fd} {answers : List SendAnswer}
    (h : (conn.send fd answers).1 = .needMore) :
    (conn.send fd answers).2.strPos < (conn.send fd answers).2.str.length := by
  unfold send at h ⊢
  dsimp only at h ⊢
  split_ifs at h ⊢
  exact sendLoop_needMore h

end ProxyConnection

/-- The bytes of a string literal. -/
def cstring (s : String) : List UInt8 := s.toList.map fun c => UInt8.ofNat c.toNat

/-- `strsep` with one delimiter: the token, and what is behind the delimiter if there is one. -/
def strsep (delim : UInt8) (s : List UInt8) : List UInt8 × Option (List UInt8) :=
  (s.takeWhile (· ≠ delim), if delim ∈ s then some ((s.dropWhile (· ≠ delim)).drop 1) else none)

def tolower (c : UInt8) : UInt8 := if 65 ≤ c ∧ c ≤ 90 then c + 32 else c

/-- `strcasecmp(a, b) == 0`. -/
def strcaseeq (a b : List UInt8) : Bool := a.map tolower == b.map tolower

def isspace (c : UInt8) : Bool := c = 32 || (9 ≤ c && c ≤ 13)

/-- The value of a digit in bases up to 16. -/
def digitValue (c : UInt8) : ℕ :=
  if 48 ≤ c ∧ c ≤ 57 then c.toNat - 48
  else if 97 ≤ tolower c ∧ tolower c ≤ 102 then (tolower c).toNat - 87
  else 16

def isDigit (base : ℕ) (c : UInt8) : Bool := digitValue c < base

/-- The number written by digits. -/
def digitsValue (base : ℕ) (ds : List UInt8) : ℕ := ds.foldl (fun n c => n * base + digitValue c) 0

/-- The sign of a number and what follows it. -/
def signOf : List UInt8 → Bool × List UInt8
  | 43 :: s => (false, s)
  | 45 :: s => (true, s)
  | s => (false, s)

/-- In base 16 a `0x` in front of a digit is part of the number. -/
def hexPrefix (base : ℕ) : List UInt8 → List UInt8
  | 48 :: x :: c :: s => if base = 16 ∧ tolower x = 120 ∧ isDigit 16 c then c :: s else 48 :: x :: c :: s
  | s => s

/-- `strtoll`: the value, cut to the range of `long long`, and the end pointer. Where no
number can be read the end pointer is the start. -/
def strtoll (base : ℕ) (s : List UInt8) : ℤ × List UInt8 :=
  let (neg, t) := signOf (s.dropWhile isspace)
  let t := hexPrefix base t
  let ds := t.takeWhile (isDigit base)
  if ds = [] then (0, s)
  else
    let v : ℤ := digitsValue base ds
    (if neg then max (-2 ^ 63) (-v) else min (2 ^ 63 - 1) v, t.dropWhile (isDigit base))

/-- `atoi`: the low 32 bits of `strtol`, as a signed number. -/
def atoi (s : List UInt8) : ℤ := (strtoll 10 s).1.bmod (2 ^ 32)

/-- The conversion `%d`. -/
def formatInt (v : ℤ) : List UInt8 := cstring (toString v)

end Emulator.Proxy
