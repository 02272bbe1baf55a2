import Emulator.Lib.Buffer

/-!
# The qemud serial transport

`android/hw-qemud.c`, the part below the multiplexer: sinks, the serial packet
reader `qemud_serial_read` with its legacy detection, and the packetiser
`qemud_serial_send`. Bytes are `UInt8`; a C buffer is a list of fixed length that
`overwrite` writes into, so that the header sink and the payload sink of a
`QemudSerial` share the buffer `data0` as they do in the source.

A loop of the source is a step function (one iteration of its body) and a fuelled
iteration of it; `none` stands for a loop that has not ended.
-/

namespace Emulator.Qemud

/-- Max serial MTU. -/
def MAX_SERIAL_PAYLOAD : ℕ := 4000

def HEADER_SIZE : ℕ := 6

def LENGTH_OFFSET : ℕ := 2
def LENGTH_SIZE : ℕ := 4
def CHANNEL_OFFSET : ℕ := 0
def CHANNEL_SIZE : ℕ := 2

def LEGACY_LENGTH_OFFSET : ℕ := 0
def LEGACY_CHANNEL_OFFSET : ℕ := 4

/-- Length of the framed header. -/
def FRAME_HEADER_SIZE : ℕ := 4

/-- `hexdigit`: the value of a hexadecimal character, `-1` for any other. -/
def hexdigit (c : UInt8) : ℤ :=
  if 48 ≤ c.toNat ∧ c.toNat < 58 then c.toNat - 48
  else if 97 ≤ c.toNat ∧ c.toNat < 103 then c.toNat - 97 + 10
  else if 65 ≤ c.toNat ∧ c.toNat < 71 then c.toNat - 65 + 10
  else -1

/-- The loop of `hex2int` over the remaining characters. -/
def hex2intLoop : ℕ → List UInt8 → ℤ
  | result, [] => result
  | result, c :: cs =>
    if hexdigit c < 0 then -1
    else hex2intLoop ((result <<< 4) ||| (hexdigit c).toNat) cs

/-- `hex2int (hex, len)`, `-1` when a character is not hexadecimal. -/
def hex2int (hex : List UInt8) (len : ℕ) : ℤ := hex2intLoop 0 (hex.take len)

/-- The table `"0123456789abcdef"`. -/
def hexchars : List UInt8 := [48, 49, 50, 51, 52, 53, 54, 55, 56, 57, 97, 98, 99, 100, 101, 102]

/-- The characters that `int2hex (hex, len, val)` writes. -/
def int2hex : ℕ → ℕ → List UInt8
  | 0, _ => []
  | len + 1, val => hexchars.getD ((val >>> (len * 4)) &&& 15) 0 :: int2hex len val

/-- A `QemudSink` without its `buff` pointer: the buffer it fills is passed
beside it. -/
structure QemudSink where
  len : ℕ
  size : ℕ
  deriving DecidableEq, Repr

/-- `qemud_sink_reset`. -/
def qemudSinkReset (size : ℕ) : QemudSink := ⟨0, size⟩

/-- `qemud_sink_needed`. -/
def qemudSinkNeeded (ss : QemudSink) : ℕ := ss.size - ss.len

/-- What `qemud_sink_fill` leaves: its result, the sink, the buffer and what it
did not read of the message. -/
structure SinkFill where
  full : Bool
  sink : QemudSink
  buff : List UInt8
  rest : List UInt8

/-- `qemud_sink_fill`. -/
def qemudSinkFill (ss : QemudSink) (buff msg : List UInt8) : SinkFill :=
  if ss.size ≤ ss.len then ⟨true, ss, buff, msg⟩
  else
    let avail := min (ss.size - ss.len) msg.length
    let ss' : QemudSink := { ss with len := ss.len + avail }
    ⟨ss'.len == ss'.size, ss', overwrite buff ss.len (msg.take avail), msg.drop avail⟩

inductive QemudVersion
  | unknown
  | legacy
  | normal
  deriving DecidableEq, Repr

/-- The receiving side of a `QemudSerial`. Both sinks fill `data0`. -/
structure QemudSerial where
  needHeader : Bool
  overflow : ℕ
  inSize : ℤ
  inChannel : ℤ
  version : QemudVersion
  header : QemudSink
  payload : QemudSink
  data0 : List UInt8
  deriving DecidableEq, Repr

/-- One call of `recv_func`. -/
structure Packet where
  channel : ℤ
  msg : List UInt8
  deriving DecidableEq, Repr

/-- `qemud_serial_init`, on the zeroed static multiplexer. -/
def qemudSerialInit : QemudSerial where
  needHeader := true
  overflow := 0
  inSize := 0
  inChannel := -1
  version := .unknown
  header := qemudSinkReset HEADER_SIZE
  payload := ⟨0, 0⟩
  data0 := List.replicate (MAX_SERIAL_PAYLOAD + 1) 0

/-- `qemud_serial_can_read`. -/
def qemudSerialCanRead (s : QemudSerial) : ℕ :=
  if 0 < s.overflow then s.overflow
  else if s.needHeader then qemudSinkNeeded s.header
  else qemudSinkNeeded s.payload

/-- The characters `"001200"` by which a legacy daemon is recognised. -/
def legacyHeader : List UInt8 := [48, 48, 49, 50, 48, 48]

/-- The version after the first header has been read into `data0`. -/
def detectVersion (v : QemudVersion) (data0 : List UInt8) : QemudVersion :=
  match v with
  | .unknown => if data0.take HEADER_SIZE = legacyHeader then .legacy else .normal
  | v => v

/-- The part of `qemud_serial_read` that decodes a complete header. -/
def qemudSerialHeader (s : QemudSerial) : QemudSerial :=
  let version := detectVersion s.version s.data0
  { s with
    version := version
    inSize := match version with
      | .legacy => hex2int (s.data0.drop LEGACY_LENGTH_OFFSET) LENGTH_SIZE
      | _ => hex2int (s.data0.drop LENGTH_OFFSET) LENGTH_SIZE
    inChannel := match version with
      | .legacy => hex2int (s.data0.drop LEGACY_CHANNEL_OFFSET) CHANNEL_SIZE
      | _ => hex2int (s.data0.drop CHANNEL_OFFSET) CHANNEL_SIZE
    header := { s.header with len := 0 } }

/-- How an iteration of a receive loop ends: with `break`, or at the head of the
loop again with the rest of the message and the callbacks made. -/
inductive LoopStep (σ β : Type)
  | stop (s : σ)
  | next (s : σ) (rest : List UInt8) (out : List β)

/-- The payload part of an iteration of `qemud_serial_read`. -/
def qemudSerialPayload (s : QemudSerial) (src : List UInt8) : LoopStep QemudSerial Packet :=
  let f := qemudSinkFill s.payload s.data0 src
  let s := { s with payload := f.sink, data0 := f.buff }
  if f.full then
    -- zero-terminate the payload, hand it over, expect a header
    let s := { s with data0 := overwrite s.data0 s.payload.size [0] }
    .next { s with needHeader := true } f.rest [⟨s.inChannel, s.data0.take s.payload.size⟩]
  else .stop s

/-- One iteration of the loop of `qemud_serial_read`. The overflow branch skips
bytes and does not change `overflow`. -/
def qemudSerialReadStep (s : QemudSerial) (src : List UInt8) : LoopStep QemudSerial Packet :=
  if 0 < s.overflow then .next s (src.drop (min s.overflow src.length)) []
  else if s.needHeader then
    let f := qemudSinkFill s.header s.data0 src
    let s := { s with header := f.sink, data0 := f.buff }
    if f.full then
      let s := qemudSerialHeader s
      if s.inSize ≤ 0 ∨ s.inChannel < 0 then .next s f.rest []
      else if (MAX_SERIAL_PAYLOAD : ℤ) < s.inSize then .next { s with overflow := s.inSize.toNat } f.rest []
      else qemudSerialPayload { s with needHeader := false, payload := qemudSinkReset s.inSize.toNat } f.rest
    else .stop s
  else qemudSerialPayload s src

/-- A receive loop `while (len > 0) { .. }` with at most `fuel` iterations. -/
def receiveLoop {σ β : Type} (step : σ → List UInt8 → LoopStep σ β) :
    ℕ → σ → List UInt8 → Option (σ × List β)
  | _, s, [] => some (s, [])
  | 0, _, _ :: _ => none
  | fuel + 1, s, x :: xs =>
    match step s (x :: xs) with
    | .stop s' => some (s', [])
    | .next s' rest out => (receiveLoop step fuel s' rest).map fun r => (r.1, out ++ r.2)

/-- `qemud_serial_read`: every iteration of its loop consumes at least one byte
(`qemudSerialRead_feed`), so `from.length` of them are enough. -/
def qemudSerialRead (s : QemudSerial) (src : List UInt8) : Option (QemudSerial × List Packet) :=
  receiveLoop qemudSerialReadStep src.length s src

/-- Successive calls of a reader on the chunks of a stream. -/
def readChunks {σ α β : Type} (read : σ → α → Option (σ × List β)) :
    σ → List α → Option (σ × List β)
  | s, [] => some (s, [])
  | s, c :: cs => do
    let r ← read s c
    let t ← readChunks read r.1 cs
    some (t.1, r.2 ++ t.2)

/-- The header of one serial packet. -/
def serialHeader (version : QemudVersion) (channel avail : ℕ) : List UInt8 :=
  match version with
  | .legacy => int2hex LENGTH_SIZE avail ++ int2hex CHANNEL_SIZE channel
  | _ => int2hex CHANNEL_SIZE channel ++ int2hex LENGTH_SIZE avail

/-- The loop of `qemud_serial_send`: `framing` is cleared once the frame header has
been written, `msg` is what is left of the message. -/
def qemudSerialSendLoop (version : QemudVersion) (channel msglen : ℕ) :
    ℕ → Bool → List UInt8 → ℕ → List UInt8
  | 0, _, _, _ => []
  | fuel + 1, framing, msg, len =>
    if 0 < len then
      let avail := min len MAX_SERIAL_PAYLOAD
      if framing then
        serialHeader version channel avail ++ int2hex FRAME_HEADER_SIZE msglen ++
          msg.take (avail - FRAME_HEADER_SIZE) ++
          qemudSerialSendLoop version channel msglen fuel false
            (msg.drop (avail - FRAME_HEADER_SIZE)) (len - avail)
      else
        serialHeader version channel avail ++ msg.take avail ++
          qemudSerialSendLoop version channel msglen fuel false (msg.drop avail) (len - avail)
    else []

/-- The bytes `qemud_serial_send` writes to the serial port; each iteration of its
loop sends at least one byte, so `len` of them are enough. -/
def qemudSerialSend (version : QemudVersion) (channel : ℤ) (framing : Bool) (msg : List UInt8) :
    List UInt8 :=
  if msg.length = 0 ∨ channel < 0 then []
  else
    let len := if framing then msg.length + FRAME_HEADER_SIZE else msg.length
    qemudSerialSendLoop version channel.toNat msg.length len framing msg len

end Emulator.Qemud
