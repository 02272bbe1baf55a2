import Emulator.Exec.TbState

/-!
# The goldfish events device (`goldfish_events_device.c`)

The state of the device, its queue of event words, and the tables that the guest reads page by page.

A read that leaves its table, or goes through a missing one, gives `none`.
-/

namespace Emulator.Goldfish

open Exec (orByte fillBytes)

/-- `MAX_EVENTS`. -/
def maxEvents : ℕ := 256 * 4

def REG_READ : ℤ := 0x00
def REG_SET_PAGE : ℤ := 0x00
def REG_LEN : ℤ := 0x04
def REG_DATA : ℤ := 0x08

def EV_ABS : ℕ := 0x03
def EV_MAX : ℕ := 0x1f

def PAGE_NAME : ℤ := 0x00000
def PAGE_EVBITS : ℤ := 0x10000
def PAGE_ABSDATA : ℤ := ((0x20000 ||| EV_ABS : ℕ) : ℤ)

/-- An entry of `ev_bits`: a table of `len` bytes, or no table with the length 0. -/
structure EvBits where
  len : ℕ
  bits : ℕ → BitVec 8

/-- An `events_state`. `irq` is the level of the interrupt line, `name` the text without its terminator. -/
structure EventsState where
  irq : Bool
  page : BitVec 32
  events : ℕ → BitVec 32
  first : BitVec 32
  last : BitVec 32
  name : List (BitVec 8)
  evBits : ℕ → EvBits
  absInfo : List (BitVec 32)
  absInfoCount : ℕ

/-- A new `events_state`, all zeros but for the name. -/
def newEventsState (name : List (BitVec 8)) : EventsState where
  irq := false
  page := 0
  events := fun _ => 0
  first := 0
  last := 0
  name
  evBits := fun _ => ⟨0, fun _ => 0⟩
  absInfo := []
  absInfoCount := 0

namespace EventsState

variable (s : EventsState)

/-- How many words `enqueue_event` finds in the queue. -/
def enqueued : ℤ :=
  let enqueued := (s.last - s.first).toInt
  if enqueued < 0 then enqueued + maxEvents else enqueued

/-- The test before "Full queue, lose event". -/
def full : Bool := s.enqueued + 3 ≥ (maxEvents : ℤ) - 1

/-- The index behind `i`. -/
def next (i : BitVec 32) : BitVec 32 := (i + 1) &&& BitVec.ofNat 32 (maxEvents - 1)

/-- A word goes to the end of the queue. -/
def putWord (w : BitVec 32) : EventsState :=
  { s with events := Function.update s.events s.last.toNat w, last := next s.last }

/-- `enqueue_event`. -/
def enqueueEvent (type code value : BitVec 32) : EventsState :=
  if s.full then s
  else
    let s := if s.first = s.last then { s with irq := true } else s
    ((s.putWord type).putWord code).putWord value

/-- `dequeue_event`. -/
def dequeueEvent : BitVec 32 × EventsState :=
  if s.first = s.last then (0, s)
  else
    let n := s.events s.first.toNat
    let s := { s with first := next s.first }
    (n, if s.first = s.last then { s with irq := false } else s)

/-- `get_page_len`. -/
def getPageLen : ℤ :=
  let page := s.page.toInt
  if page = PAGE_NAME then (BitVec.ofNat 32 s.name.length).toInt
  else if page ≥ PAGE_EVBITS ∧ page ≤ PAGE_EVBITS + EV_MAX then
    (BitVec.ofNat 32 (s.evBits (page - PAGE_EVBITS).toNat).len).toInt
  else if page = PAGE_ABSDATA then (BitVec.ofNat 32 (s.absInfoCount * 4)).toInt
  else 0

/-- `get_page_data`, for the offsets that `events_read` has. -/
def getPageData (offset : ℕ) : Option (BitVec 32) :=
  let page := s.page.toInt
  if offset > s.getPageLen then some 0
  else if page = PAGE_NAME then (s.name ++ [0])[offset]?.map (BitVec.signExtend 32)
  else if page ≥ PAGE_EVBITS ∧ page ≤ PAGE_EVBITS + EV_MAX then
    let t := s.evBits (page - PAGE_EVBITS).toNat
    if offset < t.len then some ((t.bits offset).zeroExtend 32) else none
  else if page = PAGE_ABSDATA then s.absInfo[offset / 4]?
  else some 0

/-- `events_read`. -/
def eventsRead (off : BitVec 32) : Option (BitVec 32 × EventsState) :=
  let offset := off.toInt
  if offset = REG_READ then some s.dequeueEvent
  else if offset = REG_LEN then some (BitVec.ofInt 32 s.getPageLen, s)
  else if offset ≥ REG_DATA then (s.getPageData (offset - REG_DATA).toNat).map fun v => (v, s)
  else some (0, s)

/-- `events_write`. -/
def eventsWrite (off val : BitVec 32) : EventsState := if off.toInt = REG_SET_PAGE then { s with page := val } else s

/-- `ev_bits[type]`, grown to hold the byte `ih`. -/
def growBits (t : EvBits) (ih : ℕ) : EvBits :=
  if ih ≥ t.len then ⟨ih + 1, fun i => if i < t.len then t.bits i else 0⟩ else t

/-- What `events_set_bits` does to a table that is large enough. -/
def maskBits (bits : ℕ → BitVec 8) (bitl bith : ℕ) : ℕ → BitVec 8 :=
  let il := bitl / 8
  let ih := bith / 8
  let maskl := 0xff#8 <<< (bitl % 8)
  let maskh := 0xff#8 >>> (7 - bith % 8)
  if il ≥ ih then orByte bits ih (maskh &&& maskl)
  else orByte (fillBytes (orByte bits il maskl) (il + 1) (ih - (il + 1))) ih maskh

/-- `events_set_bits`. -/
def eventsSetBits (type bitl bith : ℕ) : EventsState :=
  let t := growBits (s.evBits type) (bith / 8)
  { s with evBits := Function.update s.evBits type { t with bits := maskBits t.bits bitl bith } }

/-- `events_set_bit`. -/
def eventsSetBit (type bit : ℕ) : EventsState := s.eventsSetBits type bit bit

end EventsState

end Emulator.Goldfish
