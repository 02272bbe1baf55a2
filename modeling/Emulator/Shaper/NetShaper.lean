import Mathlib

/-!
# The network shaper (`NetShaper` of `shaper.c`)

A shaper holds back the packets of one direction. A packet that comes before `block_until` is
put into a queue sorted by expiration, and a timer sends the head of the queue when it is due.

* Times are milliseconds of `rt_clock`. Each reading of the clock is an argument.
* The calls of `send_func` are kept in `sent`, with the time of the call.
* `inv_rate` is a rational number. What is stored in the `int64_t block_until` is truncated.
* `do_copy` is set: a queued packet has its own bytes.
-/

namespace Emulator.Shaper

/-- What `send_func` is given: the bytes, and the pointer of the caller. -/
structure Packet where
  data : List UInt8
  opaquePtr : ℕ := 0
  deriving DecidableEq, Repr

/-- `_packet_is_internal`. -/
def packetIsInternal (data : List UInt8) : Bool :=
  -- room for the MAC and the IP header
  if data.length < 40 then false
  else if data.getD 12 0 ≠ 0x08 ∨ data.getD 13 0 ≠ 0x00 then false
  else
    let data := data.drop 14
    if data.getD 0 0 >>> 4 ≠ 4 ∨ data.getD 0 0 &&& 15 < 5 then false
    else data.getD 12 0 == 10 && data.getD 16 0 == 10

/-- `QueuedPacketRec`. -/
structure QueuedPacket where
  expiration : ℤ
  packet : Packet
  deriving DecidableEq, Repr

/-- The walk over `pnode` in `netshaper_send_aux`: in front of the first node that expires
later. -/
def enqueue (packet : QueuedPacket) (packets : List QueuedPacket) : List QueuedPacket :=
  packets.orderedInsert (fun a b => a.expiration < b.expiration) packet

/-- The conversion of a `double` to `int64_t`. -/
def truncate (x : ℚ) : ℤ := if 0 ≤ x then ⌊x⌋ else ⌈x⌉

/-- `NetShaperRec`. -/
structure NetShaper where
  packets : List QueuedPacket := []
  numPackets : ℤ := 0
  active : Bool := false
  /-- `-1` is the magic value of the source for not to block. -/
  blockUntil : ℤ := -1
  invRate : ℚ := 0
  /-- When the timer is to expire, `none` if it is not armed. -/
  timer : Option ℤ := none
  sent : List (ℤ × Packet) := []
  deriving DecidableEq, Repr

namespace NetShaper

/-- `send_func`. -/
def sendFunc (now : ℤ) (packet : Packet) (shaper : NetShaper) : NetShaper :=
  { shaper with sent := shaper.sent ++ [(now, packet)] }

/-- The loop of `netshaper_expires` over the list `packets`; `clock i` is the reading of the
clock in its round `i`. -/
def expiresLoop (clock : ℕ → ℤ) : ℕ → List QueuedPacket → NetShaper → NetShaper
  | _, [], shaper => shaper
  | i, packet :: next, shaper =>
    if packet.expiration > clock i then shaper
    else
      let shaper := { shaper with packets := next }
      let shaper := shaper.sendFunc (clock i) packet.packet
      expiresLoop clock (i + 1) next { shaper with numPackets := shaper.numPackets - 1 }

/-- `netshaper_expires`; `qemu_run_timers` has taken the timer off its list before. -/
def expires (clock : ℕ → ℤ) (shaper : NetShaper) : NetShaper :=
  let shaper := expiresLoop clock 0 shaper.packets { shaper with timer := none }
  match shaper.packets with
  | packet :: _ => { shaper with blockUntil := packet.expiration, timer := some packet.expiration }
  | [] => { shaper with blockUntil := -1 }

/-- The loop of `netshaper_set_rate` over the list `packets`. -/
def setRateLoop (now : ℤ) : List QueuedPacket → NetShaper → NetShaper
  | [], shaper => shaper
  | packet :: next, shaper =>
    let shaper := { shaper with packets := next }
    let shaper := shaper.sendFunc now packet.packet
    setRateLoop now next { shaper with numPackets := 0 }

/-- `netshaper_set_rate`. -/
def setRate (now : ℤ) (rate : ℚ) (shaper : NetShaper) : NetShaper :=
  let shaper := setRateLoop now shaper.packets shaper
  let shaper :=
    if rate > 1 then { shaper with invRate := 8 * 1000 / rate, active := true }
    else { shaper with active := false }
  { shaper with blockUntil := -1 }

/-- `netshaper_send_aux`. -/
def sendAux (now : ℤ) (packet : Packet) (shaper : NetShaper) : NetShaper :=
  if !shaper.active || packetIsInternal packet.data then shaper.sendFunc now packet
  else if now ≥ shaper.blockUntil then
    { shaper.sendFunc now packet with blockUntil := truncate (now + packet.data.length * shaper.invRate) }
  else
    let queued : QueuedPacket := { expiration := shaper.blockUntil, packet := packet }
    { shaper with
      packets := enqueue queued shaper.packets
      -- the new node is the first one: `packet == shaper->packets` compares pointers
      timer :=
        if shaper.packets.head?.all (fun node => node.expiration > queued.expiration) then
          some queued.expiration
        else shaper.timer
      numPackets := shaper.numPackets + 1
      blockUntil := truncate (shaper.blockUntil + packet.data.length * shaper.invRate) }

variable {shaper : NetShaper} {now : ℤ} {packet : Packet}

@[simp] theorem sendFunc_packets : (shaper.sendFunc now packet).packets = shaper.packets := rfl
@[simp] theorem sendFunc_numPackets : (shaper.sendFunc now packet).numPackets = shaper.numPackets := rfl
@[simp] theorem sendFunc_active : (shaper.sendFunc now packet).active = shaper.active := rfl
@[simp] theorem sendFunc_blockUntil : (shaper.sendFunc now packet).blockUntil = shaper.blockUntil := rfl
@[simp] theorem sendFunc_invRate : (shaper.sendFunc now packet).invRate = shaper.invRate := rfl
@[simp] theorem sendFunc_timer : (shaper.sendFunc now packet).timer = shaper.timer := rfl
@[simp] theorem sendFunc_sent : (shaper.sendFunc now packet).sent = shaper.sent ++ [(now, packet)] := rfl

theorem setRateLoop_eq (now : ℤ) (packets : List QueuedPacket) (shaper : NetShaper)
    (h : shaper.packets = packets) :
    setRateLoop now packets shaper =
      { shaper with
        packets := []
        numPackets := if packets = [] then shaper.numPackets else 0
        sent := shaper.sent ++ packets.map fun q => (now, q.packet) } := by
  induction packets generalizing shaper with
  | nil =>
    cases shaper
    cases h
    simp [setRateLoop]
  | cons q next ih =>
    rw [setRateLoop, ih _ rfl]
    simp

/-- A run of the timer takes packets from the front of the queue, and sends them in this
order. -/
theorem expiresLoop_eq (clock : ℕ → ℤ) (i : ℕ) (packets : List QueuedPacket) (shaper : NetShaper)
    (h : shaper.packets = packets) :
    ∃ gone stay, packets = gone ++ stay ∧
      expiresLoop clock i packets shaper =
        { shaper with
          packets := stay
          numPackets := shaper.numPackets - gone.length
          sent := shaper.sent ++ gone.mapIdx fun j q => (clock (i + j), q.packet) } := by
  induction packets generalizing i shaper with
  | nil =>
    refine ⟨[], [], rfl, ?_⟩
    cases shaper
    cases h
    simp [expiresLoop]
  | cons q next ih =>
    rw [expiresLoop]
    split_ifs with hdue
    · refine ⟨[], q :: next, rfl, ?_⟩
      cases shaper
      cases h
      simp
    · obtain ⟨gone, stay, hsplit, heq⟩ := ih (i + 1)
        { (({ shaper with packets := next } : NetShaper).sendFunc (clock i) q.packet) with
          numPackets := shaper.numPackets - 1 } rfl
      refine ⟨q :: gone, stay, by rw [hsplit]; rfl, ?_⟩
      dsimp only
      rw [sendFunc_numPackets, heq]
      simp [List.mapIdx_cons, Nat.add_comm, Nat.add_left_comm, sendFunc]
      omega

end NetShaper

end Emulator.Shaper
