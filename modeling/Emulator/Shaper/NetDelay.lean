import Emulator.Shaper.NetShaper

/-!
# The latency simulator (`NetDelay` of `shaper.c`)

A connection opening is kept in a session until the latency has passed. Other packets go
through.

* A session outlives its packet: `packet` is `none` once the opening has been sent.
* The readings of the clock and the value of `rand` are arguments. An opening reads the clock
  twice, for its expiration and in `netdelay_expires`.
* `sent` has the calls of `send_func`, with the time of the call.
-/

namespace Emulator.Shaper

open List

/-- The fields of `SessionRec` that are compared in `netdelay_lookup_session`. -/
structure SessionInfo where
  srcIp : UInt32 := 0
  dstIp : UInt32 := 0
  srcPort : UInt16 := 0
  dstPort : UInt16 := 0
  protocol : UInt8 := 0
  deriving DecidableEq, Repr

def protocolTcp : UInt8 := 6

def protocolUdp : UInt8 := 17

/-- `_packet_SYN_flags`: the flags, and what is stored in `info`. What is left uninitialized is
`0` here, and not read after a return of `0`. -/
def packetSynFlags (data : List UInt8) : UInt8 × SessionInfo :=
  -- room for an Ethernet MAC packet
  if 14 + 4 > data.length then (0, {})
  else if data.getD 12 0 ≠ 0x8 ∨ data.getD 13 0 ≠ 0 then (0, {})
  else
    -- `data += 14`, `end -= 4`
    let data := (data.take (data.length - 4)).drop 14
    if data.length < 20 then (0, {})
    else if data.getD 0 0 &&& 0xF < 5 ∨ data.getD 0 0 >>> 4 ≠ 4 then (0, {})
    else if data.getD 8 0 = 0 then (0, {})
    else if data.getD 9 0 ≠ protocolTcp ∧ data.getD 9 0 ≠ protocolUdp then (0, {})
    else
      let word (i : ℕ) : UInt32 :=
        (data.getD i 0).toUInt32 <<< 24 ||| (data.getD (i + 1) 0).toUInt32 <<< 16 |||
          (data.getD (i + 2) 0).toUInt32 <<< 8 ||| (data.getD (i + 3) 0).toUInt32
      let info : SessionInfo := { protocol := data.getD 9 0, srcIp := word 12, dstIp := word 16 }
      let data := data.drop (4 * (data.getD 0 0 &&& 15).toNat)
      if data.length < 20 then (0, info)
      else
        let port (i : ℕ) : UInt16 := (data.getD i 0).toUInt16 <<< 8 ||| (data.getD (i + 1) 0).toUInt16
        (data.getD 13 0 &&& 0x1f, { info with srcPort := port 0, dstPort := port 2 })

/-- `SessionRec`. -/
structure Session where
  info : SessionInfo
  expiration : ℤ
  packet : Option Packet
  deriving DecidableEq, Repr

/-- `NetDelayRec`. -/
structure NetDelay where
  sessions : List Session := []
  numSessions : ℤ := 0
  timer : Option ℤ := none
  active : Bool := false
  minMs : ℤ := 0
  maxMs : ℤ := 0
  sent : List (ℤ × Packet) := []
  deriving DecidableEq, Repr

namespace NetDelay

/-- `send_func`. -/
def sendFunc (now : ℤ) (packet : Packet) (delay : NetDelay) : NetDelay :=
  { delay with sent := delay.sent ++ [(now, packet)] }

/-- The session that `netdelay_lookup_session` finds. -/
def lookupSession (delay : NetDelay) (info : SessionInfo) : Option Session :=
  delay.sessions.find? (·.info = info)

/-- `rearm_time` after a session that waits longer. -/
def rearmTime (rearm : Option ℤ) (expiration : ℤ) : ℤ :=
  match rearm with
  | none => expiration
  | some time => if expiration < time then expiration else time

/-- The loop of `netdelay_expires`; `rearm` has `rearm_time` when it is set. -/
def expiresLoop (now : ℤ) : List Session → Option ℤ → NetDelay → List Session × Option ℤ × NetDelay
  | [], rearm, delay => ([], rearm, delay)
  | session :: next, rearm, delay =>
    match session.packet with
    | none =>
      let (sessions, res) := expiresLoop now next rearm delay
      (session :: sessions, res)
    | some packet =>
      if session.expiration ≤ now then
        let (sessions, res) := expiresLoop now next rearm (delay.sendFunc now packet)
        ({ session with packet := none } :: sessions, res)
      else
        let (sessions, res) := expiresLoop now next (some (rearmTime rearm session.expiration)) delay
        (session :: sessions, res)

/-- `netdelay_expires`. -/
def expires (now : ℤ) (delay : NetDelay) : NetDelay :=
  let (sessions, rearm, delay) := expiresLoop now delay.sessions none delay
  let delay := { delay with sessions := sessions }
  match rearm with
  | none => delay
  | some time => { delay with timer := some time }

/-- The timer expires: `qemu_run_timers` takes it off its list, and calls
`netdelay_expires`. -/
def runTimer (now : ℤ) (delay : NetDelay) : NetDelay := expires now { delay with timer := none }

/-- The loop of `netdelay_set_latency`. -/
def setLatencyLoop (now : ℤ) : List Session → NetDelay → NetDelay
  | [], delay => delay
  | session :: next, delay =>
    let delay := { delay with sessions := next }
    let delay :=
      match session.packet with
      | none => delay
      | some packet => delay.sendFunc now packet
    setLatencyLoop now next { delay with numSessions := delay.numSessions - 1 }

/-- `netdelay_set_latency`. -/
def setLatency (now minMs maxMs : ℤ) (delay : NetDelay) : NetDelay :=
  { setLatencyLoop now delay.sessions delay with
    minMs := minMs
    maxMs := maxMs
    active := minMs ≤ maxMs ∧ minMs > 0 }

/-- How long a new session is delayed; `rand` is the value of `rand ()`. -/
def latency (delay : NetDelay) (rand : ℕ) : ℤ :=
  let range := delay.maxMs - delay.minMs
  if range > 0 then delay.minMs + rand % range else delay.minMs

/-- `netdelay_send_aux`. -/
def sendAux (now now' : ℤ) (rand : ℕ) (packet : Packet) (delay : NetDelay) : NetDelay :=
  if delay.active && !packetIsInternal packet.data then
    let (flags, info) := packetSynFlags packet.data
    if flags &&& 0x05 ≠ 0 then
      -- FIN or RST: drop connection
      match delay.lookupSession info with
      | some _ =>
        { delay with
          sessions := delay.sessions.eraseP (·.info = info)
          numSessions := delay.numSessions - 1 }.sendFunc now packet
      | none => delay.sendFunc now packet
    else if flags &&& 0x12 = 0x02 then
      -- SYN: create connection
      match delay.lookupSession info with
      | some session =>
        match session.packet with
        | some _ => delay
        | none => delay.sendFunc now packet
      | none =>
        let session : Session := { info := info, expiration := now + delay.latency rand, packet := some packet }
        expires now' { delay with
          sessions := session :: delay.sessions
          numSessions := delay.numSessions + 1 }
    else delay.sendFunc now packet
  else delay.sendFunc now packet

end NetDelay

/-- The packets that wait in sessions, with their times. -/
def pending (sessions : List Session) : List (ℤ × Packet) :=
  sessions.filterMap fun session => session.packet.map (session.expiration, ·)

/-- The packets whose time has come. -/
def dueAt (now : ℤ) (packets : List (ℤ × Packet)) : List Packet :=
  (packets.filter (·.1 ≤ now)).map (·.2)

/-- The packets that stay. -/
def later (now : ℤ) (packets : List (ℤ × Packet)) : List (ℤ × Packet) :=
  packets.filter (now < ·.1)

theorem pending_cons_some (info : SessionInfo) (expiration : ℤ) (packet : Packet) (sessions : List Session) :
    pending (⟨info, expiration, some packet⟩ :: sessions) = (expiration, packet) :: pending sessions := rfl

theorem dueAt_cons (now : ℤ) (a : ℤ × Packet) (packets : List (ℤ × Packet)) :
    dueAt now (a :: packets) = if a.1 ≤ now then a.2 :: dueAt now packets else dueAt now packets := by
  simp only [dueAt, filter_cons, decide_eq_true_eq]
  split_ifs <;> rfl

theorem later_cons (now : ℤ) (a : ℤ × Packet) (packets : List (ℤ × Packet)) :
    later now (a :: packets) = if now < a.1 then a :: later now packets else later now packets := by
  simp only [later, filter_cons, decide_eq_true_eq]

theorem cons_later_ne {now : ℤ} {a : ℤ × Packet} (h : now < a.1) (packets : List (ℤ × Packet)) :
    a :: later now packets ≠ packets := by
  intro heq
  have hlater := congrArg (fun l => (later now l).length) heq
  simp [h, later, filter_filter] at hlater

theorem dueAt_later_perm (now : ℤ) (packets : List (ℤ × Packet)) :
    (dueAt now packets ++ (later now packets).map (·.2)).Perm (packets.map (·.2)) := by
  rw [dueAt, ← map_append]
  apply List.Perm.map
  have hperm := filter_append_perm (fun a : ℤ × Packet => decide (a.1 ≤ now)) packets
  have hlater : packets.filter (fun a => !decide (a.1 ≤ now)) = later now packets := by
    apply filter_congr
    intro a _
    by_cases ha : a.1 ≤ now
    · simp [ha, not_lt.2 ha]
    · simp [ha, not_le.1 ha]
  rwa [hlater] at hperm

/-- The timer is armed for `session`, if that has a packet. -/
def Armed (timer : Option ℤ) (session : Session) : Prop :=
  session.packet ≠ none → ∃ due, timer = some due ∧ due ≤ session.expiration

theorem Armed.mono {timer timer' : Option ℤ} {session : Session}
    (h : ∀ due, timer = some due → ∃ due', timer' = some due' ∧ due' ≤ due) (harmed : Armed timer session) :
    Armed timer' session := by
  intro hpacket
  obtain ⟨due, hdue, hle⟩ := harmed hpacket
  obtain ⟨due', hdue', hle'⟩ := h due hdue
  exact ⟨due', hdue', hle'.trans hle⟩

/-- What `netdelay_expires` leaves of a session. -/
def Session.release (now : ℤ) (session : Session) : Session :=
  if session.expiration ≤ now then { session with packet := none } else session

theorem pending_release (now : ℤ) (sessions : List Session) :
    pending (sessions.map (Session.release now)) = later now (pending sessions) := by
  induction sessions with
  | nil => rfl
  | cons session next ih =>
    obtain ⟨info, expiration, packet⟩ := session
    simp only [pending, later, Session.release, map_cons] at ih ⊢
    cases packet with
    | none => split_ifs <;> simpa using ih
    | some packet =>
      split_ifs with hdue
      · simpa [not_lt.2 hdue] using ih
      · simpa [not_le.1 hdue] using ih

namespace NetDelay

variable {delay : NetDelay} {now now' t : ℤ} {rand : ℕ} {packet : Packet}

/-- The loop of `netdelay_expires`: the sessions, and the calls of `send_func`. -/
theorem expiresLoop_eq (now : ℤ) (sessions : List Session) (rearm : Option ℤ) (delay : NetDelay) :
    (expiresLoop now sessions rearm delay).1 = sessions.map (Session.release now) ∧
      (expiresLoop now sessions rearm delay).2.2 =
        { delay with sent := delay.sent ++ (dueAt now (pending sessions)).map (now, ·) } := by
  induction sessions generalizing rearm delay with
  | nil => simp [expiresLoop, dueAt, pending]
  | cons session next ih =>
    obtain ⟨info, expiration, packet⟩ := session
    cases packet with
    | none =>
      simp only [expiresLoop]
      obtain ⟨hsessions, hdelay⟩ := ih rearm delay
      refine ⟨?_, ?_⟩
      · simp [hsessions, Session.release]
      · simpa [pending] using hdelay
    | some packet =>
      simp only [expiresLoop]
      split_ifs with hdue
      · obtain ⟨hsessions, hdelay⟩ := ih rearm (delay.sendFunc now packet)
        refine ⟨?_, ?_⟩
        · simp [hsessions, Session.release, hdue]
        · dsimp only
          rw [hdelay]
          simp [pending, dueAt, hdue, sendFunc]
      · refine ⟨?_, ?_⟩
        · simp [(ih _ delay).1, Session.release, hdue]
        · simp [(ih _ delay).2, pending, dueAt, hdue]

theorem rearmTime_le (rearm : Option ℤ) (expiration : ℤ) :
    rearmTime rearm expiration ≤ expiration ∧ ∀ due, rearm = some due → rearmTime rearm expiration ≤ due := by
  unfold rearmTime
  cases rearm with
  | none => simp
  | some time =>
    dsimp only
    split_ifs with hlt
    · exact ⟨le_refl _, fun due hdue => by cases hdue; omega⟩
    · exact ⟨by omega, fun due hdue => by cases hdue; omega⟩

/-- The loop of `netdelay_expires`: the time for the timer is not later than any of those that wait
longer. -/
theorem expiresLoop_rearm (now : ℤ) (sessions : List Session) (rearm : Option ℤ) (delay : NetDelay) :
    (∀ session ∈ sessions.map (Session.release now), Armed (expiresLoop now sessions rearm delay).2.1 session) ∧
      ∀ due, rearm = some due → ∃ due', (expiresLoop now sessions rearm delay).2.1 = some due' ∧ due' ≤ due := by
  induction sessions generalizing rearm delay with
  | nil => exact ⟨by simp, fun due hdue => ⟨due, hdue, le_refl _⟩⟩
  | cons session next ih =>
    obtain ⟨info, expiration, packet⟩ := session
    cases packet with
    | none =>
      simp only [expiresLoop]
      obtain ⟨harmed, hrearm⟩ := ih rearm delay
      refine ⟨fun session hsession => ?_, hrearm⟩
      rcases mem_cons.1 hsession with rfl | hsession
      · intro hpacket
        simp [Session.release] at hpacket
      · exact harmed session hsession
    | some packet =>
      simp only [expiresLoop]
      split_ifs with hexp
      · obtain ⟨harmed, hrearm⟩ := ih rearm (delay.sendFunc now packet)
        refine ⟨fun session hsession => ?_, hrearm⟩
        rcases mem_cons.1 hsession with rfl | hsession
        · intro hpacket
          simp [Session.release, hexp] at hpacket
        · exact harmed session hsession
      · -- `rearm_time` is now at most the expiration of this session
        obtain ⟨harmed, hrearm⟩ := ih (some (rearmTime rearm expiration)) delay
        obtain ⟨due', hdue', hle⟩ := hrearm _ rfl
        have hmin := rearmTime_le rearm expiration
        refine ⟨fun session hsession => ?_, fun due hdue => ⟨due', hdue', hle.trans (hmin.2 due hdue)⟩⟩
        rcases mem_cons.1 hsession with rfl | hsession
        · intro _
          refine ⟨due', hdue', hle.trans ?_⟩
          rw [Session.release, if_neg hexp]
          exact hmin.1
        · exact harmed session hsession

/-- `netdelay_expires`: what is due is sent, and the timer is armed for the rest. -/
theorem expires_eq (now : ℤ) (delay : NetDelay) :
    ∃ timer, expires now delay =
        { delay with
          sessions := delay.sessions.map (Session.release now)
          timer := timer
          sent := delay.sent ++ (dueAt now (pending delay.sessions)).map (now, ·) } ∧
      ∀ session ∈ delay.sessions.map (Session.release now), Armed timer session := by
  obtain ⟨hsessions, hdelay⟩ := expiresLoop_eq now delay.sessions none delay
  have harmed := (expiresLoop_rearm now delay.sessions none delay).1
  unfold expires
  generalize expiresLoop now delay.sessions none delay = loop at hsessions hdelay harmed ⊢
  obtain ⟨sessions, rearm, res⟩ := loop
  dsimp only at hsessions hdelay harmed ⊢
  rw [hsessions, hdelay]
  cases rearm with
  | some time => exact ⟨_, rfl, harmed⟩
  | none =>
    -- nothing waits, so the timer does not matter
    refine ⟨_, rfl, fun session hsession => (harmed session hsession).mono ?_⟩
    simp

theorem setLatencyLoop_eq (now : ℤ) (sessions : List Session) (delay : NetDelay) (h : delay.sessions = sessions) :
    setLatencyLoop now sessions delay =
      { delay with
        sessions := []
        numSessions := delay.numSessions - sessions.length
        sent := delay.sent ++ (pending sessions).map fun a => (now, a.2) } := by
  induction sessions generalizing delay with
  | nil =>
    cases delay
    cases h
    simp [setLatencyLoop, pending]
  | cons session next ih =>
    obtain ⟨info, expiration, packet⟩ := session
    cases packet with
    | none =>
      simp only [setLatencyLoop]
      rw [ih _ rfl]
      simp [pending]
      omega
    | some packet =>
      simp only [setLatencyLoop]
      rw [ih _ rfl]
      simp [pending, sendFunc]
      omega

end NetDelay

end Emulator.Shaper
