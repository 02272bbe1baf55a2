import Emulator.Shaper.NetDelay

/-!
# What the latency simulator does with the packets

A packet is to be sent at once. A TCP SYN that opens a session waits for the expiration of the
session, or for a change of the latency. One that repeats a pending SYN is not sent, and a
pending SYN is not sent any more when its session is closed (`Opens`, `Repeats`, `Closes`).

* `Inv.run`: the sessions are counted, their keys are distinct, and the timer is armed for those
  that wait.
* `timely`: when each packet is sent, provided that what is taken for a TCP segment is one
  (`Genuine`). `_packet_SYN_flags` reads the flags of UDP packets too.
* `reach_delay`: every packet of a run is sent once, or waits, or is one of the two exceptions.
-/

namespace Emulator.Shaper

open List

/-- The packet starts with the header of a TCP segment: it is for TCP, and no later fragment of
an IP datagram. -/
def HasTcpHeader (data : List UInt8) : Prop :=
  data.getD 23 0 = protocolTcp ∧ data.getD 20 0 &&& 0x1f = 0 ∧ data.getD 21 0 = 0

instance (data : List UInt8) : Decidable (HasTcpHeader data) := inferInstanceAs (Decidable (_ ∧ _))

/-- The bits of SYN without ACK, and neither FIN nor RST, where TCP has its flags. -/
def synBits (data : List UInt8) : Bool :=
  (packetSynFlags data).1 &&& 0x05 == 0 && (packetSynFlags data).1 &&& 0x12 == 0x02

/-- The bits of FIN or RST. -/
def closeBits (data : List UInt8) : Bool := (packetSynFlags data).1 &&& 0x05 != 0

namespace NetDelay

/-- Packets that the simulator looks at. -/
def looksAt (delay : NetDelay) (packet : Packet) : Bool := delay.active && !packetIsInternal packet.data

/-- The packet that waits in the session of `packet`. -/
def waiting (delay : NetDelay) (packet : Packet) : Option Packet :=
  (delay.lookupSession (packetSynFlags packet.data).2).bind (·.packet)

/-- A TCP SYN without ACK that opens a new session. -/
def Opens (delay : NetDelay) (packet : Packet) : Prop :=
  delay.looksAt packet ∧ HasTcpHeader packet.data ∧ synBits packet.data ∧
    delay.lookupSession (packetSynFlags packet.data).2 = none

/-- A TCP SYN without ACK that repeats a pending one. -/
def Repeats (delay : NetDelay) (packet : Packet) : Prop :=
  delay.looksAt packet ∧ HasTcpHeader packet.data ∧ synBits packet.data ∧ delay.waiting packet ≠ none

/-- A TCP FIN or RST of a session with a pending SYN. -/
def Closes (delay : NetDelay) (packet : Packet) : Prop :=
  delay.looksAt packet ∧ HasTcpHeader packet.data ∧ closeBits packet.data ∧ delay.waiting packet ≠ none

instance (delay : NetDelay) (packet : Packet) : Decidable (delay.Opens packet) := inferInstanceAs (Decidable (_ ∧ _))

instance (delay : NetDelay) (packet : Packet) : Decidable (delay.Repeats packet) := inferInstanceAs (Decidable (_ ∧ _))

instance (delay : NetDelay) (packet : Packet) : Decidable (delay.Closes packet) := inferInstanceAs (Decidable (_ ∧ _))

/-- What is taken for a TCP segment that delays a packet, or withholds one, is a TCP segment. -/
def Genuine (delay : NetDelay) (packet : Packet) : Prop :=
  delay.looksAt packet →
    (synBits packet.data → delay.lookupSession (packetSynFlags packet.data).2 = none ∨ delay.waiting packet ≠ none →
      HasTcpHeader packet.data) ∧
    (closeBits packet.data → delay.waiting packet ≠ none → HasTcpHeader packet.data)

instance (delay : NetDelay) (packet : Packet) : Decidable (delay.Genuine packet) := inferInstanceAs (Decidable (_ → _))

/-- What happens to a simulator, with the readings of the clock. -/
inductive Event
  | send (now now' : ℤ) (rand : ℕ) (packet : Packet)
  | expires (now : ℤ)
  | setLatency (now minMs maxMs : ℤ)

def Event.time : Event → ℤ
  | send _ now' _ _ => now'
  | expires now => now
  | setLatency now _ _ => now

def Event.run (delay : NetDelay) : Event → NetDelay
  | send now now' rand packet => delay.sendAux now now' rand packet
  | expires now => delay.runTimer now
  | setLatency now minMs maxMs => delay.setLatency now minMs maxMs

/-- The clock stood at `t` before, and the timer expires when it is due or later. -/
def Event.Legal (delay : NetDelay) (t : ℤ) : Event → Prop
  | send now now' _ _ => t ≤ now ∧ now ≤ now'
  | expires now => t ≤ now ∧ ∃ due, delay.timer = some due ∧ due ≤ now
  | setLatency now _ _ => t ≤ now

def Event.handed : Event → List Packet
  | send _ _ _ packet => [packet]
  | _ => []

/-- The packets that are never to be sent, from this event on. -/
def Event.withheld (delay : NetDelay) : Event → List Packet
  | send _ _ _ packet =>
    if delay.Repeats packet then [packet] else if delay.Closes packet then (delay.waiting packet).toList else []
  | _ => []

/-- **When packets are to be sent.** A packet that opens a session waits until the time of the
session has come, and others that are due are sent with it; a packet that repeats one is not sent, and
all others are sent at once. -/
def Timely (delay : NetDelay) : Event → Prop
  | .send now now' rand packet =>
    let delay' := delay.sendAux now now' rand packet
    let waits := pending delay.sessions
    if delay.Opens packet then
      let waits := (now + delay.latency rand, packet) :: waits
      delay'.sent = delay.sent ++ (dueAt now' waits).map (now', ·) ∧ pending delay'.sessions = later now' waits
    else if delay.Repeats packet then delay'.sent = delay.sent ∧ pending delay'.sessions = waits
    else
      delay'.sent = delay.sent ++ [(now, packet)] ∧
        (pending delay'.sessions).Sublist waits ∧
        ((pending delay'.sessions).map (·.2) ++ (Event.send now now' rand packet).withheld delay).Perm (waits.map (·.2))
  | .expires now =>
    let delay' := delay.runTimer now
    let waits := pending delay.sessions
    delay'.sent = delay.sent ++ (dueAt now waits).map (now, ·) ∧ pending delay'.sessions = later now waits
  | .setLatency now minMs maxMs =>
    let delay' := delay.setLatency now minMs maxMs
    let waits := pending delay.sessions
    delay'.sent = delay.sent ++ waits.map (fun a => (now, a.2)) ∧ pending delay'.sessions = []

/-- The sessions are the ones that the fields of the simulator tell of. -/
structure Inv (delay : NetDelay) : Prop where
  count : delay.numSessions = delay.sessions.length
  distinct : (delay.sessions.map (·.info)).Nodup
  armed : ∀ session ∈ delay.sessions, Armed delay.timer session
  latency : delay.active = true → 0 < delay.minMs

variable {delay : NetDelay} {now now' t : ℤ} {rand : ℕ} {packet : Packet}

theorem Inv.expires (hcount : delay.numSessions = delay.sessions.length)
    (hdistinct : (delay.sessions.map (·.info)).Nodup) (hlatency : delay.active = true → 0 < delay.minMs) (now : ℤ) :
    (NetDelay.expires now delay).Inv := by
  obtain ⟨timer, heq, harmed⟩ := expires_eq now delay
  have hinfo : (delay.sessions.map (Session.release now)).map (·.info) = delay.sessions.map (·.info) := by
    rw [map_map]
    apply map_congr_left
    intro session _
    simp only [Function.comp_apply, Session.release]
    split_ifs <;> rfl
  rw [heq]
  exact ⟨by simpa using hcount, by dsimp only; rwa [hinfo], harmed, hlatency⟩

theorem Inv.setLatency (hinv : delay.Inv) (now minMs maxMs : ℤ) : (delay.setLatency now minMs maxMs).Inv := by
  unfold NetDelay.setLatency
  rw [setLatencyLoop_eq now delay.sessions delay rfl]
  exact ⟨by simp [hinv.count], nodup_nil, by simp, fun h => (of_decide_eq_true h).2⟩

theorem lookupSession_split {info : SessionInfo} {session : Session} (h : delay.lookupSession info = some session) :
    session.info = info ∧ ∃ before after, delay.sessions = before ++ session :: after ∧
      delay.sessions.eraseP (·.info = info) = before ++ after := by
  obtain ⟨hkey, before, after, hsplit, hbefore⟩ := List.find?_eq_some_iff_append.1 h
  refine ⟨by simpa using hkey, before, after, hsplit, ?_⟩
  rw [hsplit, eraseP_append_right _ (by simpa using hbefore)]
  exact congrArg (before ++ ·) (eraseP_cons_of_pos (p := fun s : Session => decide (s.info = info)) hkey)

theorem Inv.sendAux (hinv : delay.Inv) : (delay.sendAux now now' rand packet).Inv := by
  have hsame : (delay.sendFunc now packet).Inv :=
    ⟨hinv.count, hinv.distinct, hinv.armed, hinv.latency⟩
  unfold NetDelay.sendAux
  split
  · generalize packetSynFlags packet.data = res
    obtain ⟨flags, info⟩ := res
    dsimp only
    split_ifs with hclose hopen
    · cases hlookup : delay.lookupSession info with
      | none => exact hsame
      | some session =>
        -- the session is taken out of the list
        obtain ⟨-, before, after, hsplit, herase⟩ := lookupSession_split hlookup
        have hcount := hinv.count
        have hdistinct := hinv.distinct
        have hsub : (before ++ after).Sublist delay.sessions := by
          rw [hsplit]
          exact (sublist_cons_self _ _).append_left _
        dsimp only
        rw [herase]
        refine ⟨?_, hdistinct.sublist (hsub.map _), fun s hs => hinv.armed s (hsub.subset hs),
          hinv.latency⟩
        rw [hsplit] at hcount
        simp only [NetDelay.sendFunc, length_append, length_cons] at hcount ⊢
        omega
    · cases hlookup : delay.lookupSession info with
      | none =>
        have hnew : ∀ session ∈ delay.sessions, session.info ≠ info := by
          simpa [lookupSession, List.find?_eq_none] using hlookup
        dsimp only
        apply Inv.expires
        · simp [hinv.count]
        · refine nodup_cons.2 ⟨?_, hinv.distinct⟩
          simpa using hnew
        · exact hinv.latency
      | some session =>
        dsimp only
        cases session.packet with
        | none => exact hsame
        | some _ => exact hinv
    · exact hsame
  · exact hsame

theorem Inv.run (hinv : delay.Inv) (event : Event) : (event.run delay).Inv := by
  cases event with
  | send now now' rand packet => exact hinv.sendAux
  | expires now =>
    change (NetDelay.expires now { delay with timer := none }).Inv
    exact Inv.expires (by exact hinv.count) (by exact hinv.distinct) (by exact hinv.latency) now
  | setLatency now minMs maxMs => exact hinv.setLatency now minMs maxMs

theorem sendAux_passed (h : delay.looksAt packet = false) :
    delay.sendAux now now' rand packet = delay.sendFunc now packet := by
  unfold NetDelay.sendAux
  exact if_neg (by simpa [looksAt] using h)

theorem sendAux_close (now now' : ℤ) (rand : ℕ) (h : delay.looksAt packet) (hclose : closeBits packet.data) :
    (delay.sendAux now now' rand packet).sent = delay.sent ++ [(now, packet)] ∧
      (delay.sendAux now now' rand packet).sessions =
        delay.sessions.eraseP (·.info = (packetSynFlags packet.data).2) := by
  unfold NetDelay.sendAux
  rw [if_pos (by simpa [looksAt] using h)]
  dsimp only
  rw [if_pos (by simpa [closeBits] using hclose)]
  cases hlookup : delay.lookupSession (packetSynFlags packet.data).2 with
  | some session => exact ⟨rfl, rfl⟩
  | none =>
    refine ⟨rfl, ?_⟩
    symm
    apply eraseP_of_forall_not
    simpa [lookupSession, List.find?_eq_none] using hlookup

theorem sendAux_other (h : delay.looksAt packet) (hclose : closeBits packet.data = false)
    (hsyn : synBits packet.data = false) : delay.sendAux now now' rand packet = delay.sendFunc now packet := by
  have hflags : (packetSynFlags packet.data).1 &&& 0x05 = 0 := by simpa [closeBits] using hclose
  unfold NetDelay.sendAux
  rw [if_pos (by simpa [looksAt] using h)]
  dsimp only
  rw [if_neg (by simpa using hflags), if_neg]
  simpa [synBits, hflags] using hsyn

theorem sendAux_syn (now now' : ℤ) (rand : ℕ) (h : delay.looksAt packet) (hsyn : synBits packet.data) :
    delay.sendAux now now' rand packet =
      match delay.lookupSession (packetSynFlags packet.data).2 with
      | some session =>
        match session.packet with
        | some _ => delay
        | none => delay.sendFunc now packet
      | none =>
        NetDelay.expires now' { delay with
          sessions := ⟨(packetSynFlags packet.data).2, now + delay.latency rand, some packet⟩ :: delay.sessions
          numSessions := delay.numSessions + 1 } := by
  have hflags : (packetSynFlags packet.data).1 &&& 0x05 = 0 ∧ (packetSynFlags packet.data).1 &&& 0x12 = 0x02 := by
    simpa [synBits] using hsyn
  unfold NetDelay.sendAux
  rw [if_pos (by simpa [looksAt] using h)]
  dsimp only
  refine (if_neg (by simpa using hflags.1)).trans ((if_pos hflags.2).trans ?_)
  cases delay.lookupSession (packetSynFlags packet.data).2 with
  | none => rfl
  | some session => cases session.packet <;> rfl

theorem closeBits_of_synBits {data : List UInt8} (h : synBits data) : closeBits data = false := by
  have hflags : (packetSynFlags data).1 &&& 0x05 = 0 ∧ (packetSynFlags data).1 &&& 0x12 = 0x02 := by
    simpa [synBits] using h
  simpa [closeBits] using hflags.1

/-- A session that is closed takes its packet with it. -/
theorem pending_eraseP (delay : NetDelay) (info : SessionInfo) :
    (pending (delay.sessions.eraseP (·.info = info))).Sublist (pending delay.sessions) ∧
      ((pending (delay.sessions.eraseP (·.info = info))).map (·.2) ++
        ((delay.lookupSession info).bind (·.packet)).toList).Perm ((pending delay.sessions).map (·.2)) := by
  refine ⟨(eraseP_sublist).filterMap _, ?_⟩
  cases hlookup : delay.lookupSession info with
  | none =>
    have herase : delay.sessions.eraseP (·.info = info) = delay.sessions := by
      apply eraseP_of_forall_not
      simpa [lookupSession, List.find?_eq_none] using hlookup
    rw [herase]
    simp
  | some session =>
    obtain ⟨-, before, after, hsplit, herase⟩ := lookupSession_split hlookup
    rw [herase, hsplit]
    obtain ⟨key, expiration, packet⟩ := session
    cases packet with
    | none => simp [pending]
    | some packet =>
      simp only [pending, filterMap_append, filterMap_cons, Option.map_some, map_append, map_cons,
        Option.bind_some, Option.toList_some, append_assoc]
      apply List.Perm.append_left
      exact perm_append_singleton _ _

/-- A packet that is sent at once, and changes nothing else. -/
theorem timely_sendFunc (hopens : ¬ delay.Opens packet) (hrepeats : ¬ delay.Repeats packet)
    (hcloses : ¬ delay.Closes packet) (h : delay.sendAux now now' rand packet = delay.sendFunc now packet) :
    delay.Timely (.send now now' rand packet) := by
  simp only [Timely, if_neg hopens, if_neg hrepeats, Event.withheld, if_neg hcloses, h]
  exact ⟨rfl, .refl _, by simp [sendFunc]⟩

theorem timely_expires (now : ℤ) (delay : NetDelay) :
    (expires now delay).sent = delay.sent ++ (dueAt now (pending delay.sessions)).map (now, ·) ∧
      pending (expires now delay).sessions = later now (pending delay.sessions) := by
  obtain ⟨timer, heq, -⟩ := expires_eq now delay
  rw [heq]
  exact ⟨rfl, pending_release now delay.sessions⟩

/-- **Packets are sent when they are to be sent**, if those that are taken for TCP segments are
such. -/
theorem timely_send (h : delay.Genuine packet) : delay.Timely (.send now now' rand packet) := by
  cases hlooks : delay.looksAt packet with
  | false =>
    exact timely_sendFunc (by simp [Opens, hlooks]) (by simp [Repeats, hlooks]) (by simp [Closes, hlooks])
      (sendAux_passed hlooks)
  | true =>
    obtain ⟨hgenSyn, hgenClose⟩ := h hlooks
    cases hsyn : synBits packet.data with
    | true =>
      have hcloses : ¬ delay.Closes packet := by simp [Closes, closeBits_of_synBits hsyn]
      have hsend := sendAux_syn now now' rand hlooks hsyn
      cases hlookup : delay.lookupSession (packetSynFlags packet.data).2 with
      | none =>
        -- a new session
        have hopens : delay.Opens packet := ⟨hlooks, hgenSyn hsyn (.inl hlookup), hsyn, hlookup⟩
        rw [hlookup] at hsend
        simp only [Timely, if_pos hopens, hsend]
        exact timely_expires now' _
      | some session =>
        have hopens : ¬ delay.Opens packet := by simp [Opens, hlookup]
        rw [hlookup] at hsend
        cases hpacket : session.packet with
        | none =>
          have hwaiting : delay.waiting packet = none := by simp [waiting, hlookup, hpacket]
          have hrepeats : ¬ delay.Repeats packet := by simp [Repeats, hwaiting]
          simp only [hpacket] at hsend
          exact timely_sendFunc hopens hrepeats hcloses hsend
        | some first =>
          have hwaiting : delay.waiting packet ≠ none := by simp [waiting, hlookup, hpacket]
          have hrepeats : delay.Repeats packet := ⟨hlooks, hgenSyn hsyn (.inr hwaiting), hsyn, hwaiting⟩
          simp only [hpacket] at hsend
          simp only [Timely, if_neg hopens, if_pos hrepeats, hsend]
          exact ⟨trivial, trivial⟩
    | false =>
      have hopens : ¬ delay.Opens packet := by simp [Opens, hsyn]
      have hrepeats : ¬ delay.Repeats packet := by simp [Repeats, hsyn]
      cases hclose : closeBits packet.data with
      | false =>
        exact timely_sendFunc hopens hrepeats (by simp [Closes, hclose]) (sendAux_other hlooks hclose hsyn)
      | true =>
        obtain ⟨hsent, hsessions⟩ := sendAux_close now now' rand hlooks hclose
        obtain ⟨hsub, hperm⟩ := pending_eraseP delay (packetSynFlags packet.data).2
        have hwithheld : (Event.send now now' rand packet).withheld delay = (delay.waiting packet).toList := by
          simp only [Event.withheld, if_neg hrepeats]
          by_cases hwaiting : delay.waiting packet = none
          · simp [Closes, hwaiting]
          · exact if_pos ⟨hlooks, hgenClose hclose hwaiting, hclose, hwaiting⟩
        simp only [Timely, if_neg hopens, if_neg hrepeats, hsent, hsessions, hwithheld]
        exact ⟨trivial, hsub, hperm⟩

theorem latency_pos (h : 0 < delay.minMs) (rand : ℕ) : 0 < delay.latency rand := by
  unfold latency
  dsimp only
  split_ifs with hrange
  · have := Int.emod_nonneg (rand : ℤ) hrange.ne'
    omega
  · exact h

/-- Nothing else is sent when it is to be sent. -/
theorem genuine_of_timely (hinv : delay.Inv) (h : delay.Timely (.send now now' rand packet)) (_ : now ≤ now') :
    delay.Genuine packet := by
  intro hlooks
  by_contra hnot
  have hfake : ¬ HasTcpHeader packet.data := fun hheader => hnot ⟨fun _ _ => hheader, fun _ _ => hheader⟩
  have hopens : ¬ delay.Opens packet := fun hopens => hfake hopens.2.1
  have hrepeats : ¬ delay.Repeats packet := fun hrepeats => hfake hrepeats.2.1
  have hcloses : ¬ delay.Closes packet := fun hcloses => hfake hcloses.2.1
  -- so it is to be sent at once, and to leave alone those that wait
  simp only [Timely, if_neg hopens, if_neg hrepeats, Event.withheld, if_neg hcloses, append_nil] at h
  obtain ⟨hsent, hsub, hperm⟩ := h
  have hlength : (pending (delay.sendAux now now' rand packet).sessions).length = (pending delay.sessions).length := by
    simpa using hperm.length_eq
  cases hsyn : synBits packet.data with
  | true =>
    have hsend := sendAux_syn now now' rand hlooks hsyn
    cases hlookup : delay.lookupSession (packetSynFlags packet.data).2 with
    | none =>
      -- it waits in a new session, or is sent after the latency has passed
      have hactive : delay.active = true := by
        simp only [looksAt, Bool.and_eq_true] at hlooks
        exact hlooks.1
      have hpos := latency_pos (hinv.latency hactive) rand
      rw [hlookup] at hsend
      rw [hsend, (timely_expires now' _).1] at hsent
      rw [hsend, (timely_expires now' _).2] at hsub hlength
      have hsends := append_cancel_left hsent
      have hwaits := hsub.eq_of_length hlength
      simp only [pending_cons_some, dueAt_cons, later_cons] at hsends hwaits
      by_cases hdue : now + delay.latency rand ≤ now'
      · rw [if_pos hdue] at hsends
        simp only [map_cons, List.cons.injEq, Prod.mk.injEq] at hsends
        omega
      · rw [if_pos (by omega)] at hwaits
        exact cons_later_ne (by dsimp only; omega) _ hwaits
    | some session =>
      rw [hlookup] at hsend
      cases hpacket : session.packet with
      | none =>
        have hwaiting : delay.waiting packet = none := by simp [waiting, hlookup, hpacket]
        exact hnot ⟨fun _ h => by simp [hlookup, hwaiting] at h, fun _ h => absurd hwaiting h⟩
      | some first =>
        simp only [hpacket] at hsend
        rw [hsend] at hsent
        simpa using congrArg List.length hsent
  | false =>
    cases hclose : closeBits packet.data with
    | false => exact hnot ⟨fun h => by simp [hsyn] at h, fun h => by simp [hclose] at h⟩
    | true =>
      by_cases hwaiting : delay.waiting packet = none
      · exact hnot ⟨fun h => by simp [hsyn] at h, fun _ h => absurd hwaiting h⟩
      · -- the pending packet is gone
        have hsessions := (sendAux_close now now' rand hlooks hclose).2
        obtain ⟨-, hall⟩ := pending_eraseP delay (packetSynFlags packet.data).2
        obtain ⟨first, hfirst⟩ := Option.ne_none_iff_exists'.1 hwaiting
        rw [waiting] at hfirst
        rw [hsessions] at hlength
        have := hall.length_eq
        simp [hfirst] at this
        omega

/-- No packet is taken for a TCP segment that it is not. -/
def TcpOnly (delay : NetDelay) : Event → Prop
  | .send _ _ _ packet => delay.Genuine packet
  | _ => True

theorem timely (event : Event) (h : delay.TcpOnly event) : delay.Timely event := by
  cases event with
  | send now now' rand packet => exact timely_send h
  | expires now => exact timely_expires now { delay with timer := none }
  | setLatency now minMs maxMs =>
    have heq := setLatencyLoop_eq now delay.sessions delay rfl
    simp only [Timely, NetDelay.setLatency, heq]
    exact ⟨trivial, rfl⟩

/-- The packets sent, and those that wait. -/
def kept (delay : NetDelay) : List Packet := delay.sent.map (·.2) ++ (pending delay.sessions).map (·.2)

/-- When their time comes, packets leave the sessions, and are sent. -/
theorem kept_of_dueAt {delay' : NetDelay} {waits : List (ℤ × Packet)} {time : ℤ}
    (hsent : delay'.sent = delay.sent ++ (dueAt now waits).map (time, ·))
    (hpending : pending delay'.sessions = later now waits) :
    delay'.kept.Perm (delay.sent.map (·.2) ++ waits.map (·.2)) := by
  have hdue : ((dueAt now waits).map (time, ·)).map (·.2) = dueAt now waits := by simp
  rw [kept, hsent, hpending, map_append, hdue, append_assoc]
  exact (dueAt_later_perm now waits).append_left _

/-- Every packet of the step is kept, or withheld. -/
theorem Timely.perm {event : Event} (h : delay.Timely event) :
    ((event.run delay).kept ++ event.withheld delay).Perm (delay.kept ++ event.handed) := by
  cases event with
  | expires now =>
    simp only [Event.withheld, Event.handed, append_nil]
    exact kept_of_dueAt h.1 h.2
  | setLatency now minMs maxMs =>
    obtain ⟨hsent, hpending⟩ := h
    simp only [Event.withheld, Event.handed, append_nil, Event.run, kept, hsent, hpending]
    simp [Function.comp_def]
  | send now now' rand packet =>
    simp only [Timely] at h
    split_ifs at h with hopens hrepeats
    · have hwaiting : delay.waiting packet = none := by simp [waiting, hopens.2.2.2]
      have hwithheld : (Event.send now now' rand packet).withheld delay = [] := by
        simp [Event.withheld, Repeats, Closes, hwaiting]
      rw [hwithheld, append_nil]
      refine (kept_of_dueAt h.1 h.2).trans ?_
      rw [kept, append_assoc]
      exact (perm_append_singleton _ _).symm.append_left _
    · obtain ⟨hsent, hpending⟩ := h
      have hwithheld : (Event.send now now' rand packet).withheld delay = [packet] := by
        simp [Event.withheld, hrepeats]
      rw [hwithheld]
      simp only [Event.run, kept, hsent, hpending]
      exact .refl _
    · obtain ⟨hsent, -, hperm⟩ := h
      simp only [Event.run, Event.handed, kept, hsent, map_append, append_assoc]
      apply List.Perm.append_left
      -- the new packet goes in front of those that wait
      refine .trans ?_ (perm_append_singleton _ _).symm
      exact hperm.cons packet

/-- The states that a simulator reaches from the start, by events that are all `allowed`, the packets
handed in, those that are not to be sent, and the time. -/
inductive Reach (allowed : NetDelay → Event → Prop) : NetDelay → List Packet → List Packet → ℤ → Prop
  | create (now : ℤ) : Reach allowed {} [] [] now
  | step {delay : NetDelay} {handed withheld : List Packet} {t : ℤ} (event : Event)
      (hreach : Reach allowed delay handed withheld t) (hlegal : event.Legal delay t) (hallowed : allowed delay event) :
      Reach allowed (event.run delay) (handed ++ event.handed) (withheld ++ event.withheld delay) event.time

variable {handed withheld : List Packet}

theorem reach_inv {allowed : NetDelay → Event → Prop} (h : Reach allowed delay handed withheld t) : delay.Inv := by
  induction h with
  | create now => exact ⟨rfl, nodup_nil, by simp, by simp⟩
  | step event _ _ _ ih => exact ih.run event

theorem timely_iff (hinv : delay.Inv) {event : Event} (hlegal : event.Legal delay t) :
    delay.Timely event ↔ delay.TcpOnly event := by
  refine ⟨fun h => ?_, timely event⟩
  cases event with
  | send now now' rand packet => exact genuine_of_timely hinv h hlegal.2
  | expires now => trivial
  | setLatency now minMs maxMs => trivial

/-- **The simulator delays openings only**, in every run in which no other packet is taken for an
opening, or for the end of one that waits: its sessions are counted and distinct and have the timer
armed, and every packet has been sent once, or waits, or is withheld as it is to be. Each further step
sends what it is to send if and only if this is so for its packet, too. -/
theorem reach_delay (h : Reach TcpOnly delay handed withheld t) :
    delay.numSessions = delay.sessions.length ∧ (delay.sessions.map (·.info)).Nodup ∧
      (∀ session ∈ delay.sessions, session.packet ≠ none →
        ∃ due, delay.timer = some due ∧ due ≤ session.expiration) ∧
      (delay.sent.map (·.2) ++ (pending delay.sessions).map (·.2) ++ withheld).Perm handed ∧
      ∀ event, event.Legal delay t → (delay.Timely event ↔ delay.TcpOnly event) := by
  have hinv := reach_inv h
  refine ⟨hinv.count, hinv.distinct, hinv.armed, ?_, fun event hlegal => timely_iff hinv hlegal⟩
  clear hinv
  induction h with
  | create now => exact .refl _
  | @step delay handed withheld t event hreach hlegal hallowed ih =>
    have hstep := (timely event hallowed).perm
    change ((event.run delay).kept ++ (withheld ++ event.withheld delay)).Perm _
    have hswap : ((event.run delay).kept ++ (withheld ++ event.withheld delay)).Perm
        ((event.run delay).kept ++ event.withheld delay ++ withheld) := by
      rw [append_assoc]
      exact perm_append_comm.append_left _
    have hswap' : (delay.kept ++ event.handed ++ withheld).Perm (delay.kept ++ withheld ++ event.handed) := by
      rw [append_assoc, append_assoc]
      exact perm_append_comm.append_left _
    exact hswap.trans ((hstep.append_right _).trans (hswap'.trans (ih.append_right _)))

/-- A frame with an IP header for `protocol`, and `flags` where TCP has them. -/
def frame (protocol flags : UInt8) : Packet :=
  { data :=
      List.replicate 12 0 ++ [0x08, 0x00] ++
        [0x45, 0, 0, 40, 0, 0, 0, 0, 64, protocol, 0, 0, 10, 0, 2, 15, 8, 8, 8, 8] ++
        [0x12, 0x34, 0, 53, 0, 0, 0, 0, 0, 0, 0, 0, 0x50, flags, 0, 0, 0, 0, 0, 0] ++ [0, 0, 0, 0] }

/-- A SYN is held back for a hundred milliseconds, one more is swallowed, and a third one that comes
after that goes through. -/
theorem reach_delay_syn :
    ∃ delay withheld, Reach TcpOnly delay [frame 6 2, frame 6 2, frame 6 2] withheld 150 ∧
      delay.sent = [(100, frame 6 2), (150, frame 6 2)] ∧ withheld = [frame 6 2] ∧
      (delay.sent.map (·.2) ++ (pending delay.sessions).map (·.2) ++ withheld).Perm
        [frame 6 2, frame 6 2, frame 6 2] := by
  have h0 : Reach TcpOnly {} [] [] 0 := .create 0
  have h1 := h0.step (.setLatency 0 100 200) (le_refl _) trivial
  have h2 := h1.step (.send 0 0 0 (frame 6 2)) ⟨by decide, by decide⟩ (show Genuine _ _ by decide +kernel)
  have h3 := h2.step (.send 50 50 0 (frame 6 2)) ⟨by decide, by decide⟩ (show Genuine _ _ by decide +kernel)
  have h4 := h3.step (.expires 100) ⟨by decide, 100, by decide +kernel, by decide⟩ trivial
  have h5 := h4.step (.send 150 150 0 (frame 6 2)) ⟨by decide, by decide⟩ (show Genuine _ _ by decide +kernel)
  exact ⟨_, _, h5, by decide +kernel, by decide +kernel, (reach_delay h5).2.2.2.1⟩

/-- Two UDP packets with the bits of a SYN where TCP has its flags: the first one is held back, and
the second one is lost. -/
theorem reach_udp :
    (frame 17 2).data.getD 23 0 = protocolUdp ∧
    ∃ delay withheld, Reach (fun _ _ => True) delay [frame 17 2, frame 17 2] withheld 100 ∧
      delay.sent = [(100, frame 17 2)] ∧ pending delay.sessions = [] ∧ withheld = [] ∧
      ¬ (delay.sent.map (·.2) ++ (pending delay.sessions).map (·.2) ++ withheld).Perm [frame 17 2, frame 17 2] := by
  have h0 : Reach (fun _ _ => True) {} [] [] 0 := .create 0
  have h1 := h0.step (.setLatency 0 100 200) (le_refl _) trivial
  have h2 := h1.step (.send 0 0 0 (frame 17 2)) ⟨by decide, by decide⟩ trivial
  have h3 := h2.step (.send 50 50 0 (frame 17 2)) ⟨by decide, by decide⟩ trivial
  have h4 := h3.step (.expires 100) ⟨by decide, 100, by decide +kernel, by decide⟩ trivial
  exact ⟨by decide, _, _, h4, by decide +kernel, by decide +kernel, by decide +kernel, by decide +kernel⟩

end NetDelay

end Emulator.Shaper
