import Emulator.Shaper.NetShaper

/-!
# The order in which a shaper sends

Over any run of sends, late or punctual timers and changes of the rate:

* `reach_inv`: the queue is sorted, counted by `num_packets`, and the timer is armed for its
  head.
* `reach_kept`: nothing is lost and nothing is sent twice.
* `reach_order`: packets leave in the order in which they are handed in, as long as no packet
  comes while the queue waits for a late timer, and none while `block_until` is before the end of
  the queue.
-/

namespace Emulator.Shaper

open List

namespace NetShaper

variable {shaper : NetShaper} {now t : ℤ} {packet : Packet}

/-- The queue is the one that the fields of the shaper tell of. -/
structure Inv (shaper : NetShaper) : Prop where
  count : shaper.numPackets = shaper.packets.length
  sorted : shaper.packets.Pairwise (fun a b => a.expiration ≤ b.expiration)
  armed : shaper.packets ≠ [] → shaper.timer = shaper.packets.head?.map (·.expiration)
  idle : shaper.active = false → shaper.packets = []
  rate : 0 ≤ shaper.invRate

theorem sorted_enqueue (q : QueuedPacket) {packets : List QueuedPacket}
    (h : packets.Pairwise (fun a b => a.expiration ≤ b.expiration)) :
    (enqueue q packets).Pairwise (fun a b => a.expiration ≤ b.expiration) := by
  induction packets with
  | nil => simp [enqueue]
  | cons r next ih =>
    rw [pairwise_cons] at h
    rw [enqueue, orderedInsert_cons]
    split_ifs with hlt
    · refine pairwise_cons.2 ⟨fun a ha => ?_, pairwise_cons.2 h⟩
      rcases mem_cons.1 ha with rfl | ha
      · omega
      · have := h.1 a ha
        omega
    · refine pairwise_cons.2 ⟨fun a ha => ?_, ih h.2⟩
      rcases mem_cons.1 ((perm_orderedInsert _ q next).subset ha) with rfl | ha
      · omega
      · exact h.1 a ha

theorem head?_enqueue (q : QueuedPacket) (packets : List QueuedPacket) :
    (enqueue q packets).head? =
      if packets.head?.all (fun node => node.expiration > q.expiration) then some q else packets.head? := by
  cases packets with
  | nil => rfl
  | cons r next =>
    rw [enqueue, orderedInsert_cons]
    split_ifs with hlt hall hall
    · rfl
    · simp at hall; omega
    · simp at hall; omega
    · rfl

theorem Inv.sendAux (hinv : shaper.Inv) : (shaper.sendAux now packet).Inv := by
  unfold NetShaper.sendAux
  split_ifs with hdirect hopen
  · exact ⟨hinv.count, hinv.sorted, hinv.armed, hinv.idle, hinv.rate⟩
  · exact ⟨hinv.count, hinv.sorted, hinv.armed, hinv.idle, hinv.rate⟩
  · refine ⟨?_, sorted_enqueue _ hinv.sorted, fun _ => ?_, fun hidle => ?_, hinv.rate⟩
    · simp [enqueue, orderedInsert_length, hinv.count]
    · -- the timer follows the head, old or new
      dsimp only
      rw [head?_enqueue]
      split_ifs with hfirst
      · rfl
      · refine hinv.armed fun hnil => hfirst ?_
        rw [hnil]
        rfl
    · have hactive : shaper.active = true := by
        by_contra h
        exact hdirect (by simp [h])
      simp [hactive] at hidle

theorem Inv.expires (hinv : shaper.Inv) (clock : ℕ → ℤ) : (shaper.expires clock).Inv := by
  obtain ⟨gone, stay, hsplit, heq⟩ := expiresLoop_eq clock 0 shaper.packets { shaper with timer := none } rfl
  have hsorted := hinv.sorted
  have hidle : shaper.active = false → stay = [] := fun h =>
    (append_eq_nil_iff.1 (hsplit.symm.trans (hinv.idle h))).2
  have hcount : shaper.numPackets - gone.length = stay.length := by
    have := congrArg List.length hsplit
    have := hinv.count
    simp only [length_append] at *
    omega
  rw [hsplit] at hsorted
  have hstay := (pairwise_append.1 hsorted).2.1
  unfold NetShaper.expires
  rw [heq]
  cases stay with
  | nil => exact ⟨hcount, hstay, fun h => absurd rfl h, hidle, hinv.rate⟩
  | cons r next => exact ⟨hcount, hstay, fun _ => rfl, hidle, hinv.rate⟩

theorem Inv.setRate (hinv : shaper.Inv) (now : ℤ) (rate : ℚ) : (shaper.setRate now rate).Inv := by
  have hcount : (if shaper.packets = [] then shaper.numPackets else 0) = 0 := by
    split_ifs with h
    · rw [hinv.count, h]
      rfl
    · rfl
  unfold NetShaper.setRate
  rw [setRateLoop_eq now shaper.packets shaper rfl]
  by_cases hrate : rate > 1
  · simp only [hrate, if_true]
    refine ⟨hcount, .nil, fun h => absurd rfl h, fun _ => rfl, ?_⟩
    have : (0 : ℚ) < rate := by linarith
    dsimp only
    positivity
  · simp only [hrate, if_false]
    exact ⟨hcount, .nil, fun h => absurd rfl h, fun _ => rfl, hinv.rate⟩

/-- The packets sent, and behind them those of the queue, in the order in which they leave. -/
def leaving (shaper : NetShaper) : List Packet :=
  shaper.sent.map (·.2) ++ shaper.packets.map (·.packet)

/-- **The timer keeps the order.** -/
theorem leaving_expires (shaper : NetShaper) (clock : ℕ → ℤ) : (shaper.expires clock).leaving = shaper.leaving := by
  obtain ⟨gone, stay, hsplit, heq⟩ := expiresLoop_eq clock 0 shaper.packets { shaper with timer := none } rfl
  unfold NetShaper.expires
  rw [heq]
  have hgone : (gone.mapIdx fun j q => (clock (0 + j), q.packet)).map (·.2) = gone.map (·.packet) := by
    apply ext_getElem
    · simp
    · simp
  have hleaving : (shaper.sent ++ gone.mapIdx fun j q => (clock (0 + j), q.packet)).map (·.2) ++
      stay.map (·.packet) = shaper.leaving := by
    rw [map_append, hgone, leaving, hsplit, map_append, append_assoc]
  cases stay with
  | nil => exact hleaving
  | cons r next => exact hleaving

/-- **A change of the rate keeps the order.** -/
theorem leaving_setRate (shaper : NetShaper) (now : ℤ) (rate : ℚ) :
    (shaper.setRate now rate).leaving = shaper.leaving := by
  unfold NetShaper.setRate
  rw [setRateLoop_eq now shaper.packets shaper rfl]
  split_ifs <;> simp [leaving, Function.comp_def]

/-- No packet is lost, and none is sent twice. -/
theorem leaving_sendAux_perm : (shaper.sendAux now packet).leaving.Perm (shaper.leaving ++ [packet]) := by
  have hsent : (shaper.sent.map (·.2) ++ packet :: shaper.packets.map (·.packet)).Perm
      (shaper.leaving ++ [packet]) := by
    rw [leaving, append_assoc]
    exact (perm_append_singleton _ _).symm.append_left _
  unfold NetShaper.sendAux
  split_ifs with hdirect hopen
  · simpa [leaving] using hsent
  · simpa [leaving] using hsent
  · refine .trans (.append_left _ ?_) hsent
    exact (perm_orderedInsert _ _ _).map _

/-- The packet that comes now does not overtake: nothing is queued, or it is queued behind all
that is. -/
def Orderly (shaper : NetShaper) (now : ℤ) : Prop :=
  shaper.active = true →
    shaper.packets = [] ∨ now < shaper.blockUntil ∧ ∀ q ∈ shaper.packets, q.expiration ≤ shaper.blockUntil

instance : Decidable (shaper.Orderly now) := inferInstanceAs (Decidable (_ → _))

theorem enqueue_last {q : QueuedPacket} {packets : List QueuedPacket}
    (h : ∀ r ∈ packets, r.expiration ≤ q.expiration) : enqueue q packets = packets ++ [q] := by
  induction packets with
  | nil => rfl
  | cons r next ih =>
    have hr := h r mem_cons_self
    rw [enqueue, orderedInsert_cons, if_neg (by omega)]
    exact congrArg (r :: ·) (ih fun a ha => h a (mem_cons_of_mem r ha))

/-- **A packet that does not overtake leaves last.** -/
theorem leaving_sendAux (hinv : shaper.Inv) (h : shaper.Orderly now) (hext : packetIsInternal packet.data = false) :
    (shaper.sendAux now packet).leaving = shaper.leaving ++ [packet] := by
  unfold NetShaper.sendAux
  -- a packet is sent while nothing waits, or queued behind all that wait
  split_ifs with hdirect hopen
  · have hidle : shaper.packets = [] := hinv.idle (by simpa [hext] using hdirect)
    simp [leaving, hidle]
  · have hactive : shaper.active = true := by simpa [hext] using hdirect
    rcases h hactive with hnil | ⟨hblock, -⟩
    · simp [leaving, hnil]
    · omega
  · have hactive : shaper.active = true := by simpa [hext] using hdirect
    have hlast : ∀ q ∈ shaper.packets, q.expiration ≤ shaper.blockUntil := by
      rcases h hactive with hnil | ⟨-, hlast⟩
      · simp [hnil]
      · exact hlast
    simp only [leaving]
    rw [enqueue_last hlast]
    simp

end NetShaper

/-- What happens to a shaper. The times of a run of the timer are those that `clock` gives, the
last one not after `now`. -/
inductive Event
  | send (now : ℤ) (packet : Packet)
  | expires (clock : ℕ → ℤ) (now : ℤ)
  | setRate (now : ℤ) (rate : ℚ)

namespace Event

def time : Event → ℤ
  | send now _ => now
  | expires _ now => now
  | setRate now _ => now

/-- The packets handed in. -/
def handed : Event → List Packet
  | send _ packet => [packet]
  | _ => []

def run (shaper : NetShaper) : Event → NetShaper
  | send now packet => shaper.sendAux now packet
  | expires clock _ => shaper.expires clock
  | setRate now rate => shaper.setRate now rate

/-- The packet that is handed in is not internal. -/
def External : Event → Prop
  | send _ packet => packetIsInternal packet.data = false
  | _ => True

/-- The clock stood at `t` before, and the timer expires when it is due or later. -/
def Legal (shaper : NetShaper) (t : ℤ) : Event → Prop
  | send now _ => t ≤ now
  | expires clock now =>
    (∃ due, shaper.timer = some due ∧ due ≤ clock 0) ∧ t ≤ clock 0 ∧ Monotone clock ∧ ∀ i, clock i ≤ now
  | setRate now _ => t ≤ now

end Event

/-- The states that a shaper reaches from an empty queue by events that are all `allowed`, the
packets handed in, and the time. -/
inductive Reach (invRate : ℚ) (allowed : NetShaper → Event → Prop) : NetShaper → List Packet → ℤ → Prop
  | start (active : Bool) (now : ℤ) : Reach invRate allowed { active := active, invRate := invRate } [] now
  | step {shaper : NetShaper} {handed : List Packet} {t : ℤ} (event : Event)
      (hreach : Reach invRate allowed shaper handed t) (hlegal : event.Legal shaper t)
      (hallowed : allowed shaper event) :
      Reach invRate allowed (event.run shaper) (handed ++ event.handed) event.time

namespace NetShaper

variable {shaper : NetShaper} {invRate : ℚ} {allowed : NetShaper → Event → Prop} {handed : List Packet} {t : ℤ}

theorem Inv.run (hinv : shaper.Inv) (event : Event) : (event.run shaper).Inv := by
  cases event with
  | send now packet => exact hinv.sendAux
  | expires clock now => exact hinv.expires clock
  | setRate now rate => exact hinv.setRate now rate

/-- **The queue of every shaper is sorted, counted, and has the timer armed for its head.** -/
theorem reach_inv (hrate : 0 ≤ invRate) (h : Reach invRate allowed shaper handed t) : shaper.Inv := by
  induction h with
  | start active now => exact ⟨rfl, .nil, fun h => absurd rfl h, fun _ => rfl, hrate⟩
  | step event _ _ _ ih => exact ih.run event

theorem reach_perm (h : Reach invRate allowed shaper handed t) : shaper.leaving.Perm handed := by
  induction h with
  | start active now => exact .refl _
  | step event _ _ _ ih =>
    cases event with
    | send now packet => exact leaving_sendAux_perm.trans (ih.append_right _)
    | expires clock now =>
      simp only [Event.run, Event.handed, leaving_expires, append_nil]
      exact ih
    | setRate now rate =>
      simp only [Event.run, Event.handed, leaving_setRate, append_nil]
      exact ih

/-- **Each packet is sent once or still queued, in every run**, internal packets, late timers and overtaking included.
The queue is sorted and counted, and the timer is armed for its head. -/
theorem reach_kept (hrate : 0 ≤ invRate) (h : Reach invRate allowed shaper handed t) :
    (shaper.sent.map (·.2) ++ shaper.packets.map (·.packet)).Perm handed ∧
      shaper.numPackets = shaper.packets.length ∧
      shaper.packets.Pairwise (fun a b => a.expiration ≤ b.expiration) ∧
      (shaper.packets ≠ [] → shaper.timer = shaper.packets.head?.map (·.expiration)) := by
  have hinv := reach_inv hrate h
  exact ⟨reach_perm h, hinv.count, hinv.sorted, hinv.armed⟩

/-- Two packets, the second one queued, and a change of the rate. -/
theorem reach_kept_queued :
    let a : Packet := { data := List.replicate 10 0, opaquePtr := 1 }
    let b : Packet := { data := List.replicate 10 0, opaquePtr := 2 }
    ∃ shaper, Reach 1 (fun _ _ => True) shaper [a, b] 7 ∧
      (shaper.sent.map (·.2) ++ shaper.packets.map (·.packet)).Perm [a, b] ∧
      shaper.numPackets = shaper.packets.length ∧
      shaper.packets.Pairwise (fun a b => a.expiration ≤ b.expiration) ∧
      (shaper.packets ≠ [] → shaper.timer = shaper.packets.head?.map (·.expiration)) := by
  intro a b
  have h0 : Reach 1 (fun _ _ => True) { active := true, invRate := 1 } [] 0 := .start true 0
  have h1 := h0.step (.send 0 a) (show (0 : ℤ) ≤ 0 by decide) trivial
  have h2 := h1.step (.send 5 b) (show (0 : ℤ) ≤ 5 by decide) trivial
  have h3 := h2.step (.setRate 7 2) (show (5 : ℤ) ≤ 7 by decide) trivial
  exact ⟨_, h3, reach_kept (by decide) h3⟩

/-- No packet overtakes, and none is internal. -/
def InOrder (shaper : NetShaper) : Event → Prop
  | .send now packet => packetIsInternal packet.data = false ∧ shaper.Orderly now
  | _ => True

/-- **A shaper keeps the order and loses nothing in every run in which no packet overtakes.** -/
theorem reach_order (hrate : 0 ≤ invRate) (h : Reach invRate InOrder shaper handed t) :
    shaper.sent.map (·.2) ++ shaper.packets.map (·.packet) = handed ∧
      shaper.numPackets = shaper.packets.length ∧
      shaper.packets.Pairwise (fun a b => a.expiration ≤ b.expiration) ∧
      (shaper.packets ≠ [] → shaper.timer = shaper.packets.head?.map (·.expiration)) := by
  have hinv := reach_inv hrate h
  refine ⟨?_, hinv.count, hinv.sorted, hinv.armed⟩
  clear hinv
  change shaper.leaving = handed
  induction h with
  | start active now => rfl
  | step event hreach hlegal hallowed ih =>
    cases event with
    | send now packet => exact (leaving_sendAux (reach_inv hrate hreach) hallowed.2 hallowed.1).trans (by rw [ih]; rfl)
    | expires clock now =>
      simp only [Event.run, Event.handed, leaving_expires, append_nil]
      exact ih
    | setRate now rate =>
      simp only [Event.run, Event.handed, leaving_setRate, append_nil]
      exact ih

/-- Ten bytes, and ten more that come while the first ten are sent. -/
theorem reach_order_queued :
    let a : Packet := { data := List.replicate 10 0, opaquePtr := 1 }
    let b : Packet := { data := List.replicate 10 0, opaquePtr := 2 }
    ∃ shaper, Reach 1 InOrder shaper [a, b] 12 ∧
      shaper.sent.map (·.2) ++ shaper.packets.map (·.packet) = [a, b] ∧
      shaper.numPackets = shaper.packets.length ∧
      shaper.packets.Pairwise (fun a b => a.expiration ≤ b.expiration) ∧
      (shaper.packets ≠ [] → shaper.timer = shaper.packets.head?.map (·.expiration)) := by
  intro a b
  have h0 : Reach 1 InOrder { active := true, invRate := 1 } [] 0 := .start true 0
  have h1 := h0.step (.send 0 a) (show (0 : ℤ) ≤ 0 by decide) ⟨by decide, show Orderly _ _ by decide⟩
  have h2 := h1.step (.send 5 b) (show (0 : ℤ) ≤ 5 by decide) ⟨by decide, show Orderly _ _ by decide +kernel⟩
  have h3 := h2.step (.expires (fun _ => 12) 12)
    ⟨⟨10, by decide +kernel, by decide⟩, by decide, monotone_const, fun _ => le_refl _⟩ trivial
  exact ⟨_, h3, reach_order (by decide) h3⟩

/-- The timer for the second packet is late, and the third one is sent before it. -/
theorem reach_overtaken :
    let a : Packet := { data := List.replicate 10 0, opaquePtr := 1 }
    let b : Packet := { data := List.replicate 10 0, opaquePtr := 2 }
    let c : Packet := { data := List.replicate 10 0, opaquePtr := 3 }
    ∃ shaper, Reach 1 (fun _ event => event.External) shaper [a, b, c] 25 ∧ shaper.packets = [] ∧
      shaper.sent.map (·.2) = [a, c, b] := by
  intro a b c
  have h0 : Reach 1 (fun _ event => event.External) { active := true, invRate := 1 } [] 0 := .start true 0
  have h1 := h0.step (.send 0 a) (show (0 : ℤ) ≤ 0 by decide) (show packetIsInternal a.data = false by decide)
  have h2 := h1.step (.send 5 b) (show (0 : ℤ) ≤ 5 by decide) (show packetIsInternal b.data = false by decide)
  have h3 := h2.step (.send 25 c) (show (5 : ℤ) ≤ 25 by decide) (show packetIsInternal c.data = false by decide)
  have h4 := h3.step (.expires (fun _ => 25) 25)
    ⟨⟨10, by decide +kernel, by decide⟩, by decide, monotone_const, fun _ => le_refl _⟩ trivial
  exact ⟨_, h4, by decide +kernel, by decide +kernel⟩

end NetShaper

end Emulator.Shaper
