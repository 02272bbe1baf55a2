import Emulator.Shaper.ShaperOrder

/-!
# The rate of a shaper

The comment above the queue promises that no packet follows another one before the time that
the other one takes at the rate of the shaper (`Spread`).

`block_until` is the only memory of this time. A packet that is sent at once and one that is
queued move it (`Paced.sendAux`), but `netshaper_expires` replaces it: by the expiration of the new
head, or by `-1` when the queue runs empty, whatever the size of what it has just sent.

* `expiresLoop_paced`: what a run of the timer needs (`SpacedFrom`) to keep the promise.
* `reach_rate`: the promise holds in every run in which the timer meets this, and nothing is
  sent at once in front of the queue.
-/

namespace Emulator.Shaper

open List

/-- How long nothing may follow a packet, in whole milliseconds. -/
def holdTime (invRate : ℚ) (packet : Packet) : ℤ := ⌊packet.data.length * invRate⌋

/-- Each packet leaves its time to the later ones. -/
def Spread (invRate : ℚ) (sent : List (ℤ × Packet)) : Prop :=
  sent.Pairwise fun a b => a.1 + holdTime invRate a.2 ≤ b.1

instance (invRate : ℚ) (sent : List (ℤ × Packet)) : Decidable (Spread invRate sent) :=
  inferInstanceAs (Decidable (List.Pairwise _ _))

/-- Every packet of `sent` has had its time at `t`. -/
def FreeAt (invRate : ℚ) (sent : List (ℤ × Packet)) (t : ℤ) : Prop :=
  ∀ a ∈ sent, a.1 + holdTime invRate a.2 ≤ t

/-- A run of the timer over the list `packets` whose round `i` reads `clock i`: when a packet is
sent, the time that it takes is over when the next one is due, or at the next reading. The last
packet takes no time. -/
def SpacedFrom (invRate : ℚ) (clock : ℕ → ℤ) : ℕ → List QueuedPacket → Prop
  | _, [] => True
  | i, q :: next =>
    q.expiration ≤ clock i →
      (match next with
        | [] => holdTime invRate q.packet = 0
        | r :: _ => clock i + holdTime invRate q.packet ≤ max r.expiration (clock (i + 1))) ∧
      SpacedFrom invRate clock (i + 1) next

variable {invRate : ℚ} {sent : List (ℤ × Packet)} {t now : ℤ} {packet : Packet}

theorem holdTime_nonneg (hrate : 0 ≤ invRate) (packet : Packet) : 0 ≤ holdTime invRate packet := by
  apply Int.floor_nonneg.2
  positivity

theorem floor_le_truncate (x : ℚ) : ⌊x⌋ ≤ truncate x := by
  unfold truncate
  split_ifs
  · exact le_refl _
  · exact Int.floor_le_ceil x

/-- What is stored in `block_until` leaves the packet its time. -/
theorem add_holdTime_le_truncate (b : ℤ) (packet : Packet) :
    b + holdTime invRate packet ≤ truncate (b + packet.data.length * invRate) := by
  rw [holdTime, ← Int.floor_intCast_add]
  exact floor_le_truncate _

theorem Spread.concat (h : Spread invRate sent) (hfree : FreeAt invRate sent now) :
    Spread invRate (sent ++ [(now, packet)]) := by
  refine pairwise_append.2 ⟨h, pairwise_singleton _ _, fun a ha b hb => ?_⟩
  rw [mem_singleton.1 hb]
  exact hfree a ha

theorem FreeAt.mono {t' : ℤ} (h : FreeAt invRate sent t) (hle : t ≤ t') : FreeAt invRate sent t' :=
  fun a ha => (h a ha).trans hle

theorem FreeAt.concat (h : FreeAt invRate sent t) (hpacket : now + holdTime invRate packet ≤ t) :
    FreeAt invRate (sent ++ [(now, packet)]) t := by
  intro a ha
  rcases mem_append.1 ha with ha | ha
  · exact h a ha
  · rw [mem_singleton.1 ha]
    exact hpacket

namespace NetShaper

variable {shaper : NetShaper}

/-- What has been sent leaves its time to what comes: to the head of the queue, and to what is sent
at once. -/
structure Paced (invRate : ℚ) (shaper : NetShaper) (t : ℤ) : Prop where
  active : shaper.active = true
  rate : shaper.invRate = invRate
  spread : Spread invRate shaper.sent
  block : FreeAt invRate shaper.sent (max shaper.blockUntil t)
  queue : ∀ q ∈ shaper.packets, FreeAt invRate shaper.sent (max q.expiration t)
  armed : shaper.timer ≠ none → shaper.packets ≠ []

/-- A packet is handed in: it is queued, or nothing is queued, or it takes no time. -/
theorem Paced.sendAux (hpaced : shaper.Paced invRate t) (hrate : 0 ≤ invRate) (hnow : t ≤ now)
    (hext : packetIsInternal packet.data = false)
    (hopen : shaper.blockUntil ≤ now → shaper.packets = [] ∨ holdTime invRate packet = 0) :
    (shaper.sendAux now packet).Paced invRate now := by
  obtain ⟨hactive, rfl, hspread, hblock, hqueue, harmed⟩ := hpaced
  have hhold := holdTime_nonneg hrate packet
  unfold NetShaper.sendAux
  split_ifs with hdirect hsend
  · simp [hactive, hext] at hdirect
  · -- sent at once: everything before has had its time
    have hfree : FreeAt shaper.invRate shaper.sent now := hblock.mono (max_le hsend hnow)
    have hstored := @add_holdTime_le_truncate shaper.invRate now packet
    refine ⟨hactive, rfl, hspread.concat hfree, ?_, fun q hq => ?_, harmed⟩
    · exact (hfree.mono (by dsimp only; omega)).concat (by dsimp only; omega)
    · refine (hfree.mono (by omega)).concat ?_
      rcases hopen hsend with hnil | hzero
      · rw [sendFunc_packets, hnil] at hq
        simp at hq
      · omega
  · -- queued: what is due at the old `block_until` comes after all that is sent
    have hstored := @add_holdTime_le_truncate shaper.invRate shaper.blockUntil packet
    refine ⟨hactive, rfl, hspread, hblock.mono (by dsimp only; omega), fun q hq => ?_, fun _ => ?_⟩
    · rcases mem_cons.1 ((perm_orderedInsert _ _ _).subset hq) with rfl | hq
      · exact hblock.mono (by dsimp only; omega)
      · exact (hqueue q hq).mono (by omega)
    · exact ne_nil_of_length_pos (by simp [enqueue, orderedInsert_length])

/-- When the head of the queue can go: when it is due, or now. -/
def nextAt (packets : List QueuedPacket) (now : ℤ) : ℤ :=
  match packets with
  | [] => now
  | q :: _ => max q.expiration now

theorem nextAt_mono (packets : List QueuedPacket) (h : t ≤ now) : nextAt packets t ≤ nextAt packets now := by
  cases packets with
  | nil => exact h
  | cons q _ => exact max_le_max (le_refl _) h

/-- **A run of the timer, round by round**: the packets keep their distance, and what is left of the
queue does so too. -/
theorem expiresLoop_paced {clock : ℕ → ℤ} (hmono : Monotone clock) (hnow : ∀ i, clock i ≤ now) (i : ℕ)
    (packets : List QueuedPacket) (shaper : NetShaper) (hpackets : shaper.packets = packets)
    (hspread : Spread invRate shaper.sent) (hfree : FreeAt invRate shaper.sent (nextAt packets (clock i)))
    (hspaced : SpacedFrom invRate clock i packets) :
    Spread invRate (expiresLoop clock i packets shaper).sent ∧
      FreeAt invRate (expiresLoop clock i packets shaper).sent
        (nextAt (expiresLoop clock i packets shaper).packets now) := by
  induction packets generalizing i shaper with
  | nil =>
    rw [expiresLoop, hpackets]
    exact ⟨hspread, hfree.mono (nextAt_mono _ (hnow i))⟩
  | cons q next ih =>
    rw [expiresLoop]
    split_ifs with hdue
    · rw [hpackets]
      exact ⟨hspread, hfree.mono (nextAt_mono _ (hnow i))⟩
    · -- `q` is due, so all that was sent before has had its time
      have hle : q.expiration ≤ clock i := by omega
      obtain ⟨hgap, hrest⟩ := hspaced hle
      have hfreeNow : FreeAt invRate shaper.sent (clock i) := hfree.mono (max_le hle (le_refl _))
      have hclock : clock i ≤ clock (i + 1) := hmono (by omega)
      apply ih (i + 1) _ rfl (hspread.concat hfreeNow) _ hrest
      cases next with
      | nil =>
        dsimp only at hgap
        refine (hfreeNow.mono hclock).concat ?_
        omega
      | cons r next => exact (hfreeNow.mono (hclock.trans (le_max_right _ _))).concat hgap

/-- The timer expires, and what it sends is spaced. -/
theorem Paced.expires (hpaced : shaper.Paced invRate t) (hinv : shaper.Inv) {clock : ℕ → ℤ}
    (harmed : shaper.timer ≠ none) (ht : t ≤ clock 0) (hmono : Monotone clock) (hnow : ∀ i, clock i ≤ now)
    (hspaced : SpacedFrom invRate clock 0 shaper.packets) : (shaper.expires clock).Paced invRate now := by
  have hfree : FreeAt invRate shaper.sent (nextAt shaper.packets (clock 0)) := by
    cases hpackets : shaper.packets with
    | nil => exact absurd hpackets (hpaced.armed harmed)
    | cons q _ => exact (hpaced.queue q (by simp [hpackets])).mono (max_le_max (le_refl _) ht)
  have hloop := expiresLoop_paced hmono hnow 0 shaper.packets { shaper with timer := none } rfl hpaced.spread hfree
    hspaced
  have hsorted := hinv.sorted
  obtain ⟨gone, stay, hsplit, heq⟩ := expiresLoop_eq clock 0 shaper.packets { shaper with timer := none } rfl
  rw [hsplit] at hsorted
  have hstay := (pairwise_append.1 hsorted).2.1
  unfold NetShaper.expires
  rw [heq] at hloop ⊢
  obtain ⟨hspread, hnext⟩ := hloop
  cases stay with
  | nil =>
    refine ⟨hpaced.active, hpaced.rate, hspread, hnext.mono (le_max_right _ _), fun q hq => ?_, fun h => absurd rfl h⟩
    exact absurd hq not_mem_nil
  | cons r next =>
    -- the head is due first
    refine ⟨hpaced.active, hpaced.rate, hspread, hnext, fun q hq => ?_, fun _ => cons_ne_nil _ _⟩
    apply hnext.mono (max_le_max _ (le_refl _))
    rcases mem_cons.1 hq with rfl | hq
    · exact le_refl _
    · exact (pairwise_cons.1 hstay).1 q hq

/-- The events of an active shaper whose rate stays, without internal packets, in which the timer forgets no time. -/
def InRate (invRate : ℚ) (shaper : NetShaper) : Event → Prop
  | .send now packet =>
    packetIsInternal packet.data = false ∧ shaper.active = true ∧
      (shaper.blockUntil ≤ now → shaper.packets = [] ∨ holdTime invRate packet = 0)
  | .expires clock _ => SpacedFrom invRate clock 0 shaper.packets
  | .setRate _ _ => False

/-- **A shaper enforces its rate in every run in which each packet that the timer sends has had its
time when the next one is due.** -/
theorem reach_rate {handed : List Packet} (hrate : 0 ≤ invRate)
    (h : Reach invRate (InRate invRate) shaper handed t) :
    shaper.sent.Pairwise fun a b => a.1 + ⌊a.2.data.length * invRate⌋ ≤ b.1 := by
  -- an inactive shaper has not done anything
  suffices hpaced : shaper.Paced invRate t ∨ shaper.active = false ∧ shaper.sent = [] ∧ shaper.timer = none by
    rcases hpaced with hpaced | ⟨-, hnil, -⟩
    · exact hpaced.spread
    · rw [hnil]
      exact .nil
  induction h with
  | start active now =>
    cases active with
    | false => exact .inr ⟨rfl, rfl, rfl⟩
    | true => exact .inl ⟨rfl, rfl, .nil, by simp [FreeAt], by simp, by simp⟩
  | step event hreach hlegal hallowed ih =>
    cases event with
    | send now packet =>
      rcases ih with ih | ⟨hidle, -, -⟩
      · exact .inl (ih.sendAux hrate hlegal hallowed.1 hallowed.2.2)
      · exact absurd (hidle.symm.trans hallowed.2.1) (by decide)
    | expires clock now =>
      obtain ⟨⟨due, hdue, -⟩, ht, hmono, hnow⟩ := hlegal
      rcases ih with ih | ⟨-, -, hoff⟩
      · exact .inl (ih.expires (reach_inv hrate hreach) (by simp [hdue]) ht hmono hnow hallowed)
      · simp [hoff] at hdue
    | setRate now rate => exact hallowed.elim

/-- Three packets of ten bytes, and a punctual timer for the second one: the third one stays queued
for ten milliseconds more. -/
theorem reach_rate_queued :
    let a : Packet := { data := List.replicate 10 0, opaquePtr := 1 }
    let b : Packet := { data := List.replicate 10 0, opaquePtr := 2 }
    let c : Packet := { data := List.replicate 10 0, opaquePtr := 3 }
    ∃ shaper, Reach 1 (InRate 1) shaper [a, b, c] 10 ∧ shaper.sent = [(0, a), (10, b)] ∧
      shaper.sent.Pairwise fun a b => a.1 + ⌊a.2.data.length * (1 : ℚ)⌋ ≤ b.1 := by
  intro a b c
  have h0 : Reach 1 (InRate 1) { active := true, invRate := 1 } [] 0 := .start true 0
  have h1 := h0.step (.send 0 a) (show (0 : ℤ) ≤ 0 by decide) ⟨by decide, rfl, fun _ => .inl rfl⟩
  have h2 := h1.step (.send 5 b) (show (0 : ℤ) ≤ 5 by decide) ⟨by decide, rfl, by decide +kernel⟩
  have h3 := h2.step (.send 6 c) (show (5 : ℤ) ≤ 6 by decide) ⟨by decide, by decide +kernel, by decide +kernel⟩
  have hspaced : ∀ shaper : NetShaper, shaper.packets = [⟨10, b⟩, ⟨20, c⟩] →
      InRate 1 shaper (.expires (fun _ => 10) 10) := by
    intro shaper hpackets
    change SpacedFrom 1 (fun _ => 10) 0 shaper.packets
    rw [hpackets]
    exact fun _ => ⟨by decide +kernel, fun hdue => absurd hdue (by decide)⟩
  have h4 := h3.step (.expires (fun _ => 10) 10)
    ⟨⟨10, by decide +kernel, by decide⟩, by decide, monotone_const, fun _ => le_refl _⟩
    (hspaced _ (by decide +kernel))
  exact ⟨_, h4, by decide +kernel, reach_rate (by decide) h4⟩

/-- The timer sends the second packet when it is due, and the queue runs empty. The third one
comes two milliseconds later and is sent at once. -/
theorem reach_burst :
    let a : Packet := { data := List.replicate 10 0, opaquePtr := 1 }
    let b : Packet := { data := List.replicate 10 0, opaquePtr := 2 }
    let c : Packet := { data := List.replicate 10 0, opaquePtr := 3 }
    ∃ shaper, Reach 1 (fun shaper event => event.External ∧ shaper.active = true ∧ shaper.invRate = 1) shaper
      [a, b, c] 12 ∧
      shaper.sent = [(0, a), (10, b), (12, c)] ∧
      ¬ shaper.sent.Pairwise fun a b => a.1 + ⌊a.2.data.length * (1 : ℚ)⌋ ≤ b.1 := by
  intro a b c
  have h0 : Reach 1 (fun shaper event => event.External ∧ shaper.active = true ∧ shaper.invRate = 1)
      { active := true, invRate := 1 } [] 0 := .start true 0
  have h1 := h0.step (.send 0 a) (show (0 : ℤ) ≤ 0 by decide) ⟨show packetIsInternal a.data = false by decide, rfl, rfl⟩
  have h2 := h1.step (.send 5 b) (show (0 : ℤ) ≤ 5 by decide) ⟨show packetIsInternal b.data = false by decide, rfl, rfl⟩
  have h3 := h2.step (.expires (fun _ => 10) 10)
    ⟨⟨10, by decide +kernel, by decide⟩, by decide, monotone_const, fun _ => le_refl _⟩
    ⟨trivial, by decide +kernel, by decide +kernel⟩
  have h4 := h3.step (.send 12 c) (show (10 : ℤ) ≤ 12 by decide)
    ⟨show packetIsInternal c.data = false by decide, by decide +kernel, by decide +kernel⟩
  exact ⟨_, h4, by decide +kernel, by decide +kernel⟩

end NetShaper

end Emulator.Shaper
