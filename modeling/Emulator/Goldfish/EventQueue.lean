import Emulator.Goldfish.Events
import Emulator.Lib.RingBuffer
import Mathlib.Tactic

/-!
# The event queue

The words of the events wait in a ring of `MAX_EVENTS` cells, one of which always stays free, so that equal indices mean
an empty queue.

* `QueueOK`: the indices are in the ring, and the interrupt line is up when they differ.
* `enqueueEvent_contents`: an event comes in as a whole, or not at all.
* `queueRun_ok`: what holds after any run.
-/

namespace Emulator.Goldfish

open Emulator.Lib EventsState BitVec

/-- **The queue is sound.** -/
structure QueueOK (s : EventsState) : Prop where
  first : s.first.toNat < maxEvents
  last : s.last.toNat < maxEvents
  irq : s.irq = true ↔ s.first ≠ s.last

/-- How many words are in the queue. -/
def EventsState.count (s : EventsState) : ℕ := (maxEvents + s.last.toNat - s.first.toNat) % maxEvents

/-- The unread words, in the order in which they came. -/
def EventsState.contents (s : EventsState) : List (BitVec 32) := ringList maxEvents s.events s.first.toNat s.count

variable {s : EventsState} {w type code value : BitVec 32}

theorem next_toNat (i : BitVec 32) : (next i).toNat = (i.toNat + 1) % maxEvents := by
  have hmask : (BitVec.ofNat 32 (maxEvents - 1)).toNat = 2 ^ 10 - 1 := by decide
  have hone : (1 : BitVec 32).toNat = 1 := by decide
  unfold maxEvents
  rw [next, toNat_and, hmask, Nat.and_two_pow_sub_one_eq_mod, toNat_add, hone]
  omega

theorem EventsState.count_lt (s : EventsState) : s.count < maxEvents := Nat.mod_lt _ (by decide)

namespace QueueOK

theorem count_eq_zero (h : QueueOK s) : s.count = 0 ↔ s.first = s.last := by
  have hf := h.first
  have hl := h.last
  rw [← toNat_inj, EventsState.count]
  unfold maxEvents at *
  omega

theorem contents_eq_nil (h : QueueOK s) : s.contents = [] ↔ s.first = s.last := by
  rw [← h.count_eq_zero, ← List.length_eq_zero_iff, contents, length_ringList]

theorem enqueued_eq (h : QueueOK s) : s.enqueued = s.count := by
  have hf := h.first
  have hl := h.last
  unfold maxEvents at hf hl
  have hdiff : (s.last - s.first).toInt = (s.last.toNat : ℤ) - s.first.toNat := by
    rw [toInt_sub, toInt_eq_toNat_of_lt (by omega), toInt_eq_toNat_of_lt (by omega)]
    exact Int.bmod_eq_of_le (by omega) (by omega)
  simp only [enqueued, hdiff, EventsState.count, maxEvents]
  split_ifs <;> omega

theorem not_full (h : QueueOK s) (hf : s.full = false) : s.count + 4 < maxEvents := by
  have henq := h.enqueued_eq
  simp only [full, ge_iff_le, decide_eq_false_iff_not, not_le] at hf
  omega

end QueueOK

/-- What `putWord` needs, which the interrupt line is not part of. -/
structure Room (s : EventsState) (k : ℕ) : Prop where
  first : s.first.toNat < maxEvents
  last : s.last.toNat < maxEvents
  room : s.count + k < maxEvents

theorem Room.put {k : ℕ} (h : Room s (k + 1)) :
    Room (s.putWord w) k ∧ (s.putWord w).contents = s.contents ++ [w] ∧ (s.putWord w).count = s.count + 1 := by
  have hf := h.first
  have hl := h.last
  have hroom := h.room
  have hnext := next_toNat s.last
  have hcell : ringAt maxEvents s.first.toNat s.count = s.last.toNat := by
    rw [ringAt_mod hf (by omega), EventsState.count]
    unfold maxEvents at *
    omega
  have hcount : (s.putWord w).count = s.count + 1 := by
    simp only [EventsState.count, putWord, hnext] at hroom ⊢
    unfold maxEvents at *
    omega
  refine ⟨⟨hf, ?_, by omega⟩, ?_, hcount⟩
  · change (next s.last).toNat < maxEvents
    rw [hnext]
    exact Nat.mod_lt _ (by decide)
  · rw [contents, hcount]
    change ringList maxEvents (Function.update s.events s.last.toNat w) s.first.toNat (s.count + 1) = _
    rw [← hcell]
    exact ringList_push (by omega)

@[simp] theorem putWord_irq : (s.putWord w).irq = s.irq := rfl

@[simp] theorem putWord_first : (s.putWord w).first = s.first := rfl

theorem enqueueEvent_first : (s.enqueueEvent type code value).first = s.first := by
  unfold enqueueEvent
  split_ifs <;> rfl

/-- **An event comes in as a whole**, if the queue is not full. -/
theorem enqueueEvent_contents (h : QueueOK s) (hf : s.full = false) :
    QueueOK (s.enqueueEvent type code value) ∧
      (s.enqueueEvent type code value).contents = s.contents ++ [type, code, value] := by
  have hroom := h.not_full hf
  -- the line is raised first; the queue is the same
  have hraised : ∃ s₀ : EventsState, s.enqueueEvent type code value = ((s₀.putWord type).putWord code).putWord value ∧
      s₀.irq = true ∧ s₀.first = s.first ∧ s₀.last = s.last ∧ s₀.events = s.events := by
    by_cases he : s.first = s.last
    · exact ⟨{ s with irq := true }, by simp [enqueueEvent, hf, he], rfl, rfl, rfl, rfl⟩
    · exact ⟨s, by simp [enqueueEvent, hf, he], h.irq.2 he, rfl, rfl, rfl⟩
  obtain ⟨s₀, hrun, hirq, hfirst, hlast, hevents⟩ := hraised
  have hcount : s₀.count = s.count := by simp only [EventsState.count, hfirst, hlast]
  have h₀ : Room s₀ (2 + 1) := ⟨hfirst ▸ h.first, hlast ▸ h.last, by omega⟩
  obtain ⟨h₁, hc₁, hn₁⟩ := h₀.put (w := type)
  obtain ⟨h₂, hc₂, hn₂⟩ := h₁.put (w := code)
  obtain ⟨h₃, hc₃, hn₃⟩ := h₂.put (w := value)
  rw [hrun]
  refine ⟨⟨h₃.first, h₃.last, ?_⟩, ?_⟩
  · have hne : (((s₀.putWord type).putWord code).putWord value).count ≠ 0 := by omega
    refine iff_of_true hirq fun he => hne ?_
    rw [EventsState.count, he, Nat.add_sub_cancel, Nat.mod_self]
  · rw [hc₃, hc₂, hc₁, contents, contents, hcount, hfirst, hevents]
    simp

/-- A read takes the first word. -/
theorem dequeueEvent_contents (h : QueueOK s) (hne : s.first ≠ s.last) :
    QueueOK s.dequeueEvent.2 ∧ s.contents = s.dequeueEvent.1 :: s.dequeueEvent.2.contents := by
  have hf := h.first
  have hl := h.last
  have hnext := next_toNat s.first
  have hpos : s.count ≠ 0 := fun h0 => hne (h.count_eq_zero.1 h0)
  have hlt := s.count_lt
  -- the state before the line is looked at
  obtain ⟨s₁, hs₁⟩ : ∃ s₁ : EventsState, s₁ = { s with first := next s.first } := ⟨_, rfl⟩
  have hrun : s.dequeueEvent =
    (s.events s.first.toNat, if s₁.first = s₁.last then { s₁ with irq := false } else s₁) := by
    rw [dequeueEvent, if_neg hne, hs₁]
  have hfirst : s₁.first.toNat = ringAt maxEvents s.first.toNat 1 := by
    rw [hs₁, ringAt_mod hf (by decide), ← hnext]
  have hcount : s.count = 1 + s₁.count := by
    simp only [EventsState.count, hs₁, hnext] at hpos ⊢
    unfold maxEvents at *
    omega
  have hcontents : s.contents = s.events s.first.toNat :: s₁.contents := by
    have hdrop := @ringList_drop _ s.events maxEvents s.first.toNat 1 s₁.count hf (by omega)
    have hhead : ringList maxEvents s.events s.first.toNat 1 = [s.events s.first.toNat] := by
      simp [ringList, ringAt, hf]
    have hevents : s₁.events = s.events := by rw [hs₁]
    rw [contents, contents, hevents, hfirst, hdrop, ← List.singleton_append, ← hhead, ← hcount,
      ← ringList_take (show 1 ≤ s.count by omega), List.take_append_drop]
  have hin : s₁.first.toNat < maxEvents := hfirst ▸ ringAt_lt hf (by decide)
  have hlast : s₁.last.toNat < maxEvents := by rw [hs₁]; exact hl
  have hirq : s₁.irq = true := by rw [hs₁]; exact h.irq.2 hne
  rw [hrun]
  by_cases he : s₁.first = s₁.last
  · rw [if_pos he]
    exact ⟨⟨hin, hlast, by simp [he]⟩, hcontents⟩
  · rw [if_neg he]
    exact ⟨⟨hin, hlast, by simp [he, hirq]⟩, hcontents⟩

/-- The unread words stay where they are. -/
theorem enqueueEvent_events (h : QueueOK s) {i : ℕ} (hi : i < s.count) :
    (s.enqueueEvent type code value).events (ringAt maxEvents s.first.toNat i) =
      s.events (ringAt maxEvents s.first.toNat i) := by
  by_cases hf : s.full
  · rw [enqueueEvent, if_pos hf]
  · have hf' : s.full = false := by simpa using hf
    obtain ⟨hok, hcontents⟩ := @enqueueEvent_contents _ type code value h hf'
    have hget := congrArg (·[i]?) hcontents
    have hlen := congrArg List.length hcontents
    simp only [contents, length_ringList, List.length_append] at hlen
    simp only [contents, enqueueEvent_first] at hget
    rw [List.getElem?_append_left (by simpa using hi)] at hget
    simpa [ringList, hi, show i < (s.enqueueEvent type code value).count by omega] using hget

/-- What happens to the queue. -/
inductive QueueOp
  | enqueue (type code value : BitVec 32)
  | read

/-- The words of an event that comes to the queue. -/
def QueueOp.words : QueueOp → List (BitVec 32)
  | .enqueue type code value => [type, code, value]
  | .read => []

/-- A run so far: the events that were accepted, and the words read while there were any. -/
structure QueueRun where
  state : EventsState
  accepted : List (List (BitVec 32))
  delivered : List (BitVec 32)

/-- One step. An event is accepted when `enqueue_event` does not print "Full queue, lose event". -/
def QueueRun.step (r : QueueRun) : QueueOp → QueueRun
  | .enqueue type code value =>
    ⟨r.state.enqueueEvent type code value,
      if r.state.full then r.accepted else r.accepted ++ [[type, code, value]], r.delivered⟩
  | .read =>
    match r.state.eventsRead 0 with
    | none => r
    | some (w, s) => ⟨s, r.accepted, if r.state.first = r.state.last then r.delivered else r.delivered ++ [w]⟩

/-- The run of `ops`. -/
def queueRun (s : EventsState) (ops : List QueueOp) : QueueRun := ops.foldl QueueRun.step ⟨s, [], []⟩

/-- **What a run keeps.** -/
structure QueueRun.Ok (r : QueueRun) (ops : List QueueOp) : Prop where
  sound : QueueOK r.state
  fifo : r.accepted.flatten = r.delivered ++ r.state.contents
  offered : r.accepted.Sublist (ops.map QueueOp.words)

theorem QueueRun.Ok.step {r : QueueRun} {ops : List QueueOp} (h : r.Ok ops) (op : QueueOp) :
    (r.step op).Ok (ops ++ [op]) := by
  have hkept : r.accepted.Sublist ((ops ++ [op]).map QueueOp.words) := by
    rw [List.map_append]
    exact h.offered.trans (List.sublist_append_left _ _)
  cases op with
  | enqueue type code value =>
    by_cases hf : r.state.full
    · simpa only [QueueRun.step, enqueueEvent, if_pos hf] using ⟨h.sound, h.fifo, hkept⟩
    · have hf' : r.state.full = false := by simpa using hf
      obtain ⟨hok, hcontents⟩ := @enqueueEvent_contents _ type code value h.sound hf'
      simp only [QueueRun.step, if_neg hf]
      refine ⟨hok, ?_, ?_⟩
      · rw [List.flatten_append, h.fifo, hcontents]
        simp
      · rw [List.map_append]
        exact h.offered.append (List.Sublist.refl _)
  | read =>
    have hread : r.state.eventsRead 0 = some r.state.dequeueEvent := rfl
    by_cases he : r.state.first = r.state.last
    · simpa only [QueueRun.step, hread, dequeueEvent, if_pos he] using ⟨h.sound, h.fifo, hkept⟩
    · obtain ⟨hok, hcontents⟩ := dequeueEvent_contents h.sound he
      simp only [QueueRun.step, hread, if_neg he]
      refine ⟨hok, ?_, hkept⟩
      rw [h.fifo, hcontents, List.append_assoc, List.singleton_append]

theorem queueRun_ok (h : QueueOK s) (hempty : s.first = s.last) (ops : List QueueOp) : (queueRun s ops).Ok ops := by
  induction ops using List.reverseRecOn with
  | nil => exact ⟨h, (h.contents_eq_nil.2 hempty).symm, List.Sublist.refl _⟩
  | append_singleton ops op ih =>
    rw [queueRun, List.foldl_append]
    exact ih.step op

/-- **The event queue delivers whole events in order, and its interrupt line tells the truth**, in every run from an
empty queue: the words read are those of the accepted events, less what is still to be read. -/
theorem queueRun_delivers {s : EventsState} (hfirst : s.first.toNat < maxEvents) (hempty : s.first = s.last)
    (hirq : s.irq = false) (ops : List QueueOp) :
    (queueRun s ops).accepted.Sublist (ops.map QueueOp.words) ∧
      (queueRun s ops).accepted.flatten = (queueRun s ops).delivered ++ (queueRun s ops).state.contents ∧
      ((queueRun s ops).state.irq = true ↔ (queueRun s ops).state.contents ≠ []) ∧
      ∀ type code value, let s' := (queueRun s ops).state.enqueueEvent type code value
        (s' = (queueRun s ops).state ∨ s'.contents = (queueRun s ops).state.contents ++ [type, code, value]) ∧
          ∀ i < (queueRun s ops).state.count,
            s'.events (ringAt maxEvents (queueRun s ops).state.first.toNat i) =
              (queueRun s ops).state.events (ringAt maxEvents (queueRun s ops).state.first.toNat i) := by
  have h₀ : QueueOK s := ⟨hfirst, hempty ▸ hfirst, by simp [hirq, hempty]⟩
  have h := queueRun_ok h₀ hempty ops
  refine ⟨h.offered, h.fifo, ?_, fun type code value => ⟨?_, fun i hi => enqueueEvent_events h.sound hi⟩⟩
  · rw [h.sound.irq, Ne, Ne, h.sound.contents_eq_nil]
  · by_cases hf : (queueRun s ops).state.full
    · exact .inl (by rw [enqueueEvent, if_pos hf])
    · exact .inr (enqueueEvent_contents h.sound (by simpa using hf)).2

/-- A key goes down, and the guest reads two of the three words. -/
theorem queueRun_delivers_key :
    let r := queueRun (newEventsState []) [.enqueue 1 102 1, .read, .read]
    r.accepted.flatten = r.delivered ++ r.state.contents ∧ r.delivered = [1, 102] ∧ r.state.irq = true :=
  ⟨(queueRun_delivers (by decide) rfl rfl _).2.1, by decide, by decide⟩

end Emulator.Goldfish
