import Emulator.Lib.RingBuffer
import Mathlib.Tactic

/-!
# Circular buffers (`cbuffer.c`)

* `write_ok`: as many bytes go to the end as there is room for.
* `readPeek_ok`, `readStep_ok`: the bytes at the front, up to the end of the memory, and their removal.
-/

namespace Emulator.Chardev

open Emulator.Lib List

/-- A `CBuffer`. -/
structure CBuffer where
  buff : ℕ → UInt8
  size : ℕ
  rpos : ℕ
  count : ℕ

namespace CBuffer

variable (cb : CBuffer)

/-- `cbuffer_reset`. -/
def reset (buff : ℕ → UInt8) (size : ℕ) : CBuffer := ⟨buff, size, 0, 0⟩

/-- `cbuffer_read_avail`. -/
def readAvail : ℕ := cb.count

/-- The loop of `cbuffer_write`, with what it leaves. A round takes at least one byte. -/
def writeLoop : ℕ → CBuffer → List UInt8 → List UInt8 × CBuffer
  | 0, cb, l => (l, cb)
  | fuel + 1, cb, l =>
    if l.length = 0 then (l, cb)
    else
      let avail := cb.size - cb.count
      let wpos := cb.rpos + cb.count
      if avail = 0 then (l, cb)
      else
        let wpos := if wpos ≥ cb.size then wpos - cb.size else wpos
        let avail := if wpos + avail > cb.size then cb.size - wpos else avail
        let avail := if avail > l.length then l.length else avail
        writeLoop fuel { cb with buff := store cb.buff wpos (l.take avail), count := cb.count + avail } (l.drop avail)

/-- `cbuffer_write`: the number of bytes taken, and the buffer. -/
def write (l : List UInt8) : ℕ × CBuffer :=
  let r := writeLoop l.length cb l
  (l.length - r.1.length, r.2)

/-- `cbuffer_read_peek`: how many bytes, and the bytes from `base` on. -/
def readPeek : ℕ × (ℕ → List UInt8) :=
  let avail := if cb.rpos + cb.count > cb.size then cb.size - cb.rpos else cb.count
  (avail, load cb.buff cb.rpos)

/-- `cbuffer_read_step`. -/
def readStep (len : ℕ) : CBuffer :=
  let len := if len > cb.count then cb.count else len
  let rpos := cb.rpos + len
  { cb with rpos := if rpos ≥ cb.size then rpos - cb.size else rpos, count := cb.count - len }

/-- The bytes in the buffer. -/
def contents : List UInt8 := ringList cb.size cb.buff cb.rpos cb.count

/-- **The buffer is sound.** -/
structure Ok : Prop where
  rpos : cb.rpos < cb.size
  count : cb.count ≤ cb.size

@[simp] theorem length_contents : cb.contents.length = cb.count := length_ringList _ _ _ _

variable {cb}

theorem reset_ok {buff : ℕ → UInt8} {size : ℕ} (h : 0 < size) :
    (reset buff size).Ok ∧ (reset buff size).contents = [] :=
  ⟨⟨h, Nat.zero_le _⟩, rfl⟩

/-- A piece that fits in a row goes to the end. -/
theorem Ok.put (h : cb.Ok) {a : List UInt8} (hroom : cb.count + a.length ≤ cb.size)
    (hrow : ringAt cb.size cb.rpos cb.count + a.length ≤ cb.size) :
    let cb' : CBuffer := { cb with
      buff := store cb.buff (ringAt cb.size cb.rpos cb.count) a, count := cb.count + a.length }
    cb'.Ok ∧ cb'.contents = cb.contents ++ a := by
  refine ⟨⟨h.rpos, hroom⟩, ?_⟩
  have hput := @ringList_put _ cb.buff cb.size cb.rpos cb.count a [] h.rpos (by simpa using hroom) hrow (.inl rfl)
  simp only [length_nil, Nat.add_zero, append_nil, store_nil] at hput
  exact hput

/-- The loop takes what there is room for. -/
theorem writeLoop_ok {fuel : ℕ} : ∀ {cb : CBuffer} {l : List UInt8}, cb.Ok → l.length ≤ fuel →
    (writeLoop fuel cb l).1 = l.drop (cb.size - cb.count) ∧ (writeLoop fuel cb l).2.Ok ∧
      (writeLoop fuel cb l).2.size = cb.size ∧
      (writeLoop fuel cb l).2.contents = cb.contents ++ l.take (cb.size - cb.count) := by
  induction fuel with
  | zero =>
    intro cb l h hl
    obtain rfl := eq_nil_of_length_eq_zero (show l.length = 0 by omega)
    exact ⟨by simp [writeLoop], h, rfl, by simp [writeLoop]⟩
  | succ fuel ih =>
    intro cb l h hl
    have hcount := h.count
    unfold writeLoop
    by_cases hnil : l.length = 0
    · obtain rfl := eq_nil_of_length_eq_zero hnil
      exact ⟨by simp, by simpa using h, by simp, by simp⟩
    · by_cases hfull : cb.size - cb.count = 0
      · simp only [if_neg hnil, hfull, if_true]
        exact ⟨by simp, h, trivial, by simp⟩
      · -- a round stores a piece that fits in a row
        have hwpos : (if cb.rpos + cb.count ≥ cb.size then cb.rpos + cb.count - cb.size else cb.rpos + cb.count) =
            ringAt cb.size cb.rpos cb.count := by
          unfold ringAt
          split_ifs <;> omega
        have hlt := ringAt_lt h.rpos hcount
        simp only [if_neg hnil, if_neg hfull, hwpos]
        obtain ⟨n, hn⟩ : ∃ n, n = min (min (cb.size - cb.count) (cb.size - ringAt cb.size cb.rpos cb.count)) l.length :=
          ⟨_, rfl⟩
        have havail : (if (if ringAt cb.size cb.rpos cb.count + (cb.size - cb.count) > cb.size then
            cb.size - ringAt cb.size cb.rpos cb.count else cb.size - cb.count) > l.length then l.length
            else if ringAt cb.size cb.rpos cb.count + (cb.size - cb.count) > cb.size then
              cb.size - ringAt cb.size cb.rpos cb.count else cb.size - cb.count) = n := by
          split_ifs <;> omega
        have hlen : (l.take n).length = n := by
          rw [length_take]
          omega
        obtain ⟨hok, hcontents⟩ := h.put (a := l.take n) (by omega) (by omega)
        rw [hlen] at hok hcontents
        obtain ⟨h1, h2, h3, h4⟩ := ih hok (l := l.drop n) (by rw [length_drop]; omega)
        simp only [havail]
        refine ⟨?_, h2, h3, ?_⟩
        · rw [h1, drop_drop]
          simp only
          congr 1
          omega
        · rw [h4, hcontents, append_assoc]
          simp only
          rw [show cb.size - cb.count = n + (cb.size - (cb.count + n)) by omega, take_add]

/-- **As many bytes go to the end as there is room for.** -/
theorem write_ok (h : cb.Ok) (l : List UInt8) :
    (cb.write l).1 = min (cb.size - cb.count) l.length ∧ (cb.write l).2.Ok ∧ (cb.write l).2.size = cb.size ∧
      (cb.write l).2.contents = cb.contents ++ l.take (cb.size - cb.count) := by
  obtain ⟨h1, h2, h3, h4⟩ := writeLoop_ok h (Nat.le_refl l.length)
  refine ⟨?_, h2, h3, h4⟩
  simp only [write, h1, length_drop]
  omega

/-- **The bytes at the front.** -/
theorem readPeek_ok (h : cb.Ok) {n : ℕ} (hn : n ≤ cb.readPeek.1) :
    n ≤ cb.count ∧ cb.readPeek.2 n = cb.contents.take n := by
  have hr := h.rpos
  have hle : n ≤ cb.count ∧ cb.rpos + n ≤ cb.size := by
    simp only [readPeek] at hn
    split_ifs at hn <;> omega
  refine ⟨hle.1, ?_⟩
  rw [contents, ringList_take hle.1, ringList_linear hle.2]
  rfl

theorem readPeek_pos (h : cb.Ok) (hpos : 0 < cb.count) : 0 < cb.readPeek.1 := by
  have hr := h.rpos
  simp only [readPeek]
  split_ifs <;> omega

/-- **The first bytes are removed.** -/
theorem readStep_ok (h : cb.Ok) {n : ℕ} (hn : n ≤ cb.count) :
    (cb.readStep n).Ok ∧ (cb.readStep n).size = cb.size ∧ (cb.readStep n).contents = cb.contents.drop n := by
  have hr := h.rpos
  have hc := h.count
  have hrpos : (if cb.rpos + n ≥ cb.size then cb.rpos + n - cb.size else cb.rpos + n) = ringAt cb.size cb.rpos n := by
    unfold ringAt
    split_ifs <;> omega
  have hstep : cb.readStep n = { cb with rpos := ringAt cb.size cb.rpos n, count := cb.count - n } := by
    simp only [readStep, if_neg (show ¬ n > cb.count by omega), hrpos]
  have hdrop := @ringList_drop _ cb.buff cb.size cb.rpos n (cb.count - n) hr (by omega)
  rw [show n + (cb.count - n) = cb.count by omega] at hdrop
  rw [hstep]
  exact ⟨⟨ringAt_lt hr (by omega), by simp only; omega⟩, rfl, hdrop⟩

end CBuffer

end Emulator.Chardev
