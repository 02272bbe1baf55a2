import Mathlib.Tactic

/-!
# Buffered files of the VM state

A `QEMUFile` that is read: a buffer of `IO_BUF_SIZE` bytes that is filled from a byte
string, in pieces of any size, and a flag that is set when the bytes run out. The code
that reads such a file is a `Prog`; `Prog.run` is what it does, `Prog.ideal` what it would
do if it read the byte string directly and stopped at the first error.

* `Prog.run_of_ideal`: without an error the buffer makes no difference.
* `Prog.run_error`: after an error the flag is set and stays.
-/

namespace Emulator.Savevm

open List

/-- What is behind a file: the bytes, and how many of them `get_buffer` gives at most at an offset. -/
structure Source where
  bytes : List UInt8
  give : ℕ → ℕ
  give_pos : ∀ pos, 0 < give pos

/-- `IO_BUF_SIZE`. -/
def ioBufSize : ℕ := 32768

/-- A file that is read. `buf` are the first `buf_size` bytes of its buffer. -/
structure QEMUFile where
  bufOffset : ℤ
  bufIndex : ℕ
  buf : List UInt8
  hasError : Bool

/-- `qemu_fopen_ops`. -/
def qemuFopenOps : QEMUFile := ⟨0, 0, [], false⟩

/-- The bytes from an offset on. -/
def bytesAt (bytes : List UInt8) (pos : ℤ) : List UInt8 := if pos < 0 then [] else bytes.drop pos.toNat

/-- `f->get_buffer`. -/
def Source.getBuffer (src : Source) (pos : ℤ) (size : ℕ) : List UInt8 :=
  (bytesAt src.bytes pos).take (min size (src.give pos.toNat))

variable (src : Source)

def qemuFillBuffer (f : QEMUFile) : QEMUFile :=
  let buf := src.getBuffer f.bufOffset ioBufSize
  if buf ≠ [] then { f with bufIndex := 0, buf := buf, bufOffset := f.bufOffset + buf.length }
  else { f with hasError := true }

/-- The buffer is filled if nothing is left in it. -/
def refill (f : QEMUFile) : QEMUFile := if f.buf.length ≤ f.bufIndex then qemuFillBuffer src f else f

def qemuGetByte (f : QEMUFile) : UInt8 × QEMUFile :=
  let f := refill src f
  match f.buf[f.bufIndex]? with
  | none => (0, f)
  | some b => (b, { f with bufIndex := f.bufIndex + 1 })

/-- The loop of `qemu_get_buffer`. A round takes at least one byte. -/
def getBufferLoop : ℕ → ℕ → QEMUFile → List UInt8 × QEMUFile
  | 0, _, f => ([], f)
  | fuel + 1, size, f =>
    if size = 0 then ([], f)
    else
      let f := refill src f
      let l := min (f.buf.length - f.bufIndex) size
      if l = 0 then ([], f)
      else
        let r := getBufferLoop fuel (size - l) { f with bufIndex := f.bufIndex + l }
        ((f.buf.drop f.bufIndex).take l ++ r.1, r.2)

def qemuGetBuffer (size : ℕ) (f : QEMUFile) : List UInt8 × QEMUFile := getBufferLoop src size size f

def qemuFtell (f : QEMUFile) : ℤ := f.bufOffset - f.buf.length + f.bufIndex

/-- `qemu_fseek` with `SEEK_SET`. -/
def qemuFseek (pos : ℤ) (f : QEMUFile) : QEMUFile := { f with bufOffset := pos, bufIndex := 0, buf := [] }

/-- Code that reads a file and returns an `α`. -/
inductive Prog (α : Type) where
  | done (a : α)
  | getByte (k : UInt8 → Prog α)
  | getBuffer (size : ℕ) (k : List UInt8 → Prog α)
  | ftell (k : ℤ → Prog α)
  | fseek (pos : ℤ) (k : Prog α)
  | setError (k : Prog α)
  | hasError (k : Bool → Prog α)

namespace Prog

variable {α β : Type}

def bind (f : α → Prog β) : Prog α → Prog β
  | done a => f a
  | getByte k => getByte fun b => (k b).bind f
  | getBuffer size k => getBuffer size fun bs => (k bs).bind f
  | ftell k => ftell fun pos => (k pos).bind f
  | fseek pos k => fseek pos (k.bind f)
  | setError k => setError (k.bind f)
  | hasError k => hasError fun e => (k e).bind f

instance : Monad Prog where
  pure := done
  bind p f := p.bind f

def run (src : Source) : Prog α → QEMUFile → α × QEMUFile
  | done a, f => (a, f)
  | getByte k, f => let r := qemuGetByte src f; run src (k r.1) r.2
  | getBuffer size k, f => let r := qemuGetBuffer src size f; run src (k r.1) r.2
  | ftell k, f => run src (k (qemuFtell f)) f
  | fseek pos k, f => run src k (qemuFseek pos f)
  | setError k, f => run src k { f with hasError := true }
  | hasError k, f => run src (k f.hasError) f

/-- The bytes are read at the position itself, and the first error ends the run. -/
def ideal (bytes : List UInt8) : Prog α → ℤ → Option (α × ℤ)
  | done a, pos => some (a, pos)
  | getByte k, pos =>
    match bytesAt bytes pos with
    | [] => none
    | b :: _ => ideal bytes (k b) (pos + 1)
  | getBuffer size k, pos =>
    if size ≤ (bytesAt bytes pos).length then ideal bytes (k ((bytesAt bytes pos).take size)) (pos + size) else none
  | ftell k, pos => ideal bytes (k pos) pos
  | fseek pos k, _ => ideal bytes k pos
  | setError _, _ => none
  | hasError k, pos => ideal bytes (k false) pos

end Prog

def getByte : Prog UInt8 := .getByte .done

def getBuffer (size : ℕ) : Prog (List UInt8) := .getBuffer size .done

def ftell : Prog ℤ := .ftell .done

def fseek (pos : ℤ) : Prog Unit := .fseek pos (.done ())

def hasError : Prog Bool := .hasError .done

/-- `qemu_get_be32`. -/
def getBe32 : Prog (BitVec 32) := do
  let b₃ ← getByte
  let b₂ ← getByte
  let b₁ ← getByte
  let b₀ ← getByte
  return b₃.toBitVec ++ b₂.toBitVec ++ b₁.toBitVec ++ b₀.toBitVec

/-- `qemu_get_be64`. -/
def getBe64 : Prog (BitVec 64) := do
  let hi ← getBe32
  let lo ← getBe32
  return hi ++ lo

/-- What is left in the buffer is what comes next in the byte string. -/
structure QEMUFile.Ok (src : Source) (f : QEMUFile) : Prop where
  index : f.bufIndex ≤ f.buf.length
  buffered : f.buf.drop f.bufIndex <+: bytesAt src.bytes (qemuFtell f)

variable {src} {f : QEMUFile}

theorem qemuFopenOps_ok : qemuFopenOps.Ok src := ⟨Nat.le_refl 0, nil_prefix⟩

theorem qemuFseek_ok (pos : ℤ) : (qemuFseek pos f).Ok src := ⟨Nat.le_refl 0, nil_prefix⟩

theorem qemuFtell_qemuFseek (pos : ℤ) : qemuFtell (qemuFseek pos f) = pos := by
  simp [qemuFtell, qemuFseek]

theorem bytesAt_add {bytes : List UInt8} {pos : ℤ} {n : ℕ} (h : n ≤ (bytesAt bytes pos).length) :
    bytesAt bytes (pos + n) = (bytesAt bytes pos).drop n := by
  unfold bytesAt at *
  by_cases hpos : pos < 0
  · rw [if_pos hpos] at h ⊢
    obtain rfl : n = 0 := by simpa using h
    rw [if_pos (by omega), drop_zero]
  · rw [if_neg hpos, if_neg (by omega), drop_drop]
    congr 1
    omega

/-- The position moves by what is taken from the buffer. -/
theorem QEMUFile.Ok.take (h : f.Ok src) {l : ℕ} (hl : f.bufIndex + l ≤ f.buf.length) :
    (f.buf.drop f.bufIndex).take l = (bytesAt src.bytes (qemuFtell f)).take l ∧
      l ≤ (bytesAt src.bytes (qemuFtell f)).length ∧
      ({ f with bufIndex := f.bufIndex + l } : QEMUFile).Ok src ∧
      qemuFtell { f with bufIndex := f.bufIndex + l } = qemuFtell f + l := by
  obtain ⟨rest, hrest⟩ := h.buffered
  have hlen : l ≤ (f.buf.drop f.bufIndex).length := by
    rw [length_drop]
    omega
  have htell : qemuFtell { f with bufIndex := f.bufIndex + l } = qemuFtell f + l := by
    simp only [qemuFtell]
    push_cast
    ring
  have hle : l ≤ (bytesAt src.bytes (qemuFtell f)).length := by
    rw [← hrest, length_append]
    omega
  refine ⟨?_, hle, ⟨hl, ?_⟩, htell⟩
  · rw [← hrest, take_append_of_le_length hlen]
  · rw [htell, bytesAt_add hle, ← hrest, drop_append_of_le_length hlen]
    show f.buf.drop (f.bufIndex + l) <+: _
    rw [← drop_drop]
    exact prefix_append _ _

/-- After `refill` there is a byte in the buffer, or there is none left and the flag is set. -/
theorem refill_ok (h : f.Ok src) : (refill src f).Ok src ∧ qemuFtell (refill src f) = qemuFtell f ∧
    ((refill src f).bufIndex < (refill src f).buf.length ∧ (refill src f).hasError = f.hasError ∨
      (refill src f).buf.length = (refill src f).bufIndex ∧ bytesAt src.bytes (qemuFtell f) = [] ∧
        (refill src f).hasError = true) := by
  unfold refill
  split_ifs with hle
  · have hidx : f.bufIndex = f.buf.length := Nat.le_antisymm h.index hle
    have htell : qemuFtell f = f.bufOffset := by
      unfold qemuFtell
      omega
    unfold qemuFillBuffer
    simp only
    split_ifs with hne
    · have hoff : qemuFtell { f with
          bufIndex := 0
          buf := src.getBuffer f.bufOffset ioBufSize
          bufOffset := f.bufOffset + (src.getBuffer f.bufOffset ioBufSize).length } = qemuFtell f := by
        simp only [qemuFtell]
        omega
      refine ⟨⟨Nat.zero_le _, ?_⟩, hoff, .inl ⟨length_pos_iff.2 hne, rfl⟩⟩
      rw [hoff, htell, drop_zero]
      exact take_prefix _ _
    · rw [ne_eq, not_not] at hne
      refine ⟨⟨h.index, h.buffered⟩, rfl, .inr ⟨hidx.symm, ?_, rfl⟩⟩
      have hpos := src.give_pos f.bufOffset.toNat
      unfold Source.getBuffer at hne
      rw [htell]
      refine (take_eq_nil_iff.1 hne).resolve_left ?_
      unfold ioBufSize
      omega
  · exact ⟨h, rfl, .inl ⟨Nat.lt_of_not_le hle, rfl⟩⟩

theorem qemuGetByte_cons (h : f.Ok src) {b : UInt8} {rest : List UInt8}
    (hb : bytesAt src.bytes (qemuFtell f) = b :: rest) :
    (qemuGetByte src f).1 = b ∧ (qemuGetByte src f).2.Ok src ∧
      qemuFtell (qemuGetByte src f).2 = qemuFtell f + 1 ∧ (qemuGetByte src f).2.hasError = f.hasError := by
  obtain ⟨hok, htell, hcase⟩ := refill_ok h
  unfold qemuGetByte
  simp only
  obtain ⟨hlt, herr⟩ : (refill src f).bufIndex < (refill src f).buf.length ∧
      (refill src f).hasError = f.hasError := hcase.resolve_right fun hr => by
    rw [hb] at hr
    exact absurd hr.2.1 (cons_ne_nil _ _)
  obtain ⟨htake, -, hok', htell'⟩ := hok.take (l := 1) hlt
  rw [List.getElem?_eq_getElem hlt]
  refine ⟨?_, hok', ?_, herr⟩
  · rw [htell, hb] at htake
    rw [drop_eq_getElem_cons hlt] at htake
    exact (List.cons.inj htake).1
  · rw [← htell]
    exact htell'

theorem qemuGetByte_nil (h : f.Ok src) (hb : bytesAt src.bytes (qemuFtell f) = []) :
    (qemuGetByte src f).2.Ok src ∧ (qemuGetByte src f).2.hasError = true := by
  obtain ⟨hok, htell, hcase⟩ := refill_ok h
  unfold qemuGetByte
  simp only
  rcases hcase with ⟨hlt, -⟩ | ⟨hend, -, herr⟩
  · have := (hok.take (l := 1) hlt).2.1
    rw [htell, hb] at this
    exact absurd this (by simp)
  · rw [List.getElem?_eq_none (by omega)]
    exact ⟨hok, herr⟩

theorem getBufferLoop_mono (fuel size : ℕ) (h : f.hasError = true) :
    (getBufferLoop src fuel size f).2.hasError = true := by
  induction fuel generalizing size f with
  | zero => exact h
  | succ fuel ih =>
    have hr : (refill src f).hasError = true := by
      unfold refill qemuFillBuffer
      simp only
      split_ifs
      · exact h
      · rfl
      · exact h
    unfold getBufferLoop
    simp only
    split_ifs
    · exact h
    · exact hr
    · exact ih _ hr

/-- The loop takes what is left, and `size` bytes at most; the flag is set when that is less. -/
theorem getBufferLoop_ok {fuel size : ℕ} (hf : size ≤ fuel) (h : f.Ok src) :
    (getBufferLoop src fuel size f).2.Ok src ∧
      (getBufferLoop src fuel size f).1 = (bytesAt src.bytes (qemuFtell f)).take size ∧
      qemuFtell (getBufferLoop src fuel size f).2 =
        qemuFtell f + ((bytesAt src.bytes (qemuFtell f)).take size).length ∧
      (getBufferLoop src fuel size f).2.hasError =
        (f.hasError || decide (((bytesAt src.bytes (qemuFtell f)).take size).length < size)) := by
  induction fuel generalizing size f with
  | zero =>
    obtain rfl : size = 0 := by omega
    simp [getBufferLoop, h]
  | succ fuel ih =>
    unfold getBufferLoop
    by_cases hs : size = 0
    · subst hs
      simp [h]
    · obtain ⟨hok, htell, hcase⟩ := refill_ok h
      simp only [if_neg hs]
      rcases hcase with ⟨hlt, herr⟩ | ⟨hend, hnil, herr⟩
      · -- a round takes some bytes, the rest of the loop the others
        obtain ⟨l, hl⟩ : ∃ l, l = min ((refill src f).buf.length - (refill src f).bufIndex) size := ⟨_, rfl⟩
        rw [← hl, if_neg (by omega)]
        obtain ⟨htake, hle, hok', htell'⟩ := hok.take (l := l) (by omega)
        rw [htell] at htake hle htell'
        obtain ⟨hok₂, hbytes, htell₂, herr₂⟩ := ih (show size - l ≤ fuel by omega) hok'
        rw [htell', bytesAt_add hle] at hbytes htell₂ herr₂
        have hsplit : (bytesAt src.bytes (qemuFtell f)).take size = (bytesAt src.bytes (qemuFtell f)).take l ++
            ((bytesAt src.bytes (qemuFtell f)).drop l).take (size - l) := by
          rw [← take_add, show l + (size - l) = size by omega]
        have hlength := congrArg length hsplit
        rw [length_append, length_take_of_le hle] at hlength
        refine ⟨hok₂, by rw [hbytes, htake, hsplit], htell₂.trans (by omega), ?_⟩
        rw [herr₂, hlength]
        exact congrArg₂ _ herr (decide_eq_decide.2 (by omega))
      · rw [show min ((refill src f).buf.length - (refill src f).bufIndex) size = 0 by omega, if_pos rfl, hnil]
        simp [hok, htell, herr, Nat.pos_of_ne_zero hs]

namespace Prog

variable {α β : Type} {bytes : List UInt8}

theorem ideal_bind (p : Prog α) (k : α → Prog β) (pos : ℤ) :
    (p >>= k).ideal bytes pos = (p.ideal bytes pos).bind fun r => (k r.1).ideal bytes r.2 := by
  show (p.bind k).ideal bytes pos = _
  induction p generalizing pos with
  | done a => rfl
  | getByte c ih =>
    simp only [bind, ideal]
    split
    · rfl
    · exact ih _ _
  | getBuffer size c ih =>
    simp only [bind, ideal]
    split_ifs
    · exact ih _ _
    · rfl
  | ftell c ih => exact ih _ _
  | fseek pos c ih => exact ih _
  | setError c _ => rfl
  | hasError c ih => exact ih _ _

theorem run_bind (p : Prog α) (k : α → Prog β) (f : QEMUFile) :
    (p >>= k).run src f = (k (p.run src f).1).run src (p.run src f).2 := by
  show (p.bind k).run src f = _
  induction p generalizing f with
  | done a => rfl
  | getByte c ih => exact ih _ _
  | getBuffer size c ih => exact ih _ _
  | ftell c ih => exact ih _ _
  | fseek pos c ih => exact ih _
  | setError c ih => exact ih _
  | hasError c ih => exact ih _ _

theorem ideal_pure (a : α) (pos : ℤ) : (pure a : Prog α).ideal bytes pos = some (a, pos) := rfl

theorem run_mono (p : Prog α) (h : f.hasError = true) : (p.run src f).2.hasError = true := by
  induction p generalizing f with
  | done a => exact h
  | getByte c ih =>
    refine ih _ ?_
    unfold qemuGetByte refill qemuFillBuffer
    simp only
    split_ifs <;> split <;> first | exact h | rfl
  | getBuffer size c ih => exact ih _ (getBufferLoop_mono _ _ h)
  | ftell c ih => exact ih _ h
  | fseek pos c ih => exact ih h
  | setError c ih => exact ih rfl
  | hasError c ih => exact ih _ h

/-- **The buffer makes no difference** to a run without an error. -/
theorem run_of_ideal (p : Prog α) {a : α} {pos : ℤ} (h : f.Ok src) (he : f.hasError = false)
    (hi : p.ideal src.bytes (qemuFtell f) = some (a, pos)) :
    (p.run src f).1 = a ∧ (p.run src f).2.Ok src ∧ qemuFtell (p.run src f).2 = pos ∧
      (p.run src f).2.hasError = false := by
  induction p generalizing f with
  | done b =>
    obtain ⟨rfl, rfl⟩ := Prod.mk.inj (Option.some.inj hi)
    exact ⟨rfl, h, rfl, he⟩
  | getByte c ih =>
    unfold ideal at hi
    split at hi
    · exact absurd hi (by simp)
    · rename_i b rest hb
      obtain ⟨h1, h2, h3, h4⟩ := qemuGetByte_cons h hb
      unfold run
      refine ih _ h2 (h4.trans he) ?_
      rw [h1, h3]
      exact hi
  | getBuffer size c ih =>
    unfold ideal at hi
    split_ifs at hi with hs
    obtain ⟨h1, h2, h3, h4⟩ := getBufferLoop_ok (Nat.le_refl size) h
    rw [length_take_of_le hs] at h3 h4
    refine ih _ h1 (by simp [qemuGetBuffer, h4, he]) ?_
    show (c (getBufferLoop src size size f).1).ideal _ (qemuFtell (getBufferLoop src size size f).2) = _
    rw [h2, h3]
    exact hi
  | ftell c ih => exact ih _ h he hi
  | fseek pos' c ih => exact ih (qemuFseek_ok pos') he (by rw [qemuFtell_qemuFseek]; exact hi)
  | setError c _ => exact absurd hi (by simp [ideal])
  | hasError c ih =>
    unfold run
    rw [he]
    exact ih _ h he hi

/-- **After an error the flag is set.** -/
theorem run_error (p : Prog α) (h : f.Ok src) (hi : p.ideal src.bytes (qemuFtell f) = none) :
    (p.run src f).2.hasError = true := by
  induction p generalizing f with
  | done b => exact absurd hi (by simp [ideal])
  | getByte c ih =>
    unfold ideal at hi
    split at hi
    · rename_i hb
      exact run_mono (c _) (qemuGetByte_nil h hb).2
    · rename_i b rest hb
      obtain ⟨h1, h2, h3, -⟩ := qemuGetByte_cons h hb
      refine ih _ h2 ?_
      rw [h1, h3]
      exact hi
  | getBuffer size c ih =>
    unfold ideal at hi
    obtain ⟨h1, h2, h3, h4⟩ := getBufferLoop_ok (Nat.le_refl size) h
    split_ifs at hi with hs
    · refine ih _ h1 ?_
      show (c (getBufferLoop src size size f).1).ideal _ (qemuFtell (getBufferLoop src size size f).2) = _
      rw [h2, h3, length_take_of_le hs]
      exact hi
    · refine run_mono (c _) (h4.trans ?_)
      rw [length_take, decide_eq_true (by omega), Bool.or_true]
  | ftell c ih => exact ih _ h hi
  | fseek pos' c ih => exact ih (qemuFseek_ok pos') (by rw [qemuFtell_qemuFseek]; exact hi)
  | setError c _ => exact run_mono c rfl
  | hasError c ih =>
    unfold run
    cases he : f.hasError with
    | true => exact run_mono _ he
    | false => exact ih _ h hi

end Prog

end Emulator.Savevm
