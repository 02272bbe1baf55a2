import Emulator.Lib.ByteFile
import Emulator.Lib.RingBuffer
import Emulator.Savevm.RoundTrip

/-!
# A stream returns what was put

The side of a `QEMUFile` that is written: a buffer of `IO_BUF_SIZE` bytes that goes to `put_buffer` when it is full. A
function gives `none` if it stores outside the buffer, or if it aborts.

* `PutFile.Holds`: what is stored and what is still in the buffer are the bytes put so far.
* `putAll_holds`: any sequence of calls.
* `stream_returns`: the calls that read give the values back.
-/

namespace Emulator.Savevm

open Emulator.Lib List

/-- A file that is written. `stored` is what `put_buffer` was given, each time at the offset it was given for. -/
structure PutFile where
  bufOffset : ℤ
  bufIndex : ℕ
  bufSize : ℤ
  buf : ℕ → UInt8
  isWrite : Bool
  hasError : Bool
  stored : List UInt8

/-- `qemu_fopen_ops`, with a `put_buffer`. -/
def newPutFile : PutFile := ⟨0, 0, 0, fun _ => 0, false, false, []⟩

namespace PutFile

variable (f : PutFile)

/-- `qemu_fflush`, with a callback that stores all it is given. -/
def qemuFflush : PutFile :=
  if f.isWrite ∧ f.bufIndex > 0 then
    { f with
      stored := writeAt 0 f.stored f.bufOffset.toNat (load f.buf 0 f.bufIndex)
      bufOffset := f.bufOffset + f.bufIndex
      bufIndex := 0 }
  else f

/-- The test of both functions that put. -/
def readBufferNotEmpty : Bool := !f.hasError && !f.isWrite && f.bufIndex > 0

/-- Bytes go to the buffer. -/
def putInBuf (bs : List UInt8) : Option PutFile :=
  if f.bufIndex + bs.length ≤ ioBufSize then
    some { f with buf := store f.buf f.bufIndex bs, isWrite := true, bufIndex := f.bufIndex + bs.length }
  else none

/-- `qemu_fflush` if the buffer is full. -/
def flushFull : PutFile := if f.bufIndex ≥ ioBufSize then f.qemuFflush else f

/-- The loop of `qemu_put_buffer`. A round puts at least one byte. -/
def putBufferLoop : ℕ → List UInt8 → PutFile → Option PutFile
  | 0, bs, f => if f.hasError ∨ bs.length = 0 then some f else none
  | fuel + 1, bs, f =>
    if f.hasError ∨ bs.length = 0 then some f
    else do
      let l := min (ioBufSize - f.bufIndex) bs.length
      let f ← f.putInBuf (bs.take l)
      putBufferLoop fuel (bs.drop l) f.flushFull

def qemuPutBuffer (bs : List UInt8) : Option PutFile :=
  if f.readBufferNotEmpty then none else putBufferLoop bs.length bs f

def qemuPutByte (v : BitVec 32) : Option PutFile :=
  if f.readBufferNotEmpty then none
  else do
    let f ← f.putInBuf [⟨v.setWidth 8⟩]
    return f.flushFull

def qemuPutBe16 (v : BitVec 32) : Option PutFile := do
  let f ← f.qemuPutByte (v >>> 8)
  f.qemuPutByte v

def qemuPutBe32 (v : BitVec 32) : Option PutFile := do
  let f ← f.qemuPutByte (v >>> 24)
  let f ← f.qemuPutByte (v >>> 16)
  let f ← f.qemuPutByte (v >>> 8)
  f.qemuPutByte v

def qemuPutBe64 (v : BitVec 64) : Option PutFile := do
  let f ← f.qemuPutBe32 ((v >>> 32).setWidth 32)
  f.qemuPutBe32 (v.setWidth 32)

/-- `qemu_ftell`. -/
def ftell : ℤ := f.bufOffset - f.bufSize + f.bufIndex

end PutFile

/-- `qemu_get_be16`. -/
def getBe16 : Prog (BitVec 16) := do
  let b₁ ← getByte
  let b₀ ← getByte
  return b₁.toBitVec ++ b₀.toBitVec

/-- **The file holds the bytes put so far**, and there is room in the buffer. -/
structure PutFile.Holds (f : PutFile) (l : List UInt8) : Prop where
  room : f.bufIndex < ioBufSize
  offset : f.bufOffset = f.stored.length
  size : f.bufSize = 0
  bytes : f.stored ++ load f.buf 0 f.bufIndex = l
  write : f.bufIndex > 0 → f.isWrite = true
  error : f.hasError = false

variable {f : PutFile} {l bs : List UInt8}

theorem load_store_append (mem : ℕ → UInt8) (n : ℕ) (bs : List UInt8) :
    load (store mem n bs) 0 (n + bs.length) = load mem 0 n ++ bs := by
  refine ext_getElem (by simp) fun i h1 h2 => ?_
  rw [length_load] at h1
  rw [getElem_append]
  by_cases hi : i < n
  · simp [load, hi, store_of_not_mem]
  · have hcell : store mem n bs (n + (i - n)) = bs[i - n] := store_of_mem (by omega)
    rw [show n + (i - n) = i by omega] at hcell
    simp [load, hi, hcell]

theorem newPutFile_holds : newPutFile.Holds [] := ⟨by decide, rfl, rfl, rfl, fun h => absurd h (by decide), rfl⟩

/-- A flush moves the bytes of the buffer to the end of what is stored. -/
theorem qemuFflush_stored (hoff : f.bufOffset = f.stored.length) (hw : f.bufIndex > 0 → f.isWrite = true) :
    f.qemuFflush.stored = f.stored ++ load f.buf 0 f.bufIndex ∧ f.qemuFflush.bufIndex = 0 ∧
      f.qemuFflush.bufOffset = f.qemuFflush.stored.length ∧ f.qemuFflush.bufSize = f.bufSize ∧
      f.qemuFflush.hasError = f.hasError := by
  by_cases hi : f.bufIndex > 0
  · rw [PutFile.qemuFflush, if_pos ⟨hw hi, hi⟩, hoff, Int.toNat_natCast, writeAt_length]
    refine ⟨rfl, rfl, ?_, rfl, rfl⟩
    simp
  · have hzero : f.bufIndex = 0 := by omega
    rw [PutFile.qemuFflush, if_neg (fun h => hi h.2), hzero]
    exact ⟨(append_nil _).symm, rfl, hoff, rfl, rfl⟩

/-- **Bytes that fit go to the end**, and a full buffer is flushed. -/
theorem PutFile.Holds.put (h : f.Holds l) (hfit : f.bufIndex + bs.length ≤ ioBufSize) :
    ∃ g, f.putInBuf bs = some g ∧ g.flushFull.Holds (l ++ bs) := by
  refine ⟨_, if_pos hfit, ?_⟩
  obtain ⟨g, hg⟩ : ∃ g : PutFile, g = { f with
      buf := store f.buf f.bufIndex bs, isWrite := true, bufIndex := f.bufIndex + bs.length } := ⟨_, rfl⟩
  have hbytes : g.stored ++ load g.buf 0 g.bufIndex = l ++ bs := by
    rw [← h.bytes, hg]
    simp only [load_store_append, append_assoc]
  have hoff : g.bufOffset = g.stored.length := by rw [hg]; exact h.offset
  have hwrite : g.isWrite = true := by rw [hg]
  rw [← hg, PutFile.flushFull]
  by_cases hfull : g.bufIndex ≥ ioBufSize
  · obtain ⟨hstored, hindex, hoff', hsize, herr⟩ := qemuFflush_stored hoff fun _ => hwrite
    rw [if_pos hfull]
    refine ⟨by rw [hindex]; decide, hoff', hsize.trans (hg ▸ h.size), ?_, fun hi => by omega, herr.trans (hg ▸ h.error)⟩
    rw [hindex, hstored, hbytes]
    exact append_nil _
  · rw [if_neg hfull]
    exact ⟨by omega, hoff, hg ▸ h.size, hbytes, fun _ => hwrite, hg ▸ h.error⟩

theorem PutFile.Holds.writable (h : f.Holds l) : f.readBufferNotEmpty = false := by
  have hw := h.write
  unfold PutFile.readBufferNotEmpty
  by_cases hi : f.bufIndex > 0
  · simp [hw hi]
  · simp [hi]

theorem PutFile.Holds.putByte (h : f.Holds l) (v : BitVec 32) :
    ∃ g, f.qemuPutByte v = some g ∧ g.Holds (l ++ [⟨v.setWidth 8⟩]) := by
  obtain ⟨g, hrun, hg⟩ := @PutFile.Holds.put _ _ [⟨v.setWidth 8⟩] h h.room
  refine ⟨_, ?_, hg⟩
  rw [PutFile.qemuPutByte, h.writable, if_neg Bool.false_ne_true, hrun]
  rfl

/-- The loop puts all its bytes: a round takes what fits, and leaves room for the next one. -/
theorem PutFile.Holds.putBufferLoop {fuel : ℕ} (h : f.Holds l) (hfuel : bs.length ≤ fuel) :
    ∃ g, PutFile.putBufferLoop fuel bs f = some g ∧ g.Holds (l ++ bs) := by
  induction fuel generalizing f l bs with
  | zero =>
    obtain rfl := eq_nil_of_length_eq_zero (show bs.length = 0 by omega)
    exact ⟨f, by simp [PutFile.putBufferLoop], by simpa using h⟩
  | succ fuel ih =>
    by_cases hnil : bs.length = 0
    · obtain rfl := eq_nil_of_length_eq_zero hnil
      exact ⟨f, by simp [PutFile.putBufferLoop], by simpa using h⟩
    · have hroom := h.room
      obtain ⟨n, hn⟩ : ∃ n, n = min (ioBufSize - f.bufIndex) bs.length := ⟨_, rfl⟩
      obtain ⟨g, hrun, hg⟩ := @PutFile.Holds.put _ _ (bs.take n) h (by rw [length_take]; omega)
      obtain ⟨g', hrun', hg'⟩ := @ih _ _ (bs.drop n) hg (by rw [length_drop]; omega)
      refine ⟨g', ?_, by simpa [append_assoc] using hg'⟩
      have hgo : ¬ (f.hasError = true ∨ bs.length = 0) := by simp [h.error, hnil]
      rw [PutFile.putBufferLoop, if_neg hgo, ← hn]
      simp only [hrun, Option.bind_eq_bind, Option.bind_some]
      exact hrun'

theorem PutFile.Holds.putBuffer (h : f.Holds l) (bs : List UInt8) :
    ∃ g, f.qemuPutBuffer bs = some g ∧ g.Holds (l ++ bs) := by
  rw [PutFile.qemuPutBuffer, h.writable, if_neg Bool.false_ne_true]
  exact h.putBufferLoop le_rfl

/-- A call that puts a value. -/
inductive PutCall
  | byte (v : BitVec 32)
  | buffer (bs : List UInt8)
  | be16 (v : BitVec 32)
  | be32 (v : BitVec 32)
  | be64 (v : BitVec 64)

/-- What a call that gets a value returns. -/
inductive Got
  | num (n : ℕ)
  | bytes (bs : List UInt8)
  deriving DecidableEq

namespace PutCall

def put : PutCall → PutFile → Option PutFile
  | byte v, f => f.qemuPutByte v
  | buffer bs, f => f.qemuPutBuffer bs
  | be16 v, f => f.qemuPutBe16 v
  | be32 v, f => f.qemuPutBe32 v
  | be64 v, f => f.qemuPutBe64 v

/-- The matching call that gets. -/
def get : PutCall → Prog Got
  | byte _ => do return .num (← getByte).toNat
  | buffer bs => do return .bytes (← getBuffer bs.length)
  | be16 _ => do return .num (← getBe16).toNat
  | be32 _ => do return .num (← getBe32).toNat
  | be64 _ => do return .num (← getBe64).toNat

/-- The number of bytes. -/
def size : PutCall → ℕ
  | byte _ => 1
  | buffer bs => bs.length
  | be16 _ => 2
  | be32 _ => 4
  | be64 _ => 8

/-- The value, as wide as its field. -/
def value : PutCall → Got
  | byte v => .num (v.toNat % 2 ^ 8)
  | buffer bs => .bytes bs
  | be16 v => .num (v.toNat % 2 ^ 16)
  | be32 v => .num (v.toNat % 2 ^ 32)
  | be64 v => .num (v.toNat % 2 ^ 64)

/-- The bytes of a call, most significant first. -/
def bytes : PutCall → List UInt8
  | byte v => [⟨v.setWidth 8⟩]
  | buffer bs => bs
  | be16 v => [⟨v.extractLsb' 8 8⟩, ⟨v.extractLsb' 0 8⟩]
  | be32 v => putBe32 v
  | be64 v => putBe32 (v.extractLsb' 32 32) ++ putBe32 (v.extractLsb' 0 32)

theorem length_bytes (c : PutCall) : c.bytes.length = c.size := by
  cases c <;> rfl

end PutCall

/-- Calls one after the other. -/
def putAll : List PutCall → PutFile → Option PutFile
  | [], f => some f
  | c :: cs, f => (c.put f).bind (putAll cs)

def getAll : List PutCall → Prog (List Got)
  | [] => pure []
  | c :: cs => do
    let v ← c.get
    let vs ← getAll cs
    return v :: vs

theorem setWidth_ushiftRight {w : ℕ} (v : BitVec w) (n k : ℕ) : (v >>> n).setWidth k = v.extractLsb' n k := by
  ext i hi
  simp

theorem setWidth_low {w : ℕ} (v : BitVec w) (k : ℕ) : v.setWidth k = v.extractLsb' 0 k := by
  ext i hi
  simp

theorem PutFile.Holds.putBe32 (h : f.Holds l) (v : BitVec 32) :
    ∃ g, f.qemuPutBe32 v = some g ∧ g.Holds (l ++ Savevm.putBe32 v) := by
  obtain ⟨f₁, hrun₁, h₁⟩ := h.putByte (v >>> 24)
  obtain ⟨f₂, hrun₂, h₂⟩ := h₁.putByte (v >>> 16)
  obtain ⟨f₃, hrun₃, h₃⟩ := h₂.putByte (v >>> 8)
  obtain ⟨f₄, hrun₄, h₄⟩ := h₃.putByte v
  refine ⟨f₄, by simp [PutFile.qemuPutBe32, hrun₁, hrun₂, hrun₃, hrun₄], ?_⟩
  simp only [setWidth_ushiftRight, append_assoc, cons_append, nil_append] at h₄
  simp only [setWidth_low] at h₄
  exact h₄

theorem PutCall.put_holds (c : PutCall) (h : f.Holds l) : ∃ g, c.put f = some g ∧ g.Holds (l ++ c.bytes) := by
  cases c with
  | byte v => exact h.putByte v
  | buffer bs => exact h.putBuffer bs
  | be16 v =>
    obtain ⟨f₁, hrun₁, h₁⟩ := h.putByte (v >>> 8)
    obtain ⟨f₂, hrun₂, h₂⟩ := h₁.putByte v
    refine ⟨f₂, by simp [put, PutFile.qemuPutBe16, hrun₁, hrun₂], ?_⟩
    simp only [setWidth_ushiftRight, append_assoc, cons_append, nil_append] at h₂
    simp only [setWidth_low] at h₂
    exact h₂
  | be32 v => exact h.putBe32 v
  | be64 v =>
    obtain ⟨f₁, hrun₁, h₁⟩ := h.putBe32 ((v >>> 32).setWidth 32)
    obtain ⟨f₂, hrun₂, h₂⟩ := h₁.putBe32 (v.setWidth 32)
    refine ⟨f₂, by simp [put, PutFile.qemuPutBe64, hrun₁, hrun₂], ?_⟩
    simp only [setWidth_ushiftRight, append_assoc] at h₂
    simp only [setWidth_low] at h₂
    exact h₂

/-- **Any sequence of calls** puts its bytes. -/
theorem putAll_holds (cs : List PutCall) (h : f.Holds l) :
    ∃ g, putAll cs f = some g ∧ g.Holds (l ++ cs.flatMap PutCall.bytes) := by
  induction cs generalizing f l with
  | nil => exact ⟨f, rfl, by simpa using h⟩
  | cons c cs ih =>
    obtain ⟨f₁, hrun₁, h₁⟩ := c.put_holds h
    obtain ⟨g, hrun, hg⟩ := ih h₁
    exact ⟨g, by rw [putAll, hrun₁, Option.bind_some, hrun], by simpa [append_assoc] using hg⟩

theorem PutFile.Holds.ftell_eq (h : f.Holds l) : f.ftell = l.length := by
  rw [PutFile.ftell, h.offset, h.size, ← h.bytes, length_append, length_load]
  push_cast
  ring

theorem length_flatMap_bytes (cs : List PutCall) : (cs.flatMap PutCall.bytes).length = (cs.map PutCall.size).sum := by
  simp [length_flatMap, PutCall.length_bytes]

theorem be16_append (v : BitVec 32) : v.extractLsb' 8 8 ++ v.extractLsb' 0 8 = v.extractLsb' 0 16 := by
  ext i hi
  simp only [BitVec.getElem_append, BitVec.getElem_extractLsb']
  split_ifs
  · congr 1
  · congr 1
    omega

theorem be64_append (v : BitVec 64) : v.extractLsb' 32 32 ++ v.extractLsb' 0 32 = v := by
  ext i hi
  simp only [BitVec.getElem_append, BitVec.getElem_extractLsb']
  split_ifs <;> rw [← BitVec.getLsbD_eq_getElem] <;> congr 1 <;> omega

theorem getBe16_takes (v : BitVec 32) :
    getBe16.Takes [⟨v.extractLsb' 8 8⟩, ⟨v.extractLsb' 0 8⟩] (v.extractLsb' 0 16) := by
  unfold getBe16
  refine getByte_bind_takes (getByte_bind_takes ?_)
  simp only [be16_append]
  exact Prog.takes_pure _

theorem getBe64_takes (v : BitVec 64) :
    getBe64.Takes (putBe32 (v.extractLsb' 32 32) ++ putBe32 (v.extractLsb' 0 32)) v := by
  unfold getBe64
  refine (getBe32_takes _).bind ?_
  rw [← append_nil (putBe32 (v.extractLsb' 0 32))]
  refine (getBe32_takes _).bind ?_
  simp only [be64_append]
  exact Prog.takes_pure v

/-- **A call gets the value that was put**, and no byte more. -/
theorem PutCall.get_takes (c : PutCall) : c.get.Takes c.bytes c.value := by
  rw [← append_nil c.bytes]
  cases c with
  | byte v =>
    refine (getByte_takes _).bind ?_
    rw [show PutCall.value (.byte v) = .num (UInt8.toNat ⟨v.setWidth 8⟩) by simp [value, UInt8.toNat]]
    exact Prog.takes_pure _
  | buffer bs => exact (getBuffer_takes bs rfl).bind (Prog.takes_pure _)
  | be16 v =>
    refine (getBe16_takes v).bind ?_
    rw [show PutCall.value (.be16 v) = .num (v.extractLsb' 0 16).toNat by simp [value]]
    exact Prog.takes_pure _
  | be32 v =>
    refine (getBe32_takes v).bind ?_
    rw [show PutCall.value (.be32 v) = .num v.toNat by simp [value, Nat.mod_eq_of_lt v.isLt]]
    exact Prog.takes_pure _
  | be64 v =>
    refine (getBe64_takes v).bind ?_
    rw [show PutCall.value (.be64 v) = .num v.toNat by simp [value, Nat.mod_eq_of_lt v.isLt]]
    exact Prog.takes_pure _

theorem getAll_takes (cs : List PutCall) : (getAll cs).Takes (cs.flatMap PutCall.bytes) (cs.map PutCall.value) := by
  induction cs with
  | nil => exact Prog.takes_pure _
  | cons c cs ih =>
    rw [flatMap_cons, map_cons, ← append_nil (cs.flatMap _)]
    exact c.get_takes.bind (ih.bind (Prog.takes_pure _))

/-- The buffer never has more than `IO_BUF_SIZE` bytes. -/
theorem refill_length {src : Source} {f : QEMUFile} (h : f.buf.length ≤ ioBufSize) :
    (refill src f).buf.length ≤ ioBufSize := by
  unfold refill qemuFillBuffer
  simp only
  split_ifs
  · simp only [Source.getBuffer, length_take]
    omega
  · exact h
  · exact h

theorem getBufferLoop_length {src : Source} (fuel : ℕ) :
    ∀ (size : ℕ) {f : QEMUFile}, f.buf.length ≤ ioBufSize →
      (getBufferLoop src fuel size f).2.buf.length ≤ ioBufSize := by
  induction fuel with
  | zero => exact fun _ _ h => h
  | succ fuel ih =>
    intro size f h
    unfold getBufferLoop
    simp only
    split_ifs
    · exact h
    · exact refill_length h
    · exact ih _ (refill_length h)

theorem run_length {α : Type} {src : Source} (p : Prog α) :
    ∀ {f : QEMUFile}, f.buf.length ≤ ioBufSize → (p.run src f).2.buf.length ≤ ioBufSize := by
  induction p with
  | done a => exact fun h => h
  | getByte k ih =>
    intro f h
    refine ih _ ?_
    have hr := @refill_length src _ h
    unfold qemuGetByte
    simp only
    split
    · exact hr
    · exact hr
  | getBuffer size k ih => exact fun h => ih _ (getBufferLoop_length size size h)
  | ftell k ih => exact fun h => ih _ h
  | fseek pos k ih => exact fun _ => ih (Nat.zero_le _)
  | setError k ih => exact fun h => ih h
  | hasError k ih => exact fun h => ih _ h

/-- **A stream returns what was put.** After `qemu_fflush` the first `k` calls that get return the values of the first
`k` calls that put, whatever pieces `get_buffer` gives; the position counts the bytes on both sides, and no index leaves
the buffer. -/
theorem stream_returns (cs : List PutCall) (src : Source) :
    ∃ f, putAll cs newPutFile = some f ∧ ∀ k,
      (∃ g, putAll (cs.take k) newPutFile = some g ∧ g.ftell = ((cs.take k).map PutCall.size).sum ∧
        g.bufIndex < ioBufSize) ∧
      let r := (getAll (cs.take k)).run { src with bytes := f.qemuFflush.stored } qemuFopenOps
      r.1 = (cs.take k).map PutCall.value ∧ qemuFtell r.2 = ((cs.take k).map PutCall.size).sum ∧
        r.2.bufIndex ≤ r.2.buf.length ∧ r.2.buf.length ≤ ioBufSize ∧ r.2.hasError = false := by
  obtain ⟨f, hrun, hf⟩ := putAll_holds cs newPutFile_holds
  refine ⟨f, hrun, fun k => ⟨?_, ?_⟩⟩
  · obtain ⟨g, hrun', hg⟩ := putAll_holds (cs.take k) newPutFile_holds
    refine ⟨g, hrun', ?_, hg.room⟩
    rw [hg.ftell_eq, nil_append, length_flatMap_bytes]
  · have hstored : f.qemuFflush.stored = (cs.take k).flatMap PutCall.bytes ++ (cs.drop k).flatMap PutCall.bytes := by
      rw [(qemuFflush_stored hf.offset hf.write).1, hf.bytes, nil_append, ← flatMap_append,
        take_append_drop]
    intro r
    have hideal := getAll_takes (cs.take k) f.qemuFflush.stored 0 _ hstored
    obtain ⟨hvalue, hok, htell, herr⟩ :=
      @Prog.run_of_ideal { src with bytes := f.qemuFflush.stored } _ _ _ _ _ qemuFopenOps_ok rfl hideal
    refine ⟨hvalue, ?_, hok.index, run_length _ (Nat.zero_le _), herr⟩
    rw [htell, zero_add, length_flatMap_bytes]

end Emulator.Savevm
