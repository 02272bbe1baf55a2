import Emulator.Savevm.Stream

/-!
# Tables of fields (`qemu_put_struct`, `qemu_get_struct`)

A table says which fields of a structure are saved. Both loops over it are `for (;;)` around a `switch`, and the `break`
at `Q_FIELD_END` leaves the `switch` only: the loops go on with what is behind the table.

* `qemuPutStruct_not_returned`: `qemu_put_struct` never returns.
* `qemuGetStruct_not_zero`: `qemu_get_struct` never returns 0.
* `qemuPutStruct_exits`: a buffer is looked up in the first entries of the table, and refused anywhere else.
-/

namespace Emulator.Savevm

open Emulator.Lib

inductive QFieldType
  | fieldEnd
  | byte
  | int16
  | int32
  | int64
  | buffer
  | bufferSize
  | other (type : ℕ)
  deriving DecidableEq

structure QField where
  type : QFieldType
  offset : BitVec 16
  deriving DecidableEq

/-- How a round of a loop ends: at the end of its body, by a `break` out of the loop, or out of the function. -/
inductive Flow (σ : Type)
  | next (s : σ)
  | leave (s : σ)
  | ret (v : ℤ) (s : σ)
  | exit

/-- How a function ends. -/
inductive Ended (σ : Type)
  | returned (v : ℤ) (s : σ)
  | exited

/-- `for (;;)`, and a `return` of `v` behind it. `none` if the rounds do not suffice. -/
def forever {m : Type → Type} [Monad m] {σ : Type} (v : ℤ) (body : σ → m (Flow σ)) : ℕ → σ → m (Option (Ended σ))
  | 0, _ => pure none
  | rounds + 1, s => do
    match ← body s with
    | .next s => forever v body rounds s
    | .leave s => return some (.returned v s)
    | .ret v s => return some (.returned v s)
    | .exit => return some .exited

/-- The `n` bytes at `p` on a host that is little-endian, most significant first. -/
def hostBytes (s : ℕ → UInt8) (p n : ℕ) : List UInt8 := (load s p n).reverse

/-- The value with these bytes. -/
def beNat (bs : List UInt8) : ℕ := bs.foldl (fun v b => v * 256 + b.toNat) 0

/-- The size of a buffer, from the entries 1 and 2 of the table. -/
def bufferSize (fields : ℕ → QField) : BitVec 32 :=
  (fields 1).offset.setWidth 32 <<< 16 ||| (fields 2).offset.setWidth 32

/-- The test on the entries 1 and 2. -/
def noBufferSize (fields : ℕ → QField) : Bool :=
  (fields 1).type ≠ .bufferSize || (fields 2).type ≠ .bufferSize

/-- A round of `qemu_put_struct`. -/
def putField (fields : ℕ → QField) (s : ℕ → UInt8) : ℕ × PutFile → Option (Flow (ℕ × PutFile)) := fun (qf, f) =>
  let p := (fields qf).offset.toNat
  match (fields qf).type with
  | .fieldEnd => some (.next (qf + 1, f))
  | .byte => do return .next (qf + 1, ← f.qemuPutByte (.ofNat 32 (beNat (hostBytes s p 1))))
  | .int16 => do return .next (qf + 1, ← f.qemuPutBe16 (.ofNat 32 (beNat (hostBytes s p 2))))
  | .int32 => do return .next (qf + 1, ← f.qemuPutBe32 (.ofNat 32 (beNat (hostBytes s p 4))))
  | .int64 => do return .next (qf + 1, ← f.qemuPutBe64 (.ofNat 64 (beNat (hostBytes s p 8))))
  | .buffer =>
    if noBufferSize fields then some .exit
    else do return .next (qf + 2 + 1, ← f.qemuPutBuffer (load s p (bufferSize fields).toInt.toNat))
  | .bufferSize => some .exit
  | .other _ => some .exit

/-- `qemu_put_struct`. It returns nothing, which is 0 here. -/
def qemuPutStruct (rounds : ℕ) (fields : ℕ → QField) (s : ℕ → UInt8) (f : PutFile) :
    Option (Option (Ended (ℕ × PutFile))) :=
  forever 0 (putField fields s) rounds (0, f)

/-- A value is stored at `p` in the order of the host. -/
def storeHost (s : ℕ → UInt8) (p n v : ℕ) : ℕ → UInt8 :=
  store s p ((List.range n).map fun i => UInt8.ofNat (v / 256 ^ i))

/-- A round of `qemu_get_struct`. -/
def getField (fields : ℕ → QField) : ℕ × (ℕ → UInt8) → Prog (Flow (ℕ × (ℕ → UInt8))) := fun (qf, s) =>
  let p := (fields qf).offset.toNat
  match (fields qf).type with
  | .fieldEnd => return .next (qf + 1, s)
  | .byte => do return .next (qf + 1, storeHost s p 1 (← getByte).toNat)
  | .int16 => do return .next (qf + 1, storeHost s p 2 (← getBe16).toNat)
  | .int32 => do return .next (qf + 1, storeHost s p 4 (← getBe32).toNat)
  | .int64 => do return .next (qf + 1, storeHost s p 8 (← getBe64).toNat)
  | .buffer =>
    if noBufferSize fields then return .ret (-1) (qf, s)
    else do
      let bs ← getBuffer (bufferSize fields).toInt.toNat
      if bs.length ≠ (bufferSize fields).toNat then return .ret (-1) (qf, store s p bs)
      else return .next (qf + 2 + 1, store s p bs)
  | .bufferSize => return .exit
  | .other _ => return .exit

/-- `qemu_get_struct`. -/
def qemuGetStruct (rounds : ℕ) (fields : ℕ → QField) (s : ℕ → UInt8) : Prog (Option (Ended (ℕ × (ℕ → UInt8)))) :=
  forever 0 (getField fields) rounds (0, s)

/-- A use of one of the `QFIELD` macros: the field at `offset`, of `size` bytes for a buffer. -/
inductive FieldUse
  | byte (offset : BitVec 16)
  | int16 (offset : BitVec 16)
  | int32 (offset : BitVec 16)
  | int64 (offset : BitVec 16)
  | buffer (offset : BitVec 16) (size : BitVec 32)

namespace FieldUse

/-- The entries of the macro. -/
def entries : FieldUse → List QField
  | byte o => [⟨.byte, o⟩]
  | int16 o => [⟨.int16, o⟩]
  | int32 o => [⟨.int32, o⟩]
  | int64 o => [⟨.int64, o⟩]
  | buffer o size => [⟨.buffer, o⟩, ⟨.bufferSize, (size >>> 16).setWidth 16⟩, ⟨.bufferSize, size.setWidth 16⟩]

def offset : FieldUse → ℕ
  | byte o | int16 o | int32 o | int64 o | buffer o _ => o.toNat

def size : FieldUse → ℕ
  | byte _ => 1
  | int16 _ => 2
  | int32 _ => 4
  | int64 _ => 8
  | buffer _ size => size.toNat

/-- What is saved of the field: a number most significant byte first, a buffer as it is. -/
def saved (s : ℕ → UInt8) : FieldUse → List UInt8
  | buffer o size => load s o.toNat size.toNat
  | u => hostBytes s u.offset u.size

end FieldUse

/-- `QFIELD_BEGIN` to `QFIELD_END`. -/
def fieldTable (us : List FieldUse) : List QField := us.flatMap FieldUse.entries ++ [⟨.fieldEnd, 0⟩]

/-- The memory from the table on. -/
def tableMemory (us : List FieldUse) (behind : ℕ → QField) : ℕ → QField := fun i => (fieldTable us)[i]?.getD (behind i)

/-- **`qemu_put_struct` saves each field once, in order**, and returns. -/
def PutsFields (us : List FieldUse) (behind : ℕ → QField) : Prop :=
  ∀ s f l, PutFile.Holds f l →
    ∃ rounds qf f', qemuPutStruct rounds (tableMemory us behind) s f = some (some (.returned 0 (qf, f'))) ∧
      f'.Holds (l ++ us.flatMap (FieldUse.saved s))

/-- **`qemu_get_struct` restores the fields** from these bytes, changes nothing else, and returns 0. -/
def GetsFields (us : List FieldUse) (behind : ℕ → QField) : Prop :=
  ∀ (s t : ℕ → UInt8) (src : Source) (f : QEMUFile), f.Ok src → f.hasError = false →
    us.flatMap (FieldUse.saved s) <+: bytesAt src.bytes (qemuFtell f) →
    ∃ rounds qf t', ((qemuGetStruct rounds (tableMemory us behind) t).run src f).1 = some (.returned 0 (qf, t')) ∧
      ∀ i, t' i = if ∃ u ∈ us, u.offset ≤ i ∧ i < u.offset + u.size then s i else t i

variable {fields : ℕ → QField} {us : List FieldUse}

/-- A round of `qemu_put_struct` goes on, or the process exits. -/
theorem putField_next {s : ℕ → UInt8} {qf : ℕ} {f : PutFile} {r : Flow (ℕ × PutFile)}
    (h : putField fields s (qf, f) = some r) : r = .exit ∨ ∃ st, r = .next st := by
  unfold putField at h
  simp only at h
  split at h
  case h_1 => exact .inr ⟨_, (Option.some.inj h).symm⟩
  case h_6 =>
    split_ifs at h
    · exact .inl (Option.some.inj h).symm
    · obtain ⟨g, -, hg⟩ := Option.bind_eq_some_iff.1 h
      exact .inr ⟨_, (Option.some.inj hg).symm⟩
  case h_7 => exact .inl (Option.some.inj h).symm
  case h_8 => exact .inl (Option.some.inj h).symm
  all_goals
    obtain ⟨g, -, hg⟩ := Option.bind_eq_some_iff.1 h
    exact .inr ⟨_, (Option.some.inj hg).symm⟩

/-- **`qemu_put_struct` never returns.** -/
theorem qemuPutStruct_not_returned (rounds : ℕ) (s : ℕ → UInt8) (v : ℤ) (st : ℕ × PutFile) (f : PutFile) :
    qemuPutStruct rounds fields s f ≠ some (some (.returned v st)) := by
  suffices h : ∀ qf f, forever 0 (putField fields s) rounds (qf, f) ≠ some (some (.returned v st)) from h 0 f
  induction rounds with
  | zero => exact fun qf f h => absurd (Option.some.inj h) (by simp)
  | succ rounds ih =>
    intro qf f h
    obtain ⟨r, hr, h⟩ := Option.bind_eq_some_iff.1 h
    rcases putField_next hr with rfl | ⟨⟨qf', f'⟩, rfl⟩
    · exact absurd (Option.some.inj h) (by simp)
    · exact ih qf' f' h

/-- A round of `qemu_get_struct` goes on, refuses a buffer, or the process exits. -/
theorem getField_next (src : Source) (qf : ℕ) (s : ℕ → UInt8) (f : QEMUFile) :
    ((getField fields (qf, s)).run src f).1 = .exit ∨ (∃ st, ((getField fields (qf, s)).run src f).1 = .next st) ∨
      ∃ st, ((getField fields (qf, s)).run src f).1 = .ret (-1) st := by
  unfold getField
  simp only
  split
  case h_6 =>
    split_ifs
    · exact .inr (.inr ⟨_, rfl⟩)
    · rw [Prog.run_bind]
      split_ifs
      · exact .inr (.inr ⟨_, rfl⟩)
      · exact .inr (.inl ⟨_, rfl⟩)
  case h_1 => exact .inr (.inl ⟨_, rfl⟩)
  case h_7 => exact .inl rfl
  case h_8 => exact .inl rfl
  all_goals
    rw [Prog.run_bind]
    exact .inr (.inl ⟨_, rfl⟩)

/-- **`qemu_get_struct` never returns 0.** -/
theorem qemuGetStruct_not_zero (rounds : ℕ) (src : Source) (s : ℕ → UInt8) (st : ℕ × (ℕ → UInt8)) (f : QEMUFile) :
    ((qemuGetStruct rounds fields s).run src f).1 ≠ some (.returned 0 st) := by
  suffices h : ∀ qf s f, ((forever 0 (getField fields) rounds (qf, s)).run src f).1 ≠ some (.returned 0 st) from h 0 s f
  induction rounds with
  | zero => exact fun qf s f h => absurd h (by simp [forever, Prog.run, pure])
  | succ rounds ih =>
    intro qf s f
    rw [forever, Prog.run_bind]
    rcases getField_next src qf s f with hr | ⟨⟨qf', s'⟩, hr⟩ | ⟨s', hr⟩
    · rw [hr]
      exact fun h => absurd h (by simp [Prog.run, pure])
    · rw [hr]
      exact ih qf' s' _
    · rw [hr]
      exact fun h => absurd h (by simp [Prog.run, pure])

/-- **Neither function meets its purpose**, on any table, whatever is behind it. -/
theorem fields_never (us : List FieldUse) (behind : ℕ → QField) : ¬ PutsFields us behind ∧ ¬ GetsFields us behind := by
  constructor
  · intro h
    obtain ⟨rounds, qf, f', hrun, -⟩ := h (fun _ => 0) newPutFile [] newPutFile_holds
    exact qemuPutStruct_not_returned rounds _ 0 (qf, f') _ hrun
  · intro h
    obtain ⟨src, hsrc⟩ : ∃ src : Source, src.bytes = us.flatMap (FieldUse.saved fun _ => 0) :=
      ⟨⟨_, fun _ => 1, fun _ => Nat.one_pos⟩, rfl⟩
    obtain ⟨rounds, qf, t', hrun, -⟩ := h (fun _ => 0) (fun _ => 0) src qemuFopenOps qemuFopenOps_ok rfl (by
      rw [hsrc]
      exact List.prefix_rfl)
    exact qemuGetStruct_not_zero rounds src _ (qf, t') _ hrun

/-- One byte is saved and loaded, from a table that is followed by terminators. -/
theorem fields_byte : ¬ (PutsFields [.byte 0] (fun _ => ⟨.fieldEnd, 0⟩) ∧ GetsFields [.byte 0] fun _ =>
    ⟨.fieldEnd, 0⟩) := by
  rintro ⟨hput, -⟩
  obtain ⟨rounds, qf, f', hrun, -⟩ := hput (fun _ => 0) newPutFile [] newPutFile_holds
  exact qemuPutStruct_not_returned rounds _ 0 (qf, f') _ hrun

/-- The entry of a field that is not a buffer. -/
def QField.IsNumber (q : QField) : Prop := q.type = .byte ∨ q.type = .int16 ∨ q.type = .int32 ∨ q.type = .int64

/-- A round that puts a number. -/
theorem putField_number {s : ℕ → UInt8} {qf : ℕ} {f : PutFile} {l : List UInt8} (h : f.Holds l)
    (hn : (fields qf).IsNumber) : ∃ g l', putField fields s (qf, f) = some (.next (qf + 1, g)) ∧ g.Holds l' := by
  obtain ⟨c, hc⟩ : ∃ c : PutCall, putField fields s (qf, f) = (c.put f).bind fun g => some (.next (qf + 1, g)) := by
    obtain ⟨v, hv⟩ : ∃ v : ℕ → ℕ, v = fun n => beNat (hostBytes s (fields qf).offset.toNat n) := ⟨_, rfl⟩
    rcases hn with ht | ht | ht | ht
    · exact ⟨.byte (.ofNat 32 (v 1)), by simp only [putField, ht, hv]; rfl⟩
    · exact ⟨.be16 (.ofNat 32 (v 2)), by simp only [putField, ht, hv]; rfl⟩
    · exact ⟨.be32 (.ofNat 32 (v 4)), by simp only [putField, ht, hv]; rfl⟩
    · exact ⟨.be64 (.ofNat 64 (v 8)), by simp only [putField, ht, hv]; rfl⟩
  obtain ⟨g, hrun, hg⟩ := c.put_holds h
  exact ⟨g, _, by rw [hc, hrun, Option.bind_some], hg⟩

/-- The sizes of a buffer are looked up in the first entries, which are of other fields. -/
theorem noBufferSize_of_behind {n : ℕ} (hn : 0 < n) (hpre : ∀ j < n, (fields j).IsNumber)
    (hbuf : (fields n).type = .buffer) : noBufferSize fields = true := by
  have hone : (fields 1).type ≠ .bufferSize := by
    rcases Nat.lt_or_ge 1 n with hlt | hge
    · rcases hpre 1 hlt with h | h | h | h <;> simp [h]
    · obtain rfl : n = 1 := by omega
      simp [hbuf]
  simp [noBufferSize, hone]

/-- **A buffer behind other fields makes `qemu_put_struct` exit.** -/
theorem qemuPutStruct_exits {s : ℕ → UInt8} {f : PutFile} {l : List UInt8} {n : ℕ} (h : f.Holds l) (hn : 0 < n)
    (hpre : ∀ j < n, (fields j).IsNumber) (hbuf : (fields n).type = .buffer) :
    qemuPutStruct (n + 1) fields s f = some (some .exited) := by
  have hno := noBufferSize_of_behind hn hpre hbuf
  suffices hrun : ∀ k qf f l, qf + k = n → PutFile.Holds f l →
      forever 0 (putField fields s) (k + 1) (qf, f) = some (some .exited) from hrun n 0 f l (Nat.zero_add n) h
  intro k
  induction k with
  | zero =>
    rintro qf f l rfl -
    have hround : putField fields s (qf, f) = some .exit := by
      simp only [putField, show (fields qf).type = .buffer from hbuf, hno, if_true]
    rw [forever, hround]
    rfl
  | succ k ih =>
    intro qf f l hk hf
    obtain ⟨g, l', hround, hg⟩ := putField_number (s := s) hf (hpre qf (by omega))
    rw [forever, hround]
    exact ih (qf + 1) g l' (by omega) hg

/-- `events_state_fields`: the events are a buffer behind two numbers, so a running device cannot be saved. -/
theorem qemuPutStruct_exits_events :
    qemuPutStruct 3 (tableMemory [.int32 8, .int32 12, .buffer 16 4096, .int32 4112, .int32 4116] fun _ =>
      ⟨.fieldEnd, 0⟩)
      (fun _ => 0) newPutFile = some (some .exited) := by
  refine qemuPutStruct_exits newPutFile_holds (Nat.succ_pos 1) (fun j hj => ?_) rfl
  interval_cases j
  · exact .inr (.inr (.inl rfl))
  · exact .inr (.inr (.inl rfl))

end Emulator.Savevm
