import Emulator.Savevm.File

/-!
# Reading a file at a position

Behind the end of a file a byte reads as 0, a block as what is left, the position stays and the flag is set.
`Prog.plain` is code that reads the byte string in this way, without a buffer.

* `Prog.run_plain`: the buffer makes no difference, with or without errors.
* `Prog.NoSeek.plain_le`: code that does not seek does not go back.
-/

namespace Emulator.Savevm

/-- A position, and whether the flag is set. -/
structure Cursor where
  pos : ℤ
  error : Bool

def QEMUFile.cursor (f : QEMUFile) : Cursor := ⟨qemuFtell f, f.hasError⟩

variable {src : Source} {f : QEMUFile} {bytes : List UInt8}

theorem qemuGetByte_ok (h : f.Ok src) : (qemuGetByte src f).2.Ok src ∧
    (bytesAt src.bytes (qemuFtell f) = [] → (qemuGetByte src f).1 = 0 ∧
      (qemuGetByte src f).2.cursor = ⟨qemuFtell f, true⟩) ∧
    ∀ b rest, bytesAt src.bytes (qemuFtell f) = b :: rest → (qemuGetByte src f).1 = b ∧
      (qemuGetByte src f).2.cursor = ⟨qemuFtell f + 1, f.hasError⟩ := by
  cases hb : bytesAt src.bytes (qemuFtell f) with
  | nil =>
    obtain ⟨hok, htell, hcase⟩ := refill_ok h
    rcases hcase with ⟨hlt, -⟩ | ⟨hend, -, herr⟩
    · have hone := (hok.take (l := 1) hlt).2.1
      rw [htell, hb] at hone
      exact absurd hone (by simp)
    · have hnone : (refill src f).buf[(refill src f).bufIndex]? = none := List.getElem?_eq_none (by omega)
      have hget : qemuGetByte src f = (0, refill src f) := by simp only [qemuGetByte, hnone]
      rw [hget]
      refine ⟨hok, fun _ => ⟨rfl, ?_⟩, fun b rest hcons => absurd hcons (by simp)⟩
      simp only [QEMUFile.cursor, htell, herr]
  | cons b rest =>
    obtain ⟨h1, h2, h3, h4⟩ := qemuGetByte_cons h hb
    refine ⟨h2, fun hnil => absurd hnil (by simp), fun b' rest' hcons => ?_⟩
    obtain ⟨rfl, rfl⟩ := List.cons.inj hcons
    exact ⟨h1, by simp only [QEMUFile.cursor, h3, h4]⟩

theorem qemuGetBuffer_ok (h : f.Ok src) (size : ℕ) : (qemuGetBuffer src size f).2.Ok src ∧
    (qemuGetBuffer src size f).1 = (bytesAt src.bytes (qemuFtell f)).take size ∧
    (qemuGetBuffer src size f).2.cursor = ⟨qemuFtell f + ((bytesAt src.bytes (qemuFtell f)).take size).length,
      f.hasError || decide (((bytesAt src.bytes (qemuFtell f)).take size).length < size)⟩ := by
  obtain ⟨hok, hbytes, htell, hflag⟩ := getBufferLoop_ok (Nat.le_refl size) h
  exact ⟨hok, hbytes, by simp only [QEMUFile.cursor, qemuGetBuffer, htell, hflag]⟩

namespace Prog

variable {α β : Type}

/-- The byte string is read at the position itself. -/
def plain (bytes : List UInt8) : Prog α → Cursor → α × Cursor
  | done a, c => (a, c)
  | getByte k, c =>
    match bytesAt bytes c.pos with
    | [] => plain bytes (k 0) ⟨c.pos, true⟩
    | b :: _ => plain bytes (k b) ⟨c.pos + 1, c.error⟩
  | getBuffer size k, c =>
    let got := (bytesAt bytes c.pos).take size
    plain bytes (k got) ⟨c.pos + got.length, c.error || decide (got.length < size)⟩
  | ftell k, c => plain bytes (k c.pos) c
  | fseek pos k, c => plain bytes k ⟨pos, c.error⟩
  | setError k, c => plain bytes k ⟨c.pos, true⟩
  | hasError k, c => plain bytes (k c.error) c

/-- **The buffer makes no difference.** -/
theorem run_plain (p : Prog α) (h : f.Ok src) :
    p.plain src.bytes f.cursor = ((p.run src f).1, (p.run src f).2.cursor) := by
  induction p generalizing f with
  | done a => rfl
  | getByte k ih =>
    obtain ⟨hok, hnil, hcons⟩ := qemuGetByte_ok h
    simp only [run, plain]
    rw [← ih _ hok]
    cases hb : bytesAt src.bytes f.cursor.pos with
    | nil =>
      obtain ⟨h1, h2⟩ := hnil hb
      rw [h1, h2]
      rfl
    | cons b rest =>
      obtain ⟨h1, h2⟩ := hcons b rest hb
      rw [h1, h2]
      rfl
  | getBuffer size k ih =>
    obtain ⟨hok, hbytes, hcursor⟩ := qemuGetBuffer_ok h size
    simp only [run, plain]
    rw [← ih _ hok, hbytes, hcursor]
    rfl
  | ftell k ih => exact ih _ h
  | fseek pos k ih =>
    have hcursor : (qemuFseek pos f).cursor = ⟨pos, f.hasError⟩ := by
      rw [QEMUFile.cursor, qemuFtell_qemuFseek]
      rfl
    simp only [run, plain]
    rw [← ih (qemuFseek_ok pos), hcursor]
    rfl
  | setError k ih => exact ih (f := { f with hasError := true }) ⟨h.index, h.buffered⟩
  | hasError k ih => exact ih _ h

theorem plain_bind (p : Prog α) (k : α → Prog β) (c : Cursor) :
    (p >>= k).plain bytes c = (k (p.plain bytes c).1).plain bytes (p.plain bytes c).2 := by
  show (p.bind k).plain bytes c = _
  induction p generalizing c with
  | done a => rfl
  | getByte g ih =>
    simp only [bind, plain]
    split <;> exact ih _ _
  | getBuffer size g ih => exact ih _ _
  | ftell g ih => exact ih _ _
  | fseek pos g ih => exact ih _
  | setError g ih => exact ih _
  | hasError g ih => exact ih _ _

theorem plain_pure (a : α) (c : Cursor) : (pure a : Prog α).plain bytes c = (a, c) := rfl

theorem plain_ftell (c : Cursor) : (Savevm.ftell).plain bytes c = (c.pos, c) := rfl

theorem plain_fseek (pos : ℤ) (c : Cursor) : (Savevm.fseek pos).plain bytes c = ((), ⟨pos, c.error⟩) := rfl

/-- **Code that does not seek.** -/
def NoSeek : Prog α → Prop
  | done _ => True
  | getByte k => ∀ b, (k b).NoSeek
  | getBuffer _ k => ∀ bs, (k bs).NoSeek
  | ftell k => ∀ pos, (k pos).NoSeek
  | fseek _ _ => False
  | setError k => k.NoSeek
  | hasError k => ∀ e, (k e).NoSeek

theorem NoSeek.bind {p : Prog α} {k : α → Prog β} (h : p.NoSeek) (hk : ∀ a, (k a).NoSeek) : (p >>= k).NoSeek := by
  show (p.bind k).NoSeek
  induction p with
  | done a => exact hk a
  | getByte g ih => exact fun b => ih b (h b)
  | getBuffer size g ih => exact fun bs => ih bs (h bs)
  | ftell g ih => exact fun pos => ih pos (h pos)
  | fseek pos g _ => exact h.elim
  | setError g ih => exact ih h
  | hasError g ih => exact fun e => ih e (h e)

/-- **It does not go back.** -/
theorem NoSeek.plain_le {p : Prog α} (h : p.NoSeek) (c : Cursor) : c.pos ≤ (p.plain bytes c).2.pos := by
  induction p generalizing c with
  | done a => exact le_rfl
  | getByte k ih =>
    simp only [plain]
    split
    · exact ih _ (h _) _
    · exact (Int.le_add_of_nonneg_right (by decide)).trans (ih _ (h _) ⟨c.pos + 1, c.error⟩)
  | getBuffer size k ih =>
    exact (Int.le_add_of_nonneg_right (Int.natCast_nonneg _)).trans (ih _ (h _) ⟨c.pos + _, _⟩)
  | ftell k ih => exact ih _ (h _) c
  | fseek pos k _ => exact h.elim
  | setError k ih => exact ih h ⟨c.pos, true⟩
  | hasError k ih => exact ih _ (h _) c

/-- Code that comes to its end behind a position does so behind code that does not seek. -/
theorem NoSeek.bind_ends {p : Prog α} (h : p.NoSeek) {k : α → Prog (Option β)} {c : Cursor} {low : ℤ} (hc : low ≤ c.pos)
    (hk : ∀ a c', low ≤ c'.pos → ((k a).plain bytes c').1 ≠ none) : ((p >>= k).plain bytes c).1 ≠ none := by
  rw [plain_bind]
  exact hk _ _ (hc.trans (h.plain_le c))

end Prog

theorem getByte_noSeek : getByte.NoSeek := fun _ => trivial

theorem getBuffer_noSeek (size : ℕ) : (getBuffer size).NoSeek := fun _ => trivial

theorem getBe32_noSeek : getBe32.NoSeek :=
  .bind getByte_noSeek fun _ => .bind getByte_noSeek fun _ => .bind getByte_noSeek fun _ =>
    .bind getByte_noSeek fun _ => trivial

end Emulator.Savevm
