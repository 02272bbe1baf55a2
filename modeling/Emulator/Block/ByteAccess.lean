import Emulator.Lib.Bytes
import Emulator.Block.Request

/-!
# Byte access over sectors (`block.c`)

`bdrv_pread` and `bdrv_pwrite` cut a range of bytes in the rest of a sector, whole sectors and the
start of a sector. The format driver is a parameter: `Lawful` says that it reads and writes sectors.

* `bdrvRead_ok`, `bdrvWrite_ok`: sectors inside the device pass the request check.
* `byteAccess_exact`: exactly the bytes of the range are read and written.
-/

namespace Emulator.Block

/-- The synchronous calls of a format driver: what `bdrv_read` leaves in the buffer, `none` if it fails, and whether
`bdrv_write` succeeds. -/
structure BlockDriver (σ : Type) where
  bdrvRead : σ → ℕ → ℕ → Option Bytes × σ
  bdrvWrite : σ → ℕ → ℕ → Bytes → Bool × σ

structure BlockDriverState (σ : Type) where
  drv : Option (BlockDriver σ)
  device : Device
  readOnly : Bool
  /-- The private state of the driver. -/
  state : σ

variable {σ : Type}

def bdrvRead (bs : BlockDriverState σ) (sectorNum nbSectors : ℕ) : Except Errno Bytes × BlockDriverState σ :=
  match bs.drv with
  | none => (.error .enomedium, bs)
  | some drv =>
    match bdrvCheckRequest bs.device (BitVec.ofNat 64 sectorNum) (BitVec.ofNat 32 nbSectors) with
    | some _ => (.error .eio, bs)
    | none =>
      match drv.bdrvRead bs.state sectorNum nbSectors with
      | (none, state) => (.error .eio, { bs with state := state })
      | (some buf, state) => (.ok buf, { bs with state := state })

def bdrvWrite (bs : BlockDriverState σ) (sectorNum : ℕ) (buf : Bytes) (nbSectors : ℕ) :
    Except Errno Unit × BlockDriverState σ :=
  match bs.drv with
  | none => (.error .enomedium, bs)
  | some drv =>
    if bs.readOnly then (.error .eacces, bs)
    else
      match bdrvCheckRequest bs.device (BitVec.ofNat 64 sectorNum) (BitVec.ofNat 32 nbSectors) with
      | some _ => (.error .eio, bs)
      | none =>
        match drv.bdrvWrite bs.state sectorNum nbSectors buf with
        | (false, state) => (.error .eio, { bs with state := state })
        | (true, state) => (.ok (), { bs with state := state })

/-- `(SECTOR_SIZE - offset) & (SECTOR_SIZE - 1)`: the bytes up to the next sector. -/
def toSectorStart (offset : ℕ) : ℕ := (512 - offset % 512) % 512

/-- The data of the last sector, to the place `pos` of the buffer. -/
def preadTail (bs : BlockDriverState σ) (sectorNum pos count count1 : ℕ) (buf : Bytes) :
    Except Errno ℕ × Bytes × BlockDriverState σ :=
  if 0 < count then
    match bdrvRead bs sectorNum 1 with
    | (.error _, bs) => (.error .eio, buf, bs)
    | (.ok tmpBuf, bs) => (.ok count1, buf.write pos count tmpBuf, bs)
  else (.ok count1, buf, bs)

/-- The sectors that are read in place, and the rest. -/
def preadSectors (bs : BlockDriverState σ) (sectorNum pos count count1 : ℕ) (buf : Bytes) :
    Except Errno ℕ × Bytes × BlockDriverState σ :=
  let nbSectors := count / 512
  if 0 < nbSectors then
    match bdrvRead bs sectorNum nbSectors with
    | (.error _, bs) => (.error .eio, buf, bs)
    | (.ok data, bs) =>
      let len := 512 * nbSectors
      preadTail bs (sectorNum + nbSectors) (pos + len) (count - len) count1 (buf.write pos len data)
  else preadTail bs sectorNum pos count count1 buf

def bdrvPread (bs : BlockDriverState σ) (offset : ℕ) (buf : Bytes) (count1 : ℕ) :
    Except Errno ℕ × Bytes × BlockDriverState σ :=
  let len := min (toSectorStart offset) count1
  let sectorNum := offset / 512
  if 0 < len then
    match bdrvRead bs sectorNum 1 with
    | (.error _, bs) => (.error .eio, buf, bs)
    | (.ok tmpBuf, bs) =>
      let buf := buf.write 0 len (tmpBuf.from (offset % 512))
      let count := count1 - len
      if count = 0 then (.ok count1, buf, bs)
      else preadSectors bs (sectorNum + 1) len count count1 buf
  else preadSectors bs sectorNum 0 count1 count1 buf

def pwriteTail (bs : BlockDriverState σ) (sectorNum : ℕ) (buf : Bytes) (count count1 : ℕ) :
    Except Errno ℕ × BlockDriverState σ :=
  if 0 < count then
    match bdrvRead bs sectorNum 1 with
    | (.error _, bs) => (.error .eio, bs)
    | (.ok tmpBuf, bs) =>
      match bdrvWrite bs sectorNum (tmpBuf.write 0 count buf) 1 with
      | (.error _, bs) => (.error .eio, bs)
      | (.ok _, bs) => (.ok count1, bs)
  else (.ok count1, bs)

def pwriteSectors (bs : BlockDriverState σ) (sectorNum : ℕ) (buf : Bytes) (count count1 : ℕ) :
    Except Errno ℕ × BlockDriverState σ :=
  let nbSectors := count / 512
  if 0 < nbSectors then
    match bdrvWrite bs sectorNum buf nbSectors with
    | (.error _, bs) => (.error .eio, bs)
    | (.ok _, bs) =>
      let len := 512 * nbSectors
      pwriteTail bs (sectorNum + nbSectors) (buf.from len) (count - len) count1
  else pwriteTail bs sectorNum buf count count1

def bdrvPwrite (bs : BlockDriverState σ) (offset : ℕ) (buf : Bytes) (count1 : ℕ) :
    Except Errno ℕ × BlockDriverState σ :=
  let len := min (toSectorStart offset) count1
  let sectorNum := offset / 512
  if 0 < len then
    match bdrvRead bs sectorNum 1 with
    | (.error _, bs) => (.error .eio, bs)
    | (.ok tmpBuf, bs) =>
      match bdrvWrite bs sectorNum (tmpBuf.write (offset % 512) len buf) 1 with
      | (.error _, bs) => (.error .eio, bs)
      | (.ok _, bs) =>
        let count := count1 - len
        if count = 0 then (.ok count1, bs)
        else pwriteSectors bs (sectorNum + 1) (buf.from len) count count1
  else pwriteSectors bs sectorNum buf count1 count1

/-- The driver reads and writes the sectors of a device of `length` bytes; `ok` is what it needs of its state. -/
structure Lawful (drv : BlockDriver σ) (length : ℕ) (ok : σ → Prop) (content : σ → Bytes) : Prop where
  read : ∀ state sectorNum nbSectors, ok state → 512 * (sectorNum + nbSectors) ≤ length →
    ∃ buf state', drv.bdrvRead state sectorNum nbSectors = (some buf, state') ∧ ok state' ∧
      (∀ i < 512 * nbSectors, buf i = content state (512 * sectorNum + i)) ∧
      ∀ x < length, content state' x = content state x
  write : ∀ state sectorNum nbSectors buf, ok state → 512 * (sectorNum + nbSectors) ≤ length →
    ∃ state', drv.bdrvWrite state sectorNum nbSectors buf = (true, state') ∧ ok state' ∧
      ∀ x < length, content state' x =
        (content state).write (512 * sectorNum) (512 * nbSectors) buf x

/-- A device of whole sectors, open for writing, that cannot grow. -/
structure Open (bs : BlockDriverState σ) (length : ℕ) (ok : σ → Prop) (content : σ → Bytes) : Prop where
  lawful : ∃ drv, bs.drv = some drv ∧ Lawful drv length ok content
  inserted : bs.device.inserted = true
  growable : bs.device.growable = false
  size : bs.device.length.toInt = length
  sectors : 512 ∣ length
  writable : bs.readOnly = false
  state : ok bs.state

variable {bs : BlockDriverState σ} {length : ℕ} {ok : σ → Prop} {content : σ → Bytes} {c : Bytes}

/-- An open device whose bytes are `c`. -/
structure Holds (bs : BlockDriverState σ) (length : ℕ) (ok : σ → Prop) (content : σ → Bytes) (c : Bytes) : Prop
    extends Open bs length ok content where
  bytes : ∀ x < length, content bs.state x = c x

theorem Open.withState (h : Open bs length ok content) {state : σ} (hok : ok state) :
    Open { bs with state := state } length ok content :=
  ⟨h.lawful, h.inserted, h.growable, h.size, h.sectors, h.writable, hok⟩

/-- Sectors inside the device pass the request check. -/
theorem Open.check (h : Open bs length ok content) {sectorNum nbSectors : ℕ}
    (hin : 512 * (sectorNum + nbSectors) ≤ length) (hn : nbSectors < 2 ^ 22) :
    bdrvCheckRequest bs.device (BitVec.ofNat 64 sectorNum) (BitVec.ofNat 32 nbSectors) = none := by
  have hlength := bs.device.length.toInt_lt
  rw [h.size] at hlength
  exact (bdrvCheckRequest_sectors h.inserted h.growable h.size (by omega) hn).mpr hin

theorem bdrvRead_ok (h : Holds bs length ok content c) (sectorNum nbSectors : ℕ)
    (hin : 512 * (sectorNum + nbSectors) ≤ length) (hn : nbSectors < 2 ^ 22) :
    ∃ buf bs', bdrvRead bs sectorNum nbSectors = (.ok buf, bs') ∧ Holds bs' length ok content c ∧
      ∀ i < 512 * nbSectors, buf i = c (512 * sectorNum + i) := by
  obtain ⟨drv, hdrv, hlaw⟩ := h.lawful
  obtain ⟨buf, state', hread, hok, hbuf, hsame⟩ := hlaw.read bs.state sectorNum nbSectors h.state hin
  refine ⟨buf, { bs with state := state' }, ?_, ⟨h.toOpen.withState hok, fun x hx => ?_⟩, fun i hi => ?_⟩
  · unfold bdrvRead
    rw [hdrv, h.check hin hn]
    simp only [hread]
  · rw [← h.bytes x hx]
    exact hsame x hx
  · rw [hbuf i hi]
    exact h.bytes _ (by omega)

theorem bdrvWrite_ok (h : Holds bs length ok content c) (sectorNum nbSectors : ℕ) (buf : Bytes)
    (hin : 512 * (sectorNum + nbSectors) ≤ length) (hn : nbSectors < 2 ^ 22) :
    ∃ bs', bdrvWrite bs sectorNum buf nbSectors = (.ok (), bs') ∧
      Holds bs' length ok content (c.write (512 * sectorNum) (512 * nbSectors) buf) := by
  obtain ⟨drv, hdrv, hlaw⟩ := h.lawful
  obtain ⟨state', hwrite, hok, hcontent⟩ := hlaw.write bs.state sectorNum nbSectors buf h.state hin
  refine ⟨{ bs with state := state' }, ?_, ⟨h.toOpen.withState hok, fun x hx => ?_⟩⟩
  · unfold bdrvWrite
    rw [hdrv, h.check hin hn, h.writable]
    simp only [hwrite, Bool.false_eq_true, if_false]
  · refine (hcontent x hx).trans ?_
    unfold Bytes.write
    split_ifs
    · rfl
    · exact h.bytes x hx

theorem preadTail_ok (h : Holds bs length ok content c) (sectorNum pos count count1 : ℕ) (buf : Bytes)
    (hcount : count < 512) (hin : 512 * sectorNum + count ≤ length) :
    ∃ bs', preadTail bs sectorNum pos count count1 buf =
        (.ok count1, buf.write pos count (c.from (512 * sectorNum)), bs') ∧ Holds bs' length ok content c := by
  unfold preadTail
  split_ifs with hpos
  · obtain ⟨q, hq⟩ := h.sectors
    obtain ⟨tmp, bs', hread, h', htmp⟩ := bdrvRead_ok h sectorNum 1 (by omega) (by omega)
    refine ⟨bs', ?_, h'⟩
    rw [hread]
    have hdata : buf.write pos count tmp = buf.write pos count (c.from (512 * sectorNum)) :=
      Bytes.write_congr fun i hi => htmp i (by omega)
    simp only [hdata]
  · refine ⟨bs, ?_, h⟩
    obtain rfl : count = 0 := by omega
    rw [Bytes.write_zero]

theorem preadSectors_ok (h : Holds bs length ok content c) (sectorNum pos count count1 : ℕ) (buf : Bytes)
    (hcount : count < 2 ^ 31) (hin : 512 * sectorNum + count ≤ length) :
    ∃ bs', preadSectors bs sectorNum pos count count1 buf =
        (.ok count1, buf.write pos count (c.from (512 * sectorNum)), bs') ∧ Holds bs' length ok content c := by
  unfold preadSectors
  dsimp only
  split_ifs with hpos
  · have hwhole : 512 * (sectorNum + count / 512) ≤ length := by omega
    have hfew : count / 512 < 2 ^ 22 := by omega
    obtain ⟨data, bs', hread, h', hdata⟩ := bdrvRead_ok h sectorNum (count / 512) hwhole hfew
    have hrest : count - 512 * (count / 512) < 512 := by omega
    have hend : 512 * (sectorNum + count / 512) + (count - 512 * (count / 512)) ≤ length := by omega
    obtain ⟨bs'', htail, h''⟩ := preadTail_ok h' (sectorNum + count / 512) (pos + 512 * (count / 512))
      (count - 512 * (count / 512)) count1 (buf.write pos (512 * (count / 512)) data) hrest hend
    refine ⟨bs'', ?_, h''⟩
    rw [hread]
    dsimp only
    rw [htail]
    have hfirst : buf.write pos (512 * (count / 512)) data =
        buf.write pos (512 * (count / 512)) (c.from (512 * sectorNum)) := Bytes.write_congr hdata
    have hsecond : c.from (512 * (sectorNum + count / 512)) =
      (c.from (512 * sectorNum)).from (512 * (count / 512)) := by
      rw [Bytes.from_from, Nat.mul_add]
    rw [hfirst, hsecond, Bytes.write_write]
    congr 4
    omega
  · have hfew : count < 512 := by omega
    exact preadTail_ok h sectorNum pos count count1 buf hfew hin

theorem bdrvPread_ok (h : Holds bs length ok content c) {offset count1 : ℕ} (buf : Bytes) (hcount : count1 < 2 ^ 31)
    (hin : offset + count1 ≤ length) :
    ∃ bs', bdrvPread bs offset buf count1 = (.ok count1, buf.write 0 count1 (c.from offset), bs') ∧
      Holds bs' length ok content c := by
  unfold bdrvPread
  dsimp only
  have hdiv := Nat.div_add_mod offset 512
  have hstart : toSectorStart offset = (512 - offset % 512) % 512 := rfl
  set len := min (toSectorStart offset) count1 with hlenDef
  by_cases hhead : 0 < len
  · -- the head ends in the first sector or at the next one
    have hlen : len + offset % 512 ≤ 512 := by omega
    have hle : len ≤ count1 := min_le_right _ _
    obtain ⟨q, hq⟩ := h.sectors
    obtain ⟨tmp, bs', hread, h', htmp⟩ := bdrvRead_ok h (offset / 512) 1 (by omega) (by omega)
    rw [if_pos hhead, hread]
    dsimp only
    have hdata : buf.write 0 len (tmp.from (offset % 512)) = buf.write 0 len (c.from offset) := by
      apply Bytes.write_congr
      intro i hi
      rw [Bytes.from_apply, htmp _ (by omega), Bytes.from_apply]
      congr 1
      omega
    rw [hdata]
    by_cases hdone : count1 - len = 0
    · refine ⟨bs', ?_, h'⟩
      have heq : len = count1 := by omega
      rw [if_pos hdone, heq]
    · -- not all is read, so the head ends at the next sector
      have hnext : 512 * (offset / 512 + 1) = offset + len := by omega
      have hend : 512 * (offset / 512 + 1) + (count1 - len) ≤ length := by omega
      have hfew : count1 - len < 2 ^ 31 := by omega
      obtain ⟨bs'', hrest, h''⟩ := preadSectors_ok h' (offset / 512 + 1) len (count1 - len) count1
        (buf.write 0 len (c.from offset)) hfew hend
      refine ⟨bs'', ?_, h''⟩
      have hpos := Bytes.write_write buf 0 len (count1 - len) (c.from offset)
      rw [Nat.zero_add, Bytes.from_from, Nat.add_sub_cancel' hle] at hpos
      rw [if_neg hdone, hrest, hnext, hpos]
  · rw [if_neg hhead]
    by_cases hzero : count1 = 0
    · have hend : 512 * (offset / 512) + count1 ≤ length := by omega
      obtain ⟨bs', hrest, h'⟩ := preadSectors_ok h (offset / 512) 0 count1 count1 buf hcount hend
      refine ⟨bs', ?_, h'⟩
      rw [hrest, hzero, Bytes.write_zero, Bytes.write_zero]
    · -- the range starts with a sector
      have hnext : 512 * (offset / 512) = offset := by omega
      have hend : 512 * (offset / 512) + count1 ≤ length := by omega
      obtain ⟨bs', hrest, h'⟩ := preadSectors_ok h (offset / 512) 0 count1 count1 buf hcount hend
      refine ⟨bs', ?_, h'⟩
      rw [hrest, hnext]

theorem pwriteTail_ok (h : Holds bs length ok content c) (sectorNum : ℕ) (buf : Bytes) (count count1 : ℕ)
    (hcount : count < 512) (hin : 512 * sectorNum + count ≤ length) :
    ∃ bs', pwriteTail bs sectorNum buf count count1 = (.ok count1, bs') ∧
      Holds bs' length ok content (c.write (512 * sectorNum) count buf) := by
  unfold pwriteTail
  split_ifs with hpos
  · obtain ⟨q, hq⟩ := h.sectors
    obtain ⟨tmp, bs', hread, h', htmp⟩ := bdrvRead_ok h sectorNum 1 (by omega) (by omega)
    obtain ⟨bs'', hwrite, h''⟩ := bdrvWrite_ok h' sectorNum 1 (tmp.write 0 count buf) (by omega) (by omega)
    have hback : c.write (512 * sectorNum) (512 * 1) (tmp.write 0 count buf) =
      c.write (512 * sectorNum + 0) count buf :=
      Bytes.write_back (by omega) htmp
    refine ⟨bs'', ?_, ?_⟩
    · rw [hread]
      dsimp only
      rw [hwrite]
    · rw [hback, Nat.add_zero] at h''
      exact h''
  · refine ⟨bs, rfl, ?_⟩
    obtain rfl : count = 0 := by omega
    rw [Bytes.write_zero]
    exact h

theorem pwriteSectors_ok (h : Holds bs length ok content c) (sectorNum : ℕ) (buf : Bytes) (count count1 : ℕ)
    (hcount : count < 2 ^ 31) (hin : 512 * sectorNum + count ≤ length) :
    ∃ bs', pwriteSectors bs sectorNum buf count count1 = (.ok count1, bs') ∧
      Holds bs' length ok content (c.write (512 * sectorNum) count buf) := by
  unfold pwriteSectors
  dsimp only
  split_ifs with hpos
  · have hwhole : 512 * (sectorNum + count / 512) ≤ length := by omega
    have hfew : count / 512 < 2 ^ 22 := by omega
    obtain ⟨bs', hwrite, h'⟩ := bdrvWrite_ok h sectorNum (count / 512) buf hwhole hfew
    have hrest : count - 512 * (count / 512) < 512 := by omega
    have hend : 512 * (sectorNum + count / 512) + (count - 512 * (count / 512)) ≤ length := by omega
    obtain ⟨bs'', htail, h''⟩ := pwriteTail_ok h' (sectorNum + count / 512) (buf.from (512 * (count / 512)))
      (count - 512 * (count / 512)) count1 hrest hend
    refine ⟨bs'', ?_, ?_⟩
    · rw [hwrite]
      exact htail
    · have hle : 512 * (count / 512) ≤ count := Nat.mul_div_le count 512
      rw [Nat.mul_add, Bytes.write_write, Nat.add_sub_cancel' hle] at h''
      exact h''
  · have hfew : count < 512 := by omega
    exact pwriteTail_ok h sectorNum buf count count1 hfew hin

theorem bdrvPwrite_ok (h : Holds bs length ok content c) {offset count1 : ℕ} (buf : Bytes) (hcount : count1 < 2 ^ 31)
    (hin : offset + count1 ≤ length) :
    ∃ bs', bdrvPwrite bs offset buf count1 = (.ok count1, bs') ∧
      Holds bs' length ok content (c.write offset count1 buf) := by
  unfold bdrvPwrite
  dsimp only
  have hdiv := Nat.div_add_mod offset 512
  have hstart : toSectorStart offset = (512 - offset % 512) % 512 := rfl
  set len := min (toSectorStart offset) count1 with hlenDef
  by_cases hhead : 0 < len
  · -- the head ends in the first sector or at the next one
    have hlen : offset % 512 + len ≤ 512 * 1 := by omega
    have hle : len ≤ count1 := min_le_right _ _
    obtain ⟨q, hq⟩ := h.sectors
    obtain ⟨tmp, bs', hread, h', htmp⟩ := bdrvRead_ok h (offset / 512) 1 (by omega) (by omega)
    obtain ⟨bs'', hwrite, h''⟩ :=
      bdrvWrite_ok h' (offset / 512) 1 (tmp.write (offset % 512) len buf) (by omega) (by omega)
    rw [Bytes.write_back hlen htmp, hdiv] at h''
    rw [if_pos hhead, hread]
    dsimp only
    rw [hwrite]
    dsimp only
    by_cases hdone : count1 - len = 0
    · refine ⟨bs'', ?_, ?_⟩
      · rw [if_pos hdone]
      · have heq : len = count1 := by omega
        rw [heq] at h''
        exact h''
    · -- not all is written, so the head ends at the next sector
      have hnext : 512 * (offset / 512 + 1) = offset + len := by omega
      have hend : 512 * (offset / 512 + 1) + (count1 - len) ≤ length := by omega
      have hfew : count1 - len < 2 ^ 31 := by omega
      obtain ⟨bs₃, hrest, h₃⟩ := pwriteSectors_ok h'' (offset / 512 + 1) (buf.from len) (count1 - len) count1 hfew hend
      refine ⟨bs₃, ?_, ?_⟩
      · rw [if_neg hdone]
        exact hrest
      · rw [hnext, Bytes.write_write, Nat.add_sub_cancel' hle] at h₃
        exact h₃
  · rw [if_neg hhead]
    by_cases hzero : count1 = 0
    · have hend : 512 * (offset / 512) + count1 ≤ length := by omega
      obtain ⟨bs', hrest, h'⟩ := pwriteSectors_ok h (offset / 512) buf count1 count1 hcount hend
      refine ⟨bs', hrest, ?_⟩
      rw [hzero, Bytes.write_zero] at h' ⊢
      exact h'
    · -- the range starts with a sector
      have hnext : 512 * (offset / 512) = offset := by omega
      have hend : 512 * (offset / 512) + count1 ≤ length := by omega
      obtain ⟨bs', hrest, h'⟩ := pwriteSectors_ok h (offset / 512) buf count1 count1 hcount hend
      refine ⟨bs', hrest, ?_⟩
      rw [hnext] at h'
      exact h'

/-- **Byte access is exact**: a read returns the bytes of the range, a write replaces them and nothing else. -/
theorem byteAccess_exact (h : Open bs length ok content) {offset count : ℕ} (buf : Bytes) (hcount : count < 2 ^ 31)
    (hin : offset + count ≤ length) :
    (∃ buf' bs', bdrvPread bs offset buf count = (.ok count, buf', bs') ∧
      (∀ i < count, buf' i = content bs.state (offset + i)) ∧
      ∀ x < length, content bs'.state x = content bs.state x) ∧
    ∃ bs', bdrvPwrite bs offset buf count = (.ok count, bs') ∧
      (∀ i < count, content bs'.state (offset + i) = buf i) ∧
      ∀ x < length, x < offset ∨ offset + count ≤ x → content bs'.state x = content bs.state x := by
  have hholds : Holds bs length ok content (content bs.state) := ⟨h, fun _ _ => rfl⟩
  constructor
  · obtain ⟨bs', hread, h'⟩ := bdrvPread_ok hholds buf hcount hin
    refine ⟨_, bs', hread, ?_, h'.bytes⟩
    intro i hi
    rw [Bytes.write_of_mem (by omega) (by omega), Nat.sub_zero]
    rfl
  · obtain ⟨bs', hwrite, h'⟩ := bdrvPwrite_ok hholds buf hcount hin
    refine ⟨bs', hwrite, ?_, ?_⟩
    · intro i hi
      rw [h'.bytes _ (by omega), Bytes.write_of_mem (by omega) (by omega), Nat.add_sub_cancel_left]
    · intro x hx hout
      rw [h'.bytes x hx, Bytes.write_of_not_mem hout]

/-- A driver whose sectors are the bytes of a file. -/
def rawDriver : BlockDriver Bytes where
  bdrvRead := fun file sectorNum _ => (some (file.from (512 * sectorNum)), file)
  bdrvWrite := fun file sectorNum nbSectors buf => (true, file.write (512 * sectorNum) (512 * nbSectors) buf)

theorem rawDriver_lawful (length : ℕ) : Lawful rawDriver length (fun _ => True) id where
  read := fun file sectorNum _ _ _ => ⟨file.from (512 * sectorNum), file, rfl, trivial, fun _ _ => rfl, fun _ _ => rfl⟩
  write := fun file sectorNum nbSectors buf _ _ =>
    ⟨file.write (512 * sectorNum) (512 * nbSectors) buf, rfl, trivial, fun _ _ => rfl⟩

/-- A raw image of two sectors. -/
def twoSectors : BlockDriverState Bytes where
  drv := some rawDriver
  device := ⟨true, false, 1024⟩
  readOnly := false
  state := fun i => UInt8.ofNat i

theorem twoSectors_open : Open twoSectors 1024 (fun _ => True) id :=
  ⟨⟨rawDriver, rfl, rawDriver_lawful 1024⟩, rfl, rfl, by decide, by decide, rfl, trivial⟩

/-- Bytes on both sides of the sectors' border. -/
theorem byteAccess_exact_border :
    (∃ buf' bs', bdrvPread twoSectors 510 (fun _ => 0) 4 = (.ok 4, buf', bs') ∧
      (∀ i < 4, buf' i = UInt8.ofNat (510 + i)) ∧ ∀ x < 1024, bs'.state x = twoSectors.state x) ∧
    ∃ bs', bdrvPwrite twoSectors 510 (fun _ => 0) 4 = (.ok 4, bs') ∧ (∀ i < 4, bs'.state (510 + i) = 0) ∧
      ∀ x < 1024, x < 510 ∨ 510 + 4 ≤ x → bs'.state x = twoSectors.state x :=
  byteAccess_exact twoSectors_open (fun _ => 0) (by decide) (by decide)

end Emulator.Block
