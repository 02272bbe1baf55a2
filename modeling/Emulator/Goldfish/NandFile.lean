import Emulator.Goldfish.Nand

/-!
# The transfers of a NAND device on a regular file

* `readLoop_file`: a read gives the file's bytes, and 0xff behind its end.
* `writeLoop_file`: a write stores its pieces in a row.
-/

namespace Emulator.Goldfish

open Lib List

/-- A regular file of the host, with the offset of the next `read` or `write`. -/
structure RegFile where
  bytes : List UInt8
  pos : ℕ

/-- The largest `off_t` of the 32-bit program, and the largest file that it writes without `O_LARGEFILE`. -/
def offMax : ℕ := 2 ^ 31 - 1

/-- The calls on a regular file without an error of the disk. `lseek` takes the low 32 bits of an address as its `off_t`
and does nothing if that is negative; a write at the limit of a file's size fails. -/
def fileIO : HostIO RegFile where
  lseek f addr := if addr % 2 ^ 32 ≤ offMax then { f with pos := addr % 2 ^ 32 } else f
  read f size :=
    let bytes := (f.bytes.drop f.pos).take (min size maxTransfer)
    (.done bytes, { f with pos := f.pos + bytes.length })
  write f bytes :=
    if offMax ≤ f.pos then (.error false, f)
    else
      let bytes := bytes.take (min maxTransfer (offMax - f.pos))
      (.done bytes.length, ⟨writeAt 0 f.bytes f.pos bytes, f.pos + bytes.length⟩)

/-- An address that is an `off_t` is sought. -/
theorem lseek_of_le {f : RegFile} {addr : ℕ} (h : addr ≤ offMax) : fileIO.lseek f addr = { f with pos := addr } := by
  have hlt : addr < 2 ^ 32 := h.trans_lt (by decide)
  simp only [ fileIO]
  rw [Nat.mod_eq_of_lt hlt, if_pos h]

/-- The bytes of a file, and 0xff behind its end. -/
def RegFile.content (f : RegFile) (i : ℕ) : UInt8 := (f.bytes[i]?).getD 0xff

/-- A piece of the file in a buffer. -/
theorem RegFile.store_piece (f : RegFile) (buf : ℕ → UInt8) {n i : ℕ} (hi : i < ((f.bytes.drop f.pos).take n).length) :
    store buf 0 ((f.bytes.drop f.pos).take n) i = f.content (f.pos + i) := by
  have hmem := @store_of_mem _ buf 0 i _ hi
  have hget := List.getElem?_eq_getElem hi
  rw [List.getElem?_take_of_lt (by rw [length_take] at hi; omega), List.getElem?_drop] at hget
  rw [Nat.zero_add] at hmem
  rw [hmem, content, hget, Option.getD_some]

theorem RegFile.content_end {f : RegFile} {i : ℕ} (h : f.bytes.length ≤ i) : f.content i = 0xff := by
  rw [content, List.getElem?_eq_none h, Option.getD_none]

variable {t : Transfer RegFile} {start : BitVec 32} {eraseSize total fuel o addr : ℕ}

/-- A round that reads. -/
theorem readLoop_step (hlen : t.len ≠ 0) (hsize : t.size = eraseSize) (heof : t.eof = false)
    (hmax : min t.len.toNat eraseSize ≤ maxTransfer)
    {bytes : List UInt8}
    (hbytes : bytes = (t.file.bytes.drop t.file.pos).take (min t.len.toNat eraseSize)) :
    readLoop fileIO eraseSize (fuel + 2) t = readLoop fileIO eraseSize (fuel + 1)
      { t with
        file := { t.file with pos := t.file.pos + bytes.length }
        buf := store t.buf 0 bytes
        size := bytes.length }.pass := by
  have hlen' : bytes.length ≤ eraseSize := by
    rw [hbytes, length_take]
    omega
  rw [readLoop, if_neg hlen]
  simp only [Transfer.startRead_of_le hsize.ge, heof, Bool.false_eq_true, if_false, doRead, fileIO, hsize]
  rw [min_eq_left hmax, ← hbytes, if_neg (by omega)]

/-- **A read** gives the file's bytes, and 0xff behind its end. -/
theorem readLoop_file (hpos : 0 < eraseSize) (hint : eraseSize < 2 ^ 31) (htotal : total < 2 ^ 32)
    (hmax : min total eraseSize ≤ maxTransfer) {n : ℕ} :
    ∀ {t : Transfer RegFile} {o : ℕ}, o ≤ total → t.len.toNat = total - o → t.len.toNat ≤ n →
      t.data = start + BitVec.ofNat 32 o → t.file.pos = addr + o → (o < total → t.size = eraseSize) → t.eof = false →
      ∃ t', (∀ fuel > n + 1, readLoop fileIO eraseSize fuel t = some t') ∧ t'.file.bytes = t.file.bytes ∧
        ∀ x, t'.guest.byte x = if o ≤ (x - start).toNat ∧ (x - start).toNat < total
          then t.file.content (addr + (x - start).toNat) else t.guest.byte x := by
  -- on the octets left: those in front of `o` have been read
  induction n with
  | zero =>
    intro t o ho hlen hn _ _ _ _
    refine ⟨t, fun fuel hfuel => readLoop_of_len (word_eq_zero (Nat.le_zero.1 hn)) (Nat.zero_lt_of_lt hfuel),
      rfl, fun x => ?_⟩
    rw [if_neg (by omega)]
  | succ n ih =>
    intro t o ho hlen hn hdata hfpos hsize heof
    by_cases hzero : t.len = 0
    · have hnat : t.len.toNat = 0 := by rw [hzero]; rfl
      refine ⟨t, fun fuel hfuel => readLoop_of_len hzero (Nat.zero_lt_of_lt hfuel), rfl, fun x => ?_⟩
      rw [if_neg (by omega)]
    have hlenpos : 0 < t.len.toNat := Nat.pos_of_ne_zero fun hnat => hzero (word_eq_zero hnat)
    obtain ⟨bytes, hbytes⟩ : ∃ bytes, bytes = (t.file.bytes.drop t.file.pos).take (min t.len.toNat eraseSize) :=
      ⟨_, rfl⟩
    have hcount : bytes.length = min (min t.len.toNat eraseSize) (t.file.bytes.length - t.file.pos) := by
      rw [hbytes, length_take, length_drop]
    obtain ⟨s, hs⟩ : ∃ s : Transfer RegFile, s = { t with
      file := { t.file with pos := t.file.pos + bytes.length }, buf := store t.buf 0 bytes, size :=
        bytes.length } := ⟨_, rfl⟩
    have hstep : ∀ fuel, readLoop fileIO eraseSize (fuel + 2) t = readLoop fileIO eraseSize (fuel + 1) s.pass := by
      intro fuel
      rw [readLoop_step hzero (hsize (by omega)) heof (by omega) hbytes, hs]
    have hssize : s.size = bytes.length := by rw [hs]
    have hsbuf : s.buf = store t.buf 0 bytes := by rw [hs]
    have hsguest : s.guest = t.guest := by rw [hs]
    have hspos : s.file.pos = addr + (o + s.size) := by
      rw [hs]
      change t.file.pos + bytes.length = addr + (o + bytes.length)
      omega
    have hsdata : s.data = start + BitVec.ofNat 32 o := by rw [hs]; exact hdata
    have hsfile : s.file.bytes = t.file.bytes := by rw [hs]
    have hplen : s.pass.len.toNat = total - (o + s.size) := by
      have hslen : s.len = t.len := by rw [hs]
      rw [Transfer.toNat_len_pass (by rw [hslen]; omega), hslen, hlen, Nat.sub_sub]
    have hpbyte : ∀ x, s.pass.guest.byte x = if o ≤ (x - start).toNat ∧ (x - start).toNat < o + s.size
        then t.file.content (addr + (x - start).toNat) else t.guest.byte x := by
      intro x
      rw [Transfer.byte_pass hsdata (by omega) (by omega), hsguest, hsbuf]
      refine if_ctx_congr Iff.rfl (fun hx => ?_) fun _ => rfl
      rw [hbytes, RegFile.store_piece _ _ (by rw [← hbytes]; omega)]
      congr 1
      omega
    -- a full unit is followed by another round, anything less by 0xff
    have hrest : ∃ t', (∀ fuel > n + 1, readLoop fileIO eraseSize fuel s.pass = some t') ∧
      t'.file.bytes = t.file.bytes ∧
        ∀ x, t'.guest.byte x = if o + s.size ≤ (x - start).toNat ∧ (x - start).toNat < total
          then t.file.content (addr + (x - start).toNat) else s.pass.guest.byte x := by
      by_cases hfull : bytes.length = eraseSize
      · obtain ⟨t', hrun, hfile, hbyte⟩ := ih (o := o + s.size) (by omega) hplen (by omega) (Transfer.data_pass hsdata)
          hspos (fun _ => hssize.trans hfull) (by rw [hs]; exact heof)
        refine ⟨t', hrun, hfile.trans hsfile, fun x => ?_⟩
        rw [hbyte, RegFile.content, RegFile.content]
        change (if _ then (s.file.bytes[_]?).getD _ else _) = _
        rw [hsfile]
      · have hshort : Filling eraseSize s.pass :=
          ⟨by change s.size ≤ _; omega, .inl (by change s.size < _; omega)⟩
        obtain ⟨t', hrun, hfile, -, hbyte⟩ :=
          @readLoop_fill _ fileIO _ _ _ hpos hint htotal (n + 1) _ _ hshort (by omega)
          hplen (by omega) (Transfer.data_pass hsdata)
        refine ⟨t', hrun, by rw [hfile]; exact hsfile, fun x => ?_⟩
        rw [hbyte]
        refine if_ctx_congr Iff.rfl (fun hx => ?_) fun _ => rfl
        exact (RegFile.content_end (by omega)).symm
    obtain ⟨t', hrun, hfile, hbyte⟩ := hrest
    refine ⟨t', fun fuel hfuel => ?_, hfile, fun x => ?_⟩
    · obtain ⟨k, rfl⟩ : ∃ k, fuel = k + 2 := ⟨fuel - 2, by omega⟩
      rw [hstep, hrun _ (by omega)]
    · rw [hbyte, hpbyte]
      by_cases hx : o + s.size ≤ (x - start).toNat ∧ (x - start).toNat < total
      · rw [if_pos hx, if_pos (by omega)]
      · rw [if_neg hx]
        refine if_congr ?_ rfl rfl
        omega

theorem load_add (mem : ℕ → UInt8) (p a b : ℕ) : load mem p (a + b) = load mem p a ++ load mem (p + a) b := by
  simp only [load, range_add, map_append, map_map, Function.comp_def, Nat.add_assoc]

/-- A round that writes. -/
theorem writeLoop_step {fetch : Transfer RegFile → ℕ → UInt8} (hlen : t.len ≠ 0) (hsize : t.size = eraseSize)
    (hmax : min t.len.toNat eraseSize ≤ maxTransfer) (hpos : 0 < eraseSize)
    (hend : t.file.pos + min t.len.toNat eraseSize ≤ offMax) {s : Transfer RegFile}
    (hs : s = { t with size := min t.len.toNat eraseSize }) :
    writeLoop fileIO fetch (fuel + 2) t = writeLoop fileIO fetch (fuel + 1)
      { s with
        file := ⟨writeAt 0 s.file.bytes s.file.pos (load (fetch s) 0 s.size), s.file.pos + s.size⟩
        buf := fetch s
        data := s.data + BitVec.ofNat 32 s.size
        len := s.len - BitVec.ofNat 32 s.size } := by
  have hstart : (if t.len.toNat < t.size then { t with size := t.len.toNat } else t) = s := by
    rw [hs, hsize]
    split_ifs with h
    · rw [min_eq_left h.le]
    · rw [min_eq_right (Nat.not_lt.1 h), ← hsize]
  have hfile : s.file.pos + s.size ≤ offMax := by rw [hs]; exact hend
  have hsize0 : 0 < s.size := by
    have hlen0 : 0 < t.len.toNat := Nat.pos_of_ne_zero fun hnat => hlen (word_eq_zero hnat)
    rw [hs]
    exact lt_min hlen0 hpos
  have htake : (load (fetch s) 0 s.size).take (min maxTransfer (offMax - s.file.pos)) = load (fetch s) 0 s.size := by
    refine take_of_length_le ?_
    have hle : s.size ≤ maxTransfer := by rw [hs]; exact hmax
    rw [length_load]
    exact le_min hle (by omega)
  rw [writeLoop, if_neg hlen]
  simp only [hstart, doWrite, fileIO, if_neg (show ¬ offMax ≤ s.file.pos by omega), htake, length_load, writtenSize,
    lt_irrefl, if_false]

/-- **A write** stores its pieces in a row, if the buffer holds a piece of the source at the start of each. -/
theorem writeLoop_file {fetch : Transfer RegFile → ℕ → UInt8} {src : ℕ → UInt8} {Buf : (ℕ → UInt8) → Prop} {g : Guest}
    (hpos : 0 < eraseSize) (hmax : min total eraseSize ≤ maxTransfer) (hend : addr + total ≤ offMax)
    (hfetch : ∀ (t : Transfer RegFile) (o : ℕ), t.data = start + BitVec.ofNat 32 o → t.guest = g → Buf t.buf →
      t.size ≤ min total eraseSize → load (fetch t) 0 t.size = load src o t.size ∧ Buf (fetch t)) {n : ℕ} :
    ∀ {t : Transfer RegFile} {o : ℕ}, o ≤ total → t.len.toNat = total - o → t.len.toNat ≤ n →
      t.data = start + BitVec.ofNat 32 o → t.file.pos = addr + o → (o < total → t.size = eraseSize) → t.guest = g →
      Buf t.buf → ∃ t', (∀ fuel > n + 1, writeLoop fileIO fetch fuel t = some t') ∧ t'.len = 0 ∧ t'.guest = g ∧
        t'.file.bytes = writeAt 0 t.file.bytes (addr + o) (load src o (total - o)) := by
  have hdone : ∀ {t : Transfer RegFile} {o : ℕ}, t.len = 0 → t.len.toNat = total - o → t.guest = g →
      ∃ t', (∀ fuel > 0, writeLoop fileIO fetch fuel t = some t') ∧ t'.len = 0 ∧ t'.guest = g ∧
        t'.file.bytes = writeAt 0 t.file.bytes (addr + o) (load src o (total - o)) := by
    intro t o hzero hlen hg
    refine ⟨t, fun fuel hfuel => ?_, hzero, hg, ?_⟩
    · obtain ⟨k, rfl⟩ := Nat.exists_eq_succ_of_ne_zero (Nat.ne_of_gt hfuel)
      rw [writeLoop, if_pos hzero]
    · rw [← hlen, hzero]
      exact writeAt_nil.symm
  -- on the octets left: those in front of `o` have been written
  induction n with
  | zero =>
    intro t o ho hlen hn _ _ _ hg _
    obtain ⟨t', hrun, hrest⟩ := hdone (word_eq_zero (Nat.le_zero.1 hn)) hlen hg
    exact ⟨t', fun fuel hfuel => hrun fuel (by omega), hrest⟩
  | succ n ih =>
    intro t o ho hlen hn hdata hfpos hsize hg hbuf
    by_cases hzero : t.len = 0
    · obtain ⟨t', hrun, hrest⟩ := hdone hzero hlen hg
      exact ⟨t', fun fuel hfuel => hrun fuel (by omega), hrest⟩
    have hlenpos : 0 < t.len.toNat := Nat.pos_of_ne_zero fun hnat => hzero (word_eq_zero hnat)
    obtain ⟨s, hs⟩ : ∃ s : Transfer RegFile, s = { t with size := min t.len.toNat eraseSize } := ⟨_, rfl⟩
    have hssize : s.size = min t.len.toNat eraseSize := by rw [hs]
    have hsdata : s.data = start + BitVec.ofNat 32 o := by rw [hs]; exact hdata
    have hsfile : s.file = t.file := by rw [hs]
    have hsg : s.guest = g := by rw [hs]; exact hg
    have hslen : s.len = t.len := by rw [hs]
    obtain ⟨hload, hbuf'⟩ := hfetch s o hsdata hsg (by rw [hs]; exact hbuf) (by omega)
    obtain ⟨u, hu⟩ : ∃ u : Transfer RegFile, u = { s with
      file := ⟨writeAt 0 s.file.bytes s.file.pos (load (fetch s) 0 s.size), s.file.pos + s.size⟩
      buf := fetch s
      data := s.data + BitVec.ofNat 32 s.size
      len := s.len - BitVec.ofNat 32 s.size } := ⟨_, rfl⟩
    have hstep : ∀ fuel, writeLoop fileIO fetch (fuel + 2) t = writeLoop fileIO fetch (fuel + 1) u := by
      intro fuel
      rw [writeLoop_step hzero (hsize (by omega)) (by omega) hpos (by omega) hs, hu]
    have hulen : u.len.toNat = total - (o + s.size) := by
      have hlt := t.len.isLt
      rw [hu]
      change (s.len - BitVec.ofNat 32 s.size).toNat = _
      rw [BitVec.toNat_sub, BitVec.toNat_ofNat, hslen]
      omega
    have hudata : u.data = start + BitVec.ofNat 32 (o + s.size) := by
      rw [hu]
      change s.data + BitVec.ofNat 32 s.size = _
      rw [hsdata, BitVec.add_assoc, ← BitVec.ofNat_add]
    have hufile : u.file = ⟨writeAt 0 t.file.bytes (addr + o) (load src o s.size), addr + (o + s.size)⟩ := by
      rw [hu, hsfile, hload, hfpos, Nat.add_assoc]
    obtain ⟨t', hrun, hzero', hg', hbytes⟩ := ih (t := u) (o := o + s.size) (by omega) hulen (by omega) hudata
      (by rw [hufile]) (fun hlt => by rw [hu]; change s.size = _; omega) (by rw [hu]; exact hsg)
        (by rw [hu]; exact hbuf')
    refine ⟨t', fun fuel hfuel => ?_, hzero', hg', ?_⟩
    · obtain ⟨k, rfl⟩ : ∃ k, fuel = k + 2 := ⟨fuel - 2, by omega⟩
      rw [hstep, hrun _ (by omega)]
    · have hne : load src o s.size ≠ [] := ne_nil_of_length_pos (by rw [length_load]; omega)
      have hrow := @writeAt_writeAt _ 0 t.file.bytes (addr + o) (load src o s.size)
        (load src (o + s.size) (total - (o + s.size))) hne
      rw [length_load, ← load_add, show s.size + (total - (o + s.size)) = total - o by omega] at hrow
      rw [hbytes, hufile, ← Nat.add_assoc]
      exact hrow

end Emulator.Goldfish
