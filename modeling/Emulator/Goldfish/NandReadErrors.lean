import Emulator.Goldfish.Nand

/-!
# Reading a NAND file when the host fails

`nand_dev_read_file` takes the -1 of a failed `read` for a length: the transfer goes one byte back. So the guest's range
is served exactly if the results of `read`, with `EINTR` left out, lead from its start to its end or to a short count
without leaving it (`Served`).

* `readLoop_served`: what holds if they do.
* `readLoop_below`: what happens in front of the range.
* `readFile_iff`: the equivalence.
-/

namespace Emulator.Goldfish

open Lib BitVec

/-- What a call for `size` bytes gives of a result. -/
def clipped (size : ℕ) : IoResult (List UInt8) → IoResult (List UInt8)
  | .done bytes => .done (bytes.take (min size maxTransfer))
  | .error eintr => .error eintr

/-- A host whose `k`-th `read` gives the result `res k`. -/
def hostOfStream (res : ℕ → IoResult (List UInt8)) : HostIO ℕ where
  lseek k _ := k
  read k size := (clipped size (res k), k + 1)
  write k bytes := (.done bytes.length, k)

/-- From the `k`-th result on, the first one that is not `EINTR` is the `j`-th. -/
structure Answer (res : ℕ → IoResult (List UInt8)) (k j : ℕ) : Prop where
  le : k ≤ j
  skip : ∀ i, k ≤ i → i < j → res i = .error true
  stop : res j ≠ .error true

variable {res : ℕ → IoResult (List UInt8)} {k j size fuel : ℕ}

theorem doRead_of_answer (h : Answer res k j) (hfuel : j - k < fuel) :
    doRead (hostOfStream res) fuel k size = some (clipped size (res j), j + 1) := by
  induction fuel generalizing k with
  | zero => omega
  | succ fuel ih =>
    rcases Nat.eq_or_lt_of_le h.le with rfl | hlt
    · have hstop := h.stop
      cases hres : res k with
      | done bytes => simp only [doRead, hostOfStream, hres, clipped]
      | error eintr =>
        cases eintr with
        | true => exact absurd hres hstop
        | false => simp only [doRead, hostOfStream, hres, clipped]
    · have hnext : Answer res (k + 1) j := ⟨hlt, fun i hi => h.skip i (by omega), h.stop⟩
      have hrest := ih hnext (by omega)
      simp only [hostOfStream] at hrest ⊢
      simp only [doRead, h.skip k le_rfl hlt, clipped]
      exact hrest

theorem answer_of_doRead {r : IoResult (List UInt8) × ℕ} (h : doRead (hostOfStream res) fuel k size = some r) :
    ∃ j, Answer res k j ∧ j - k < fuel ∧ r = (clipped size (res j), j + 1) := by
  induction fuel generalizing k with
  | zero => cases h
  | succ fuel ih =>
    have hself : res k ≠ .error true →
      doRead (hostOfStream res) (fuel + 1) k size = some (clipped size (res k), k + 1) :=
      fun hne => doRead_of_answer ⟨le_rfl, fun i hi hlt => by omega, hne⟩ (by omega)
    by_cases hres : res k = .error true
    · have hrec : doRead (hostOfStream res) fuel (k + 1) size = some r := by
        simpa only [doRead, hostOfStream, hres, clipped] using h
      obtain ⟨j, hj, hlt, hr⟩ := ih hrec
      have hle := hj.le
      refine ⟨j, ⟨by omega, fun i hi hlt => ?_, hj.stop⟩, by omega, hr⟩
      rcases Nat.eq_or_lt_of_le hi with rfl | hki
      · exact hres
      · exact hj.skip i hki hlt
    · rw [hself hres] at h
      exact ⟨k, ⟨le_rfl, fun i hi hlt => by omega, hres⟩, by omega, (Option.some.inj h).symm⟩

/-- How many bytes are asked for at an offset: all that are missing if the last `read` failed. -/
def request (eraseSize total offset : ℕ) (failed : Bool) : ℕ :=
  if failed then total - offset else min (total - offset) eraseSize

/-- How many of the bytes are read. -/
def readCount (eraseSize total offset : ℕ) (failed : Bool) (bytes : List UInt8) : ℕ :=
  min (min (request eraseSize total offset failed) maxTransfer) bytes.length

/-- **The results serve the range** from an offset on: they lead to its end, or to a count below an erase unit, by
counts of an erase unit and failures, which go one byte back but not in front of the range. -/
inductive Served (res : ℕ → IoResult (List UInt8)) (eraseSize total : ℕ) : ℕ → ℕ → Bool → Prop
  | all {k : ℕ} {failed : Bool} : Served res eraseSize total k total failed
  | short {k j offset : ℕ} {failed : Bool} {bytes : List UInt8} (hlt : offset < total) (h : Answer res k j)
      (hres : res j = .done bytes) (hn : readCount eraseSize total offset failed bytes < eraseSize) :
      Served res eraseSize total k offset failed
  | unit {k j offset : ℕ} {failed : Bool} {bytes : List UInt8} (hlt : offset < total) (h : Answer res k j)
      (hres : res j = .done bytes) (hn : readCount eraseSize total offset failed bytes = eraseSize)
      (hrest : Served res eraseSize total (j + 1) (offset + eraseSize) false) :
        Served res eraseSize total k offset failed
  | failure {k j offset : ℕ} {failed : Bool} (hlt : offset < total) (h : Answer res k j) (hres : res j = .error false)
      (hpos : 0 < offset) (hrest : Served res eraseSize total (j + 1) (offset - 1) true) :
      Served res eraseSize total k offset failed

variable {eraseSize total offset top o : ℕ} {data : BitVec 32} {s t t' : Transfer ℕ} {failed : Bool}
    {bytes : List UInt8}

/-- **A round**, if the answer is known. -/
theorem readLoop_answer (hlen : t.len ≠ 0) (hs : t.startRead eraseSize = s) (heof : s.eof = false)
    (h : Answer res s.file j)
    (hfuel : j - s.file < fuel) : readLoop (hostOfStream res) eraseSize (fuel + 1) t =
      match clipped s.size (res j) with
      | .done bytes =>
        if bytes.length > eraseSize then none
        else readLoop (hostOfStream res) eraseSize fuel
          { s with file := j + 1, buf := store s.buf 0 bytes, size := bytes.length }.pass
      | .error _ => readLoop (hostOfStream res) eraseSize fuel { s with file := j + 1, size := sizeMax }.pass := by
  rw [readLoop, if_neg hlen]
  simp only [hs]
  rw [if_neg (by rw [heof]; decide), doRead_of_answer h hfuel]
  cases clipped s.size (res j) <;> rfl

/-- A loop that ends in a round has got an answer. -/
theorem answer_of_readLoop (hlen : t.len ≠ 0) (hs : t.startRead eraseSize = s) (heof : s.eof = false)
    (hrun : readLoop (hostOfStream res) eraseSize (fuel + 1) t = some t') :
      ∃ j, Answer res s.file j ∧ j - s.file < fuel := by
  rw [readLoop, if_neg hlen] at hrun
  simp only [hs] at hrun
  rw [if_neg (by rw [heof]; decide)] at hrun
  cases hread : doRead (hostOfStream res) fuel s.file s.size with
  | none =>
    rw [hread] at hrun
    cases hrun
  | some r =>
    obtain ⟨j, hj, hfuel, -⟩ := answer_of_doRead hread
    exact ⟨j, hj, hfuel⟩

/-- **A transfer at an offset**: the bytes up to `top` have been written, and no others. -/
structure At (eraseSize total : ℕ) (start : BitVec 32) (t : Transfer ℕ) (offset : ℕ) (failed : Bool) (top : ℕ) :
    Prop where
  le_top : offset ≤ top
  top_le : top ≤ total
  top_lt : offset < total → top < total
  len : t.len.toNat = total - offset
  data : t.data = start + BitVec.ofNat 32 offset
  size : offset < total → t.size = if failed then sizeMax else eraseSize
  eof : t.eof = false
  written : ∀ x, x ∈ t.guest.written ↔ (x - start).toNat < top

theorem put_nil {g : Guest} {addr : BitVec 32} : g.put addr [] = g := by
  simp only [Guest.put, List.getElem?_nil, Option.getD_none, List.length_nil, List.range_zero, List.map_nil,
    List.append_nil]

/-- A failed `read` moves the transfer one byte back. -/
theorem ofNat_succ_sub_one (data : BitVec 32) (n : ℕ) :
    data + BitVec.ofNat 32 n.succ - 1 = data + BitVec.ofNat 32 n := by
  rw [Nat.succ_eq_add_one, ofNat_add, ← BitVec.add_assoc]
  exact BitVec.add_sub_cancel _ _

theorem pass_sizeMax (h : s.size = sizeMax) : s.pass = { s with data := s.data - 1, len := s.len + 1 } := by
  have hword : BitVec.ofNat 32 sizeMax = -1 := by decide
  have hload : load s.buf 0 0 = [] := rfl
  simp only [Transfer.pass, Guest.cpuMemoryWrite, h, intLen_sizeMax, hword, hload, put_nil]
  rw [← BitVec.sub_eq_add_neg, BitVec.sub_neg]

namespace At

variable (h : At eraseSize total data t offset failed top) (hlt : offset < total)

include h hlt

theorem len_ne : t.len ≠ 0 := by
  intro hzero
  have hlen := h.len
  rw [hzero] at hlen
  have hnat : (0 : BitVec 32).toNat = 0 := rfl
  omega

/-- The start of a round. -/
theorem startRead (hint : eraseSize < 2 ^ 31) :
    t.startRead eraseSize = { t with size := request eraseSize total offset failed } := by
  have hsize := h.size hlt
  have hlen := h.len
  have hmax : sizeMax = 2 ^ 32 - 1 := rfl
  cases failed with
  | true =>
    rw [if_pos rfl] at hsize
    rw [Transfer.startRead_of_le (by omega), hsize, hlen, min_eq_left (by omega)]
    rfl
  | false =>
    rw [if_neg (by decide)] at hsize
    rw [Transfer.startRead_of_le hsize.ge, hsize, hlen]
    rfl

/-- **A failed `read`**, not at the start of the range. -/
theorem failure (htotal : total < 2 ^ 32) (hpos : 0 < offset) :
    At eraseSize total data { t with file := j, size := sizeMax }.pass (offset - 1) true top := by
  have hlen := h.len
  have htop := h.le_top
  obtain ⟨o, rfl⟩ := Nat.exists_eq_succ_of_ne_zero (Nat.ne_of_gt hpos)
  rw [pass_sizeMax rfl]
  refine ⟨by omega, h.top_le, fun _ => h.top_lt hlt, ?_, ?_, fun _ => rfl, h.eof, h.written⟩
  · change (t.len + 1).toNat = _
    rw [toNat_add, hlen, show (1 : BitVec 32).toNat = 1 from rfl]
    omega
  · change t.data - 1 = _
    rw [h.data, ofNat_succ_sub_one, Nat.succ_sub_one]

/-- **A piece that is read.** -/
theorem piece (hsize : s.size ≤ total - offset) (hint : s.size < 2 ^ 31) (htotal : total < 2 ^ 32)
    (hs : s.len = t.len ∧ s.data = t.data ∧ s.guest = t.guest) :
    s.pass.len.toNat = total - (offset + s.size) ∧ s.pass.data = data + BitVec.ofNat 32 (offset + s.size) ∧
      ∀ x, x ∈ s.pass.guest.written ↔ (x - data).toNat < max top (offset + s.size) := by
  have hlen := h.len
  have htop := h.le_top
  have hdata : s.data = data + BitVec.ofNat 32 offset := hs.2.1.trans h.data
  refine ⟨?_, Transfer.data_pass hdata, fun x => ?_⟩
  · rw [Transfer.toNat_len_pass (by rw [hs.1]; omega), hs.1, hlen, Nat.sub_sub]
  · rw [Transfer.mem_written_pass hdata hint (by omega), hs.2.2, h.written]
    omega

/-- **An erase unit** is read. -/
theorem unit (hsize : s.size = eraseSize) (hle : eraseSize ≤ total - offset) (hint : eraseSize < 2 ^ 31)
    (htotal : total < 2 ^ 32) (hs : s.len = t.len ∧ s.data = t.data ∧ s.guest = t.guest) (heof : s.eof = false) :
    At eraseSize total data s.pass (offset + eraseSize) false (max top (offset + eraseSize)) := by
  obtain ⟨hlen, hdata, hwritten⟩ := h.piece hlt (by omega) (by omega) htotal hs
  have htop := h.top_lt hlt
  rw [hsize] at hlen hdata hwritten
  exact ⟨le_max_right _ _, max_le h.top_le (by omega), fun hlt' => max_lt htop hlt', hlen, hdata, fun _ =>
    hsize, heof, hwritten⟩

end At

theorem readCount_le : readCount eraseSize total offset failed bytes ≤ total - offset := by
  have hreq : request eraseSize total offset failed ≤ total - offset := by
    unfold request
    split_ifs
    · exact le_rfl
    · exact min_le_left _ _
  unfold readCount
  omega

/-- The bytes that a round reads. -/
def pieceOf (eraseSize total offset : ℕ) (failed : Bool) (bytes : List UInt8) : List UInt8 :=
  bytes.take (min (request eraseSize total offset failed) maxTransfer)

@[simp] theorem length_pieceOf :
    (pieceOf eraseSize total offset failed bytes).length = readCount eraseSize total offset failed bytes :=
  List.length_take

/-- The transfer behind the `read` of a round. -/
def readPiece (t : Transfer ℕ) (j : ℕ) (bytes : List UInt8) : Transfer ℕ :=
  { t with file := j + 1, buf := store t.buf 0 bytes, size := bytes.length }

namespace At

variable (h : At eraseSize total data t offset failed top) (hlt : offset < total) (hint : eraseSize < 2 ^ 31)
  (ha : Answer res t.file j) (hfuel : j - t.file < fuel)

include h hlt hint ha hfuel

/-- **A round** that reads some bytes. -/
theorem round_done (hres : res j = .done bytes) : readLoop (hostOfStream res) eraseSize (fuel + 1) t =
    if readCount eraseSize total offset failed bytes > eraseSize then none
    else readLoop (hostOfStream res) eraseSize fuel
      (readPiece t j (pieceOf eraseSize total offset failed bytes)).pass := by
  rw [readLoop_answer (h.len_ne hlt) (h.startRead hlt hint) h.eof ha hfuel, hres, ← length_pieceOf]
  rfl

/-- **A round** that fails. -/
theorem round_failure (hres : res j = .error false) : readLoop (hostOfStream res) eraseSize (fuel + 1) t =
    readLoop (hostOfStream res) eraseSize fuel { t with file := j + 1, size := sizeMax }.pass := by
  rw [readLoop_answer (h.len_ne hlt) (h.startRead hlt hint) h.eof ha hfuel, hres]
  rfl

end At

/-- **The range is served** by results that do so. -/
theorem readLoop_served (hpos : 0 < eraseSize) (hint : eraseSize < 2 ^ 31) (htotal : total < 2 ^ 32) {k : ℕ}
    (hserved : Served res eraseSize total k offset failed) : ∀ {t top}, t.file = k →
      At eraseSize total data t offset failed top →
      ∃ n t', (∀ fuel > n, readLoop (hostOfStream res) eraseSize fuel t = some t') ∧
        ∀ x, x ∈ t'.guest.written ↔ (x - data).toNat < total := by
  induction hserved with
  | all =>
    intro t top _ h
    have htop : top = total := le_antisymm h.top_le h.le_top
    exact ⟨0, t, fun fuel hfuel => readLoop_of_len (word_eq_zero (by rw [h.len, Nat.sub_self])) hfuel, htop ▸ h.written⟩
  | @short k j offset failed bytes hlt ha hres hn =>
    rintro t top rfl h
    have hle : readCount eraseSize total offset failed bytes ≤ total - offset := readCount_le
    have hsize : (readPiece t j (pieceOf eraseSize total offset failed bytes)).size =
      readCount eraseSize total offset failed bytes := length_pieceOf
    obtain ⟨hlen, hdata, hwritten⟩ := h.piece hlt (hsize.trans_le hle) (by omega) htotal ⟨rfl, rfl, rfl⟩
    rw [hsize] at hlen hdata hwritten
    -- the rest is filled
    have hshort : Filling eraseSize (readPiece t j (pieceOf eraseSize total offset failed bytes)).pass :=
      ⟨(hsize.trans_lt hn).le, .inl (hsize.trans_lt hn)⟩
    obtain ⟨t', hfill, -, hw, -⟩ := readLoop_fill hpos hint htotal hshort (by omega) hlen le_rfl hdata
    refine ⟨j - t.file + total + 1, t', fun fuel hfuel => ?_, fun x => ?_⟩
    · obtain ⟨m, rfl⟩ := Nat.exists_eq_succ_of_ne_zero (show fuel ≠ 0 by omega)
      rw [h.round_done hlt hint ha (by omega) hres, if_neg (by omega), hfill m (by omega)]
    · rw [hw, hwritten]
      have htop := h.top_le
      omega
  | @unit k j offset failed bytes hlt ha hres hn _ ih =>
    rintro t top rfl h
    have hle : readCount eraseSize total offset failed bytes ≤ total - offset := readCount_le
    have hsize : (readPiece t j (pieceOf eraseSize total offset failed bytes)).size = eraseSize :=
      length_pieceOf.trans hn
    obtain ⟨n, t', hrun, hw⟩ := ih rfl (h.unit hlt hsize (by omega) hint htotal ⟨rfl, rfl, rfl⟩ h.eof)
    refine ⟨max (j - t.file) n + 1, t', fun fuel hfuel => ?_, hw⟩
    obtain ⟨m, rfl⟩ := Nat.exists_eq_succ_of_ne_zero (show fuel ≠ 0 by omega)
    rw [h.round_done hlt hint ha (by omega) hres, if_neg (by omega), hrun m (by omega)]
  | @failure k j offset failed hlt ha hres hpos' _ ih =>
    rintro t top rfl h
    obtain ⟨n, t', hrun, hw⟩ := ih rfl (h.failure hlt htotal hpos')
    refine ⟨max (j - t.file) n + 1, t', fun fuel hfuel => ?_, hw⟩
    obtain ⟨m, rfl⟩ := Nat.exists_eq_succ_of_ne_zero (show fuel ≠ 0 by omega)
    rw [h.round_failure hlt hint ha (by omega) hres, hrun m (by omega)]

/-- What has been written stays so. -/
theorem written_mono {io : HostIO ℕ} (hrun : readLoop io eraseSize fuel t = some t') {x : BitVec 32}
    (hx : x ∈ t.guest.written) : x ∈ t'.guest.written := by
  have hpass : ∀ {s : Transfer ℕ}, x ∈ s.guest.written → x ∈ s.pass.guest.written := fun h => List.mem_append_left _ h
  induction fuel generalizing t with
  | zero => cases hrun
  | succ fuel ih =>
    by_cases hlen : t.len = 0
    · rw [readLoop, if_pos hlen] at hrun
      cases hrun
      exact hx
    · have hstart : x ∈ (t.startRead eraseSize).guest.written := by
        simp only [Transfer.startRead]
        split_ifs <;> exact hx
      rw [readLoop, if_neg hlen] at hrun
      simp only at hrun
      split at hrun
      · exact ih hrun (hpass hstart)
      · split at hrun
        · cases hrun
        · split at hrun
          · cases hrun
          · exact ih hrun (hpass hstart)
        · exact ih hrun (hpass hstart)

/-- A transfer in front of the range, at the offset `o - 2 ^ 32`. -/
structure Below (total : ℕ) (start : BitVec 32) (t : Transfer ℕ) (o : ℕ) : Prop where
  le : total ≤ o
  lt : o < 2 ^ 32
  len : t.len.toNat = (total + (2 ^ 32 - o)) % 2 ^ 32
  data : t.data = start + BitVec.ofNat 32 o
  size : t.size = sizeMax
  eof : t.eof = false

/-- A piece that is written in front of the range. -/
theorem mem_written_first (hpos : 0 < s.size) (hint : s.size < 2 ^ 31) : s.data ∈ s.pass.guest.written := by
  have hdata : s.data = s.data + BitVec.ofNat 32 0 := (BitVec.add_zero _).symm
  rw [Transfer.mem_written_pass hdata hint (by omega), BitVec.sub_self]
  exact .inr ⟨Nat.zero_le _, by simpa using hpos⟩

/-- **In front of the range** something is written there, or nothing at all. -/
theorem readLoop_below (hpos : 0 < eraseSize) (hint : eraseSize < 2 ^ 31) :
    ∀ {t : Transfer ℕ} {o : ℕ}, Below total data t o → readLoop (hostOfStream res) eraseSize fuel t = some t' →
      (∃ x ∈ t'.guest.written, total ≤ (x - data).toNat) ∨ t'.guest.written = t.guest.written := by
  induction fuel with
  | zero => intro t o _ hrun; cases hrun
  | succ fuel ih =>
    intro t o h hrun
    by_cases hzero : t.len = 0
    · rw [readLoop, if_pos hzero] at hrun
      cases hrun
      exact .inr rfl
    have hmax : sizeMax = 2 ^ 32 - 1 := rfl
    have hsize := h.size
    have hlt := h.lt
    have hle := h.le
    have hout : total ≤ (t.data - data).toNat := by
      rw [h.data, BitVec.add_comm, BitVec.add_sub_cancel, toNat_ofNat]
      omega
    have hstart : t.startRead eraseSize = { t with size := t.len.toNat } := by
      rw [Transfer.startRead_of_le (by omega), min_eq_left (by omega)]
    obtain ⟨j, ha, hfuel⟩ := answer_of_readLoop hzero hstart h.eof hrun
    rw [readLoop_answer hzero hstart h.eof ha hfuel] at hrun
    cases hres : res j with
    | error eintr =>
      cases eintr with
      | true => exact absurd hres ha.stop
      | false =>
        simp only [hres, clipped] at hrun
        have hne : o ≠ total := by
          rintro rfl
          exact hzero (word_eq_zero (by rw [h.len, Nat.add_sub_cancel' hlt.le, Nat.mod_self]))
        have hlen := h.len
        have hnext : Below total data { t with file := j + 1, size := sizeMax }.pass (o - 1) := by
          obtain ⟨p, rfl⟩ := Nat.exists_eq_succ_of_ne_zero (show o ≠ 0 by omega)
          rw [pass_sizeMax rfl]
          refine ⟨by omega, by omega, ?_, ?_, rfl, h.eof⟩
          · change (t.len + 1).toNat = _
            rw [toNat_add, hlen, show (1 : BitVec 32).toNat = 1 from rfl]
            omega
          · change t.data - 1 = _
            rw [h.data, ofNat_succ_sub_one, Nat.succ_sub_one]
        have hsame : { t with file := j + 1, size := sizeMax }.pass.guest = t.guest := by
          rw [pass_sizeMax rfl]
        rw [← hsame]
        exact ih hnext hrun
    | done bytes =>
      simp only [hres, clipped] at hrun
      obtain ⟨b, hb⟩ : ∃ b, b = bytes.take (min t.len.toNat maxTransfer) := ⟨_, rfl⟩
      rw [← hb] at hrun
      split_ifs at hrun with hover
      obtain ⟨u, hu⟩ : ∃ u : Transfer ℕ,
        u = { t with file := j + 1, buf := store t.buf 0 b, size := b.length } := ⟨_, rfl⟩
      have hudata : u.data = t.data := by rw [hu]
      have husize : u.size = b.length := by rw [hu]
      replace hrun : readLoop (hostOfStream res) eraseSize fuel u.pass = some t' := by rw [hu]; exact hrun
      refine .inl ⟨t.data, ?_, hout⟩
      by_cases hb0 : b.length = 0
      · -- a count of 0 is the end of the file: the next round fills
        have hpass : u.pass.len = t.len ∧ u.pass.data = t.data ∧ u.pass.size = 0 := by
          refine ⟨?_, ?_, husize.trans hb0⟩
          · rw [Transfer.pass, husize, hb0, hu]
            exact BitVec.sub_zero _
          · rw [Transfer.pass, husize, hb0, hudata]
            exact BitVec.add_zero _
        obtain ⟨hplen, hpdata, hpsize⟩ := hpass
        have hlenpos : 0 < t.len.toNat := Nat.pos_of_ne_zero fun hnat => hzero (word_eq_zero hnat)
        cases fuel with
        | zero => cases hrun
        | succ fuel =>
          rw [readLoop, if_neg (by rw [hplen]; exact hzero), Transfer.startRead_of_lt (by omega)] at hrun
          simp only [if_true] at hrun
          refine written_mono hrun ?_
          rw [← hpdata]
          refine mem_written_first ?_ ?_
          · change 0 < min u.pass.len.toNat eraseSize
            rw [hplen]
            omega
          · change min u.pass.len.toNat eraseSize < 2 ^ 31
            omega
      · refine written_mono hrun ?_
        rw [← hudata]
        exact mem_written_first (by omega) (by omega)

/-- **A failed `read` at the start of the range** spoils the transfer. -/
theorem At.failure_zero (h : At eraseSize total data t 0 failed top) (hpos : 0 < eraseSize) (hint : eraseSize < 2 ^ 31)
    (htotal : total < 2 ^ 32) (hlt : 0 < total)
    (hrun : readLoop (hostOfStream res) eraseSize fuel { t with file := j + 1, size := sizeMax }.pass = some t') :
    ¬ ∀ x, x ∈ t'.guest.written ↔ (x - data).toNat < total := by
  intro hexact
  have htop := h.top_lt hlt
  rw [pass_sizeMax rfl] at hrun
  have hbelow : Below total data { t with file := j + 1, size := sizeMax, data := t.data - 1, len := t.len + 1 }
      (2 ^ 32 - 1) := by
    refine ⟨by omega, by omega, ?_, ?_, rfl, h.eof⟩
    · rw [toNat_add, h.len]
      rfl
    · rw [h.data]
      have hzero : data + BitVec.ofNat 32 0 = data := BitVec.add_zero data
      rw [hzero, BitVec.sub_eq_add_neg]
      rfl
  rcases readLoop_below hpos hint hbelow hrun with ⟨x, hx, hout⟩ | hsame
  · exact absurd ((hexact x).1 hx) (Nat.not_lt.2 hout)
  · -- the byte at `top` is missing
    have hoff : (data + BitVec.ofNat 32 top - data).toNat = top := by
      rw [BitVec.add_comm, BitVec.add_sub_cancel, toNat_ofNat]
      omega
    have hmem := (hexact (data + BitVec.ofNat 32 top)).2 (by omega)
    rw [hsame] at hmem
    have hlow := (h.written _).1 hmem
    omega

/-- **A loop that writes the range and nothing else** has had results that serve it. -/
theorem served_of_readLoop (hpos : 0 < eraseSize) (hint : eraseSize < 2 ^ 31) (htotal : total < 2 ^ 32) :
    ∀ {t : Transfer ℕ} {offset top : ℕ} {failed : Bool}, At eraseSize total data t offset failed top →
      readLoop (hostOfStream res) eraseSize fuel t = some t' →
      (∀ x, x ∈ t'.guest.written ↔ (x - data).toNat < total) → Served res eraseSize total t.file offset failed := by
  induction fuel with
  | zero => intro t offset top failed _ hrun; cases hrun
  | succ fuel ih =>
    intro t offset top failed h hrun hexact
    rcases Nat.eq_or_lt_of_le (h.le_top.trans h.top_le) with rfl | hlt
    · exact .all
    obtain ⟨j, ha, hfuel⟩ := answer_of_readLoop (h.len_ne hlt) (h.startRead hlt hint) h.eof hrun
    cases hres : res j with
    | done bytes =>
      rw [h.round_done hlt hint ha hfuel hres] at hrun
      split_ifs at hrun with hover
      have hle : readCount eraseSize total offset failed bytes ≤ total - offset := readCount_le
      rcases Nat.lt_or_eq_of_le (Nat.not_lt.1 hover) with hn | hn
      · exact .short hlt ha hres hn
      · have hsize : (readPiece t j (pieceOf eraseSize total offset failed bytes)).size = eraseSize :=
          length_pieceOf.trans hn
        exact .unit hlt ha hres hn (ih (h.unit hlt hsize (by omega) hint htotal ⟨rfl, rfl, rfl⟩ h.eof) hrun hexact)
    | error eintr =>
      cases eintr with
      | true => exact absurd hres ha.stop
      | false =>
        rw [h.round_failure hlt hint ha hfuel hres] at hrun
        rcases Nat.eq_zero_or_pos offset with rfl | hoff
        · exact absurd hexact (h.failure_zero hpos hint htotal hlt hrun)
        · exact .failure hlt ha hres hoff (ih (h.failure hlt htotal hoff) hrun hexact)

/-- **Reads end and stay in range exactly if the results serve the range**: `nand_dev_read_file` returns, and the
addresses it has written are those of the range. -/
theorem readFile_iff (dev : NandDev ℕ) (hpos : 0 < dev.eraseSize) (hint : dev.eraseSize < 2 ^ 31)
    (byte : BitVec 32 → UInt8) (addr : ℕ) (totalLen : BitVec 32) :
    (∃ n r, (∀ fuel > n, dev.readFile (hostOfStream res) fuel 0 ⟨byte, []⟩ data addr totalLen = some r) ∧
      ∀ x, x ∈ r.2.2.written ↔ (x - data).toNat < totalLen.toNat) ↔
    Served res dev.eraseSize totalLen.toNat 0 0 false := by
  have hstart : At dev.eraseSize totalLen.toNat data
    (dev.transfer (hostOfStream res) 0 ⟨byte, []⟩ data addr totalLen) 0 false 0 :=
    ⟨le_rfl, Nat.zero_le _, id, rfl, (BitVec.add_zero _).symm, fun _ => rfl, rfl, fun x => by simp [NandDev.transfer]⟩
  constructor
  · rintro ⟨n, r, hrun, hexact⟩
    obtain ⟨t', hloop, rfl⟩ := Option.map_eq_some_iff.1 (hrun (n + 1) (Nat.lt_succ_self n))
    exact served_of_readLoop hpos hint totalLen.isLt hstart hloop hexact
  · intro hserved
    obtain ⟨n, t', hrun, hexact⟩ := readLoop_served hpos hint totalLen.isLt hserved rfl hstart
    exact ⟨n, _, fun fuel hfuel => by rw [NandDev.readFile, hrun fuel hfuel, Option.map_some], hexact⟩

/-- A device with an erase unit of one byte. -/
def byteDev : NandDev ℕ := ⟨[], fun _ => 0, some 0, 0, 1, 1⟩

/-- A good `read`. -/
theorem readFile_iff_byte : ∃ n r, (∀ fuel > n,
      byteDev.readFile (hostOfStream fun _ => .done [7]) fuel 0 ⟨fun _ => 0, []⟩ 16 0 1 = some r) ∧
      ∀ x : BitVec 32, x ∈ r.2.2.written ↔ (x - 16).toNat < (1 : BitVec 32).toNat :=
  (readFile_iff byteDev (by decide) (by decide) (fun _ => 0) 0 1).2
    (.unit (by decide) ⟨le_rfl, fun i _ _ => by omega, by simp⟩ rfl rfl .all)

/-- A `read` fails, and the next one is written in front of the range. -/
theorem readFile_error : ¬ ∀ (res : ℕ → IoResult (List UInt8)) (dev : NandDev ℕ) (data totalLen : BitVec 32),
    0 < dev.eraseSize → dev.eraseSize < 2 ^ 31 →
    ∃ n r, (∀ fuel > n, dev.readFile (hostOfStream res) fuel 0 ⟨fun _ => 0, []⟩ data 0 totalLen = some r) ∧
      ∀ x, x ∈ r.2.2.written ↔ (x - data).toNat < totalLen.toNat := by
  intro hall
  obtain ⟨n, r, hrun, hexact⟩ :=
    hall (fun k => if k = 0 then .error false else .done [7]) byteDev 16 1 (by decide) (by decide)
  have hwritten : (some r).map (·.2.2.written) = some [15, 16] := by
    rw [← hrun (n + 8) (by omega)]
    rfl
  have hlist : r.2.2.written = [15, 16] := Option.some.inj hwritten
  have hmem : (15 : BitVec 32) ∈ r.2.2.written := by
    rw [hlist]
    decide
  exact absurd ((hexact 15).1 hmem) (by decide)

end Emulator.Goldfish
