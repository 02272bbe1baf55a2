import Emulator.Lib.ByteFile
import Emulator.Lib.RingBuffer
import Mathlib.Tactic

/-!
# The goldfish NAND device (`goldfish_nand.c`)

A device keeps its bytes in a file of the host and moves them in pieces through one buffer of the size of an erase unit.
The file is seen through the calls `lseek`, `read` and `write`. The guest's memory is mapped throughout.

The result `none` stands for a loop that runs out of fuel, an access outside the buffer, or `cpu_abort`.
-/

namespace Emulator.Goldfish

open Lib

/-- What `read` or `write` returns: a result, or -1 and whether `errno` is `EINTR`. -/
inductive IoResult (α : Type)
  | done (a : α)
  | error (eintr : Bool)

/-- The calls on a file of the host in the state `H`: `read` with a size, `write` with the bytes. -/
structure HostIO (H : Type) where
  lseek : H → ℕ → H
  read : H → ℕ → IoResult (List UInt8) × H
  write : H → List UInt8 → IoResult ℕ × H

/-- The guest's memory, and the addresses that the device has written. -/
structure Guest where
  byte : BitVec 32 → UInt8
  written : List (BitVec 32)

/-- A `size_t` as an `int`, which counts nothing if it is negative. -/
def intLen (n : ℕ) : ℕ := (BitVec.ofNat 32 n).toInt.toNat

/-- `(size_t)-1` of the 32-bit program. -/
def sizeMax : ℕ := 2 ^ 32 - 1

namespace Guest

variable (g : Guest)

/-- The bytes of the guest from `addr` on. -/
def fetch (addr : BitVec 32) (n : ℕ) : List UInt8 := (List.range n).map fun i => g.byte (addr + BitVec.ofNat 32 i)

/-- The guest's bytes from `addr` on are overwritten. -/
def put (addr : BitVec 32) (bytes : List UInt8) : Guest where
  byte x := (bytes[(x - addr).toNat]?).getD (g.byte x)
  written := g.written ++ (List.range bytes.length).map fun i => addr + BitVec.ofNat 32 i

/-- `cpu_memory_rw_debug (.., 1)`. -/
def cpuMemoryWrite (addr : BitVec 32) (buf : ℕ → UInt8) (len : ℕ) : Guest := g.put addr (load buf 0 (intLen len))

/-- `cpu_memory_rw_debug (.., 0)`. -/
def cpuMemoryRead (addr : BitVec 32) (buf : ℕ → UInt8) (len : ℕ) : ℕ → UInt8 := store buf 0 (g.fetch addr (intLen len))

end Guest

/-- A `nand_dev`. Without a file its bytes are those of the buffer. -/
structure NandDev (H : Type) where
  devname : List UInt8
  data : ℕ → UInt8
  fd : Option H
  flags : BitVec 32
  eraseSize : ℕ
  size : ℕ

/-- A `nand_dev_state`: the registers. -/
structure NandDevState where
  dev : BitVec 32
  addrLow : BitVec 32
  addrHigh : BitVec 32
  transferSize : BitVec 32
  data : BitVec 32

def NAND_CMD_GET_DEV_NAME : BitVec 32 := 0
def NAND_CMD_READ : BitVec 32 := 1
def NAND_CMD_WRITE : BitVec 32 := 2
def NAND_CMD_ERASE : BitVec 32 := 3
def NAND_CMD_BLOCK_BAD_GET : BitVec 32 := 4
def NAND_CMD_BLOCK_BAD_SET : BitVec 32 := 5

variable {H : Type} (io : HostIO H)

/-- `do_read`. -/
def doRead : ℕ → H → ℕ → Option (IoResult (List UInt8) × H)
  | 0, _, _ => none
  | fuel + 1, file, size =>
    match io.read file size with
    | (.error true, file) => doRead fuel file size
    | r => some r

/-- `do_write`. -/
def doWrite : ℕ → H → List UInt8 → Option (IoResult ℕ × H)
  | 0, _, _ => none
  | fuel + 1, file, bytes =>
    match io.write file bytes with
    | (.error true, file) => doWrite fuel file bytes
    | r => some r

/-- The variables of a transfer: `size` is `read_len` or `write_len`. -/
structure Transfer (H : Type) where
  file : H
  buf : ℕ → UInt8
  len : BitVec 32
  data : BitVec 32
  size : ℕ
  eof : Bool
  guest : Guest

namespace Transfer

variable (t : Transfer H)

/-- The end of a round of `nand_dev_read_file`. -/
def pass : Transfer H :=
  { t with
    guest := t.guest.cpuMemoryWrite t.data t.buf t.size
    data := t.data + BitVec.ofNat 32 t.size
    len := t.len - BitVec.ofNat 32 t.size }

/-- The start of a round of `nand_dev_read_file`: after a short piece there is nothing but 0xff. -/
def startRead (eraseSize : ℕ) : Transfer H :=
  let t := if t.size < eraseSize then
    { t with buf := store t.buf 0 (List.replicate eraseSize 0xff), size := eraseSize, eof := true } else t
  if t.len.toNat < t.size then { t with size := t.len.toNat } else t

end Transfer

/-- The loop of `nand_dev_read_file`. -/
def readLoop (eraseSize : ℕ) : ℕ → Transfer H → Option (Transfer H)
  | 0, _ => none
  | fuel + 1, t =>
    if t.len = 0 then some t
    else
      let t := t.startRead eraseSize
      if t.eof then readLoop eraseSize fuel t.pass
      else
        match doRead io fuel t.file t.size with
        | none => none
        | some (.done bytes, file) =>
          if bytes.length > eraseSize then none
          else readLoop eraseSize fuel { t with file, buf := store t.buf 0 bytes, size := bytes.length }.pass
        | some (.error _, file) => readLoop eraseSize fuel { t with file, size := sizeMax }.pass

/-- A count of written bytes as a `size_t`. -/
def writtenSize : IoResult ℕ → ℕ
  | .done n => n
  | .error _ => sizeMax

/-- The loop of `nand_dev_write_file` and of `nand_dev_erase_file`, which leaves the buffer as it is. -/
def writeLoop (fetch : Transfer H → ℕ → UInt8) : ℕ → Transfer H → Option (Transfer H)
  | 0, _ => none
  | fuel + 1, t =>
    if t.len = 0 then some t
    else
      let t := if t.len.toNat < t.size then { t with size := t.len.toNat } else t
      let t := { t with buf := fetch t }
      match doWrite io fuel t.file (load t.buf 0 t.size) with
      | none => none
      | some (ret, file) =>
        if writtenSize ret < t.size then some { t with file }
        else writeLoop fetch fuel
          { t with file, data := t.data + BitVec.ofNat 32 t.size, len := t.len - BitVec.ofNat 32 t.size }

namespace NandDev

variable (dev : NandDev H) (fuel : ℕ) (file : H) (g : Guest)

/-- A transfer at its start. -/
def transfer (data : BitVec 32) (addr : ℕ) (totalLen : BitVec 32) : Transfer H :=
  ⟨io.lseek file addr, dev.data, totalLen, data, dev.eraseSize, false, g⟩

/-- The device behind a transfer. -/
def after (t : Transfer H) : NandDev H := { dev with data := t.buf, fd := some t.file }

/-- `nand_dev_read_file`. -/
def readFile (data : BitVec 32) (addr : ℕ) (totalLen : BitVec 32) : Option (BitVec 32 × NandDev H × Guest) :=
  (readLoop io dev.eraseSize fuel (dev.transfer io file g data addr totalLen)).map fun t =>
    (totalLen, dev.after t, t.guest)

/-- `nand_dev_write_file`. -/
def writeFile (data : BitVec 32) (addr : ℕ) (totalLen : BitVec 32) : Option (BitVec 32 × NandDev H × Guest) :=
  (writeLoop io (fun t => t.guest.cpuMemoryRead t.data t.buf t.size) fuel
    (dev.transfer io file g data addr totalLen)).map
    fun t => (totalLen - t.len, dev.after t, t.guest)

/-- `nand_dev_erase_file`. -/
def eraseFile (addr : ℕ) (totalLen : BitVec 32) : Option (BitVec 32 × NandDev H × Guest) :=
  let t := dev.transfer io file g 0 addr totalLen
  (writeLoop io (·.buf) fuel { t with buf := store t.buf 0 (List.replicate dev.eraseSize 0xff) }).map
    fun t => (totalLen - t.len, dev.after t, t.guest)

/-- The part of a request that `nand_dev_do_cmd` takes, in 64-bit arithmetic. -/
def clip (addr : BitVec 64) (size : BitVec 32) : BitVec 32 :=
  if (size.setWidth 64 + addr).toNat > dev.size then BitVec.ofNat 32 (dev.size - addr.toNat) else size

/-- `NAND_DEV_FLAG_READ_ONLY`. -/
def readOnly : Bool := dev.flags &&& 1 != 0

/-- `nand_dev_do_cmd` on the device. -/
def doCmd (s : NandDevState) (cmd : BitVec 32) : Option (BitVec 32 × NandDev H × Guest) :=
  let addr := s.addrHigh ++ s.addrLow
  let size := s.transferSize
  if cmd = NAND_CMD_GET_DEV_NAME then
    let size := if size.toNat > dev.devname.length then BitVec.ofNat 32 dev.devname.length else size
    some (size, dev, g.cpuMemoryWrite s.data (fun i => (dev.devname[i]?).getD 0) size.toNat)
  else if cmd = NAND_CMD_READ then
    if addr.toNat ≥ dev.size then some (0, dev, g)
    else
      let size := dev.clip addr size
      match dev.fd with
      | some file => dev.readFile io fuel file g s.data addr.toNat size
      | none =>
        if addr.toNat + size.toNat > dev.eraseSize then none
        else some (size, dev, g.cpuMemoryWrite s.data (fun i => dev.data (addr.toNat + i)) size.toNat)
  else if cmd = NAND_CMD_WRITE then
    if dev.readOnly then some (0, dev, g)
    else if addr.toNat ≥ dev.size then some (0, dev, g)
    else
      let size := dev.clip addr size
      match dev.fd with
      | some file => dev.writeFile io fuel file g s.data addr.toNat size
      | none =>
        if addr.toNat + size.toNat > dev.eraseSize then none
        else some (size, { dev with data := store dev.data addr.toNat (g.fetch s.data (intLen size.toNat)) }, g)
  else if cmd = NAND_CMD_ERASE then
    if dev.readOnly then some (0, dev, g)
    else if addr.toNat ≥ dev.size then some (0, dev, g)
    else
      let size := dev.clip addr size
      match dev.fd with
      | some file => dev.eraseFile io fuel file g addr.toNat size
      | none =>
        if addr.toNat + size.toNat > dev.eraseSize then none
        else some (size, { dev with data := store dev.data addr.toNat (List.replicate size.toNat 0xff) }, g)
  else if cmd = NAND_CMD_BLOCK_BAD_GET ∨ cmd = NAND_CMD_BLOCK_BAD_SET then some (0, dev, g)
  else none

end NandDev

/-- `nand_dev_do_cmd`. -/
def nandDevDoCmd (fuel : ℕ) (s : NandDevState) (cmd : BitVec 32) (devs : List (NandDev H)) (g : Guest) :
    Option (BitVec 32 × List (NandDev H) × Guest) :=
  match devs[s.dev.toNat]? with
  | none => some (0, devs, g)
  | some dev => (dev.doCmd io fuel g s cmd).map fun r => (r.1, devs.set s.dev.toNat r.2.1, r.2.2)

/-- The bytes of one `read` or `write` of the host: no more than this are moved. -/
def maxTransfer : ℕ := 0x7ffff000

theorem word_eq_zero {w : BitVec 32} (h : w.toNat = 0) : w = 0 := BitVec.eq_of_toNat_eq h

theorem intLen_of_lt {n : ℕ} (h : n < 2 ^ 31) : intLen n = n := by
  have hn : (BitVec.ofNat 32 n).toNat = n := by
    rw [BitVec.toNat_ofNat]
    omega
  rw [intLen, BitVec.toInt_eq_toNat_of_lt (by omega), hn, Int.toNat_natCast]

theorem intLen_sizeMax : intLen sizeMax = 0 := by decide

section Addresses

variable {x a : BitVec 32} {o n : ℕ}

theorem toNat_sub_add (h : o ≤ (x - a).toNat) : (x - (a + BitVec.ofNat 32 o)).toNat = (x - a).toNat - o := by
  have hlt := (x - a).isLt
  rw [← BitVec.sub_sub, BitVec.toNat_sub, BitVec.toNat_ofNat]
  omega

theorem toNat_sub_add_lt (h : o + n ≤ 2 ^ 32) :
    (x - (a + BitVec.ofNat 32 o)).toNat < n ↔ o ≤ (x - a).toNat ∧ (x - a).toNat < o + n := by
  have hlt := (x - a).isLt
  rw [← BitVec.sub_sub, BitVec.toNat_sub, BitVec.toNat_ofNat]
  omega

theorem mem_written_put {g : Guest} {bytes : List UInt8} (h : bytes.length ≤ 2 ^ 32) :
    x ∈ (g.put a bytes).written ↔ x ∈ g.written ∨ (x - a).toNat < bytes.length := by
  simp only [Guest.put, List.mem_append, List.mem_map, List.mem_range]
  refine or_congr_right ⟨?_, fun hx => ⟨(x - a).toNat, hx, ?_⟩⟩
  · rintro ⟨i, hi, rfl⟩
    rw [BitVec.add_comm, BitVec.add_sub_cancel, BitVec.toNat_ofNat]
    omega
  · rw [BitVec.ofNat_toNat, BitVec.setWidth_eq, BitVec.add_comm, BitVec.sub_add_cancel]

theorem getElem?_load {buf : ℕ → UInt8} {p i : ℕ} :
    (load buf p n)[i]? = if i < n then some (buf (p + i)) else none := by
  simp only [load, List.getElem?_map]
  split_ifs with h
  · rw [List.getElem?_range h, Option.map_some]
  · rw [List.getElem?_eq_none (by simpa using h), Option.map_none]

end Addresses

namespace Transfer

variable {t : Transfer H} {eraseSize : ℕ}

theorem startRead_of_le (h : eraseSize ≤ t.size) :
    t.startRead eraseSize = { t with size := min t.len.toNat t.size } := by
  simp only [startRead, if_neg (Nat.not_lt.2 h)]
  split_ifs with hlen
  · rw [min_eq_left hlen.le]
  · rw [min_eq_right (Nat.not_lt.1 hlen)]

theorem startRead_of_lt (h : t.size < eraseSize) : t.startRead eraseSize =
    { t with
      buf := store t.buf 0 (List.replicate eraseSize 0xff)
      size := min t.len.toNat eraseSize
      eof := true } := by
  simp only [startRead, if_pos h]
  split_ifs with hlen
  · rw [min_eq_left hlen.le]
  · rw [min_eq_right (Nat.not_lt.1 hlen)]

theorem toNat_len_pass (h : t.size ≤ t.len.toNat) : t.pass.len.toNat = t.len.toNat - t.size := by
  have hlt := t.len.isLt
  rw [pass, BitVec.toNat_sub, BitVec.toNat_ofNat]
  omega

variable {data x : BitVec 32} {o : ℕ} (hdata : t.data = data + BitVec.ofNat 32 o)

include hdata

theorem data_pass : t.pass.data = data + BitVec.ofNat 32 (o + t.size) := by
  rw [pass, hdata, BitVec.add_assoc, ← BitVec.ofNat_add]

variable (hsize : t.size < 2 ^ 31) (ho : o + t.size ≤ 2 ^ 32)

include hsize ho

theorem mem_written_pass : x ∈ t.pass.guest.written ↔
    x ∈ t.guest.written ∨ (o ≤ (x - data).toNat ∧ (x - data).toNat < o + t.size) := by
  simp only [pass, Guest.cpuMemoryWrite, intLen_of_lt hsize]
  rw [mem_written_put (by rw [length_load]; omega), length_load, hdata, toNat_sub_add_lt ho]

theorem byte_pass : t.pass.guest.byte x =
    if o ≤ (x - data).toNat ∧ (x - data).toNat < o + t.size then t.buf ((x - data).toNat - o) else t.guest.byte x := by
  simp only [pass, Guest.cpuMemoryWrite, intLen_of_lt hsize, Guest.put, getElem?_load, hdata, toNat_sub_add_lt ho]
  split_ifs with hx
  · rw [toNat_sub_add hx.1, Nat.zero_add, Option.getD_some]
  · rw [Option.getD_none]

end Transfer

/-- A transfer that has met the end of the file: a short piece has been read, or the buffer is full of 0xff. -/
structure Filling (eraseSize : ℕ) (t : Transfer H) : Prop where
  size_le : t.size ≤ eraseSize
  ended : t.size < eraseSize ∨ (t.eof = true ∧ ∀ i < eraseSize, t.buf i = 0xff)

/-- `memset (.., 0xff, ..)`. -/
theorem store_replicate (buf : ℕ → UInt8) {n i : ℕ} (hi : i < n) : store buf 0 (List.replicate n 0xff) i = 0xff := by
  have hmem := @store_of_mem _ buf 0 i (List.replicate n (0xff : UInt8)) (by simpa using hi)
  rw [Nat.zero_add] at hmem
  rw [hmem, List.getElem_replicate]

/-- The start of a round then. -/
theorem Filling.startRead {t : Transfer H} {eraseSize : ℕ} (h : Filling eraseSize t) :
    ∃ buf, t.startRead eraseSize = { t with buf, size := min t.len.toNat eraseSize, eof := true } ∧
      ∀ i < eraseSize, buf i = 0xff := by
  rcases Nat.lt_or_eq_of_le h.size_le with hlt | heq
  · exact ⟨_, Transfer.startRead_of_lt hlt, fun i hi => store_replicate _ hi⟩
  · obtain hlt | ⟨heof, hbuf⟩ := h.ended
    · omega
    · refine ⟨t.buf, ?_, hbuf⟩
      rw [Transfer.startRead_of_le heq.ge, heq, ← heof]

variable {data : BitVec 32} {eraseSize total : ℕ} {io}

theorem readLoop_of_len {t : Transfer H} (h : t.len = 0) {fuel : ℕ} (hfuel : 0 < fuel) :
    readLoop io eraseSize fuel t = some t := by
  obtain ⟨k, rfl⟩ := Nat.exists_eq_succ_of_ne_zero (Nat.ne_of_gt hfuel)
  rw [readLoop, if_pos h]

/-- **What is missing is filled with 0xff.** -/
theorem readLoop_fill (hpos : 0 < eraseSize) (hint : eraseSize < 2 ^ 31) (htotal : total < 2 ^ 32) {n : ℕ} :
    ∀ {t : Transfer H} {o : ℕ}, Filling eraseSize t → o ≤ total → t.len.toNat = total - o → t.len.toNat ≤ n →
      t.data = data + BitVec.ofNat 32 o →
      ∃ t', (∀ fuel > n, readLoop io eraseSize fuel t = some t') ∧ t'.file = t.file ∧
        (∀ x, x ∈ t'.guest.written ↔ x ∈ t.guest.written ∨ (o ≤ (x - data).toNat ∧ (x - data).toNat < total)) ∧
        ∀ x, t'.guest.byte x =
          if o ≤ (x - data).toNat ∧ (x - data).toNat < total then 0xff else t.guest.byte x := by
  induction n with
  | zero =>
    intro t o _ ho hlen hn _
    refine ⟨t, fun fuel hfuel => readLoop_of_len (word_eq_zero (Nat.le_zero.1 hn)) hfuel, rfl, fun x => ?_, fun x => ?_⟩
    · exact (or_iff_left (by omega)).symm
    · rw [if_neg (by omega)]
  | succ n ih =>
    intro t o hfill ho hlen hn hdata
    by_cases hzero : t.len = 0
    · have hnat : t.len.toNat = 0 := by rw [hzero]; rfl
      refine ⟨t, fun fuel hfuel => readLoop_of_len hzero (Nat.zero_lt_of_lt hfuel), rfl, fun x => ?_, fun x => ?_⟩
      · exact (or_iff_left (by omega)).symm
      · rw [if_neg (by omega)]
    · have hlenpos : 0 < t.len.toNat := Nat.pos_of_ne_zero fun hnat => hzero (word_eq_zero hnat)
      obtain ⟨buf, hstart, hbuf⟩ := hfill.startRead
      obtain ⟨s, hs⟩ : ∃ s : Transfer H, s = { t with buf, size := min t.len.toNat eraseSize, eof := true } := ⟨_, rfl⟩
      have hsdata : s.data = data + BitVec.ofNat 32 o := by rw [hs]; exact hdata
      have hslen : s.len = t.len := by rw [hs]
      have hssize : s.size = min t.len.toNat eraseSize := by rw [hs]
      have hsbuf : s.buf = buf := by rw [hs]
      have hsguest : s.guest = t.guest := by rw [hs]
      have hround : ∀ fuel, readLoop io eraseSize (fuel + 1) t = readLoop io eraseSize fuel s.pass := by
        intro fuel
        simp only [readLoop, if_neg hzero, hstart, hs, if_true]
      have hpasslen := Transfer.toNat_len_pass (t := s) (by rw [hssize, hslen]; omega)
      rw [hslen] at hpasslen
      have hnext : Filling eraseSize s.pass := by
        refine ⟨by change s.size ≤ _; omega, .inr ⟨?_, ?_⟩⟩
        · change s.eof = true
          rw [hs]
        · change ∀ i < eraseSize, s.buf i = 0xff
          rw [hsbuf]
          exact hbuf
      obtain ⟨t', hrun, hfile, hwritten, hbyte⟩ := ih hnext (o := o + s.size) (by omega) (by omega) (by omega)
        (Transfer.data_pass hsdata)
      refine ⟨t', fun fuel hfuel => ?_, ?_, fun x => ?_, fun x => ?_⟩
      · obtain ⟨k, rfl⟩ := Nat.exists_eq_succ_of_ne_zero (Nat.ne_of_gt (Nat.zero_lt_of_lt hfuel))
        rw [hround, hrun k (by omega)]
      · rw [hfile]
        change s.file = t.file
        rw [hs]
      · rw [hwritten, Transfer.mem_written_pass hsdata (by omega) (by omega), hsguest, or_assoc]
        refine or_congr_right ?_
        omega
      · rw [hbyte, Transfer.byte_pass hsdata (by omega) (by omega), hsguest, hsbuf]
        by_cases hpiece : o ≤ (x - data).toNat ∧ (x - data).toNat < o + s.size
        · rw [if_neg (by omega), if_pos hpiece, if_pos (by omega), hbuf _ (by omega)]
        · rw [if_neg hpiece]
          refine if_congr ?_ rfl rfl
          omega

end Emulator.Goldfish
