import Emulator.Goldfish.NandFile

/-!
# A NAND device is a byte array

`FlashArray` says what a device is for: an array of bytes that is read, written and erased in ranges. A device on a file
refines it as long as no write or erase starts behind the end of the file: the hole that such a one leaves reads as 0,
where bytes that were never written read as 0xff. The addresses must be an `off_t` of the 32-bit program.

* `doCmd_ok`: a command on a device is the command on its array.
* `nandRun_array`: so is every run, and every command after it.
-/

namespace Emulator.Goldfish

open Lib Option
open List hiding after

/-- An array of flash memory. -/
structure FlashArray where
  size : ℕ
  readOnly : Bool
  byte : ℕ → UInt8

/-- A command on a range. -/
inductive FlashCmd
  | read
  | write
  | erase

def FlashCmd.code : FlashCmd → BitVec 32
  | .read => NAND_CMD_READ
  | .write => NAND_CMD_WRITE
  | .erase => NAND_CMD_ERASE

namespace FlashArray

variable (a : FlashArray)

/-- The part of a range inside the array. -/
def count (addr len : ℕ) : ℕ := min len (a.size - addr)

/-- The array with new bytes in a range. -/
def setRange (addr n : ℕ) (src : ℕ → UInt8) : FlashArray :=
  { a with byte := fun j => if addr ≤ j ∧ j < addr + n then src (j - addr) else a.byte j }

/-- **A command**, with the guest's memory from `data` on: the count, the array and the memory behind it. -/
def step (cmd : FlashCmd) (addr len : ℕ) (data : BitVec 32) (mem : BitVec 32 → UInt8) :
    ℕ × FlashArray × (BitVec 32 → UInt8) :=
  match cmd with
  | .read => (a.count addr len, a,
      fun x => if (x - data).toNat < a.count addr len then a.byte (addr + (x - data).toNat) else mem x)
  | .write =>
    if a.readOnly then (0, a, mem)
    else (a.count addr len, a.setRange addr (a.count addr len) fun i => mem (data + BitVec.ofNat 32 i), mem)
  | .erase =>
    if a.readOnly then (0, a, mem) else (a.count addr len, a.setRange addr (a.count addr len) fun _ => 0xff, mem)

variable {a} {cmd : FlashCmd} {addr len : ℕ} {data : BitVec 32} {mem : BitVec 32 → UInt8}

/-- A command changes bytes in its range only. -/
theorem step_byte {j : ℕ} (hj : ¬ (addr ≤ j ∧ j < addr + a.count addr len)) :
    (a.step cmd addr len data mem).2.1.byte j = a.byte j := by
  cases cmd with
  | read => rfl
  | write =>
    simp only [step]
    split_ifs
    · rfl
    · exact if_neg hj
  | erase =>
    simp only [step]
    split_ifs
    · rfl
    · exact if_neg hj

/-- A read-only array never changes. -/
theorem step_readOnly (h : a.readOnly = true) : (a.step cmd addr len data mem).2.1 = a := by
  cases cmd <;> simp [step, h]

end FlashArray

variable {start : BitVec 32} {g : Guest}

theorem load_store (buf : ℕ → UInt8) (l : List UInt8) : load (store buf 0 l) 0 l.length = l := by
  refine ext_getElem (length_load _ _ _) fun i h1 h2 => ?_
  have hmem := @store_of_mem _ buf 0 i l h2
  simpa [load] using hmem

/-- A piece of the guest's memory. -/
theorem fetch_eq_load (o n : ℕ) : g.fetch (start + BitVec.ofNat 32 o) n =
    load (fun i => g.byte (start + BitVec.ofNat 32 i)) o n := by
  simp only [Guest.fetch, load, BitVec.add_assoc, ← BitVec.ofNat_add]

theorem maxTransfer_lt : maxTransfer < 2 ^ 31 := by decide

namespace NandDev

variable {dev : NandDev RegFile} {f : RegFile} {addr : ℕ} {totalLen : BitVec 32}

/-- The buffer of a device is that of an erase unit, which an `int` can count. -/
structure BufferOK (dev : NandDev RegFile) : Prop where
  pos : 0 < dev.eraseSize
  lt : dev.eraseSize < 2 ^ 31

/-- A transfer at an address that is an `off_t`. -/
theorem transfer_eq (haddr : addr ≤ offMax) (data : BitVec 32) : dev.transfer fileIO f g data addr totalLen =
    ⟨{ f with pos := addr }, dev.data, totalLen, data, dev.eraseSize, false, g⟩ := by
  rw [transfer, lseek_of_le haddr]

variable (hdev : dev.BufferOK) (hmax : min totalLen.toNat dev.eraseSize ≤ maxTransfer)

include hdev hmax

theorem readFile_ok (haddr : addr ≤ offMax) : ∃ n t', (∀ fuel > n, dev.readFile fileIO fuel f g start addr totalLen =
      some (totalLen, dev.after t', t'.guest)) ∧ t'.file.bytes = f.bytes ∧
    ∀ x, t'.guest.byte x = if (x - start).toNat <
      totalLen.toNat then f.content (addr + (x - start).toNat) else g.byte x := by
  have htrans := @transfer_eq g dev f addr totalLen haddr start
  obtain ⟨t', hrun, hfile, hbyte⟩ := @readLoop_file start _ _ addr hdev.pos hdev.lt totalLen.isLt hmax _
    (dev.transfer fileIO f g start addr totalLen) 0 (Nat.zero_le _) rfl le_rfl (BitVec.add_zero _).symm
      (by rw [htrans]; rfl)
    (fun _ => rfl) rfl
  rw [htrans] at hfile hbyte
  refine ⟨totalLen.toNat + 1, t', fun fuel hfuel => ?_, hfile, fun x => ?_⟩
  · rw [readFile, hrun fuel hfuel, map_some]
  · rw [hbyte]
    exact if_congr (and_iff_right (Nat.zero_le _)) rfl rfl

theorem writeFile_ok (hend : addr + totalLen.toNat ≤ offMax) :
    ∃ n t', (∀ fuel > n, dev.writeFile fileIO fuel f g start addr totalLen =
      some (totalLen, dev.after t', g)) ∧
    t'.file.bytes = writeAt 0 f.bytes addr (load (fun i => g.byte (start + BitVec.ofNat 32 i)) 0 totalLen.toNat) := by
  have hlt := maxTransfer_lt
  have htrans := @transfer_eq g dev f addr totalLen (by omega) start
  have hfetch : ∀ (t : Transfer RegFile) (o : ℕ), t.data = start + BitVec.ofNat 32 o → t.guest = g → True →
      t.size ≤ min totalLen.toNat dev.eraseSize →
      load (t.guest.cpuMemoryRead t.data t.buf t.size) 0 t.size =
        load (fun i => g.byte (start + BitVec.ofNat 32 i)) o t.size ∧ True := by
    intro t o hdata hg _ hsize
    have hls := load_store t.buf (load (fun i => g.byte (start + BitVec.ofNat 32 i)) o t.size)
    rw [length_load] at hls
    simp only [Guest.cpuMemoryRead, intLen_of_lt (show t.size < 2 ^ 31 by omega), hdata, hg, fetch_eq_load, hls,
      and_self]
  obtain ⟨t', hrun, hzero, hg, hbytes⟩ :=
    @writeLoop_file start _ _ addr _ _ (fun _ => True) g hdev.pos hmax hend hfetch _
    (dev.transfer fileIO f g start addr totalLen) 0 (Nat.zero_le _) rfl le_rfl (BitVec.add_zero _).symm
    (by rw [htrans]; rfl) (fun _ => rfl) rfl trivial
  rw [htrans] at hbytes
  refine ⟨totalLen.toNat + 1, t', fun fuel hfuel => ?_, hbytes⟩
  rw [writeFile, hrun fuel hfuel, map_some, hzero, hg]
  exact congrArg some (congrArg (·, _) (BitVec.sub_zero _))

theorem eraseFile_ok (hend : addr + totalLen.toNat ≤ offMax) :
    ∃ n t', (∀ fuel > n, dev.eraseFile fileIO fuel f g addr totalLen =
      some (totalLen, dev.after t', g)) ∧
    t'.file.bytes = writeAt 0 f.bytes addr (load (fun _ => 0xff) 0 totalLen.toNat) := by
  have htrans := @transfer_eq g dev f addr totalLen (by omega) 0
  have hfetch : ∀ (t : Transfer RegFile) (o : ℕ), t.data = 0 + BitVec.ofNat 32 o → t.guest = g →
      (∀ i < dev.eraseSize, t.buf i = 0xff) → t.size ≤ min totalLen.toNat dev.eraseSize →
      load t.buf 0 t.size = load (fun _ => 0xff) o t.size ∧ ∀ i < dev.eraseSize, t.buf i = 0xff := by
    intro t o _ _ hbuf hsize
    refine ⟨?_, hbuf⟩
    simp only [load]
    refine map_congr_left fun i hi => hbuf _ ?_
    have hlt := mem_range.1 hi
    omega
  obtain ⟨t', hrun, hzero, hg, hbytes⟩ := @writeLoop_file 0 _ _ addr (·.buf) (fun _ => 0xff)
    (fun buf => ∀ i < dev.eraseSize, buf i = 0xff) g hdev.pos hmax hend hfetch _
    { dev.transfer fileIO f g 0 addr totalLen with buf := store dev.data 0 (List.replicate dev.eraseSize 0xff) } 0
    (Nat.zero_le _) rfl le_rfl (BitVec.add_zero _).symm (by rw [htrans]; rfl) (fun _ => rfl) rfl
    fun i hi => store_replicate _ hi
  rw [htrans] at hbytes
  refine ⟨totalLen.toNat + 1, t', fun fuel hfuel => ?_, hbytes⟩
  have hrun' := hrun fuel hfuel
  simp only [eraseFile, transfer] at hrun' ⊢
  rw [hrun', map_some, hzero, hg]
  exact congrArg some (congrArg (·, _) (BitVec.sub_zero _))

end NandDev

variable {src : ℕ → UInt8}

/-- **A write without a hole** changes its range only. -/
theorem RegFile.content_writeAt {f f' : RegFile} {addr n : ℕ}
    (hbytes : f'.bytes = writeAt 0 f.bytes addr (load src 0 n)) (hhole : 0 < n → addr ≤ f.bytes.length) (j : ℕ) :
    f'.content j = if addr ≤ j ∧ j < addr + n then src (j - addr) else f.content j := by
  rw [content, hbytes]
  split_ifs with hj
  · obtain ⟨i, rfl⟩ := Nat.exists_eq_add_of_le hj.1
    rw [getElem?_writeAt_of_mem (by rw [length_load]; omega), getElem?_load, if_pos (by omega), getD_some,
      Nat.add_sub_cancel_left, Nat.zero_add]
  · rcases Nat.eq_zero_or_pos n with rfl | hn
    · rw [show load src 0 0 = [] from rfl, writeAt_nil, content]
    · rw [getElem?_writeAt_of_not_mem (by rw [length_load]; omega) (.inl (hhole hn)), content]

namespace NandDev

/-- The array that a device is for. -/
def view (dev : NandDev RegFile) : FlashArray where
  size := dev.size
  readOnly := dev.readOnly
  byte j := match dev.fd with
    | some f => f.content j
    | none => 0xff

/-- A device on a file. -/
structure DevOK (dev : NandDev RegFile) : Prop extends dev.BufferOK where
  file : dev.fd ≠ none
  size_lt : dev.size < 2 ^ 64

end NandDev

/-- The address in the registers. -/
def NandDevState.addr (s : NandDevState) : ℕ := (s.addrHigh ++ s.addrLow).toNat

open NandDev

/-- **The condition on a command**: the end of the range is a 64-bit number, its pieces are no more than the host
moves at once, its address is an `off_t`, and a write or an erase starts at the end of the file at the latest and ends
where the host lets a file end. -/
structure CmdOK (dev : NandDev RegFile) (s : NandDevState) (cmd : FlashCmd) : Prop where
  noWrap : s.addr < dev.size → s.transferSize.toNat + s.addr < 2 ^ 64
  piece : min (dev.view.count s.addr s.transferSize.toNat) dev.eraseSize ≤ maxTransfer
  offset : (cmd ≠ .read → dev.readOnly = false) → s.addr < dev.size → s.addr ≤ offMax
  start : cmd ≠ .read → dev.readOnly = false → 0 < dev.view.count s.addr s.transferSize.toNat →
    s.addr + dev.view.count s.addr s.transferSize.toNat ≤ offMax ∧ ∀ f, dev.fd = some f → s.addr ≤ f.bytes.length

variable {dev : NandDev RegFile} {s : NandDevState} {cmd : FlashCmd}

theorem toNat_clip (haddr : s.addr < dev.size) (hwrap : s.transferSize.toNat + s.addr < 2 ^ 64) :
    (dev.clip (s.addrHigh ++ s.addrLow) s.transferSize).toNat = dev.view.count s.addr s.transferSize.toNat := by
  have hlt := s.transferSize.isLt
  have hsum : (s.transferSize.setWidth 64 + (s.addrHigh ++ s.addrLow)).toNat = s.transferSize.toNat + s.addr := by
    rw [BitVec.toNat_add, BitVec.toNat_setWidth, Nat.mod_eq_of_lt (show s.transferSize.toNat < 2 ^ 64 by omega)]
    exact Nat.mod_eq_of_lt hwrap
  simp only [clip, hsum, FlashArray.count, view]
  change (if _ then BitVec.ofNat 32 (dev.size - s.addr) else _).toNat = _
  split_ifs with hclip
  · rw [BitVec.toNat_ofNat, Nat.mod_eq_of_lt (by omega)]
    omega
  · omega

theorem FlashArray.setRange_zero {a : FlashArray} {addr : ℕ} : a.setRange addr 0 src = a := by
  have hnone : ∀ j, ¬ (addr ≤ j ∧ j < addr + 0) := fun j hj => by omega
  simp only [setRange, if_neg (hnone _)]

/-- A device whose file has been written in a range. -/
theorem view_after {f : RegFile} {t : Transfer RegFile} {addr n : ℕ} (hf : dev.fd = some f)
    (hbytes : t.file.bytes = writeAt 0 f.bytes addr (load src 0 n)) (hhole : 0 < n → addr ≤ f.bytes.length) :
    (dev.after t).view = dev.view.setRange addr n src := by
  have hbyte : ∀ j, t.file.content j = if addr ≤ j ∧ j < addr + n then src (j - addr) else dev.view.byte j := by
    intro j
    rw [RegFile.content_writeAt hbytes hhole]
    simp only [view, hf]
  simp only [view, after, readOnly, FlashArray.setRange, FlashArray.mk.injEq, true_and]
  exact funext hbyte

/-- A command outside the device. -/
theorem doCmd_outside (fuel : ℕ) (g : Guest) (h : dev.size ≤ s.addr) :
    dev.doCmd fileIO fuel g s cmd.code = some (0, dev, g) := by
  have haddr : (s.addrHigh ++ s.addrLow).toNat ≥ dev.size := h
  cases cmd with
  | read => exact if_pos haddr
  | write =>
    by_cases hro : dev.readOnly = true
    · exact if_pos hro
    · exact (if_neg hro).trans (if_pos haddr)
  | erase =>
    by_cases hro : dev.readOnly = true
    · exact if_pos hro
    · exact (if_neg hro).trans (if_pos haddr)

/-- A command on a device that it would change, but may not. -/
theorem doCmd_readOnly (fuel : ℕ) (g : Guest) (hcmd : cmd ≠ .read) (hro : dev.readOnly = true) :
    dev.doCmd fileIO fuel g s cmd.code = some (0, dev, g) := by
  cases cmd with
  | read => exact absurd rfl hcmd
  | write => exact if_pos hro
  | erase => exact if_pos hro

/-- The transfer of a command. -/
def transferOf (dev : NandDev RegFile) (fuel : ℕ) (f : RegFile) (g : Guest) (s : NandDevState) :
    FlashCmd → Option (BitVec 32 × NandDev RegFile × Guest)
  | .read => dev.readFile fileIO fuel f g s.data s.addr (dev.clip (s.addrHigh ++ s.addrLow) s.transferSize)
  | .write => dev.writeFile fileIO fuel f g s.data s.addr (dev.clip (s.addrHigh ++ s.addrLow) s.transferSize)
  | .erase => dev.eraseFile fileIO fuel f g s.addr (dev.clip (s.addrHigh ++ s.addrLow) s.transferSize)

/-- Any other command is a transfer. -/
theorem doCmd_inside (fuel : ℕ) (g : Guest) {f : RegFile} (hro : ¬ (cmd ≠ .read ∧ dev.readOnly = true))
    (h : s.addr < dev.size) (hf : dev.fd = some f) :
    dev.doCmd fileIO fuel g s cmd.code = transferOf dev fuel f g s cmd := by
  have hin : ¬ (s.addrHigh ++ s.addrLow).toNat ≥ dev.size := Nat.not_le.2 h
  cases cmd with
  | read =>
    refine (if_neg hin).trans ?_
    simp only [hf]
    rfl
  | write =>
    refine (if_neg fun h => hro ⟨by simp, h⟩).trans ((if_neg hin).trans ?_)
    simp only [hf]
    rfl
  | erase =>
    refine (if_neg fun h => hro ⟨by simp, h⟩).trans ((if_neg hin).trans ?_)
    simp only [hf]
    rfl

/-- **A command on a device is the command on its array.** -/
theorem doCmd_ok (hdev : dev.DevOK) (hok : CmdOK dev s cmd) (g : Guest) :
    ∃ n r dev' g', (∀ fuel > n, dev.doCmd fileIO fuel g s cmd.code = some (r, dev', g')) ∧ dev'.DevOK ∧
      (r.toNat, dev'.view, g'.byte) = dev.view.step cmd s.addr s.transferSize.toNat s.data g.byte := by
  obtain ⟨f, hf⟩ := ne_none_iff_exists'.1 hdev.file
  -- a command that the device refuses answers 0 and changes nothing
  by_cases hro : cmd ≠ .read ∧ dev.readOnly = true
  · refine ⟨0, 0, dev, g, fun fuel _ => doCmd_readOnly fuel g hro.1 hro.2, hdev, ?_⟩
    have hview : dev.view.readOnly = true := hro.2
    cases cmd with
    | read => exact absurd rfl hro.1
    | write => exact (if_pos hview).symm
    | erase => exact (if_pos hview).symm
  have hview : cmd ≠ .read → ¬ dev.view.readOnly = true := fun hcmd h => hro ⟨hcmd, h⟩
  -- inside of the device the file functions do it, outside nothing is left to do
  by_cases haddr : s.addr < dev.size
  · have hclip := toNat_clip haddr (hok.noWrap haddr)
    have hpiece := hok.piece
    rw [← hclip] at hpiece
    have hafter : ∀ t : Transfer RegFile, (dev.after t).DevOK :=
      fun t => ⟨⟨hdev.pos, hdev.lt⟩, by simp [after], hdev.size_lt⟩
    have hoff := hok.offset (fun hcmd => Bool.eq_false_iff.2 (hview hcmd)) haddr
    have hstart : cmd ≠ .read → s.addr + (dev.clip (s.addrHigh ++ s.addrLow) s.transferSize).toNat ≤ offMax ∧
        (0 < (dev.clip (s.addrHigh ++ s.addrLow) s.transferSize).toNat → s.addr ≤ f.bytes.length) := by
      intro hcmd
      rw [hclip]
      have hstart := hok.start hcmd (Bool.eq_false_iff.2 (hview hcmd))
      rcases Nat.eq_zero_or_pos (dev.view.count s.addr s.transferSize.toNat) with hzero | hpos
      · exact ⟨by omega, fun hpos => by omega⟩
      · exact ⟨(hstart hpos).1, fun _ => (hstart hpos).2 f hf⟩
    have hrun := fun fuel => doCmd_inside fuel g hro haddr hf
    cases cmd with
    | read =>
      obtain ⟨n, t', hread, hbytes, hbyte⟩ := @readFile_ok s.data g dev f s.addr _ hdev.toBufferOK hpiece hoff
      refine ⟨n, _, dev.after t', t'.guest, fun fuel hfuel => (hrun fuel).trans (hread fuel hfuel), hafter t', ?_⟩
      have hsame : (dev.after t').view = dev.view := by
        simp only [view, after, readOnly, hf, RegFile.content, hbytes]
      simp only [FlashArray.step, hclip, hsame, Prod.mk.injEq, true_and]
      funext x
      rw [hbyte, hclip]
      simp only [view, hf]
    | write =>
      obtain ⟨n, t', hwrite, hbytes⟩ := @writeFile_ok s.data g dev f s.addr _ hdev.toBufferOK hpiece
        (hstart (by simp)).1
      refine ⟨n, _, dev.after t', g, fun fuel hfuel => (hrun fuel).trans (hwrite fuel hfuel), hafter t', ?_⟩
      rw [FlashArray.step, if_neg (hview (by simp)), view_after hf hbytes (hstart (by simp)).2, hclip]
    | erase =>
      obtain ⟨n, t', herase, hbytes⟩ := @eraseFile_ok g dev f s.addr _ hdev.toBufferOK hpiece
        (hstart (by simp)).1
      refine ⟨n, _, dev.after t', g, fun fuel hfuel => (hrun fuel).trans (herase fuel hfuel), hafter t', ?_⟩
      rw [FlashArray.step, if_neg (hview (by simp)), view_after hf hbytes (hstart (by simp)).2, hclip]
  · refine ⟨0, 0, dev, g, fun fuel _ => doCmd_outside fuel g (Nat.not_lt.1 haddr), hdev, ?_⟩
    have hcount : dev.view.count s.addr s.transferSize.toNat = 0 := by
      simp only [FlashArray.count, view]
      omega
    cases cmd with
    | read =>
      rw [FlashArray.step, hcount]
      rfl
    | write =>
      rw [FlashArray.step, if_neg (hview (by simp)), hcount, FlashArray.setRange_zero]
      rfl
    | erase =>
      rw [FlashArray.step, if_neg (hview (by simp)), hcount, FlashArray.setRange_zero]
      rfl

/-- A command on the array that the registers select. -/
def flashStep (arrays : List FlashArray) (s : NandDevState) (cmd : FlashCmd) (mem : BitVec 32 → UInt8) :
    ℕ × List FlashArray × (BitVec 32 → UInt8) :=
  match arrays[s.dev.toNat]? with
  | none => (0, arrays, mem)
  | some a =>
    let r := a.step cmd s.addr s.transferSize.toNat s.data mem
    (r.1, arrays.set s.dev.toNat r.2.1, r.2.2)

variable {devs₀ devs : List (NandDev RegFile)} {arrays : List FlashArray}

/-- **A command is the command on the arrays.** -/
theorem nandDevDoCmd_ok (hdevs : ∀ dev ∈ devs, dev.DevOK)
    (hok : ∀ dev, devs[s.dev.toNat]? = some dev → CmdOK dev s cmd) (g : Guest) :
    ∃ n r devs' g', (∀ fuel > n, nandDevDoCmd fileIO fuel s cmd.code devs g = some (r, devs', g')) ∧
      (∀ dev ∈ devs', dev.DevOK) ∧ (r.toNat, devs'.map view, g'.byte) = flashStep (devs.map view) s cmd g.byte := by
  cases hdev : devs[s.dev.toNat]? with
  | none =>
    refine ⟨0, 0, devs, g, fun fuel _ => by simp only [nandDevDoCmd, hdev], hdevs, ?_⟩
    simp only [flashStep, List.getElem?_map, hdev, map_none]
    rfl
  | some dev =>
    obtain ⟨n, r, dev', g', hrun, hdev', hstep⟩ := doCmd_ok (hdevs dev (mem_of_getElem? hdev)) (hok dev hdev) g
    refine ⟨n, r, devs.set s.dev.toNat dev', g', fun fuel hfuel => ?_, fun d hd => ?_, ?_⟩
    · simp only [nandDevDoCmd, hdev, hrun fuel hfuel, map_some]
    · rcases mem_or_eq_of_mem_set hd with hd | rfl
      · exact hdevs d hd
      · exact hdev'
    · simp only [flashStep, List.getElem?_map, hdev, map_some, ← hstep, map_set]

/-- **The runs of the device**: commands that meet the condition `Ok`, with the guest's memory as it happens to be at
each, and the arrays that are written along with the devices. -/
inductive NandRun (Ok : NandDev RegFile → NandDevState → FlashCmd → Prop) (devs₀ : List (NandDev RegFile)) :
    List (NandDev RegFile) → List FlashArray → Prop
  | init : NandRun Ok devs₀ devs₀ (devs₀.map view)
  | cmd {devs devs' : List (NandDev RegFile)} {arrays : List FlashArray} {r : BitVec 32} {g g' : Guest}
      (s : NandDevState) (cmd : FlashCmd) (h : NandRun Ok devs₀ devs arrays)
      (hok : ∀ dev, devs[s.dev.toNat]? = some dev → Ok dev s cmd)
      (hrun : ∃ n, ∀ fuel > n, nandDevDoCmd fileIO fuel s cmd.code devs g = some (r, devs', g')) :
      NandRun Ok devs₀ devs' (flashStep arrays s cmd g.byte).2.1

/-- A run writes the devices as it writes the arrays. -/
theorem nandRun_ok (hdevs : ∀ dev ∈ devs₀, dev.DevOK) (hrun : NandRun CmdOK devs₀ devs arrays) :
    (∀ dev ∈ devs, dev.DevOK) ∧ devs.map view = arrays := by
  induction hrun with
  | init => exact ⟨hdevs, rfl⟩
  | @cmd devs devs' arrays r g g' s cmd _ hok hstep ih =>
    obtain ⟨hall, rfl⟩ := ih
    obtain ⟨n, hn⟩ := hstep
    obtain ⟨m, r₁, devs₁, g₁, hm, hall₁, hview⟩ := nandDevDoCmd_ok hall hok g
    have heq := (hn (n + m + 1) (by omega)).symm.trans (hm (n + m + 1) (by omega))
    obtain ⟨rfl, rfl, rfl⟩ : r = r₁ ∧ devs' = devs₁ ∧ g' = g₁ := by simpa using heq
    exact ⟨hall₁, by rw [← hview]⟩

/-- **The device is a byte array** in every run whose commands meet the condition: the devices hold the bytes of the
arrays, and the next command returns what it does on the arrays. A command changes bytes of its device in its clipped
range only, and nothing of a read-only device. -/
theorem nandRun_array (hdevs : ∀ dev ∈ devs₀, dev.DevOK) (hrun : NandRun CmdOK devs₀ devs arrays) :
    devs.map view = arrays ∧
    (∀ s cmd g, (∀ dev, devs[s.dev.toNat]? = some dev → CmdOK dev s cmd) → ∃ n r devs' g',
      (∀ fuel > n, nandDevDoCmd fileIO fuel s cmd.code devs g = some (r, devs', g')) ∧
      (r.toNat, devs'.map view, g'.byte) = flashStep arrays s cmd g.byte) ∧
    ∀ s cmd mem i a, arrays[i]? = some a → ∃ a', (flashStep arrays s cmd mem).2.1[i]? = some a' ∧
      (∀ j, a'.byte j ≠ a.byte j → i = s.dev.toNat ∧ s.addr ≤ j ∧ j < s.addr + a.count s.addr s.transferSize.toNat) ∧
      (a.readOnly = true → a' = a) := by
  obtain ⟨hall, rfl⟩ := nandRun_ok hdevs hrun
  refine ⟨rfl, fun s cmd g hok => ?_, fun s cmd mem i a ha => ?_⟩
  · obtain ⟨n, r, devs', g', hcmd, -, hview⟩ := nandDevDoCmd_ok hall hok g
    exact ⟨n, r, devs', g', hcmd, hview⟩
  · -- only the device that is selected steps
    by_cases hi : i = s.dev.toNat
    · subst hi
      refine ⟨(a.step cmd s.addr s.transferSize.toNat s.data mem).2.1, ?_, fun j hj => ⟨rfl, ?_⟩,
        FlashArray.step_readOnly⟩
      · simp only [flashStep, ha]
        exact List.getElem?_set_self (List.getElem?_eq_some_iff.1 ha).1
      · by_contra hout
        exact hj (FlashArray.step_byte hout)
    · refine ⟨a, ?_, fun j hj => absurd rfl hj, fun _ => rfl⟩
      cases hsel : (devs.map view)[s.dev.toNat]? with
      | none => simpa only [flashStep, hsel] using ha
      | some b =>
        simp only [flashStep, hsel]
        rw [List.getElem?_set_ne (Ne.symm hi)]
        exact ha

/-- A device of two bytes on an empty file. -/
def emptyDev : NandDev RegFile := ⟨[], fun _ => 0, some ⟨[], 0⟩, 0, 1, 2⟩

theorem emptyDev_ok : ∀ dev ∈ [emptyDev], dev.DevOK := by
  intro dev hdev
  obtain rfl := mem_singleton.1 hdev
  exact ⟨⟨by decide, by decide⟩, by simp [emptyDev], by decide⟩

/-- The registers for one byte from `addr` on. -/
def oneByte (addr : BitVec 32) : NandDevState := ⟨0, addr, 0, 1, 16⟩

/-- The guest's memory is full of 7. -/
def sevens : Guest := ⟨fun _ => 7, []⟩

/-- The device behind a write of one byte. -/
def writtenDevs (addr : BitVec 32) : List (NandDev RegFile) :=
  ((nandDevDoCmd fileIO 5 (oneByte addr) FlashCmd.write.code [emptyDev] sevens).getD (0, [], sevens)).2.1

theorem writtenDevs_run {addr : BitVec 32} (haddr : addr = 0 ∨ addr = 1) : ∃ n, ∀ fuel > n,
    nandDevDoCmd fileIO fuel (oneByte addr) FlashCmd.write.code [emptyDev] sevens =
      some (1, writtenDevs addr, sevens) := by
  refine ⟨4, fun fuel hfuel => ?_⟩
  obtain ⟨k, rfl⟩ := Nat.exists_eq_add_of_lt hfuel
  rw [show 4 + k + 1 = k + 5 by omega]
  rcases haddr with rfl | rfl <;> rfl

/-- The first byte of an empty file is written. -/
theorem nandRun_array_first :
    (writtenDevs 0).map view = (flashStep [emptyDev.view] (oneByte 0) .write sevens.byte).2.1 := by
  have hok : ∀ dev, [emptyDev][(oneByte 0).dev.toNat]? = some dev → CmdOK dev (oneByte 0) .write := by
    intro dev hdev
    obtain rfl : emptyDev = dev := Option.some.inj hdev
    exact ⟨by decide, by decide, fun _ _ => by decide, fun _ _ _ => ⟨by decide, fun f _ => Nat.zero_le _⟩⟩
  exact (nandRun_array emptyDev_ok (.cmd (oneByte 0) .write .init hok (writtenDevs_run (.inl rfl)))).1

/-- The second byte of an empty file is written: the first one reads as 0, though it was never written. -/
theorem nandRun_hole : ¬ ∀ (devs₀ devs : List (NandDev RegFile)) (arrays : List FlashArray),
    (∀ dev ∈ devs₀, dev.DevOK) → NandRun (fun _ _ _ => True) devs₀ devs arrays → ∀ s g, ∃ n r,
      (∀ fuel > n, nandDevDoCmd fileIO fuel s FlashCmd.read.code devs g = some r) ∧
      r.2.2.byte = (flashStep arrays s .read g.byte).2.2 := by
  intro hall
  obtain ⟨n, r, hrun, hbyte⟩ := hall _ _ _ emptyDev_ok
    (.cmd (oneByte 1) .write .init (fun _ _ => trivial) (writtenDevs_run (.inr rfl))) (oneByte 0) sevens
  have hread : (some r).map (·.2.2.byte 16) = some 0 := by
    rw [← hrun (n + 5) (by omega)]
    rfl
  have hzero : r.2.2.byte 16 = 0 := Option.some.inj hread
  rw [hbyte] at hzero
  exact absurd hzero (by decide)

end Emulator.Goldfish
