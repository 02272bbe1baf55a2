import Emulator.Lib.Cells
import Emulator.Telephony.Alphabet

/-!
# Septets in memory

`bwriter_init`, `bwriter_add7`, `bwriter_done` and the loop of `utf8_from_gsm7` on a memory in which only some octets
may be touched. `Simulates` connects the writer with the one that only collects octets.

* `septetsWrite_eq`: what a run of the writer leaves in the memory;
* `septets_exact`: **the reader takes out the septets that the writer put in**, whatever stood there before and at
  every bit position, and neither touches an octet outside of those that the septets lie in.
-/

namespace Emulator.Telephony

open Lib List Option
open Nat (ofDigits)

/-- `dst` is an address, and `offset` counts bits from the pointer that `bwriter_init` got. -/
structure BWriterRec where
  dst : ℕ
  pad : UInt32
  bits : ℕ
  offset : ℕ

def BWriterRec.init (mem : Cells UInt8) (dst start : ℕ) : Option BWriterRec :=
  let shift := start &&& 7
  if 0 < shift then (mem (dst + start >>> 3)).map fun first =>
    ⟨dst + start >>> 3, first.toUInt32 &&& ~~~(0xff <<< UInt32.ofNat shift), shift, start⟩
  else some ⟨dst + start >>> 3, 0, shift, start⟩

def BWriterRec.add7 (mem : Cells UInt8) (writer : BWriterRec) (value : UInt32) : Option (Cells UInt8 × BWriterRec) :=
  let pad := writer.pad ||| value <<< UInt32.ofNat writer.bits
  if 8 ≤ writer.bits + 7 then
    (mem.store writer.dst pad.toUInt8).map fun mem =>
      (mem, ⟨writer.dst + 1, pad >>> 8, writer.bits + 7 - 8, writer.offset + 7⟩)
  else some (mem, ⟨writer.dst, pad, writer.bits + 7, writer.offset + 7⟩)

/-- The memory with the last bits, and the bit position behind them. -/
def BWriterRec.done (mem : Cells UInt8) (writer : BWriterRec) : Option (Cells UInt8 × ℕ) :=
  if 0 < writer.bits then (mem.store writer.dst writer.pad.toUInt8).map fun mem => (mem, writer.offset)
  else some (mem, writer.offset)

/-- One `bwriter_add7` for each value. -/
def BWriterRec.addAll : (mem : Cells UInt8) → BWriterRec → List UInt32 → Option (Cells UInt8 × BWriterRec)
  | mem, writer, [] => some (mem, writer)
  | mem, writer, value :: values =>
    (writer.add7 mem value).bind fun (mem, writer) => BWriterRec.addAll mem writer values

/-- What a caller does with the values of a text. -/
def septetsWrite (mem : Cells UInt8) (dst start : ℕ) (values : List UInt32) : Option (Cells UInt8 × ℕ) :=
  (BWriterRec.init mem dst start).bind fun writer =>
    (writer.addAll mem values).bind fun (mem, writer) => writer.done mem

/-- The septet at a bit of the octet `src`; the next octet is looked at only if the septet reaches it. -/
def septetIn (mem : Cells UInt8) (src shift : ℕ) : Option ℕ :=
  (mem src).bind fun b₀ =>
    let c := b₀.toNat >>> shift &&& 0x7f
    if 1 < shift then (mem (src + 1)).map fun b₁ => (b₁.toNat <<< (8 - shift) ||| c) &&& 0x7f else some c

/-- The loop of `utf8_from_gsm7`: the septets as it takes them out, and what it writes for them. -/
def utf8FromGsm7Loop (mem : Cells UInt8) :
    (septetCount src shift : ℕ) → (escaped : Bool) → Option (List ℕ × List UInt8)
  | 0, _, _, _ => some ([], [])
  | n + 1, src, shift, escaped =>
    (septetIn mem src shift).bind fun c =>
      let rest := utf8FromGsm7Loop mem n (if 8 ≤ shift + 7 then src + 1 else src)
        (if 8 ≤ shift + 7 then shift + 7 - 8 else shift + 7)
      if escaped then
        (rest escaped).map fun r => (c :: r.1, utf8Write (gsm7bitsExtendToUnicode.getD c 0) ++ r.2)
      else if c = gsm7bitsEscape then (rest true).map fun r => (c :: r.1, r.2)
      else (rest escaped).map fun r => (c :: r.1, utf8Write (gsm7bitsToUnicode.getD c 0) ++ r.2)

def utf8FromGsm7At (mem : Cells UInt8) (src septetOffset septetCount : ℕ) : Option (List ℕ × List UInt8) :=
  utf8FromGsm7Loop mem septetCount (src + septetOffset >>> 3) (septetOffset &&& 7) false

theorem septetIn_eq {mem : Cells UInt8} {src shift : ℕ} {b₀ b₁ : UInt8} (h₀ : mem src = some b₀)
    (h₁ : 1 < shift → mem (src + 1) = some b₁) :
    septetIn mem src shift =
      some (if 1 < shift then (b₁.toNat <<< (8 - shift) ||| (b₀.toNat >>> shift &&& 0x7f)) &&& 0x7f
      else b₀.toNat >>> shift &&& 0x7f) := by
  rw [septetIn, h₀, bind_some]
  by_cases h : 1 < shift
  · rw [if_pos h, if_pos h, h₁ h, map_some]
  · rw [if_neg h, if_neg h]

/-- What it writes depends on the septets only. -/
theorem utf8FromGsm7Loop_text {mem : Cells UInt8} {n src shift : ℕ} {escaped : Bool} {cs : List ℕ} {text : List UInt8}
    (h : utf8FromGsm7Loop mem n src shift escaped = some (cs, text)) :
    text = (decodeCodes escaped cs).flatMap utf8Write := by
  induction n generalizing src shift escaped cs text with
  | zero =>
    rw [utf8FromGsm7Loop, some_inj, Prod.mk.injEq] at h
    rw [← h.1, ← h.2]
    cases escaped <;> rfl
  | succ n ih =>
    rw [utf8FromGsm7Loop, bind_eq_some_iff] at h
    obtain ⟨c, -, h⟩ := h
    cases escaped with
    | true =>
      obtain ⟨r, hr, heq⟩ := map_eq_some_iff.1 h
      rw [Prod.mk.injEq] at heq
      rw [← heq.1, ← heq.2, ih hr]
      rfl
    | false =>
      rw [if_neg Bool.false_ne_true] at h
      by_cases hesc : c = gsm7bitsEscape
      · rw [if_pos hesc] at h
        obtain ⟨r, hr, heq⟩ := map_eq_some_iff.1 h
        rw [Prod.mk.injEq] at heq
        rw [← heq.1, ← heq.2, ih hr, decodeCodes, if_pos hesc]
      · rw [if_neg hesc] at h
        obtain ⟨r, hr, heq⟩ := map_eq_some_iff.1 h
        rw [Prod.mk.injEq] at heq
        rw [← heq.1, ← heq.2, ih hr, decodeCodes, if_neg hesc]
        rfl

/-- The memory is the one before with the octets that `bw` has collected, from `base` on. -/
structure Simulates (mem₀ : Cells UInt8) (base o : ℕ) (mem : Cells UInt8) (writer : BWriterRec) (bw : BWriter) :
    Prop where
  mem : mem = mem₀.overlay base bw.out
  dst : writer.dst = base + bw.out.length
  pad : writer.pad.toNat = bw.pad
  bits : writer.bits = bw.bits
  offset : writer.offset = o + bw.pos

variable {mem₀ mem : Cells UInt8} {base o dst start : ℕ} {writer : BWriterRec} {bw : BWriter} {v : UInt32}
  {values : List UInt32}

/-- What is at `dst` before the first septet. -/
def firstOctet (mem : Cells UInt8) (dst start : ℕ) : UInt8 := (mem (dst + start / 8)).getD 0

/-- The mask keeps the low bits of an octet. -/
theorem init_pad {shift : ℕ} (hshift : shift < 8) (hpos : 0 < shift) (first : UInt8) :
    (first.toUInt32 &&& ~~~(0xff <<< UInt32.ofNat shift)).toNat = first.toNat &&& (0xff >>> (8 - shift)) := by
  have hmask : ∀ s < 8, 0 < s → (~~~(0xff <<< UInt32.ofNat s)).toNat % 2 ^ 8 = 0xff >>> (8 - s) := by decide
  have hfirst : first.toNat < 2 ^ 8 := first.toNat_lt
  rw [UInt32.toNat_and, UInt8.toNat_toUInt32, ← hmask shift hshift hpos]
  calc first.toNat &&& (~~~(0xff <<< UInt32.ofNat shift)).toNat
      = (first.toNat &&& (~~~(0xff <<< UInt32.ofNat shift)).toNat) % 2 ^ 8 :=
        (Nat.mod_eq_of_lt (Nat.and_le_left.trans_lt hfirst)).symm
    _ = first.toNat &&& (~~~(0xff <<< UInt32.ofNat shift)).toNat % 2 ^ 8 := by
        rw [Nat.and_mod_two_pow, Nat.mod_eq_of_lt hfirst]

theorem start_parts (start : ℕ) : start >>> 3 = start / 8 ∧ start &&& 7 = start % 8 :=
  ⟨Nat.shiftRight_eq_div_pow start 3, Nat.and_two_pow_sub_one_eq_mod start 3⟩

theorem init_simulates (mem : Cells UInt8) (dst start : ℕ)
    (hfirst : 0 < start % 8 → (mem (dst + start / 8)).isSome) :
    ∃ writer, BWriterRec.init mem dst start = some writer ∧
      Simulates mem (dst + start / 8) (8 * (start / 8)) mem writer
        (bwriterInit (firstOctet mem dst start) (start % 8)) := by
  obtain ⟨hdiv, hmod⟩ := start_parts start
  have hmem : mem = mem.overlay (dst + start / 8) [] := (Cells.overlay_nil _ _).symm
  have hpos (first : UInt8) : start = 8 * (start / 8) + (bwriterInit first (start % 8)).pos := by
    simp only [BWriter.pos, bwriterInit, length_nil]
    omega
  unfold BWriterRec.init
  simp only [hdiv, hmod]
  by_cases hs : 0 < start % 8
  · obtain ⟨first, hf⟩ := isSome_iff_exists.1 (hfirst hs)
    have hpad := init_pad (Nat.mod_lt start (by norm_num : 0 < 8)) hs first
    rw [if_pos hs, hf, map_some]
    refine ⟨_, rfl, hmem, rfl, ?_, rfl, hpos _⟩
    rw [hpad, bwriterInit, firstOctet, hf, getD_some, if_pos hs]
  · rw [if_neg hs]
    refine ⟨_, rfl, hmem, rfl, ?_, rfl, hpos _⟩
    rw [bwriterInit, if_neg hs]
    rfl

/-- The pad has room for seven more bits. -/
theorem toNat_pad (hbits : writer.bits < 8) (hv : v < 128) :
    (writer.pad ||| v <<< UInt32.ofNat writer.bits).toNat = writer.pad.toNat ||| v.toNat <<< writer.bits := by
  have hv' : v.toNat < 128 := UInt32.lt_iff_toNat_lt.1 hv
  have hle : v.toNat <<< writer.bits < 2 ^ 32 := by
    rw [Nat.shiftLeft_eq]
    calc v.toNat * 2 ^ writer.bits < 2 ^ 7 * 2 ^ writer.bits := Nat.mul_lt_mul_of_pos_right hv' (by positivity)
      _ ≤ 2 ^ 7 * 2 ^ 8 := Nat.mul_le_mul_left _ (Nat.pow_le_pow_right (by norm_num) hbits.le)
      _ < 2 ^ 32 := by norm_num
  have hamount : (UInt32.ofNat writer.bits).toNat % 32 = writer.bits := by
    rw [UInt32.toNat_ofNat']
    omega
  rw [UInt32.toNat_or, UInt32.toNat_shiftLeft, hamount, Nat.mod_eq_of_lt hle]

theorem toUInt8_eq {pad : UInt32} {n : ℕ} (h : pad.toNat = n) : pad.toUInt8 = UInt8.ofNat n := by
  subst h
  exact UInt8.toNat_inj.mp rfl

/-- **One septet.** -/
theorem add7_simulates (h : Simulates mem₀ base o mem writer bw) (hok : bw.Ok) (hv : v < 128)
    (hroom : 8 ≤ bw.bits + 7 → (mem₀ (base + bw.out.length)).isSome) :
    ∃ mem' writer', writer.add7 mem v = some (mem', writer') ∧
      Simulates mem₀ base o mem' writer' (bwriterAdd7 bw v.toNat) := by
  obtain ⟨rfl, hdst, hpad, hbits, hoff⟩ := h
  have hpos := (bwriterAdd7_ok hok (UInt32.lt_iff_toNat_lt.1 hv)).2.1
  have hnew : (writer.pad ||| v <<< UInt32.ofNat writer.bits).toNat = bw.pad ||| v.toNat <<< bw.bits := by
    rw [toNat_pad (by rw [hbits]; exact hok.bits) hv, hpad, hbits]
  unfold BWriterRec.add7
  simp only [hbits]
  rw [hbits] at hnew
  by_cases h8 : 8 ≤ bw.bits + 7
  · -- an octet is full
    have hcell : (mem₀.overlay base bw.out writer.dst).isSome := by
      rw [hdst, Cells.overlay_outside _ (Or.inr le_rfl)]
      exact hroom h8
    rw [if_pos h8, Cells.store_eq _ hcell, map_some]
    refine ⟨_, _, rfl, ?_, ?_, ?_, ?_, ?_⟩
    · rw [hdst, Cells.overlay_append, toUInt8_eq hnew, bwriterAdd7, if_pos h8]
    · rw [bwriterAdd7, if_pos h8, length_append, length_singleton, ← Nat.add_assoc, ← hdst]
    · rw [UInt32.toNat_shiftRight, hnew, bwriterAdd7, if_pos h8]
      rfl
    · rw [bwriterAdd7, if_pos h8]
    · rw [hpos, ← Nat.add_assoc, ← hoff]
  · rw [if_neg h8]
    refine ⟨_, _, rfl, ?_, ?_, ?_, ?_, ?_⟩
    · rw [bwriterAdd7, if_neg h8]
    · rw [bwriterAdd7, if_neg h8, hdst]
    · rw [hnew, bwriterAdd7, if_neg h8]
    · rw [bwriterAdd7, if_neg h8]
    · rw [hpos, ← Nat.add_assoc, ← hoff]

/-- **All the septets**, where there is room for their bits. -/
theorem addAll_simulates (h : Simulates mem₀ base o mem writer bw) (hok : bw.Ok) (hv : ∀ v ∈ values, v < 128)
    (hroom : mem₀.Room base (base + (bw.pos + 7 * values.length + 7) / 8)) :
    ∃ mem' writer', writer.addAll mem values = some (mem', writer') ∧
      Simulates mem₀ base o mem' writer' ((values.map UInt32.toNat).foldl bwriterAdd7 bw) := by
  induction values generalizing mem writer bw with
  | nil => exact ⟨mem, writer, rfl, h⟩
  | cons v values ih =>
    rw [forall_mem_cons] at hv
    rw [length_cons] at hroom
    obtain ⟨hok', hpos', -⟩ := bwriterAdd7_ok hok (UInt32.lt_iff_toNat_lt.1 hv.1)
    have hcell (h8 : 8 ≤ bw.bits + 7) : (mem₀ (base + bw.out.length)).isSome := by
      apply hroom _ (Nat.le_add_right _ _)
      unfold BWriter.pos
      omega
    obtain ⟨mem', writer', hadd, hsim⟩ := add7_simulates h hok hv.1 hcell
    have hroom' : mem₀.Room base (base + ((bwriterAdd7 bw v.toNat).pos + 7 * values.length + 7) / 8) := by
      apply hroom.mono le_rfl
      rw [hpos']
      omega
    obtain ⟨mem'', writer'', hall, hsim'⟩ := ih hsim hok' hv.2 hroom'
    refine ⟨mem'', writer'', ?_, hsim'⟩
    rw [BWriterRec.addAll, hadd, bind_some]
    exact hall

theorem done_simulates (h : Simulates mem₀ base o mem writer bw)
    (hroom : 0 < bw.bits → (mem₀ (base + bw.out.length)).isSome) :
    writer.done mem = some (mem₀.overlay base (bwriterDone bw), o + bw.pos) := by
  obtain ⟨rfl, hdst, hpad, hbits, hoff⟩ := h
  unfold BWriterRec.done bwriterDone
  rw [hbits]
  by_cases h0 : 0 < bw.bits
  · have hcell : (mem₀.overlay base bw.out writer.dst).isSome := by
      rw [hdst, Cells.overlay_outside _ (Or.inr le_rfl)]
      exact hroom h0
    rw [if_pos h0, if_pos h0, Cells.store_eq _ hcell, map_some, hdst, Cells.overlay_append,
      toUInt8_eq hpad, hoff]
  · rw [if_neg h0, if_neg h0, hoff]

/-- The octets of the septets, with the bits of the first octet below `start`. -/
def septetOctets (first : UInt8) (start : ℕ) (values : List UInt32) : List UInt8 :=
  bwriterDone ((values.map UInt32.toNat).foldl bwriterAdd7 (bwriterInit first (start % 8)))

theorem length_septetOctets (first : UInt8) (start : ℕ) (values : List UInt32) :
    (septetOctets first start values).length = (start % 8 + 7 * values.length + 7) / 8 := by
  have hinit : (bwriterInit first (start % 8)).bits < 8 := Nat.mod_lt _ (by norm_num)
  obtain ⟨hbits, hlen⟩ := foldl_bwriterAdd7 (values.map UInt32.toNat) hinit
  rw [length_map, show (bwriterInit first (start % 8)).bits = start % 8 from rfl,
    show (bwriterInit first (start % 8)).out.length = 0 from rfl] at hlen
  unfold septetOctets bwriterDone
  split_ifs
  · rw [length_append, length_singleton]
    omega
  · omega

/-- The septets lie in the octets from `dst + start / 8` to this one, which is not among them. -/
def septetsEnd (dst start n : ℕ) : ℕ := dst + (start + 7 * n + 7) / 8

theorem septetsEnd_eq (dst start n : ℕ) :
    septetsEnd dst start n = dst + start / 8 + (start % 8 + 7 * n + 7) / 8 := by
  unfold septetsEnd
  omega

theorem septets_lt (hv : ∀ v ∈ values, v < 128) : ∀ v ∈ values.map UInt32.toNat, v < 128 := by
  intro v hmem
  obtain ⟨u, hu, rfl⟩ := List.mem_map.1 hmem
  exact UInt32.lt_iff_toNat_lt.1 (hv u hu)

/-- **What a run of the writer leaves.** -/
theorem septetsWrite_eq (hv : ∀ v ∈ values, v < 128)
    (hroom : mem.Room (dst + start / 8) (septetsEnd dst start values.length)) :
    septetsWrite mem dst start values =
      some (mem.overlay (dst + start / 8) (septetOctets (firstOctet mem dst start) start values),
        start + 7 * values.length) := by
  rw [septetsEnd_eq] at hroom
  obtain ⟨writer, hinit, hsim⟩ := init_simulates mem dst start fun _ =>
    hroom _ le_rfl (by omega)
  obtain ⟨hok, hpos, -⟩ := bwriterInit_ok (firstOctet mem dst start) (Nat.mod_lt start (by norm_num : 0 < 8))
  obtain ⟨mem', writer', hall, hsim'⟩ := addAll_simulates hsim hok hv (by rw [hpos]; exact hroom)
  obtain ⟨hbits, hlen⟩ := foldl_bwriterAdd7 (values.map UInt32.toNat) hok.bits
  rw [length_map, show 8 * (bwriterInit (firstOctet mem dst start) (start % 8)).out.length +
    (bwriterInit (firstOctet mem dst start) (start % 8)).bits = start % 8 from hpos] at hlen
  have hdone := done_simulates hsim' fun h0 => hroom _ (Nat.le_add_right _ _) (by omega)
  rw [septetsWrite, hinit, bind_some, hall, bind_some]
  refine hdone.trans ?_
  rw [BWriter.pos, hlen]
  congr 2
  omega

/-- The octets are the number of the septets, above the bits that were there. -/
theorem septetOctets_value (first : UInt8) (start : ℕ) (hv : ∀ v ∈ values, v < 128) :
    ofDigits 256 ((septetOctets first start values).map UInt8.toNat) =
      (bwriterInit first (start % 8)).pad + 2 ^ (start % 8) * ofDigits 128 (values.map UInt32.toNat) := by
  obtain ⟨hok, hpos, -⟩ := bwriterInit_ok first (Nat.mod_lt start (by norm_num : 0 < 8))
  obtain ⟨hok', hval⟩ := foldl_bwriterAdd7_ok (septets_lt hv) hok
  rw [septetOctets, bwriterDone_value hok', hval, hpos, BWriter.value]
  simp [bwriterInit]

/-- **The septets are taken out in order**, from octets that are their number. -/
theorem utf8FromGsm7Loop_septets {octets : List UInt8}
    (hmem : ∀ i (hi : i < octets.length), mem (base + i) = some octets[i])
    {codes : List ℕ} (hc : ∀ c ∈ codes, c < 128) (pos shift : ℕ) (hs : shift < 8)
    (hin : 8 * pos + shift + 7 * codes.length ≤ 8 * octets.length)
    (hval : ofDigits 256 (octets.map UInt8.toNat) / 2 ^ (8 * pos + shift) = ofDigits 128 codes) (escaped : Bool) :
    ∃ text, utf8FromGsm7Loop mem codes.length (base + pos) shift escaped = some (codes, text) := by
  induction codes generalizing pos shift escaped with
  | nil => exact ⟨[], rfl⟩
  | cons c codes ih =>
    rw [forall_mem_cons] at hc
    rw [length_cons] at hin
    have hoct := octets_lt octets
    have hsrc : ∀ i (hi : i < (octets.map UInt8.toNat).length),
      (octets.getD i 0).toNat = (octets.map UInt8.toNat)[i] := by
      intro i hi
      rw [length_map] at hi
      rw [getElem_map, getD_eq_getElem?_getD, List.getElem?_eq_getElem hi, getD_some]
    -- the octets that the septet lies in are there
    have hcell (i : ℕ) (hi : i < octets.length) : mem (base + i) = some (octets.getD i 0) := by
      rw [hmem i hi, getD_eq_getElem?_getD, List.getElem?_eq_getElem hi, getD_some]
    have hseptet : septetIn mem (base + pos) shift = some c := by
      rw [septetIn_eq (hcell pos (by omega)) fun h1 => hcell (pos + 1) (by omega),
        septet_at hoct hsrc hs (by rw [length_map]; omega), hval, Nat.ofDigits_cons, Nat.add_mul_mod_self_left,
        Nat.mod_eq_of_lt hc.1]
    have hrest : ofDigits 256 (octets.map UInt8.toNat) / 2 ^ (8 * pos + shift + 7) = ofDigits 128 codes := by
      rw [pow_add, ← Nat.div_div_eq_div_mul, hval, Nat.ofDigits_cons, show (2 : ℕ) ^ 7 = 128 by norm_num,
        Nat.add_mul_div_left _ _ (by norm_num), Nat.div_eq_of_lt hc.1, Nat.zero_add]
    have hnext (e : Bool) := ih hc.2 (if 8 ≤ shift + 7 then pos + 1 else pos)
      (if 8 ≤ shift + 7 then shift + 7 - 8 else shift + 7) (by split_ifs <;> omega) (by split_ifs <;> omega)
      (by rw [← hrest]; congr 2; split_ifs <;> omega) e
    have hsrc' : (if 8 ≤ shift + 7 then base + pos + 1 else base + pos) =
        base + (if 8 ≤ shift + 7 then pos + 1 else pos) := by
      split_ifs <;> omega
    obtain ⟨text, htext⟩ := hnext escaped
    obtain ⟨text', htext'⟩ := hnext true
    rw [length_cons, utf8FromGsm7Loop, hseptet, bind_some, hsrc']
    simp only [htext, htext', map_some]
    by_cases hesc : escaped = true
    · exact ⟨_, if_pos hesc⟩
    · by_cases hcode : c = gsm7bitsEscape
      · exact ⟨_, (if_neg hesc).trans (if_pos hcode)⟩
      · exact ⟨_, (if_neg hesc).trans (if_neg hcode)⟩

/-- Bit `i` from `dst` on. -/
def bitAt (mem : Cells UInt8) (dst i : ℕ) : Option Bool := (mem (dst + i / 8)).map fun b => b.toNat.testBit (i % 8)

/-- The bits of the first octet below `start` stay. -/
theorem testBit_septetOctets {first b : UInt8} {start j : ℕ} (hv : ∀ v ∈ values, v < 128) (hj : j < start % 8)
    (hb : (septetOctets first start values)[0]? = some b) : b.toNat.testBit j = first.toNat.testBit j := by
  have hs : start % 8 < 8 := Nat.mod_lt _ (by norm_num)
  obtain ⟨hlen, rfl⟩ := List.getElem?_eq_some_iff.1 hb
  have hoct := octets_lt (septetOctets first start values)
  have hdigit := digit_eq (by norm_num) hoct (i := 0) (by rw [length_map]; exact hlen)
  rw [pow_zero, Nat.div_one, septetOctets_value first start hv, getElem_map] at hdigit
  have hpad : (bwriterInit first (start % 8)).pad < 2 ^ (start % 8) :=
    (bwriterInit_ok first hs).1.pad
  have hmask : (0xff >>> (8 - start % 8)).testBit j = true := by
    have htab : ∀ s < 8, ∀ j < s, (0xff >>> (8 - s)).testBit j = true := by decide
    exact htab _ hs j hj
  rw [← hdigit, show (256 : ℕ) = 2 ^ 8 by norm_num, Nat.testBit_mod_two_pow, decide_eq_true (hj.trans hs),
    Bool.true_and,
    Nat.add_comm, Nat.testBit_two_pow_mul_add _ hpad, if_pos hj, bwriterInit, if_pos (Nat.zero_lt_of_lt hj),
    Nat.testBit_and, hmask, Bool.and_true]

/-- On the octets alone the writer finds the same first octet, or it has nothing to write. -/
theorem septetOctets_between (mem : Cells UInt8) (dst start : ℕ) (values : List UInt32) :
    septetOctets (firstOctet (mem.between (dst + start / 8) (septetsEnd dst start values.length)) dst start)
      start values =
      septetOctets (firstOctet mem dst start) start values := by
  have hend := septetsEnd_eq dst start values.length
  by_cases h : (start % 8 + 7 * values.length + 7) / 8 = 0
  · have hnil (first : UInt8) : septetOctets first start values = [] :=
      eq_nil_of_length_eq_zero ((length_septetOctets first start values).trans h)
    rw [hnil, hnil]
  · rw [firstOctet, Cells.between, if_pos (by omega), firstOctet]

theorem bitAt_septets (hv : ∀ v ∈ values, v < 128)
    (hroom : mem.Room (dst + start / 8) (septetsEnd dst start values.length)) {i : ℕ} (hi : i < start) :
    bitAt (mem.overlay (dst + start / 8) (septetOctets (firstOctet mem dst start) start values)) dst i =
      bitAt mem dst i := by
  unfold bitAt
  rcases Nat.eq_or_lt_of_le (Nat.div_le_div_right hi.le : i / 8 ≤ start / 8) with heq | hlt
  · -- the octet that has bits of both
    have hlen := length_septetOctets (firstOctet mem dst start) start values
    obtain ⟨first, hfirst⟩ := isSome_iff_exists.1 (hroom (dst + start / 8) le_rfl
      (by rw [septetsEnd_eq]; omega))
    have hb := List.getElem?_eq_getElem
      (show 0 < (septetOctets (firstOctet mem dst start) start values).length by omega)
    rw [heq, Cells.overlay_inside _ le_rfl (by omega), Nat.sub_self, hb, hfirst, map_some, map_some,
      testBit_septetOctets hv (show i % 8 < start % 8 by omega) hb, firstOctet, hfirst, getD_some]
  · rw [Cells.overlay_outside _ (Or.inl (by omega))]

/-- Above the bits that were there, the octets are the number of the septets. -/
theorem septetOctets_div (first : UInt8) (start : ℕ) (hv : ∀ v ∈ values, v < 128) :
    ofDigits 256 ((septetOctets first start values).map UInt8.toNat) / 2 ^ (start % 8) =
      ofDigits 128 (values.map UInt32.toNat) := by
  have hpad : (bwriterInit first (start % 8)).pad < 2 ^ (start % 8) :=
    (bwriterInit_ok first (Nat.mod_lt start (by norm_num))).1.pad
  rw [septetOctets_value first start hv, Nat.add_mul_div_left _ _ (Nat.two_pow_pos _), Nat.div_eq_of_lt hpad,
    Nat.zero_add]

/-- **Septet packing is exact** at every bit position. On a memory with no other cells than the octets that the
septets lie in, the writer runs to the end; the bits below `start` stay, and so does every other octet; and on these
octets alone the reader takes out what was put in. -/
theorem septets_exact (mem : Cells UInt8) (dst start : ℕ) (values : List UInt32) (hv : ∀ v ∈ values, v < 128)
    (hroom : mem.Room (dst + start / 8) (septetsEnd dst start values.length)) :
    ∃ mem', septetsWrite mem dst start values = some (mem', start + 7 * values.length) ∧
      septetsWrite (mem.between (dst + start / 8) (septetsEnd dst start values.length)) dst start values =
        some (mem'.between (dst + start / 8) (septetsEnd dst start values.length), start + 7 * values.length) ∧
      (∀ i, i < dst + start / 8 ∨ septetsEnd dst start values.length ≤ i → mem' i = mem i) ∧
      (∀ i < start, bitAt mem' dst i = bitAt mem dst i) ∧
      utf8FromGsm7At (mem'.between (dst + start / 8) (septetsEnd dst start values.length)) dst start values.length =
        some (values.map UInt32.toNat, (decodeCodes false (values.map UInt32.toNat)).flatMap utf8Write) := by
  obtain ⟨hdiv, hmod⟩ := start_parts start
  set octets := septetOctets (firstOctet mem dst start) start values with hoctets
  have hlen : octets.length = (start % 8 + 7 * values.length + 7) / 8 := length_septetOctets _ _ _
  have hend : septetsEnd dst start values.length = dst + start / 8 + octets.length := by
    rw [septetsEnd_eq, hlen]
  refine ⟨mem.overlay (dst + start / 8) octets, septetsWrite_eq hv hroom, ?_, ?_, ?_, ?_⟩
  · rw [septetsWrite_eq hv (Cells.room_between hroom), septetOctets_between,
      Cells.overlay_between _ le_rfl hend.ge]
  · intro i hi
    rw [hend] at hi
    exact Cells.overlay_outside _ hi
  · intro i hi
    exact bitAt_septets hv hroom hi
  · have hcells : ∀ i (hi : i < octets.length), ((mem.overlay (dst + start / 8) octets).between (dst + start / 8)
        (septetsEnd dst start values.length)) (dst + start / 8 + i) = some octets[i] := by
      intro i hi
      rw [Cells.between, if_pos (by omega), Cells.overlay_inside _ (by omega) (by omega), Nat.add_sub_cancel_left,
        List.getElem?_eq_getElem hi]
    obtain ⟨text, htext⟩ := utf8FromGsm7Loop_septets hcells (septets_lt hv) 0 (start % 8) (Nat.mod_lt _ (by norm_num))
      (by rw [length_map]; omega) (by rw [Nat.mul_zero, Nat.zero_add]; exact septetOctets_div _ _ hv) false
    rw [length_map, Nat.add_zero] at htext
    rw [utf8FromGsm7At, hdiv, hmod, htext, utf8FromGsm7Loop_text htext]

/-- Two septets from bit 13 on, where only three octets may be touched, all ones. -/
theorem septets_exact_thirteen : ∃ mem', septetsWrite (Cells.between (fun _ => some 0xff) 1 4) 0 13 [0x41, 0x2a] =
      some (mem', 27) ∧ (∀ i, i < 1 ∨ 4 ≤ i → mem' i = none) ∧
    (utf8FromGsm7At (mem'.between 1 4) 0 13 2).map Prod.fst = some [0x41, 0x2a] := by
  have hend : septetsEnd 0 13 [(0x41 : UInt32), 0x2a].length = 4 := rfl
  have hroom : (Cells.between (fun _ => some (0xff : UInt8)) 1 4).Room (0 + 13 / 8)
      (septetsEnd 0 13 [(0x41 : UInt32), 0x2a].length) := by
    rw [hend]
    exact Cells.room_between fun _ _ _ => rfl
  have hv : ∀ v ∈ [(0x41 : UInt32), 0x2a], v < 128 :=
    forall_mem_cons.2 ⟨by decide, forall_mem_cons.2 ⟨by decide, fun _ h => absurd h not_mem_nil⟩⟩
  obtain ⟨mem', hwrite, -, hout, -, hread⟩ := septets_exact _ 0 13 [0x41, 0x2a] hv hroom
  rw [hend] at hout hread
  refine ⟨mem', hwrite, fun i hi => (hout i hi).trans (if_neg (by omega)), ?_⟩
  rw [show ([(0x41 : UInt32), 0x2a]).length = 2 from rfl, show 0 + 13 / 8 = 1 from rfl] at hread
  rw [hread]
  rfl

end Emulator.Telephony
