import Emulator.Lib.BitWindow
import Emulator.Telephony.Text

/-!
# Texts in the GSM alphabet and back

`utf8_to_gsm7`, `utf8_from_gsm7`, `utf8_to_gsm8` and `utf8_from_gsm8` of `telephony/gsm.c`.

* `utf8FromGsm7_written`: the septets that were written at a bit position are read back;
* `decodeCodes_septets`: the decoder stays in the extension table behind the first character of it;
* `gsmRoundTrip_iff`: a text comes back exactly when none but its last character is from the extension table.
-/

namespace Emulator.Telephony

open List

open Nat (ofDigits)

/-- The loop of `utf8_from_gsm8`. -/
def utf8FromGsm8In : (escaped : Bool) → List UInt8 → List UInt8
  | _, [] => []
  | escaped, c :: src =>
    if c = 0xff then []
    else if c.toNat = gsm7bitsEscape then
      if escaped then utf8Write 0x20 ++ utf8FromGsm8In false src else utf8FromGsm8In true src
    else if 0x80 ≤ c then utf8Write 0x20 ++ utf8FromGsm8In false src
    else if escaped then utf8Write (gsm7bitsExtendToUnicode.getD c.toNat 0) ++ utf8FromGsm8In escaped src
    else utf8Write (gsm7bitsToUnicode.getD c.toNat 0) ++ utf8FromGsm8In escaped src

/-- `utf8_from_gsm8`, of the `count` octets `src`. -/
def utf8FromGsm8 (src : List UInt8) : List UInt8 := utf8FromGsm8In false src

/-- The octets that `utf8_to_gsm8` writes. -/
def utf8ToGsm8 (utf8 : List UInt8) : List UInt8 := ((utf8Codes utf8).flatMap unicharSeptets).map .ofNat

/-- What `utf8_from_gsm7` makes of septets. -/
def decodeCodes : (escaped : Bool) → List ℕ → List ℕ
  | _, [] => []
  | true, c :: cs => gsm7bitsExtendToUnicode.getD c 0 :: decodeCodes true cs
  | false, c :: cs =>
    if c = gsm7bitsEscape then decodeCodes true cs else gsm7bitsToUnicode.getD c 0 :: decodeCodes false cs

/-- What `utf8_from_gsm8` makes of septets: behind two escapes it leaves the extension table. -/
def decodeCodes8 : (escaped : Bool) → List ℕ → List ℕ
  | _, [] => []
  | true, c :: cs =>
    if c = gsm7bitsEscape then 0x20 :: decodeCodes8 false cs
    else gsm7bitsExtendToUnicode.getD c 0 :: decodeCodes8 true cs
  | false, c :: cs =>
    if c = gsm7bitsEscape then decodeCodes8 true cs else gsm7bitsToUnicode.getD c 0 :: decodeCodes8 false cs

/-- The character is in the default alphabet or in its extension table. -/
def InAlphabet (c : ℕ) : Prop := c ≠ 0 ∧ unicharToGsm7Count c ≠ 0

theorem alphabet_disjoint : ∀ c ∈ gsm7bitsToUnicode, c ≠ 0 → c ∉ gsm7bitsExtendToUnicode := by decide +kernel

theorem tables_bmp : (∀ c ∈ gsm7bitsToUnicode, c < 0x10000) ∧ ∀ c ∈ gsm7bitsExtendToUnicode, c < 0x10000 := by
  decide +kernel

theorem getD_bmp {l : List ℕ} (hl : ∀ c ∈ l, c < 0x10000) (n : ℕ) : l.getD n 0 < 0x10000 := by
  rw [getD_eq_getElem?_getD]
  cases h : l[n]? with
  | none => simp
  | some c => exact hl c (mem_of_getElem? h)

theorem getD_eq {l : List ℕ} {n : ℕ} (hn : n < l.length) : l.getD n 0 = l[n] := by
  rw [getD_eq_getElem?_getD, List.getElem?_eq_getElem hn, Option.getD_some]

theorem idxOf?_spec {l : List ℕ} {c n : ℕ} (h : l.idxOf? c = some n) : n < l.length ∧ l.getD n 0 = c := by
  obtain ⟨hn, hc, -⟩ := List.idxOf?_eq_some_iff.1 h
  exact ⟨hn, (getD_eq hn).trans hc⟩

/-- The septet of a character of the default alphabet. -/
theorem plain_septet {c n : ℕ} (hc : c ≠ 0) (h : unicharToGsm7 c = some n) :
    n < 128 ∧ n ≠ gsm7bitsEscape ∧ gsm7bitsToUnicode.getD n 0 = c ∧ gsm7bitsExtendToUnicode.getD n 0 ≠ c := by
  obtain ⟨hn, ht⟩ := idxOf?_spec h
  refine ⟨hn, ?_, ht, ?_⟩
  · rintro rfl
    exact hc ht.symm
  · intro he
    have hmem : c ∈ gsm7bitsToUnicode := by
      rw [← ht, getD_eq hn]
      exact getElem_mem hn
    apply alphabet_disjoint c hmem hc
    have hn' : n < gsm7bitsExtendToUnicode.length := hn
    rw [← he, getD_eq hn']
    exact getElem_mem hn'

/-- The septets of a character. -/
theorem inAlphabet_cases {c : ℕ} (h : InAlphabet c) :
    (∃ n, unicharToGsm7 c = some n ∧ unicharSeptets c = [n]) ∨
    ∃ n, unicharToGsm7 c = none ∧ unicharSeptets c = [gsm7bitsEscape, n] ∧ n < 128 ∧ n ≠ gsm7bitsEscape ∧
      gsm7bitsExtendToUnicode.getD n 0 = c ∧ c ≠ 0x20 := by
  obtain ⟨h0, hcount⟩ := h
  unfold unicharToGsm7Count at hcount
  unfold unicharSeptets
  cases hp : unicharToGsm7 c with
  | some n => exact Or.inl ⟨n, rfl, rfl⟩
  | none =>
    cases he : unicharToGsm7Extend c with
    | none => simp [hp, he] at hcount
    | some n =>
      obtain ⟨hn, ht⟩ := idxOf?_spec he
      refine Or.inr ⟨n, rfl, rfl, hn, ?_, ht, ?_⟩
      · rintro rfl
        exact h0 ht.symm
      · rintro rfl
        exact absurd hp (by decide)

theorem unicharSeptets_lt {c : ℕ} (h : InAlphabet c) : ∀ n ∈ unicharSeptets c, n < 128 := by
  rcases inAlphabet_cases h with ⟨n, hp, hs⟩ | ⟨n, -, hs, hn, -⟩
  · rw [hs]
    intro m hm
    obtain rfl := mem_singleton.1 hm
    exact (plain_septet h.1 hp).1
  · rw [hs]
    intro m hm
    rcases mem_pair.1 hm with rfl | rfl
    · decide
    · exact hn

variable {cs : List ℕ}

/-- A decoder that turns to the extension table for good, and reads no character rightly there. -/
theorem septets_decoded {decode : Bool → List ℕ → List ℕ} (hnil : ∀ escaped, decode escaped [] = [])
    (hstep : ∀ c, InAlphabet c → ∀ rest,
      decode false (unicharSeptets c ++ rest) = c :: decode (unicharToGsm7 c).isNone rest)
    (hwrong : ∀ d, InAlphabet d → ∀ rest cs, decode true (unicharSeptets d ++ rest) ≠ d :: cs)
    (h : ∀ c ∈ cs, InAlphabet c) :
    decode false (cs.flatMap unicharSeptets) = cs ↔ ∀ c ∈ cs.dropLast, (unicharToGsm7 c).isSome := by
  induction cs with
  | nil => simp [hnil]
  | cons c cs ih =>
    have ih := ih fun d hd => h d (mem_cons_of_mem _ hd)
    rw [flatMap_cons, hstep c (h c mem_cons_self), List.cons.injEq, and_iff_right rfl]
    cases cs with
    | nil => simp [hnil]
    | cons d cs =>
      cases hp : unicharToGsm7 c with
      | some n =>
        simp only [Option.isNone_some, ih, dropLast_cons_cons, forall_mem_cons, hp, Option.isSome_some, true_and]
      | none =>
        have hd := hwrong d (h d (by simp)) (cs.flatMap unicharSeptets) cs
        simp [flatMap_cons, hd, hp]

/-- **The decoder never leaves the extension table**: the characters come back when none but the last one is from
there. -/
theorem decodeCodes_septets (h : ∀ c ∈ cs, InAlphabet c) :
    decodeCodes false (cs.flatMap unicharSeptets) = cs ↔ ∀ c ∈ cs.dropLast, (unicharToGsm7 c).isSome := by
  refine septets_decoded (fun escaped => by simp [decodeCodes]) (fun c hc rest => ?_) (fun d hd rest cs he => ?_) h
  · rcases inAlphabet_cases hc with ⟨n, hp, hs⟩ | ⟨n, hp, hs, -, -, ht, -⟩
    · obtain ⟨-, hne, ht, -⟩ := plain_septet hc.1 hp
      rw [hs, singleton_append, decodeCodes, if_neg hne, ht, hp, Option.isNone_some]
    · rw [hs, hp, cons_append, singleton_append, decodeCodes, if_pos rfl, decodeCodes, ht, Option.isNone_none]
  · rcases inAlphabet_cases hd with ⟨m, hpm, hsm⟩ | ⟨m, -, hsm, -⟩
    · rw [hsm] at he
      exact (plain_septet hd.1 hpm).2.2.2 (List.cons.inj he).1
    · rw [hsm] at he
      exact hd.1 (List.cons.inj he).1.symm

theorem decodeCodes8_septets (h : ∀ c ∈ cs, InAlphabet c) :
    decodeCodes8 false (cs.flatMap unicharSeptets) = cs ↔ ∀ c ∈ cs.dropLast, (unicharToGsm7 c).isSome := by
  refine septets_decoded (fun escaped => by simp [decodeCodes8]) (fun c hc rest => ?_) (fun d hd rest cs he => ?_) h
  · rcases inAlphabet_cases hc with ⟨n, hp, hs⟩ | ⟨n, hp, hs, -, hne, ht, -⟩
    · obtain ⟨-, hne, ht, -⟩ := plain_septet hc.1 hp
      rw [hs, singleton_append, decodeCodes8, if_neg hne, ht, hp, Option.isNone_some]
    · rw [hs, hp, cons_append, singleton_append, decodeCodes8, if_pos rfl, decodeCodes8, if_neg hne, ht,
        Option.isNone_none]
  · -- `d` is looked up in the wrong table, or its escape is the second one and gives a space
    rcases inAlphabet_cases hd with ⟨m, hpm, hsm⟩ | ⟨m, -, hsm, -, -, -, hspace⟩
    · obtain ⟨-, hnm, -, hwm⟩ := plain_septet hd.1 hpm
      rw [hsm, singleton_append, decodeCodes8, if_neg hnm] at he
      exact hwm (List.cons.inj he).1
    · rw [hsm, cons_append, decodeCodes8, if_pos rfl] at he
      exact hspace (List.cons.inj he).1.symm

theorem decodeCodes_bmp (escaped : Bool) (cs : List ℕ) : ∀ c ∈ decodeCodes escaped cs, c < 0x10000 := by
  induction cs generalizing escaped with
  | nil => simp [decodeCodes]
  | cons c cs ih =>
    cases escaped with
    | true =>
      rw [decodeCodes, forall_mem_cons]
      exact ⟨getD_bmp tables_bmp.2 c, ih true⟩
    | false =>
      rw [decodeCodes]
      split_ifs
      · exact ih true
      · rw [forall_mem_cons]
        exact ⟨getD_bmp tables_bmp.1 c, ih false⟩

theorem decodeCodes8_bmp (escaped : Bool) (cs : List ℕ) : ∀ c ∈ decodeCodes8 escaped cs, c < 0x10000 := by
  induction cs generalizing escaped with
  | nil => simp [decodeCodes8]
  | cons c cs ih =>
    cases escaped with
    | true =>
      rw [decodeCodes8]
      split_ifs
      · rw [forall_mem_cons]
        exact ⟨by decide, ih false⟩
      · rw [forall_mem_cons]
        exact ⟨getD_bmp tables_bmp.2 c, ih true⟩
    | false =>
      rw [decodeCodes8]
      split_ifs
      · exact ih true
      · rw [forall_mem_cons]
        exact ⟨getD_bmp tables_bmp.1 c, ih false⟩

theorem boundary_writes (h : ∀ c ∈ cs, c < 0x10000) : Boundary (cs.flatMap utf8Write) := by
  cases cs with
  | nil => exact nofun
  | cons c cs => exact boundary_utf8Write (h c mem_cons_self) _

/-- Different characters have different octets. -/
theorem writes_injective {cs ds : List ℕ} (hc : ∀ c ∈ cs, c < 0x10000) (hd : ∀ d ∈ ds, d < 0x10000)
    (h : cs.flatMap utf8Write = ds.flatMap utf8Write) : cs = ds := by
  have hread : ∀ (c : ℕ) (cs : List ℕ), (∀ d ∈ c :: cs, d < 0x10000) →
      utf8Next ((c :: cs).flatMap utf8Write) = some (c, cs.flatMap utf8Write) := by
    intro c cs hcs
    rw [forall_mem_cons] at hcs
    exact utf8Next_utf8Write hcs.1 (boundary_writes hcs.2)
  induction cs generalizing ds with
  | nil =>
    cases ds with
    | nil => rfl
    | cons d ds =>
      have hnext := hread d ds hd
      rw [← h] at hnext
      exact nomatch hnext
  | cons c cs ih =>
    have hnext := hread c cs hc
    cases ds with
    | nil =>
      rw [h] at hnext
      exact nomatch hnext
    | cons d ds =>
      rw [h, hread d ds hd] at hnext
      obtain ⟨rfl, hrest⟩ := Prod.mk.inj (Option.some.inj hnext)
      rw [forall_mem_cons] at hc hd
      rw [ih hc.2 hd.2 hrest.symm]

theorem utf8FromGsm8In_septets (escaped : Bool) (h : ∀ c ∈ cs, c < 128) :
    utf8FromGsm8In escaped (cs.map .ofNat) = (decodeCodes8 escaped cs).flatMap utf8Write := by
  induction cs generalizing escaped with
  | nil => cases escaped <;> rfl
  | cons c cs ih =>
    rw [forall_mem_cons] at h
    have hto : (UInt8.ofNat c).toNat = c := by
      rw [UInt8.toNat_ofNat']
      omega
    have hff : UInt8.ofNat c ≠ 0xff := fun he => by
      have := congrArg UInt8.toNat he
      rw [hto] at this
      exact absurd this (by have := h.1; simp; omega)
    have h80 : ¬ (0x80 : UInt8) ≤ UInt8.ofNat c := by
      rw [UInt8.le_iff_toNat_le, hto]
      have := h.1
      simp
      omega
    rw [map_cons, utf8FromGsm8In, if_neg hff, if_neg h80, hto]
    cases escaped with
    | true =>
      rw [decodeCodes8]
      by_cases hesc : c = gsm7bitsEscape
      · rw [if_pos hesc, if_pos hesc, if_pos rfl, ih false h.2]
        rfl
      · rw [if_neg hesc, if_neg hesc, if_pos rfl, ih true h.2]
        rfl
    | false =>
      rw [decodeCodes8]
      by_cases hesc : c = gsm7bitsEscape
      · rw [if_pos hesc, if_pos hesc, if_neg Bool.false_ne_true, ih true h.2]
      · rw [if_neg hesc, if_neg hesc, if_neg Bool.false_ne_true, ih false h.2]
        rfl

/-- The number that is written so far, with what is still in the pad. -/
def BWriter.value (writer : BWriter) : ℕ :=
  ofDigits 256 (writer.out.map UInt8.toNat) + 256 ^ writer.out.length * writer.pad

/-- The bit position of the next septet. -/
def BWriter.pos (writer : BWriter) : ℕ := 8 * writer.out.length + writer.bits

/-- The pad has the bits of an octet that is not full. -/
structure BWriter.Ok (writer : BWriter) : Prop where
  bits : writer.bits < 8
  pad : writer.pad < 2 ^ writer.bits

theorem bwriterInit_ok (first : UInt8) {offset : ℕ} (ho : offset < 8) :
    (bwriterInit first offset).Ok ∧ (bwriterInit first offset).pos = offset ∧
      (bwriterInit first offset).value < 2 ^ offset := by
  have hpad : (bwriterInit first offset).pad < 2 ^ offset := by
    unfold bwriterInit
    split_ifs with h
    · have hand : first.toNat &&& (0xff >>> (8 - offset)) ≤ 0xff >>> (8 - offset) := Nat.and_le_right
      have hlt : 0xff >>> (8 - offset) < 2 ^ offset := by
        interval_cases offset <;> decide
      exact lt_of_le_of_lt hand hlt
    · exact Nat.two_pow_pos offset
  refine ⟨⟨ho, hpad⟩, by simp [BWriter.pos, bwriterInit], ?_⟩
  simpa [BWriter.value, bwriterInit] using hpad

/-- **A septet is added** at its bit position. -/
theorem bwriterAdd7_ok {writer : BWriter} (h : writer.Ok) {v : ℕ} (hv : v < 128) :
    (bwriterAdd7 writer v).Ok ∧ (bwriterAdd7 writer v).pos = writer.pos + 7 ∧
      (bwriterAdd7 writer v).value = writer.value + 2 ^ writer.pos * v := by
  obtain ⟨out, pad, bits⟩ := writer
  obtain ⟨hb, hp⟩ := h
  simp only at hb hp
  have hor : pad ||| v <<< bits = pad + 2 ^ bits * v := by
    rw [Nat.or_comm, ← Nat.shiftLeft_add_eq_or_of_lt hp, Nat.shiftLeft_eq]
    ring
  have hlt : pad + 2 ^ bits * v < 2 ^ (bits + 7) := by
    rw [pow_add]
    have := Nat.mul_le_mul_left (2 ^ bits) (show v ≤ 127 by omega)
    omega
  have hpow : (2 : ℕ) ^ (8 * out.length + bits) = 256 ^ out.length * 2 ^ bits := by
    rw [pow_add, pow_mul]
    norm_num
  unfold bwriterAdd7
  simp only [hor]
  split_ifs with h8
  · refine ⟨⟨by simp only; omega, ?_⟩, ?_, ?_⟩
    · simp only
      rw [Nat.shiftRight_eq_div_pow, Nat.div_lt_iff_lt_mul (by norm_num), ← pow_add]
      rwa [show bits + 7 - 8 + 8 = bits + 7 by omega]
    · simp only [BWriter.pos, length_append, length_singleton]
      omega
    · simp only [BWriter.value, BWriter.pos, map_append, map_singleton, length_append,
        length_singleton, Nat.ofDigits_append, Nat.ofDigits_singleton, length_map, hpow, UInt8.toNat_ofNat',
        Nat.shiftRight_eq_div_pow, show (2 : ℕ) ^ 8 = 256 by norm_num]
      have hsplit := Nat.mod_add_div (pad + 2 ^ bits * v) 256
      calc ofDigits 256 (out.map UInt8.toNat) + 256 ^ out.length * ((pad + 2 ^ bits * v) % 256) +
            256 ^ (out.length + 1) * ((pad + 2 ^ bits * v) / 256)
          = ofDigits 256 (out.map UInt8.toNat) +
            256 ^ out.length * ((pad + 2 ^ bits * v) % 256 + 256 * ((pad + 2 ^ bits * v) / 256)) := by ring
        _ = ofDigits 256 (out.map UInt8.toNat) + 256 ^ out.length * pad + 256 ^ out.length * 2 ^ bits * v := by
            rw [hsplit]
            ring
  · refine ⟨⟨by simp only; omega, hlt⟩, by simp only [BWriter.pos]; omega, ?_⟩
    simp only [BWriter.value, BWriter.pos, hpow]
    ring

theorem foldl_bwriterAdd7_ok {values : List ℕ} (hv : ∀ v ∈ values, v < 128) {writer : BWriter} (h : writer.Ok) :
    (values.foldl bwriterAdd7 writer).Ok ∧
      (values.foldl bwriterAdd7 writer).value = writer.value + 2 ^ writer.pos * ofDigits 128 values := by
  induction values generalizing writer with
  | nil => simpa using h
  | cons v values ih =>
    rw [forall_mem_cons] at hv
    obtain ⟨h1, h2, h3⟩ := bwriterAdd7_ok h hv.1
    obtain ⟨h4, h5⟩ := ih hv.2 h1
    refine ⟨h4, ?_⟩
    rw [foldl_cons, h5, h2, h3, Nat.ofDigits_cons, pow_add]
    ring

/-- The octets that are written are the number. -/
theorem bwriterDone_value {writer : BWriter} (h : writer.Ok) :
    ofDigits 256 ((bwriterDone writer).map UInt8.toNat) = writer.value := by
  obtain ⟨out, pad, bits⟩ := writer
  obtain ⟨hb, hp⟩ := h
  simp only at hb hp
  unfold bwriterDone BWriter.value
  simp only
  split_ifs with h0
  · have hpad : pad < 2 ^ 8 := hp.trans_le (Nat.pow_le_pow_right (by norm_num) hb.le)
    simp only [map_append, map_singleton, Nat.ofDigits_append, Nat.ofDigits_singleton, length_map,
      UInt8.toNat_ofNat', Nat.mod_eq_of_lt hpad]
  · obtain rfl : bits = 0 := by omega
    obtain rfl : pad = 0 := by simpa using hp
    simp

theorem octets_lt (octets : List UInt8) : ∀ d ∈ octets.map UInt8.toNat, d < 256 := by
  intro d hd
  obtain ⟨b, -, rfl⟩ := mem_map.1 hd
  exact b.toNat_lt

/-- The seven bits that `utf8_from_gsm7` takes at a bit position of the number. -/
theorem septet_at {src : ℕ → UInt8} {octets : List ℕ} (hoct : ∀ d ∈ octets, d < 256)
    (hsrc : ∀ i (hi : i < octets.length), (src i).toNat = octets[i]) {pos shift : ℕ} (hs : shift < 8)
    (hin : 8 * pos + shift + 7 ≤ 8 * octets.length) :
    (if 1 < shift then ((src (pos + 1)).toNat <<< (8 - shift) ||| ((src pos).toNat >>> shift &&& 0x7f)) &&& 0x7f
      else (src pos).toNat >>> shift &&& 0x7f) = ofDigits 256 octets / 2 ^ (8 * pos + shift) % 128 := by
  have hpow : (2 : ℕ) ^ (8 * pos + shift) = 256 ^ pos * 2 ^ shift := by
    rw [pow_add, pow_mul]
    norm_num
  rw [hpow, ← Nat.div_div_eq_div_mul]
  rw [hsrc pos (by omega), ← digit_eq (by norm_num) hoct (by omega)]
  split_ifs with h1
  · rw [hsrc (pos + 1) (by omega), ← digit_eq (by norm_num) hoct (by omega), pow_succ, ← Nat.div_div_eq_div_mul]
    exact window_high _ h1 hs
  · exact window_low _ (by omega)

/-- **Septets are read back**: from a bit position on the number is the septets, least significant first. -/
theorem utf8FromGsm7In_septets {src : ℕ → UInt8} {octets : List ℕ} (hoct : ∀ d ∈ octets, d < 256)
    (hsrc : ∀ i (hi : i < octets.length), (src i).toNat = octets[i]) {values : List ℕ} (hv : ∀ v ∈ values, v < 128)
    (pos shift : ℕ) (hs : shift < 8) (hin : 8 * pos + shift + 7 * values.length ≤ 8 * octets.length)
    (hval : ofDigits 256 octets / 2 ^ (8 * pos + shift) = ofDigits 128 values) (escaped : Bool) :
    utf8FromGsm7In src values.length pos shift escaped = (decodeCodes escaped values).flatMap utf8Write := by
  induction values generalizing pos shift escaped with
  | nil => cases escaped <;> rfl
  | cons v values ih =>
    rw [forall_mem_cons] at hv
    rw [length_cons] at hin
    have hc := septet_at hoct hsrc hs (show 8 * pos + shift + 7 ≤ 8 * octets.length by omega)
    rw [hval, Nat.ofDigits_cons, Nat.add_mul_mod_self_left, Nat.mod_eq_of_lt hv.1] at hc
    have hrest : ofDigits 256 octets / 2 ^ (8 * pos + shift + 7) = ofDigits 128 values := by
      rw [pow_add, ← Nat.div_div_eq_div_mul, hval, Nat.ofDigits_cons, show (2 : ℕ) ^ 7 = 128 by norm_num,
        Nat.add_mul_div_left _ _ (by norm_num), Nat.div_eq_of_lt hv.1, Nat.zero_add]
    -- the next septet starts seven bits on
    have hnext := ih hv.2 (if 8 ≤ shift + 7 then pos + 1 else pos) (if 8 ≤ shift + 7 then shift + 7 - 8 else shift + 7)
      (by split_ifs <;> omega) (by split_ifs <;> omega) (by rw [← hrest]; congr 2; split_ifs <;> omega)
    rw [length_cons, utf8FromGsm7In]
    simp only [hc, hnext]
    cases escaped with
    | true => rfl
    | false =>
      rw [decodeCodes]
      by_cases hesc : v = gsm7bitsEscape
      · rw [if_pos hesc, if_pos hesc, if_neg Bool.false_ne_true]
      · rw [if_neg hesc, if_neg hesc, if_neg Bool.false_ne_true]
        rfl

/-- The memory at `dst` after `utf8_to_gsm7` has written there. -/
def gsm7Written (utf8 : List UInt8) (mem : ℕ → UInt8) (offset : ℕ) (i : ℕ) : UInt8 :=
  ((utf8ToGsm7 utf8 (mem 0) offset)[i]?).getD (mem i)

/-- **The text comes back** from septets at every bit offset, and from octets. -/
def GsmRoundTrip (utf8 : List UInt8) : Prop :=
  (∀ (mem : ℕ → UInt8) (offset : ℕ), offset < 8 →
    utf8FromGsm7 (gsm7Written utf8 mem offset) offset (utf8ToGsm7Count utf8) = utf8) ∧
  utf8FromGsm8 (utf8ToGsm8 utf8) = utf8

theorem flatMap_septets_lt (h : ∀ c ∈ cs, InAlphabet c) : ∀ n ∈ cs.flatMap unicharSeptets, n < 128 := by
  intro n hn
  obtain ⟨c, hc, hn⟩ := mem_flatMap.1 hn
  exact unicharSeptets_lt (h c hc) n hn

/-- What comes back from the septets of a text. -/
theorem utf8FromGsm7_written {utf8 : List UInt8} (h : ∀ c ∈ utf8Codes utf8, InAlphabet c) (mem : ℕ → UInt8)
    {offset : ℕ} (ho : offset < 8) :
    utf8FromGsm7 (gsm7Written utf8 mem offset) offset (utf8ToGsm7Count utf8) =
      (decodeCodes false ((utf8Codes utf8).flatMap unicharSeptets)).flatMap utf8Write := by
  have hv := flatMap_septets_lt h
  obtain ⟨hinit, hpos, hlow⟩ := bwriterInit_ok (mem 0) ho
  obtain ⟨hok, hvalue⟩ := foldl_bwriterAdd7_ok hv hinit
  have hnum : ofDigits 256 ((utf8ToGsm7 utf8 (mem 0) offset).map UInt8.toNat) / 2 ^ (8 * 0 + offset) =
      ofDigits 128 ((utf8Codes utf8).flatMap unicharSeptets) := by
    rw [utf8ToGsm7, bwriterDone_value hok, hvalue, hpos, Nat.mul_zero, Nat.zero_add,
      Nat.add_mul_div_left _ _ (Nat.two_pow_pos offset), Nat.div_eq_of_lt hlow, Nat.zero_add]
  have hlen : ((utf8Codes utf8).flatMap unicharSeptets).length = utf8ToGsm7Count utf8 := by
    rw [length_flatMap]
    exact congrArg List.sum (map_congr_left fun c _ => length_unicharSeptets c)
  have hoct := octets_lt (utf8ToGsm7 utf8 (mem 0) offset)
  have hshift : offset >>> 3 = 0 ∧ offset &&& 7 = offset := by
    interval_cases offset <;> exact ⟨rfl, rfl⟩
  rw [utf8FromGsm7, hshift.1, hshift.2, ← hlen]
  apply utf8FromGsm7In_septets hoct ?_ hv 0 offset ho ?_ hnum
  · intro i hi
    rw [length_map] at hi
    rw [gsm7Written, List.getElem?_eq_getElem hi, getElem_map, Option.getD_some]
  · rw [length_map, length_utf8ToGsm7 utf8 (mem 0) ho, hlen]
    omega

/-- **A text of the GSM alphabet comes back exactly when no character but the last is from the extension table.** -/
theorem gsmRoundTrip_iff {text : List BmpChar} (h : ∀ c ∈ text, InAlphabet c.code) :
    GsmRoundTrip (utf8Of text) ↔ ∀ c ∈ text.dropLast, (unicharToGsm7 c.code).isSome := by
  have hcodes : ∀ c ∈ utf8Codes (utf8Of text), InAlphabet c := by
    rw [utf8Codes_utf8]
    intro c hc
    obtain ⟨d, hd, rfl⟩ := mem_map.1 hc
    exact h d hd
  have hbmp : ∀ c ∈ utf8Codes (utf8Of text), c < 0x10000 := by
    rw [utf8Codes_utf8]
    intro c hc
    obtain ⟨d, -, rfl⟩ := mem_map.1 hc
    exact d.2
  have htext : utf8Of text = (utf8Codes (utf8Of text)).flatMap utf8Write := by
    rw [utf8Codes_utf8, flatMap_map]
    rfl
  have hcond : (∀ c ∈ (utf8Codes (utf8Of text)).dropLast, (unicharToGsm7 c).isSome) ↔
      ∀ c ∈ text.dropLast, (unicharToGsm7 c.code).isSome := by
    rw [utf8Codes_utf8, ← map_dropLast, forall_mem_map]
  have h7 : ∀ (mem : ℕ → UInt8) (offset : ℕ), offset < 8 →
      (utf8FromGsm7 (gsm7Written (utf8Of text) mem offset) offset (utf8ToGsm7Count (utf8Of text)) = utf8Of text ↔
        ∀ c ∈ text.dropLast, (unicharToGsm7 c.code).isSome) := by
    intro mem offset ho
    rw [utf8FromGsm7_written hcodes mem ho, ← hcond, ← decodeCodes_septets hcodes]
    conv_lhs => rhs; rw [htext]
    constructor
    · exact fun he => writes_injective (decodeCodes_bmp _ _) hbmp he
    · exact fun he => congrArg (List.flatMap utf8Write) he
  have h8 : utf8FromGsm8 (utf8ToGsm8 (utf8Of text)) = utf8Of text ↔
      ∀ c ∈ text.dropLast, (unicharToGsm7 c.code).isSome := by
    rw [utf8FromGsm8, utf8ToGsm8, utf8FromGsm8In_septets false (flatMap_septets_lt hcodes), ← hcond,
      ← decodeCodes8_septets hcodes]
    conv_lhs => rhs; rw [htext]
    constructor
    · exact fun he => writes_injective (decodeCodes8_bmp _ _) hbmp he
    · exact fun he => congrArg (List.flatMap utf8Write) he
  constructor
  · intro hround
    exact h8.1 hround.2
  · intro hlate
    exact ⟨fun mem offset ho => (h7 mem offset ho).2 hlate, h8.2 hlate⟩

/-- The text `a{`. -/
theorem gsmRoundTrip_iff_braceLast : GsmRoundTrip (utf8Of [⟨'a', by decide⟩, ⟨'{', by decide⟩]) ↔
    ∀ c ∈ ([⟨'a', by decide⟩, ⟨'{', by decide⟩] : List BmpChar).dropLast, (unicharToGsm7 c.code).isSome :=
  gsmRoundTrip_iff (by unfold InAlphabet; decide +kernel)

/-- The text `{a` has only characters of the alphabet and does not come back, neither from septets nor from octets. -/
theorem gsmRoundTrip_braceFirst :
    (∀ c ∈ ([⟨'{', by decide⟩, ⟨'a', by decide⟩] : List BmpChar), InAlphabet c.code) ∧
      ¬ GsmRoundTrip (utf8Of [⟨'{', by decide⟩, ⟨'a', by decide⟩]) := by
  refine ⟨by unfold InAlphabet; decide +kernel, fun h => ?_⟩
  exact absurd h.2 (by decide +kernel)

end Emulator.Telephony
