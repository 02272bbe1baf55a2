import Emulator.Telephony.Sms

/-!
# Texts as characters

A text of BMP characters in UTF-8, and what the functions of `gsm.c` do with its octets, said
of its characters.

* `utf8Codes_utf8`: the characters are read back.
* `utf8SkipGsm7_utf8`: `utf8_skip_gsm7` stops between characters, behind the longest beginning
  of the text that takes no more than the septets.
-/

namespace Emulator.Telephony

open List

/-- A character of the basic multilingual plane. -/
abbrev BmpChar := { c : Char // c.toNat < 0x10000 }

def BmpChar.code (c : BmpChar) : ℕ := c.1.toNat

/-- The text in UTF-8. -/
def utf8Of (text : List BmpChar) : List UInt8 := text.flatMap fun c => utf8Write c.code

@[simp] theorem utf8Of_cons (c : BmpChar) (text : List BmpChar) :
    utf8Of (c :: text) = utf8Write c.code ++ utf8Of text :=
  rfl

theorem utf8Of_append (a b : List BmpChar) : utf8Of (a ++ b) = utf8Of a ++ utf8Of b := flatMap_append

theorem ascii_octet : ∀ x < 128, UInt8.ofNat x < 128 ∧ (UInt8.ofNat x).toNat = x ∧ UInt8.ofNat x &&& 0xc0 ≠ 0x80 := by
  decide

theorem lead2_octet : ∀ x < 32, ¬ UInt8.ofNat (0xc0 ||| x) < 128 ∧ UInt8.ofNat (0xc0 ||| x) &&& 0xe0 = 0xc0 ∧
    (UInt8.ofNat (0xc0 ||| x) &&& 0x1f).toNat = x ∧ UInt8.ofNat (0xc0 ||| x) &&& 0xc0 ≠ 0x80 := by
  decide

theorem lead3_octet : ∀ x < 16, ¬ UInt8.ofNat (0xe0 ||| x) < 128 ∧ UInt8.ofNat (0xe0 ||| x) &&& 0xe0 ≠ 0xc0 ∧
    UInt8.ofNat (0xe0 ||| x) &&& 0xf0 = 0xe0 ∧ (UInt8.ofNat (0xe0 ||| x) &&& 0x0f).toNat = x ∧
      UInt8.ofNat (0xe0 ||| x) &&& 0xc0 ≠ 0x80 := by
  decide

theorem continuation_octet : ∀ x < 64, UInt8.ofNat (0x80 ||| x) &&& 0xc0 = 0x80 ∧
    (UInt8.ofNat (0x80 ||| x) &&& 0x3f).toNat = x := by
  decide

/-- No continuation octet comes next. -/
def Boundary (l : List UInt8) : Prop := ∀ b ∈ l.head?, b &&& 0xc0 ≠ 0x80

theorem utf8Tail_boundary {l : List UInt8} (h : Boundary l) (c : ℕ) : utf8Tail c l = (c, l) := by
  cases l with
  | nil => rfl
  | cons b l =>
    unfold utf8Tail
    rw [if_neg (h b rfl)]

theorem utf8Tail_continuation {x : ℕ} (hx : x < 64) (c : ℕ) (l : List UInt8) :
    utf8Tail c (UInt8.ofNat (0x80 ||| x) :: l) = utf8Tail (64 * c + x) l := by
  obtain ⟨h1, h2⟩ := continuation_octet x hx
  have hor : c <<< 6 ||| x = 64 * c + x := by
    rw [← Nat.shiftLeft_add_eq_or_of_lt hx, Nat.shiftLeft_eq]
    ring
  rw [utf8Tail, if_pos h1, h2, hor]

theorem low_bits (v : ℕ) : v &&& 0x3f = v % 64 := Nat.and_two_pow_sub_one_eq_mod v 6

theorem boundary_utf8Write {c : ℕ} (hc : c < 0x10000) (l : List UInt8) : Boundary (utf8Write c ++ l) := by
  unfold utf8Write
  split_ifs with h1 h2
  · rintro _ ⟨⟩
    exact (ascii_octet c h1).2.2
  · rintro _ ⟨⟩
    exact (lead2_octet (c >>> 6) (by rw [Nat.shiftRight_eq_div_pow]; omega)).2.2.2
  · rintro _ ⟨⟩
    exact (lead3_octet (c >>> 12) (by rw [Nat.shiftRight_eq_div_pow]; omega)).2.2.2.2

/-- **A character is read back** when no continuation octet follows. -/
theorem utf8Next_utf8Write {c : ℕ} (hc : c < 0x10000) {l : List UInt8} (hl : Boundary l) :
    utf8Next (utf8Write c ++ l) = some (c, l) := by
  unfold utf8Write
  split_ifs with h1 h2
  · obtain ⟨ha, hb, -⟩ := ascii_octet c h1
    simp only [cons_append, nil_append, utf8Next, if_pos ha, hb]
  · obtain ⟨ha, hb, hd, -⟩ := lead2_octet (c >>> 6) (by rw [Nat.shiftRight_eq_div_pow]; omega)
    simp only [cons_append, nil_append, utf8Next, if_neg ha, if_pos hb, hd, low_bits]
    rw [utf8Tail_continuation (by omega), utf8Tail_boundary hl, Nat.shiftRight_eq_div_pow]
    norm_num
    omega
  · obtain ⟨ha, hb, hd, he, -⟩ := lead3_octet (c >>> 12) (by rw [Nat.shiftRight_eq_div_pow]; omega)
    simp only [cons_append, nil_append, utf8Next, if_neg ha, if_neg hb, if_pos hd, he, low_bits]
    rw [utf8Tail_continuation (by omega), utf8Tail_continuation (by omega), utf8Tail_boundary hl,
      Nat.shiftRight_eq_div_pow, Nat.shiftRight_eq_div_pow]
    norm_num
    omega

theorem boundary_utf8Of (text : List BmpChar) : Boundary (utf8Of text) := by
  cases text with
  | nil => rintro _ ⟨⟩
  | cons c text => exact boundary_utf8Write c.2 _

theorem utf8Next_cons (c : BmpChar) (text : List BmpChar) :
    utf8Next (utf8Of (c :: text)) = some (c.code, utf8Of text) :=
  utf8Next_utf8Write c.2 (boundary_utf8Of text)

theorem length_le_utf8Of (text : List BmpChar) : text.length ≤ (utf8Of text).length := by
  induction text with
  | nil => exact Nat.le_refl _
  | cons c text ih =>
    have hpos : 0 < (utf8Write c.code).length := by
      unfold utf8Write
      split_ifs <;> simp
    rw [utf8Of_cons, length_append, length_cons]
    omega

variable {text : List BmpChar}

theorem utf8CodesIn_utf8 {fuel : ℕ} (h : text.length ≤ fuel) :
    utf8CodesIn fuel (utf8Of text) = text.map BmpChar.code := by
  induction text generalizing fuel with
  | nil => cases fuel <;> rfl
  | cons c text ih =>
    obtain ⟨fuel, rfl⟩ : ∃ n, fuel = n + 1 := ⟨fuel - 1, by simp at h; omega⟩
    unfold utf8CodesIn
    rw [utf8Next_cons]
    simp only [map_cons]
    rw [ih (by simpa using h)]

theorem utf8Codes_utf8 (text : List BmpChar) : utf8Codes (utf8Of text) = text.map BmpChar.code :=
  utf8CodesIn_utf8 (length_le_utf8Of text)

/-- The septets of a text. -/
def septets (text : List BmpChar) : ℕ := (text.map fun c => gsm7Len c.code).sum

theorem utf8ToGsm7Count_utf8 (text : List BmpChar) : utf8ToGsm7Count (utf8Of text) = septets text := by
  unfold utf8ToGsm7Count
  rw [utf8Codes_utf8, map_map]
  rfl

theorem length_utf8ToUcs2 (utf8 : List UInt8) : (utf8ToUcs2 utf8).length = 2 * (utf8Codes utf8).length := by
  unfold utf8ToUcs2
  rw [length_flatMap]
  simp [ucs2Write, Nat.mul_comm]

theorem gsm7Len_pos (c : ℕ) : 0 < gsm7Len c := by
  unfold gsm7Len
  split_ifs <;> omega

/-- The characters behind the longest beginning of a text that takes at most so many septets. -/
def skipSeptets : List BmpChar → ℕ → List BmpChar
  | [], _ => []
  | c :: text, n => if n < gsm7Len c.code then c :: text else skipSeptets text (n - gsm7Len c.code)

theorem utf8SkipGsm7In_utf8 {fuel n : ℕ} (h : n ≤ fuel) :
    utf8SkipGsm7In fuel (utf8Of text) n = utf8Of (skipSeptets text n) := by
  induction text generalizing fuel n with
  | nil => cases fuel <;> simp [utf8SkipGsm7In, skipSeptets, utf8Of, utf8Next]
  | cons c text ih =>
    have hpos := gsm7Len_pos c.code
    cases fuel with
    | zero =>
      have hn : n < gsm7Len c.code := by omega
      rw [skipSeptets, if_pos hn]
      rfl
    | succ fuel =>
      rw [utf8SkipGsm7In, skipSeptets, utf8Next_cons]
      by_cases h0 : n = 0
      · rw [if_pos h0, if_pos (by omega)]
      rw [if_neg h0]
      simp only
      split_ifs with hn
      · rfl
      · exact ih (by omega)

/-- **`utf8_skip_gsm7` stops between characters.** -/
theorem utf8SkipGsm7_utf8 (text : List BmpChar) (n : ℕ) :
    utf8SkipGsm7 (utf8Of text) n = utf8Of (skipSeptets text n) := utf8SkipGsm7In_utf8 (Nat.le_refl _)

/-- What is skipped takes at most so many septets. -/
theorem skipSeptets_spec (text : List BmpChar) (n : ℕ) :
    ∃ part, text = part ++ skipSeptets text n ∧ septets part ≤ n := by
  induction text generalizing n with
  | nil => exact ⟨[], rfl, Nat.zero_le _⟩
  | cons c text ih =>
    unfold skipSeptets
    split_ifs with h
    · exact ⟨[], rfl, Nat.zero_le _⟩
    · obtain ⟨part, h1, h2⟩ := ih (n - gsm7Len c.code)
      refine ⟨c :: part, by rw [cons_append, ← h1], ?_⟩
      have : septets (c :: part) = gsm7Len c.code + septets part := rfl
      omega

/-- All of the text is skipped if there are septets enough. -/
theorem skipSeptets_all {n : ℕ} (h : septets text ≤ n) : skipSeptets text n = [] := by
  induction text generalizing n with
  | nil => rfl
  | cons c text ih =>
    have hs : septets (c :: text) = gsm7Len c.code + septets text := rfl
    unfold skipSeptets
    rw [if_neg (by omega)]
    exact ih (by omega)

end Emulator.Telephony
