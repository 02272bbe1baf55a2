import Emulator.Lib.Cells
import Emulator.Telephony.Alphabet

/-!
# UTF-8 and UCS2, into buffers

The conversions of `telephony/gsm.c` with the buffer that they write to. Without a buffer (`NULL`) they only count. A
`byte_t` that is read or written must be there.

* `ucs2ToUtf8At_eq`, `utf8ToUcs2At_eq`: where there is room for what they count, they write the octets that
  `ucs2ToUtf8` and `utf8ToUcs2` collect;
* `ShortestText.eq_writes`: a text in shortest form is what `utf8_write` makes of its characters;
* `utf8_ucs2_inverse`: **both round trips.** The decoder takes in every continuation octet that it meets, and no
  character that is written starts with one (`boundary_writes`).
-/

namespace Emulator.Telephony

open Lib List

/-- `none` is the `NULL` pointer. -/
abbrev Buffer := Option (Cells UInt8)

/-- The assignments under `if (utf8)` and `if (ucs2)`. -/
def Buffer.put : (buf : Buffer) → (offset : ℕ) → List UInt8 → Option Buffer
  | none, _, _ => some none
  | some mem, offset, l => (mem.storeAll offset l).map some

/-- `utf8_write`, with the number of octets that it returns. -/
def utf8WriteAt (utf8 : Buffer) (offset v : ℕ) : Option (Buffer × ℕ) :=
  if v < 128 then (utf8.put offset [.ofNat v]).map (·, 1)
  else if v < 0x800 then
    (utf8.put offset [.ofNat (0xc0 ||| v >>> 6), .ofNat (0x80 ||| v &&& 0x3f)]).map (·, 2)
  else if v < 0x10000 then
    (utf8.put offset [.ofNat (0xe0 ||| v >>> 12), .ofNat (0x80 ||| v >>> 6 &&& 0x3f), .ofNat (0x80 ||| v &&& 0x3f)]).map
      (·, 3)
  else
    (utf8.put offset [.ofNat (0xf0 ||| v >>> 18 &&& 0x7), .ofNat (0x80 ||| v >>> 12 &&& 0x3f),
      .ofNat (0x80 ||| v >>> 6 &&& 0x3f), .ofNat (0x80 ||| v &&& 0x3f)]).map (·, 4)

def ucs2WriteAt (ucs2 : Buffer) (offset v : ℕ) : Option (Buffer × ℕ) :=
  (ucs2.put offset [.ofNat (v >>> 8), .ofNat v]).map (·, 2)

/-- The octets behind the announced number of continuation octets, `none` if one is missing. -/
def utf8CheckTail : (len : ℕ) → List UInt8 → Option (List UInt8)
  | 0, p => some p
  | _ + 1, [] => none
  | len + 1, b :: p => if b &&& 0xc0 ≠ 0x80 then none else utf8CheckTail len p

/-- The loop of `utf8_check`; each round takes an octet at least. -/
def utf8CheckIn : (fuel : ℕ) → List UInt8 → Bool
  | 0, _ => true
  | _ + 1, [] => true
  | fuel + 1, c :: p =>
    if c < 128 then utf8CheckIn fuel p
    else
      let len := if c &&& 0xe0 = 0xc0 then some 1 else if c &&& 0xf0 = 0xe0 then some 2
        else if c &&& 0xf8 = 0xf0 then some 3 else none
      match len with
      | none => false
      | some len =>
        if p.length < len then false
        else match utf8CheckTail len p with
          | none => false
          | some p => utf8CheckIn fuel p

/-- A `NULL` pointer is no text. -/
def utf8Check : Option (List UInt8) → Bool
  | none => false
  | some utf8 => utf8CheckIn utf8.length utf8

/-- The loop of `ucs2_to_utf8`, `ucs2` being the pointer that moves on. -/
def ucs2ToUtf8Loop (src : Cells UInt8) : (n ucs2 result : ℕ) → Buffer → Option (Buffer × ℕ)
  | 0, _, result, buf => some (buf, result)
  | n + 1, ucs2, result, buf =>
    (src ucs2).bind fun c₀ => (src (ucs2 + 1)).bind fun c₁ =>
      (utf8WriteAt buf result (c₀.toNat <<< 8 ||| c₁.toNat)).bind fun (buf, len) =>
        ucs2ToUtf8Loop src n (ucs2 + 2) (result + len) buf

/-- The buffer, and the number of octets. -/
def ucs2ToUtf8At (ucs2 : Cells UInt8) (ucs2len : ℕ) (buf : Buffer) : Option (Buffer × ℕ) :=
  ucs2ToUtf8Loop ucs2 ucs2len 0 0 buf

/-- The rounds of `utf8_to_ucs2` for what `utf8_next` returns. -/
def utf8ToUcs2Loop : (codes : List ℕ) → (result : ℕ) → Buffer → Option (Buffer × ℕ)
  | [], result, ucs2 => some (ucs2, result)
  | c :: codes, result, ucs2 =>
    (ucs2WriteAt ucs2 result c).bind fun (ucs2, len) => utf8ToUcs2Loop codes (result + len) ucs2

/-- The buffer, and the number of characters. -/
def utf8ToUcs2At (utf8 : List UInt8) (ucs2 : Buffer) : Option (Buffer × ℕ) :=
  (utf8ToUcs2Loop (utf8Codes utf8) 0 ucs2).map fun (ucs2, result) => (ucs2, result / 2)

/-- The buffer with the row `l` from `a` on. -/
def Buffer.overlay (buf : Buffer) (a : ℕ) (l : List UInt8) : Buffer := buf.map fun mem => mem.overlay a l

/-- There is no buffer, or it has the octets of `[lo, hi)`. -/
def Buffer.Room (buf : Buffer) (lo hi : ℕ) : Prop := ∀ mem ∈ buf, mem.Room lo hi

variable {buf : Buffer} {a b lo hi offset v result : ℕ} {l : List UInt8}

theorem Buffer.Room.mono (h : buf.Room lo hi) (h₁ : lo ≤ a) (h₂ : b ≤ hi) : buf.Room a b :=
  fun mem hmem => (h mem hmem).mono h₁ h₂

theorem Buffer.Room.overlay (h : buf.Room lo hi) : (buf.overlay a l).Room lo hi := by
  intro mem hmem
  obtain ⟨mem₀, h₀, rfl⟩ := Option.map_eq_some_iff.1 hmem
  exact (h mem₀ h₀).overlay

theorem Buffer.overlay_nil (buf : Buffer) (a : ℕ) : buf.overlay a [] = buf := by
  cases buf with
  | none => rfl
  | some mem => exact congrArg some (mem.overlay_nil a)

theorem Buffer.overlay_append (buf : Buffer) (a : ℕ) (l l' : List UInt8) :
    (buf.overlay a l).overlay (a + l.length) l' = buf.overlay a (l ++ l') := by
  cases buf with
  | none => rfl
  | some mem => exact congrArg some (mem.overlay_append a l l')

theorem Buffer.put_eq (h : buf.Room offset (offset + l.length)) : buf.put offset l = some (buf.overlay offset l) := by
  cases buf with
  | none => rfl
  | some mem =>
    rw [put, Cells.storeAll_eq (h mem rfl)]
    rfl

theorem utf8WriteAt_eq (h : buf.Room offset (offset + (utf8Write v).length)) :
    utf8WriteAt buf offset v = some (buf.overlay offset (utf8Write v), (utf8Write v).length) := by
  unfold utf8Write at h ⊢
  unfold utf8WriteAt
  split_ifs at h ⊢ <;> rw [Buffer.put_eq h] <;> rfl

theorem ucs2WriteAt_eq (h : buf.Room offset (offset + 2)) :
    ucs2WriteAt buf offset v = some (buf.overlay offset (ucs2Write v), 2) := by
  rw [ucs2WriteAt, Buffer.put_eq h]
  rfl

/-- The octets of code units, the high one first. -/
def ucs2Octets (u : List ℕ) : List UInt8 := u.flatMap ucs2Write

/-- **The rounds of `utf8_to_ucs2`.** -/
theorem utf8ToUcs2Loop_eq (codes : List ℕ) (buf : Buffer) (result : ℕ)
    (h : buf.Room result (result + 2 * codes.length)) :
    utf8ToUcs2Loop codes result buf = some (buf.overlay result (ucs2Octets codes), result + 2 * codes.length) := by
  induction codes generalizing result buf with
  | nil =>
    rw [utf8ToUcs2Loop, ucs2Octets, flatMap_nil, Buffer.overlay_nil, length_nil, Nat.mul_zero,
      Nat.add_zero]
  | cons c codes ih =>
    rw [length_cons] at h
    have hroom : (buf.overlay result (ucs2Write c)).Room (result + 2) (result + 2 + 2 * codes.length) :=
      h.overlay.mono (by omega) (by omega)
    have hnext := ih (buf.overlay result (ucs2Write c)) (result + 2) hroom
    have happ := Buffer.overlay_append buf result (ucs2Write c) (ucs2Octets codes)
    rw [show (ucs2Write c).length = 2 from rfl] at happ
    rw [utf8ToUcs2Loop, ucs2WriteAt_eq (h.mono le_rfl (by omega)), Option.bind_some]
    refine hnext.trans ?_
    rw [happ, length_cons]
    congr 2
    omega

theorem octets_code {c : ℕ} (hc : c < 0x10000) :
    (UInt8.ofNat (c >>> 8)).toNat <<< 8 ||| (UInt8.ofNat c).toNat = c := by
  have hhi : (UInt8.ofNat (c >>> 8)).toNat = c / 256 := by
    rw [UInt8.toNat_ofNat', Nat.shiftRight_eq_div_pow]
    omega
  have hlo : (UInt8.ofNat c).toNat < 2 ^ 8 := UInt8.toNat_lt _
  rw [← Nat.shiftLeft_add_eq_or_of_lt hlo, hhi, Nat.shiftLeft_eq, UInt8.toNat_ofNat']
  omega

variable {u : List ℕ}

/-- **The rounds of `ucs2_to_utf8`**, over the octets of code units. -/
theorem ucs2ToUtf8Loop_eq {src : Cells UInt8} (hu : ∀ c ∈ u, c < 0x10000) (ucs2 result : ℕ) (buf : Buffer)
    (hsrc : ∀ i < 2 * u.length, src (ucs2 + i) = (ucs2Octets u)[i]?)
    (h : buf.Room result (result + (u.flatMap utf8Write).length)) :
    ucs2ToUtf8Loop src u.length ucs2 result buf =
      some (buf.overlay result (u.flatMap utf8Write), result + (u.flatMap utf8Write).length) := by
  induction u generalizing ucs2 result buf with
  | nil => rw [flatMap_nil, Buffer.overlay_nil, length_nil, length_nil, ucs2ToUtf8Loop, Nat.add_zero]
  | cons c u ih =>
    rw [forall_mem_cons] at hu
    rw [length_cons] at hsrc
    rw [flatMap_cons, length_append] at h
    have h₀ := hsrc 0 (by omega)
    have h₁ := hsrc 1 (by omega)
    have htail : ∀ i < 2 * u.length, src (ucs2 + 2 + i) = (ucs2Octets u)[i]? := by
      intro i hi
      rw [Nat.add_assoc, Nat.add_comm 2 i, hsrc (i + 2) (by omega)]
      rfl
    have hnext := ih hu.2 (ucs2 + 2) (result + (utf8Write c).length) (buf.overlay result (utf8Write c)) htail
      (h.overlay (a := result) (l := utf8Write c) |>.mono (by omega) (by omega))
    rw [length_cons, ucs2ToUtf8Loop, ← Nat.add_zero ucs2, h₀, Nat.add_zero, h₁]
    simp only [ucs2Octets, flatMap_cons, ucs2Write, cons_append, List.getElem?_cons_zero,
      List.getElem?_cons_succ, Option.bind_some, octets_code hu.1]
    rw [utf8WriteAt_eq (h.mono le_rfl (by omega)), Option.bind_some]
    refine hnext.trans ?_
    rw [Buffer.overlay_append, length_append, Nat.add_assoc]

def Continuation (b : UInt8) : Prop := 0x80 ≤ b ∧ b ≤ 0xbf

/-- The octets of one character of the basic multilingual plane, as few as it can have. -/
inductive ShortestChar : List UInt8 → Prop
  | one {a : UInt8} : a ≤ 0x7f → ShortestChar [a]
  | two {a b : UInt8} : 0xc2 ≤ a → a ≤ 0xdf → Continuation b → ShortestChar [a, b]
  | three {a b c : UInt8} : 0xe0 ≤ a → a ≤ 0xef → (a = 0xe0 → 0xa0 ≤ b) → Continuation b → Continuation c →
      ShortestChar [a, b, c]

inductive ShortestText : List UInt8 → Prop
  | nil : ShortestText []
  | cons {c text : List UInt8} : ShortestChar c → ShortestText text → ShortestText (c ++ text)

theorem or_eq_add : (∀ x < 64, 0x80 ||| x = 0x80 + x) ∧ (∀ x < 32, 0xc0 ||| x = 0xc0 + x) ∧
    ∀ x < 16, 0xe0 ||| x = 0xe0 + x := by
  decide

theorem Continuation.eq {b : UInt8} (h : Continuation b) : ∃ x < 64, b.toNat = 0x80 + x ∧ b = .ofNat (0x80 ||| x) := by
  obtain ⟨h₁, h₂⟩ := h
  have hlo : 0x80 ≤ b.toNat := UInt8.le_iff_toNat_le.1 h₁
  have hhi : b.toNat ≤ 0xbf := UInt8.le_iff_toNat_le.1 h₂
  have heq : b.toNat = 0x80 + (b.toNat - 0x80) := by omega
  refine ⟨b.toNat - 0x80, by omega, heq, ?_⟩
  rw [or_eq_add.1 _ (by omega), ← heq, UInt8.ofNat_toNat]

theorem lead2_eq {a : UInt8} (h₁ : 0xc2 ≤ a) (h₂ : a ≤ 0xdf) : ∃ x < 32, 2 ≤ x ∧ a = .ofNat (0xc0 ||| x) := by
  have hlo : 0xc2 ≤ a.toNat := UInt8.le_iff_toNat_le.1 h₁
  have hhi : a.toNat ≤ 0xdf := UInt8.le_iff_toNat_le.1 h₂
  refine ⟨a.toNat - 0xc0, by omega, by omega, ?_⟩
  rw [or_eq_add.2.1 _ (by omega), show 0xc0 + (a.toNat - 0xc0) = a.toNat by omega, UInt8.ofNat_toNat]

theorem lead3_eq {a : UInt8} (h₁ : 0xe0 ≤ a) (h₂ : a ≤ 0xef) :
    ∃ x < 16, (x = 0 → a = 0xe0) ∧ a = .ofNat (0xe0 ||| x) := by
  have hlo : 0xe0 ≤ a.toNat := UInt8.le_iff_toNat_le.1 h₁
  have hhi : a.toNat ≤ 0xef := UInt8.le_iff_toNat_le.1 h₂
  refine ⟨a.toNat - 0xe0, by omega, fun h0 => ?_, ?_⟩
  · apply UInt8.toNat_inj.1
    rw [show (0xe0 : UInt8).toNat = 0xe0 from rfl]
    omega
  · rw [or_eq_add.2.2 _ (by omega), show 0xe0 + (a.toNat - 0xe0) = a.toNat by omega, UInt8.ofNat_toNat]

/-- **A character in shortest form is what `utf8_write` writes.** -/
theorem ShortestChar.eq_write {s : List UInt8} (h : ShortestChar s) : ∃ c < 0x10000, s = utf8Write c := by
  cases h with
  | @one a ha =>
    have hle : a.toNat ≤ 0x7f := UInt8.le_iff_toNat_le.1 ha
    refine ⟨a.toNat, by omega, ?_⟩
    rw [utf8Write, if_pos (by omega), UInt8.ofNat_toNat]
  | two ha ha' hb =>
    obtain ⟨x, hx, hx2, rfl⟩ := lead2_eq ha ha'
    obtain ⟨y, hy, -, rfl⟩ := hb.eq
    refine ⟨64 * x + y, by omega, ?_⟩
    rw [utf8Write, if_neg (by omega), if_pos (by omega), low_bits, Nat.shiftRight_eq_div_pow,
      show (64 * x + y) / 2 ^ 6 = x by omega, show (64 * x + y) % 64 = y by omega]
  | three ha ha' hab hb hc =>
    obtain ⟨x, hx, hx0, rfl⟩ := lead3_eq ha ha'
    obtain ⟨y, hy, hyb, rfl⟩ := hb.eq
    obtain ⟨z, hz, -, rfl⟩ := hc.eq
    have hmin : 0x800 ≤ 4096 * x + 64 * y + z := by
      rcases Nat.eq_zero_or_pos x with h0 | hpos
      · have hle := UInt8.le_iff_toNat_le.1 (hab (hx0 h0))
        rw [hyb, show (0xa0 : UInt8).toNat = 0xa0 from rfl] at hle
        omega
      · omega
    refine ⟨4096 * x + 64 * y + z, by omega, ?_⟩
    rw [utf8Write, if_neg (by omega), if_neg (by omega), if_pos (by omega), low_bits, low_bits,
      Nat.shiftRight_eq_div_pow, Nat.shiftRight_eq_div_pow, show (4096 * x + 64 * y + z) / 2 ^ 12 = x by omega,
      show (4096 * x + 64 * y + z) / 2 ^ 6 % 64 = y by omega, show (4096 * x + 64 * y + z) % 64 = z by omega]

theorem ShortestText.eq_writes {s : List UInt8} (h : ShortestText s) :
    ∃ u : List ℕ, (∀ c ∈ u, c < 0x10000) ∧ s = u.flatMap utf8Write := by
  induction h with
  | nil => exact ⟨[], by simp, rfl⟩
  | cons hc _ ih =>
    obtain ⟨c, hlt, rfl⟩ := hc.eq_write
    obtain ⟨u, hu, rfl⟩ := ih
    exact ⟨c :: u, forall_mem_cons.2 ⟨hlt, hu⟩, rfl⟩

/-- **The characters are read back**: none of them starts with a continuation octet. -/
theorem utf8CodesIn_writes (hu : ∀ c ∈ u, c < 0x10000) {fuel : ℕ} (h : u.length ≤ fuel) :
    utf8CodesIn fuel (u.flatMap utf8Write) = u := by
  induction u generalizing fuel with
  | nil => cases fuel <;> rfl
  | cons c u ih =>
    obtain ⟨fuel, rfl⟩ := Nat.exists_eq_add_one_of_ne_zero (Nat.ne_zero_of_lt h)
    rw [forall_mem_cons] at hu
    rw [utf8CodesIn, flatMap_cons, utf8Next_utf8Write hu.1 (boundary_writes hu.2)]
    exact congrArg _ (ih hu.2 (Nat.le_of_succ_le_succ h))

theorem length_le_writes (u : List ℕ) : u.length ≤ (u.flatMap utf8Write).length := by
  induction u with
  | nil => exact le_rfl
  | cons c u ih =>
    have hpos : 0 < (utf8Write c).length := by
      unfold utf8Write
      split_ifs <;> exact Nat.zero_lt_succ _
    rw [flatMap_cons, length_append, length_cons]
    omega

theorem utf8Codes_writes (hu : ∀ c ∈ u, c < 0x10000) : utf8Codes (u.flatMap utf8Write) = u :=
  utf8CodesIn_writes hu (length_le_writes u)

/-- `utf8_check` goes over a character that `utf8_write` wrote. -/
theorem utf8CheckIn_write {c : ℕ} (hc : c < 0x10000) (fuel : ℕ) (text : List UInt8) :
    utf8CheckIn (fuel + 1) (utf8Write c ++ text) = utf8CheckIn fuel text := by
  have hcont (x : ℕ) : ¬ UInt8.ofNat (0x80 ||| x % 64) &&& 0xc0 ≠ 0x80 :=
    not_not_intro (continuation_octet _ (Nat.mod_lt x (by norm_num))).1
  unfold utf8Write
  split_ifs with h1 h2
  · rw [cons_append, nil_append, utf8CheckIn, if_pos (ascii_octet c h1).1]
  · obtain ⟨ha, hb, -⟩ := lead2_octet (c >>> 6) (by rw [Nat.shiftRight_eq_div_pow]; omega)
    simp only [cons_append, nil_append, utf8CheckIn, if_neg ha, if_pos hb, low_bits, utf8CheckTail,
      if_neg (hcont _)]
    exact if_neg (by simp)
  · obtain ⟨ha, hb, hd, -⟩ := lead3_octet (c >>> 12) (by rw [Nat.shiftRight_eq_div_pow]; omega)
    simp only [cons_append, nil_append, utf8CheckIn, if_neg ha, if_neg hb, if_pos hd, low_bits, utf8CheckTail,
      if_neg (hcont _)]
    exact if_neg (by simp)

theorem utf8CheckIn_writes (hu : ∀ c ∈ u, c < 0x10000) (fuel : ℕ) :
    utf8CheckIn fuel (u.flatMap utf8Write) = true := by
  induction u generalizing fuel with
  | nil => cases fuel <;> rfl
  | cons c u ih =>
    rw [forall_mem_cons] at hu
    cases fuel with
    | zero => rfl
    | succ fuel => rw [flatMap_cons, utf8CheckIn_write hu.1, ih hu.2]

/-- The octets of code units. -/
def unitOctets (u : List UInt16) : List UInt8 := ucs2Octets (u.map UInt16.toNat)

/-- Code units become a text, and that becomes the code units; each conversion writes what it counts when it has no
buffer, and needs no other octet. -/
def Ucs2RoundTrip (u : List UInt16) : Prop :=
  ∃ text, ucs2ToUtf8At (Cells.row (unitOctets u)) u.length none = some (none, text.length) ∧
    (∀ buf : Cells UInt8, buf.Room 0 text.length →
      ucs2ToUtf8At (Cells.row (unitOctets u)) u.length (some buf) = some (some (buf.overlay 0 text), text.length)) ∧
    utf8ToUcs2At text none = some (none, u.length) ∧
    ∀ buf : Cells UInt8, buf.Room 0 (2 * u.length) →
      utf8ToUcs2At text (some buf) = some (some (buf.overlay 0 (unitOctets u)), u.length)

/-- A text becomes code units, and these become the text. -/
def Utf8RoundTrip (utf8 : List UInt8) : Prop :=
  ∃ u : List UInt16, utf8ToUcs2At utf8 none = some (none, u.length) ∧
    (∀ buf : Cells UInt8, buf.Room 0 (2 * u.length) →
      utf8ToUcs2At utf8 (some buf) = some (some (buf.overlay 0 (unitOctets u)), u.length)) ∧
    ucs2ToUtf8At (Cells.row (unitOctets u)) u.length none = some (none, utf8.length) ∧
    ∀ buf : Cells UInt8, buf.Room 0 utf8.length →
      ucs2ToUtf8At (Cells.row (unitOctets u)) u.length (some buf) = some (some (buf.overlay 0 utf8), utf8.length)

theorem units_lt (u : List UInt16) : ∀ c ∈ u.map UInt16.toNat, c < 0x10000 := by
  intro c hc
  obtain ⟨v, -, rfl⟩ := mem_map.1 hc
  exact v.toNat_lt

theorem room_none (lo hi : ℕ) : Buffer.Room none lo hi := by
  rintro mem ⟨⟩

theorem room_some {buf : Cells UInt8} (h : buf.Room lo hi) : Buffer.Room (some buf) lo hi := by
  rintro mem ⟨⟩
  exact h

/-- The text of code units, into any buffer that has room for it. -/
theorem ucs2ToUtf8At_eq (u : List UInt16) (buf : Buffer)
    (h : buf.Room 0 ((u.map UInt16.toNat).flatMap utf8Write).length) :
    ucs2ToUtf8At (Cells.row (unitOctets u)) u.length buf =
      some (buf.overlay 0 ((u.map UInt16.toNat).flatMap utf8Write),
        ((u.map UInt16.toNat).flatMap utf8Write).length) := by
  have hsrc : ∀ i < 2 * (u.map UInt16.toNat).length, Cells.row (unitOctets u) (0 + i) = (unitOctets u)[i]? := by
    intro i _
    rw [Nat.zero_add, Cells.row]
  have hloop := ucs2ToUtf8Loop_eq (units_lt u) 0 0 buf hsrc (by rwa [Nat.zero_add])
  rw [length_map, Nat.zero_add] at hloop
  exact hloop

/-- The code units of a text, into any buffer that has room for them. -/
theorem utf8ToUcs2At_eq (u : List UInt16) (buf : Buffer) (h : buf.Room 0 (2 * u.length)) :
    utf8ToUcs2At ((u.map UInt16.toNat).flatMap utf8Write) buf = some (buf.overlay 0 (unitOctets u), u.length) := by
  have hloop := utf8ToUcs2Loop_eq (u.map UInt16.toNat) buf 0 (by rwa [Nat.zero_add, length_map])
  rw [length_map, Nat.zero_add] at hloop
  rw [utf8ToUcs2At, utf8Codes_writes (units_lt u), hloop]
  exact congrArg some (Prod.ext rfl (Nat.mul_div_cancel_left _ (by norm_num)))

theorem ucs2RoundTrip (u : List UInt16) : Ucs2RoundTrip u :=
  ⟨(u.map UInt16.toNat).flatMap utf8Write, ucs2ToUtf8At_eq u _ (room_none _ _),
    fun _ h => ucs2ToUtf8At_eq u _ (room_some h), utf8ToUcs2At_eq u _ (room_none _ _),
    fun _ h => utf8ToUcs2At_eq u _ (room_some h)⟩

theorem utf8RoundTrip {utf8 : List UInt8} (h : ShortestText utf8) : Utf8RoundTrip utf8 := by
  obtain ⟨codes, hlt, rfl⟩ := h.eq_writes
  have hunits : (codes.map UInt16.ofNat).map UInt16.toNat = codes := by
    rw [map_map]
    refine (map_congr_left fun c hc => ?_).trans (map_id codes)
    exact UInt16.toNat_ofNat_of_lt' (hlt c hc)
  have hto (buf : Buffer) := utf8ToUcs2At_eq (codes.map UInt16.ofNat) buf
  have hfrom (buf : Buffer) := ucs2ToUtf8At_eq (codes.map UInt16.ofNat) buf
  rw [hunits] at hto hfrom
  exact ⟨codes.map UInt16.ofNat, hto none (room_none _ _), fun buf hroom => hto buf (room_some hroom),
    hfrom none (room_none _ _), fun buf hroom => hfrom buf (room_some hroom)⟩

/-- **UTF-8 and UCS2 are inverse** on the basic multilingual plane, surrogates and the null character included. -/
theorem utf8_ucs2_inverse : (∀ u : List UInt16, Ucs2RoundTrip u) ∧
    ∀ utf8, ShortestText utf8 → utf8Check (some utf8) = true ∧ Utf8RoundTrip utf8 := by
  refine ⟨ucs2RoundTrip, fun utf8 h => ⟨?_, utf8RoundTrip h⟩⟩
  obtain ⟨u, hu, rfl⟩ := h.eq_writes
  exact utf8CheckIn_writes hu _

/-- A text of characters of one, two and three octets. -/
theorem utf8_ucs2_inverse_mixed : Utf8RoundTrip [0x41, 0xc3, 0xa9, 0xe2, 0x82, 0xac] := by
  have h : ShortestText ([0x41] ++ ([0xc3, 0xa9] ++ ([0xe2, 0x82, 0xac] ++ []))) :=
    .cons (.one (by decide)) (.cons (.two (by decide) (by decide) ⟨by decide, by decide⟩) (.cons
      (.three (by decide) (by decide) (by decide) ⟨by decide, by decide⟩ ⟨by decide, by decide⟩) .nil))
  exact (utf8_ucs2_inverse.2 _ h).2

end Emulator.Telephony
