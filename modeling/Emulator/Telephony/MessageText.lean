import Emulator.Telephony.Gsm

/-!
# Quoted message text

`sms_utf8_from_message_str` and `sms_utf8_to_message_str` of `telephony/sms.c`: backslash escapes around UTF-8.

* `fromMessage_gives`: the result and the memory, for every buffer;
* `Quoted`: the strings of the escape syntax;
* `acceptsQuoted_iff`: the strings that are accepted are those that are in the syntax as they are read.
-/

namespace Emulator.Telephony

open List Option

/-- The loop over the continuation octets; `c` is an `int`. -/
def continuation (c : ℤ) : List UInt8 → ℤ × List UInt8
  | [] => (c, [])
  | b :: p =>
    if b &&& 0xc0 = 0x80 then continuation ((c * 64 + (b &&& 0x3f).toNat).bmod (2 ^ 32)) p else (c, b :: p)

/-- What the first octet of a character gives. -/
def leadBits (b : UInt8) : UInt8 :=
  if b &&& 0xe0 = 0xc0 then b &&& 0x1f
  else if b &&& 0xf0 = 0xe0 then b &&& 0x0f
  else b &&& 0x07

/-- A character from its first octet `b` and what is behind that: the value, and the place behind the character. -/
def readChar (b : UInt8) (p : List UInt8) : ℤ × List UInt8 :=
  -- `p++` a second time: the octet behind the first one is left out
  if 128 ≤ b then continuation (leadBits b).toNat (p.drop 1) else (b.toNat, p)

/-- The octets that are written for a character. -/
def writeChar (c : ℤ) : List UInt8 :=
  if c < 128 then [.ofInt c]
  else if c < 0x800 then [.ofNat (0xc0 ||| (c.toNat >>> 6 &&& 0x1f)), .ofNat (0x80 ||| (c.toNat &&& 0x3f))]
  else [.ofNat (0xc0 ||| (c.toNat >>> 12 &&& 0xf)), .ofNat (0x80 ||| (c.toNat >>> 6 &&& 0x3f)),
    .ofNat (0x80 ||| (c.toNat &&& 0x3f))]

/-- The memory at a buffer of `size` octets behind the stores of `octets` at `count`, each one if it is inside. -/
def putOctets (dst : ℕ → UInt8) (size count : ℕ) (octets : List UInt8) : ℕ → UInt8 := fun i =>
  if count ≤ i ∧ i < size then (octets[i - count]?).getD (dst i) else dst i

/-- `gsm_hex4_to_short`. -/
def gsmHex4ToShort (h0 h1 h2 h3 : UInt8) : Option ℕ :=
  (gsmHex2ToByte h0 h1).bind fun hi => (gsmHex2ToByte h2 h3).map fun lo => hi <<< 8 ||| lo

/-- The `switch` over the character behind a backslash: what it stands for, and the place behind. `some none` is `-1`,
and `none` a read behind the string. -/
def unescape (c : ℤ) (p : List UInt8) : Option (Option (ℤ × List UInt8)) :=
  if c = 92 then some (some (c, p))
  else if c = 110 then some (some (10, p))
  else if c = 120 then
    if p.length < 2 then some none
    else do
      let h0 ← p[0]?
      let h1 ← p[1]?
      some ((gsmHex2ToByte h0 h1).map fun (c : ℕ) => (c, p.drop 2))
  else if c = 117 then
    if p.length < 4 then some none
    else do
      let h0 ← p[0]?
      let h1 ← p[1]?
      let h2 ← p[2]?
      let h3 ← p[3]?
      some ((gsmHex4ToShort h0 h1 h2 h3).map fun (c : ℕ) => (c, p.drop 4))
  else some none

theorem length_continuation (c : ℤ) (p : List UInt8) : (continuation c p).2.length ≤ p.length := by
  induction p generalizing c with
  | nil => exact Nat.le_refl 0
  | cons b p ih =>
    rw [continuation]
    split_ifs
    · exact Nat.le_succ_of_le (ih _)
    · exact Nat.le_refl _

theorem length_readChar (b : UInt8) (p : List UInt8) : (readChar b p).2.length ≤ p.length := by
  rw [readChar]
  split_ifs
  · refine (length_continuation _ _).trans ?_
    rw [length_drop]
    exact Nat.sub_le _ _
  · exact Nat.le_refl _

/-- **The escapes**: what is behind the backslash, what it stands for, and what is left. -/
inductive Escape : ℤ → List UInt8 → ℤ × List UInt8 → Prop
  | backslash (p : List UInt8) : Escape 92 p (92, p)
  | newline (p : List UInt8) : Escape 110 p (10, p)
  | octet {h0 h1 : UInt8} {v : ℕ} (p : List UInt8) : gsmHex2ToByte h0 h1 = some v → Escape 120 (h0 :: h1 :: p) (v, p)
  | short {h0 h1 h2 h3 : UInt8} {v : ℕ} (p : List UInt8) : gsmHex4ToShort h0 h1 h2 h3 = some v →
      Escape 117 (h0 :: h1 :: h2 :: h3 :: p) (v, p)

theorem unescape_eq_some {c : ℤ} {p : List UInt8} {r : ℤ × List UInt8} :
    unescape c p = some (some r) ↔ Escape c p r := by
  constructor
  · intro h
    unfold unescape at h
    split_ifs at h with h92 h110 h120 h2 h117 h4
    · obtain rfl := Option.some.inj (Option.some.inj h)
      exact h92 ▸ .backslash p
    · obtain rfl := Option.some.inj (Option.some.inj h)
      exact h110 ▸ .newline p
    · exact nomatch h
    · match p, h2 with
      | h0 :: h1 :: p, _ =>
        obtain ⟨v, hv, rfl⟩ := map_eq_some_iff.1 (Option.some.inj h)
        exact h120 ▸ .octet p hv
      | [_], h2 => simp at h2
      | [], h2 => simp at h2
    · exact nomatch h
    · match p, h4 with
      | h0 :: h1 :: h2 :: h3 :: p, _ =>
        obtain ⟨v, hv, rfl⟩ := map_eq_some_iff.1 (Option.some.inj h)
        exact h117 ▸ .short p hv
      | [_, _, _], h4 => simp at h4
      | [_, _], h4 => simp at h4
      | [_], h4 => simp at h4
      | [], h4 => simp at h4
    · exact nomatch h
  · rintro (_ | _ | ⟨p, hv⟩ | ⟨p, hv⟩)
    · rfl
    · rfl
    · simp [unescape, hv]
    · simp [unescape, hv]

/-- Escapes are read inside of the string. -/
theorem unescape_inside (c : ℤ) (p : List UInt8) : unescape c p ≠ none := by
  unfold unescape
  split_ifs with _ _ _ h2 _ h4
  · exact nofun
  · exact nofun
  · exact nofun
  · match p, h2 with
    | _ :: _ :: _, _ => exact nofun
    | [_], h => simp at h
    | [], h => simp at h
  · exact nofun
  · match p, h4 with
    | _ :: _ :: _ :: _ :: _, _ => exact nofun
    | [_, _, _], h => simp at h
    | [_, _], h => simp at h
    | [_], h => simp at h
    | [], h => simp at h
  · exact nofun

theorem Escape.suffix {c : ℤ} {p : List UInt8} {r : ℤ × List UInt8} (h : Escape c p r) : r.2 <:+ p := by
  cases h with
  | backslash p => exact suffix_refl p
  | newline p => exact suffix_refl p
  | octet p _ => exact ⟨[_, _], rfl⟩
  | short p _ => exact ⟨[_, _, _, _], rfl⟩

theorem length_unescape {c : ℤ} {p : List UInt8} (r : ℤ × List UInt8) (h : unescape c p = some (some r)) :
    r.2.length ≤ p.length := (unescape_eq_some.1 h).suffix.length_le

/-- The loop of `sms_utf8_from_message_str`: the result, `none` for `-1`, and the memory at `utf8`. -/
def fromMessage (utf8len : ℕ) (p : List UInt8) (escaped : Bool) (count : ℕ) (utf8 : ℕ → UInt8) :
    Option (Option ℕ × (ℕ → UInt8)) :=
  match p with
  | [] => some (if escaped then none else some count, utf8)
  | b :: p =>
    if escaped then
      match _hr : unescape (readChar b p).1 (readChar b p).2 with
      | none => none
      | some none => some (none, utf8)
      | some (some r) =>
        fromMessage utf8len r.2 false (count + (writeChar r.1).length) (putOctets utf8 utf8len count (writeChar r.1))
    else
      let c := (readChar b p).1
      if c = 92 then fromMessage utf8len (readChar b p).2 true count utf8
      else
        fromMessage utf8len (readChar b p).2 false (count + (writeChar c).length)
          (putOctets utf8 utf8len count (writeChar c))
termination_by p.length
decreasing_by
  all_goals
    have := length_readChar b p
    rw [length_cons]
  · have := length_unescape _ _hr
    omega
  · omega
  · omega

/-- `sms_utf8_from_message_str`. `none` is a read behind the string. -/
def smsUtf8FromMessageStr (str : List UInt8) (utf8 : ℕ → UInt8) (utf8len : ℕ) : Option (Option ℕ × (ℕ → UInt8)) :=
  fromMessage utf8len str false 0 utf8

/-- What `sms_utf8_to_message_str` does with a character: the new count, and the memory at `str`. -/
def emitChar (strlen : ℕ) (c : ℤ) (count : ℕ) (str : ℕ → UInt8) : ℕ × (ℕ → UInt8) :=
  if c = 10 then (count + 2, if count + 2 < strlen then putOctets str strlen count [92, 110] else str)
  else if c = 92 then (count + 2, if count + 2 < strlen then putOctets str strlen count [92, 92] else str)
  else if c < 32 then
    (count + 4, if count + 3 < strlen then putOctets str strlen count (92 :: 120 :: gsmHexFromByte (.ofInt c)) else str)
  else (count + (writeChar c).length, putOctets str strlen count (writeChar c))

/-- The loop of `sms_utf8_to_message_str`: the result, and the memory at `str`. -/
def toMessage (strlen : ℕ) (p : List UInt8) (count : ℕ) (str : ℕ → UInt8) : ℕ × (ℕ → UInt8) :=
  match p with
  | [] => (count, str)
  | b :: p =>
    let next := emitChar strlen (readChar b p).1 count str
    toMessage strlen (readChar b p).2 next.1 next.2
termination_by p.length
decreasing_by
  have := length_readChar b p
  rw [length_cons]
  omega

/-- `sms_utf8_to_message_str`. -/
def smsUtf8ToMessageStr (utf8 : List UInt8) (str : ℕ → UInt8) (strlen : ℕ) : ℕ × (ℕ → UInt8) :=
  toMessage strlen utf8 0 str

theorem putOctets_nil (dst : ℕ → UInt8) (size count : ℕ) : putOctets dst size count [] = dst := by
  funext i
  simp [putOctets]

theorem putOctets_append (dst : ℕ → UInt8) (size count : ℕ) (a b : List UInt8) :
    putOctets (putOctets dst size count a) size (count + a.length) b = putOctets dst size count (a ++ b) := by
  funext i
  simp only [putOctets]
  by_cases hi : i < size
  · by_cases ha : count + a.length ≤ i
    · rw [if_pos ⟨ha, hi⟩, if_pos ⟨by omega, hi⟩, if_pos ⟨by omega, hi⟩,
        List.getElem?_append_right (by omega), List.getElem?_eq_none (l := a) (by omega), getD_none,
        Nat.sub_sub]
    · rw [if_neg (fun h => ha h.1)]
      by_cases hc : count ≤ i
      · rw [if_pos ⟨hc, hi⟩, if_pos ⟨hc, hi⟩, List.getElem?_append_left (by omega)]
      · rw [if_neg (fun h => hc h.1), if_neg (fun h => hc h.1)]
  · simp only [hi, and_false, if_false]

/-- The octets that a message string stands for. -/
def unquote (p : List UInt8) (escaped : Bool) : Option (List UInt8) :=
  match p with
  | [] => if escaped then none else some []
  | b :: p =>
    if escaped then
      match _hr : unescape (readChar b p).1 (readChar b p).2 with
      | some (some r) => (unquote r.2 false).map (writeChar r.1 ++ ·)
      | _ => none
    else if (readChar b p).1 = 92 then unquote (readChar b p).2 true
    else (unquote (readChar b p).2 false).map (writeChar (readChar b p).1 ++ ·)
termination_by p.length
decreasing_by
  all_goals
    have := length_readChar b p
    rw [length_cons]
  · have := length_unescape _ _hr
    omega
  · omega
  · omega

theorem unquote_escaped (b : UInt8) (p : List UInt8) : unquote (b :: p) true =
    (unescape (readChar b p).1 (readChar b p).2).join.bind fun r => (unquote r.2 false).map (writeChar r.1 ++ ·) := by
  rw [unquote, if_pos rfl]
  split
  · next r h => rw [h]; rfl
  · next h =>
    cases hu : unescape (readChar b p).1 (readChar b p).2 with
    | none => rfl
    | some o =>
      cases o with
      | none => rfl
      | some r => exact absurd hu (h r)

theorem unquote_plain (b : UInt8) (p : List UInt8) : unquote (b :: p) false =
    if (readChar b p).1 = 92 then unquote (readChar b p).2 true
    else (unquote (readChar b p).2 false).map (writeChar (readChar b p).1 ++ ·) := by
  rw [unquote, if_neg Bool.false_ne_true]

/-- The loop gives the octets `out` at `count`, or `-1`. -/
def Gives (utf8len count : ℕ) (utf8 : ℕ → UInt8) (out : Option (List UInt8))
    (run : Option (Option ℕ × (ℕ → UInt8))) : Prop :=
  ∃ mem, run = some (out.map (count + ·.length), mem) ∧ ∀ octets ∈ out, mem = putOctets utf8 utf8len count octets

theorem Gives.put {utf8len count : ℕ} {utf8 : ℕ → UInt8} {octets : List UInt8} {out : Option (List UInt8)}
    {run : Option (Option ℕ × (ℕ → UInt8))}
    (h : Gives utf8len (count + octets.length) (putOctets utf8 utf8len count octets) out run) :
    Gives utf8len count utf8 (out.map (octets ++ ·)) run := by
  obtain ⟨mem, hrun, hmem⟩ := h
  refine ⟨mem, ?_, ?_⟩
  · rw [hrun, Option.map_map]
    simp [Function.comp_def, Nat.add_assoc]
  · intro all hall
    obtain ⟨rest, hrest, rfl⟩ := map_eq_some_iff.1 hall
    rw [hmem rest hrest, putOctets_append]

/-- **The result and the memory** of the loop, for every buffer. -/
theorem fromMessage_gives (utf8len : ℕ) (p : List UInt8) (escaped : Bool) (count : ℕ) (utf8 : ℕ → UInt8) :
    Gives utf8len count utf8 (unquote p escaped) (fromMessage utf8len p escaped count utf8) := by
  fun_induction fromMessage utf8len p escaped count utf8 with
  | case1 escaped count utf8 =>
    refine ⟨utf8, ?_, ?_⟩
    · cases escaped <;> simp [unquote]
    · cases escaped <;> simp [unquote, putOctets_nil]
  | case2 count utf8 b p hr => exact absurd hr (unescape_inside _ _)
  | case3 count utf8 b p hr =>
    have hnone : unquote (b :: p) true = none := by rw [unquote_escaped, hr]; rfl
    exact ⟨utf8, by rw [hnone, map_none], by rw [hnone]; exact nofun⟩
  | case4 count utf8 b p r hr ih =>
    have hsome : unquote (b :: p) true = (unquote r.2 false).map (writeChar r.1 ++ ·) := by
      rw [unquote_escaped, hr]
      rfl
    rw [hsome]
    exact ih.put
  | case5 escaped count utf8 b p he c hc ih =>
    rw [Bool.eq_false_iff.2 he, unquote_plain, if_pos hc]
    exact ih
  | case6 escaped count utf8 b p he c hc ih =>
    rw [Bool.eq_false_iff.2 he, unquote_plain, if_neg hc]
    exact ih.put

theorem fromMessageStr_gives (str : List UInt8) (utf8 : ℕ → UInt8) (utf8len : ℕ) :
    Gives utf8len 0 utf8 (unquote str false) (smsUtf8FromMessageStr str utf8 utf8len) :=
  fromMessage_gives utf8len str false 0 utf8

def IsHexDigit (c : UInt8) : Prop := 48 ≤ c ∧ c < 58 ∨ 65 ≤ c ∧ c < 71 ∨ 97 ≤ c ∧ c < 103

/-- **The escape syntax**: `\\\\`, `\\n`, `\\xNN` and `\\uNNNN`, and every other octet for itself. -/
inductive Quoted : List UInt8 → Prop
  | nil : Quoted []
  | octet {b : UInt8} {s : List UInt8} : b ≠ 92 → Quoted s → Quoted (b :: s)
  | backslash {s : List UInt8} : Quoted s → Quoted (92 :: 92 :: s)
  | newline {s : List UInt8} : Quoted s → Quoted (92 :: 110 :: s)
  | hex2 {h0 h1 : UInt8} {s : List UInt8} : IsHexDigit h0 → IsHexDigit h1 → Quoted s →
      Quoted (92 :: 120 :: h0 :: h1 :: s)
  | hex4 {h0 h1 h2 h3 : UInt8} {s : List UInt8} : IsHexDigit h0 → IsHexDigit h1 → IsHexDigit h2 → IsHexDigit h3 →
      Quoted s → Quoted (92 :: 117 :: h0 :: h1 :: h2 :: h3 :: s)

/-- A character as the functions read it, if that gives a character of an escape. -/
def rereadChar (b : UInt8) (p : List UInt8) : UInt8 :=
  if 128 ≤ b ∧ (readChar b p).1 ∈ [92, 110, 117, 120] then .ofInt (readChar b p).1 else b

/-- A string with its characters as they are read. -/
def reread (str : List UInt8) : List UInt8 :=
  match str with
  | [] => []
  | b :: p => rereadChar b p :: reread (readChar b p).2
termination_by str.length
decreasing_by
  have := length_readChar b p
  rw [length_cons]
  omega

theorem IsHexDigit.lt {c : UInt8} (h : IsHexDigit c) : c < 128 := by
  rcases h with h | h | h
  · exact UInt8.lt_trans h.2 (by decide)
  · exact UInt8.lt_trans h.2 (by decide)
  · exact UInt8.lt_trans h.2 (by decide)

theorem isSome_hexcharToInt (c : UInt8) : (gsmHexcharToInt c).isSome ↔ IsHexDigit c := by
  have h : ∀ n < 256, ((gsmHexcharToInt (.ofNat n)).isSome = true ↔ 48 ≤ UInt8.ofNat n ∧ UInt8.ofNat n < 58 ∨
      65 ≤ UInt8.ofNat n ∧ UInt8.ofNat n < 71 ∨ 97 ≤ UInt8.ofNat n ∧ UInt8.ofNat n < 103) := by decide +kernel
  have hc := h c.toNat c.toNat_lt
  rwa [UInt8.ofNat_toNat] at hc

theorem isSome_hex2ToByte (h0 h1 : UInt8) : (gsmHex2ToByte h0 h1).isSome ↔ IsHexDigit h0 ∧ IsHexDigit h1 := by
  rw [← isSome_hexcharToInt, ← isSome_hexcharToInt, gsmHex2ToByte]
  cases gsmHexcharToInt h0 <;> cases gsmHexcharToInt h1 <;> simp

theorem isSome_hex4ToShort (h0 h1 h2 h3 : UInt8) : (gsmHex4ToShort h0 h1 h2 h3).isSome ↔
    (IsHexDigit h0 ∧ IsHexDigit h1) ∧ IsHexDigit h2 ∧ IsHexDigit h3 := by
  rw [← isSome_hex2ToByte, ← isSome_hex2ToByte, gsmHex4ToShort]
  cases gsmHex2ToByte h0 h1 <;> cases gsmHex2ToByte h2 h3 <;> simp

theorem readChar_ascii {b : UInt8} (h : b < 128) (p : List UInt8) : readChar b p = ((b.toNat : ℤ), p) := by
  rw [readChar, if_neg (UInt8.not_le.2 h)]

theorem rereadChar_ascii {b : UInt8} (h : b < 128) (p : List UInt8) : rereadChar b p = b := by
  rw [rereadChar, if_neg (fun hb => UInt8.not_le.2 h hb.1)]

theorem special_octet : ∀ k ∈ ([92, 110, 117, 120] : List UInt8), k < 128 ∧ ¬ IsHexDigit k ∧
    (k.toNat : ℤ) ∈ ([92, 110, 117, 120] : List ℤ) ∧
    ∀ c ∈ ([92, 110, 117, 120] : List ℤ), UInt8.ofInt c = k ↔ c = k.toNat := by
  unfold IsHexDigit
  decide +kernel

theorem rereadChar_special {b k : UInt8} (hk : k ∈ ([92, 110, 117, 120] : List UInt8)) (p : List UInt8) :
    rereadChar b p = k ↔ (readChar b p).1 = k.toNat := by
  obtain ⟨hk128, -, hmem, hofInt⟩ := special_octet k hk
  by_cases hb : b < 128
  · rw [rereadChar_ascii hb, readChar_ascii hb, Int.natCast_inj, UInt8.toNat_inj]
  · by_cases hc : (readChar b p).1 ∈ ([92, 110, 117, 120] : List ℤ)
    · rw [rereadChar, if_pos ⟨UInt8.not_lt.1 hb, hc⟩]
      exact hofInt _ hc
    · rw [rereadChar, if_neg fun h => hc h.2]
      exact iff_of_false (fun he => hb (he ▸ hk128)) fun he => hc (he ▸ hmem)

/-- A hexadecimal digit stands for itself. -/
theorem rereadChar_hex {b : UInt8} {p : List UInt8} (h : IsHexDigit (rereadChar b p)) : b < 128 := by
  by_contra hb
  by_cases hc : (readChar b p).1 ∈ ([92, 110, 117, 120] : List ℤ)
  · rw [rereadChar, if_pos ⟨UInt8.not_lt.1 hb, hc⟩] at h
    generalize (readChar b p).1 = c at h hc
    have hno : ∀ c ∈ ([92, 110, 117, 120] : List ℤ), ¬ IsHexDigit (UInt8.ofInt c) := by
      unfold IsHexDigit
      decide +kernel
    exact hno c hc h
  · rw [rereadChar, if_neg fun h => hc h.2] at h
    exact hb h.lt

theorem reread_cons (b : UInt8) (p : List UInt8) : reread (b :: p) = rereadChar b p :: reread (readChar b p).2 := by
  rw [reread]

theorem reread_hex {h : UInt8} (hh : IsHexDigit h) {p t : List UInt8} :
    reread p = h :: t ↔ ∃ s, p = h :: s ∧ reread s = t := by
  constructor
  · intro hp
    match p with
    | [] =>
      rw [reread] at hp
      exact nomatch hp
    | b :: s =>
      rw [reread_cons] at hp
      obtain ⟨hb, hs⟩ := List.cons.inj hp
      have hlt : b < 128 := rereadChar_hex (hb ▸ hh)
      rw [rereadChar_ascii hlt] at hb
      rw [readChar_ascii hlt] at hs
      exact ⟨s, by rw [hb], hs⟩
  · rintro ⟨s, rfl, rfl⟩
    rw [reread_cons, rereadChar_ascii hh.lt, readChar_ascii hh.lt]

theorem quoted_octet {b : UInt8} (hb : b ≠ 92) {s : List UInt8} : Quoted (b :: s) ↔ Quoted s := by
  constructor
  · intro h
    cases h with
    | octet _ h => exact h
    | backslash | newline | hex2 | hex4 => exact absurd rfl hb
  · exact .octet hb

/-- The escapes of the syntax, as the `switch` goes through them. -/
theorem quoted_escape {k : UInt8} {s : List UInt8} : Quoted (92 :: k :: s) ↔
    (k = 92 ∨ k = 110) ∧ Quoted s ∨
    k = 120 ∧ (∃ h0 h1 t, s = h0 :: h1 :: t ∧ (IsHexDigit h0 ∧ IsHexDigit h1) ∧ Quoted t) ∨
    k = 117 ∧ ∃ h0 h1 h2 h3 t, s = h0 :: h1 :: h2 :: h3 :: t ∧
      ((IsHexDigit h0 ∧ IsHexDigit h1) ∧ IsHexDigit h2 ∧ IsHexDigit h3) ∧ Quoted t := by
  constructor
  · intro h
    cases h with
    | octet h _ => exact absurd rfl h
    | backslash h => exact .inl ⟨.inl rfl, h⟩
    | newline h => exact .inl ⟨.inr rfl, h⟩
    | hex2 h0 h1 h => exact .inr (.inl ⟨rfl, _, _, _, rfl, ⟨h0, h1⟩, h⟩)
    | hex4 h0 h1 h2 h3 h => exact .inr (.inr ⟨rfl, _, _, _, _, _, rfl, ⟨⟨h0, h1⟩, h2, h3⟩, h⟩)
  · rintro (⟨rfl | rfl, h⟩ | ⟨rfl, _, _, _, rfl, ⟨h0, h1⟩, h⟩ | ⟨rfl, _, _, _, _, _, rfl, ⟨⟨h0, h1⟩, h2, h3⟩, h⟩)
    · exact .backslash h
    · exact .newline h
    · exact .hex2 h0 h1 h
    · exact .hex4 h0 h1 h2 h3 h

theorem isSome_unquote_escaped (b : UInt8) (p : List UInt8) : (unquote (b :: p) true).isSome ↔
    ∃ r, Escape (readChar b p).1 (readChar b p).2 r ∧ (unquote r.2 false).isSome := by
  rw [unquote_escaped]
  simp only [← unescape_eq_some]
  cases unescape (readChar b p).1 (readChar b p).2 with
  | none => simp
  | some o =>
    cases o with
    | none => simp
    | some r => simp

/-- **The strings that are accepted** are those that are in the escape syntax as they are read. -/
theorem isSome_unquote (p : List UInt8) :
    ((unquote p false).isSome ↔ Quoted (reread p)) ∧ ((unquote p true).isSome ↔ Quoted (92 :: reread p)) := by
  induction hn : p.length using Nat.strong_induction_on generalizing p with
  | _ n ih =>
  match p with
  | [] =>
    rw [unquote, if_neg Bool.false_ne_true, unquote, if_pos rfl, reread]
    refine ⟨iff_of_true rfl .nil, iff_of_false (by simp) fun h => ?_⟩
    cases h with
    | octet h _ => exact h rfl
  | b :: p =>
    have hlen := length_readChar b p
    rw [length_cons] at hn
    have hlt : (readChar b p).2.length < n := by omega
    have h92 : rereadChar b p = 92 ↔ (readChar b p).1 = 92 := rereadChar_special (by decide) p
    have h110 : rereadChar b p = 110 ↔ (readChar b p).1 = 110 := rereadChar_special (by decide) p
    have h120 : rereadChar b p = 120 ↔ (readChar b p).1 = 120 := rereadChar_special (by decide) p
    have h117 : rereadChar b p = 117 ↔ (readChar b p).1 = 117 := rereadChar_special (by decide) p
    rw [unquote_plain, isSome_unquote_escaped, reread_cons]
    constructor
    · by_cases hc : (readChar b p).1 = 92
      · rw [if_pos hc, (ih _ hlt _ rfl).2, h92.2 hc]
      · rw [if_neg hc, isSome_map, (ih _ hlt _ rfl).1, quoted_octet fun h => hc (h92.1 h)]
    · rw [quoted_escape, h92, h110, h120, h117]
      constructor
      · rintro ⟨r, hr, hrest⟩
        have hrlt : r.2.length < n := hr.suffix.length_le.trans_lt hlt
        rw [(ih _ hrlt _ rfl).1] at hrest
        generalize readChar b p = q at hr
        obtain ⟨c, p'⟩ := q
        cases hr with
        | backslash => exact .inl ⟨.inl rfl, hrest⟩
        | newline => exact .inl ⟨.inr rfl, hrest⟩
        | octet t hv =>
          have hhex := (isSome_hex2ToByte _ _).1 (isSome_of_eq_some hv)
          exact .inr (.inl ⟨rfl, _, _, _, (reread_hex hhex.1).2 ⟨_, rfl, (reread_hex hhex.2).2 ⟨_, rfl, rfl⟩⟩,
            hhex, hrest⟩)
        | short t hv =>
          have hhex := (isSome_hex4ToShort _ _ _ _).1 (isSome_of_eq_some hv)
          refine .inr (.inr ⟨rfl, _, _, _, _, _, ?_, hhex, hrest⟩)
          exact (reread_hex hhex.1.1).2 ⟨_, rfl, (reread_hex hhex.1.2).2 ⟨_, rfl, (reread_hex hhex.2.1).2 ⟨_, rfl,
            (reread_hex hhex.2.2).2 ⟨_, rfl, rfl⟩⟩⟩⟩
      · rintro (⟨hc | hc, hrest⟩ | ⟨hc, a0, a1, t, ht, hhex, hrest⟩ | ⟨hc, a0, a1, a2, a3, t, ht, hhex, hrest⟩)
        · exact ⟨(92, (readChar b p).2), hc ▸ .backslash _, (ih _ hlt _ rfl).1.2 hrest⟩
        · exact ⟨(10, (readChar b p).2), hc ▸ .newline _, (ih _ hlt _ rfl).1.2 hrest⟩
        · obtain ⟨s0, hp, hs0⟩ := (reread_hex hhex.1).1 ht
          obtain ⟨s1, rfl, rfl⟩ := (reread_hex hhex.2).1 hs0
          obtain ⟨v, hv⟩ := isSome_iff_exists.1 ((isSome_hex2ToByte _ _).2 hhex)
          rw [hp, length_cons, length_cons] at hlt
          exact ⟨(v, s1), hc ▸ hp ▸ .octet s1 hv, (ih _ (by omega) s1 rfl).1.2 hrest⟩
        · obtain ⟨s0, hp, hs0⟩ := (reread_hex hhex.1.1).1 ht
          obtain ⟨s1, rfl, hs1⟩ := (reread_hex hhex.1.2).1 hs0
          obtain ⟨s2, rfl, hs2⟩ := (reread_hex hhex.2.1).1 hs1
          obtain ⟨s3, rfl, rfl⟩ := (reread_hex hhex.2.2).1 hs2
          obtain ⟨v, hv⟩ := isSome_iff_exists.1 ((isSome_hex4ToShort _ _ _ _).2 hhex)
          rw [hp, length_cons, length_cons, length_cons, length_cons] at hlt
          exact ⟨(v, s3), hc ▸ hp ▸ .short s3 hv, (ih _ (by omega) s3 rfl).1.2 hrest⟩

/-- **A string is accepted** exactly if it is in the escape syntax, and is not read behind its end. -/
def AcceptsQuoted (str : List UInt8) : Prop :=
  ∀ utf8 utf8len, ∃ r mem, smsUtf8FromMessageStr str utf8 utf8len = some (r, mem) ∧ (r.isSome ↔ Quoted str)

/-- **Acceptance** is right exactly if a string that is read amiss is so on both sides of the syntax. -/
theorem acceptsQuoted_iff (str : List UInt8) : AcceptsQuoted str ↔ (Quoted (reread str) ↔ Quoted str) := by
  have hrun (utf8 : ℕ → UInt8) (utf8len : ℕ) := fromMessageStr_gives str utf8 utf8len
  rw [← (isSome_unquote str).1]
  constructor
  · intro h
    obtain ⟨r, mem, hr, hiff⟩ := h (fun _ => 0) 0
    obtain ⟨mem', hr', -⟩ := hrun (fun _ => 0) 0
    obtain ⟨rfl, rfl⟩ := Prod.mk.inj (Option.some.inj (hr.symm.trans hr'))
    rwa [isSome_map] at hiff
  · intro h utf8 utf8len
    obtain ⟨mem, hr, -⟩ := hrun utf8 utf8len
    exact ⟨_, mem, hr, by rwa [isSome_map]⟩

end Emulator.Telephony
