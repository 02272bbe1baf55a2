import Emulator.Lib.Buffer

/-!
# UTF-8, the GSM alphabet, septets and ropes

`telephony/gsm.c`, as far as the SMS code uses it. A function that counts when its
destination is `NULL` returns here what it would write; the count is the length of that.
A loop `while (utf8 < utf8end) c = utf8_next (&utf8, utf8end)` runs over `utf8Codes`.

* `length_utf8ToGsm7`: the septets that are written fill as many octets as are reserved for
  them.
* `Adds.comp`: what the two passes over a rope do, the one that counts and the one that
  writes.
-/

namespace Emulator.Telephony

open List

/-- The continuation octets of a character are taken in. -/
def utf8Tail (c : ℕ) : List UInt8 → ℕ × List UInt8
  | [] => (c, [])
  | b :: p => if b &&& 0xc0 = 0x80 then utf8Tail (c <<< 6 ||| (b &&& 0x3f).toNat) p else (c, b :: p)

/-- `none` at the end. -/
def utf8Next : List UInt8 → Option (ℕ × List UInt8)
  | [] => none
  | b :: p =>
    if b < 128 then some (b.toNat, p)
    else if b &&& 0xe0 = 0xc0 then some (utf8Tail (b &&& 0x1f).toNat p)
    else if b &&& 0xf0 = 0xe0 then some (utf8Tail (b &&& 0x0f).toNat p)
    else some (utf8Tail (b &&& 0x07).toNat p)

/-- What at most `fuel` calls of `utf8_next` return. -/
def utf8CodesIn : (fuel : ℕ) → List UInt8 → List ℕ
  | 0, _ => []
  | fuel + 1, utf8 =>
    match utf8Next utf8 with
    | none => []
    | some (c, rest) => c :: utf8CodesIn fuel rest

/-- What the calls of `utf8_next` return until the end; each takes an octet at least. -/
def utf8Codes (utf8 : List UInt8) : List ℕ := utf8CodesIn utf8.length utf8

def utf8Write (v : ℕ) : List UInt8 :=
  if v < 128 then [.ofNat v]
  else if v < 0x800 then [.ofNat (0xc0 ||| v >>> 6), .ofNat (0x80 ||| v &&& 0x3f)]
  else if v < 0x10000 then
    [.ofNat (0xe0 ||| v >>> 12), .ofNat (0x80 ||| v >>> 6 &&& 0x3f), .ofNat (0x80 ||| v &&& 0x3f)]
  else
    [.ofNat (0xf0 ||| v >>> 18 &&& 0x7), .ofNat (0x80 ||| v >>> 12 &&& 0x3f), .ofNat (0x80 ||| v >>> 6 &&& 0x3f),
      .ofNat (0x80 ||| v &&& 0x3f)]

def ucs2Write (v : ℕ) : List UInt8 := [.ofNat (v >>> 8), .ofNat v]

/-- `ucs2` is what stands at the source pointer and behind it. -/
def ucs2ToUtf8 (ucs2 : ℕ → UInt8) (ucs2len : ℕ) : List UInt8 :=
  (List.range ucs2len).flatMap fun nn => utf8Write ((ucs2 (2 * nn)).toNat <<< 8 ||| (ucs2 (2 * nn + 1)).toNat)

def utf8ToUcs2 (utf8 : List UInt8) : List UInt8 := (utf8Codes utf8).flatMap ucs2Write

def gsm7bitsEscape : ℕ := 0x1b

def gsm7bitsToUnicode : List ℕ := [
  0x40, 0xa3, 0x24, 0xa5, 0xe8, 0xe9, 0xf9, 0xec, 0xf2, 0xc7, 0x0a, 0xd8, 0xf8, 0x0d, 0xc5, 0xe5,
  0x394, 0x5f, 0x3a6, 0x393, 0x39b, 0x3a9, 0x3a0, 0x3a8, 0x3a3, 0x398, 0x39e, 0, 0xc6, 0xe6, 0xdf, 0xc9,
  0x20, 0x21, 0x22, 0x23, 0xa4, 0x25, 0x26, 0x27, 0x28, 0x29, 0x2a, 0x2b, 0x2c, 0x2d, 0x2e, 0x2f,
  0x30, 0x31, 0x32, 0x33, 0x34, 0x35, 0x36, 0x37, 0x38, 0x39, 0x3a, 0x3b, 0x3c, 0x3d, 0x3e, 0x3f,
  0xa1, 0x41, 0x42, 0x43, 0x44, 0x45, 0x46, 0x47, 0x48, 0x49, 0x4a, 0x4b, 0x4c, 0x4d, 0x4e, 0x4f,
  0x50, 0x51, 0x52, 0x53, 0x54, 0x55, 0x56, 0x57, 0x58, 0x59, 0x5a, 0xc4, 0xd6, 0x147, 0xdc, 0xa7,
  0xbf, 0x61, 0x62, 0x63, 0x64, 0x65, 0x66, 0x67, 0x68, 0x69, 0x6a, 0x6b, 0x6c, 0x6d, 0x6e, 0x6f,
  0x70, 0x71, 0x72, 0x73, 0x74, 0x75, 0x76, 0x77, 0x78, 0x79, 0x7a, 0xe4, 0xf6, 0xf1, 0xfc, 0xe0]

def gsm7bitsExtendToUnicode : List ℕ := [
  0, 0, 0, 0, 0, 0, 0, 0, 0, 0, 0x0c, 0, 0, 0, 0, 0,
  0, 0, 0, 0, 0x5e, 0, 0, 0, 0, 0, 0, 0, 0, 0, 0, 0,
  0, 0, 0, 0, 0, 0, 0, 0, 0x7b, 0x7d, 0, 0, 0, 0, 0, 0x5c,
  0, 0, 0, 0, 0, 0, 0, 0, 0, 0, 0, 0, 0x5b, 0x7e, 0x5d, 0,
  0x7c, 0, 0, 0, 0, 0, 0, 0, 0, 0, 0, 0, 0, 0, 0, 0,
  0, 0, 0, 0, 0, 0, 0, 0, 0, 0, 0, 0, 0, 0, 0, 0,
  0, 0, 0, 0, 0, 0x20ac, 0, 0, 0, 0, 0, 0, 0, 0, 0, 0,
  0, 0, 0, 0, 0, 0, 0, 0, 0, 0, 0, 0, 0, 0, 0, 0]

def unicharToGsm7 (unicode : ℕ) : Option ℕ := gsm7bitsToUnicode.idxOf? unicode

def unicharToGsm7Extend (unichar : ℕ) : Option ℕ := gsm7bitsExtendToUnicode.idxOf? unichar

/-- The number of septets for a character, 0 if the alphabet does not have it. -/
def unicharToGsm7Count (unicode : ℕ) : ℕ :=
  if (unicharToGsm7 unicode).isSome then 1
  else if (unicharToGsm7Extend unicode).isSome then 2
  else 0

/-- Characters that the alphabet does not have are replaced by spaces. -/
def gsm7Len (c : ℕ) : ℕ := if unicharToGsm7Count c = 0 then 1 else unicharToGsm7Count c

/-- The loop of `utf8_skip_gsm7`; each round takes a septet at least. -/
def utf8SkipGsm7In : (fuel : ℕ) → List UInt8 → (gsm7len : ℕ) → List UInt8
  | 0, p, _ => p
  | fuel + 1, p, gsm7len =>
    if gsm7len = 0 then p
    else match utf8Next p with
      | none => p
      | some (c, q) => if gsm7len < gsm7Len c then p else utf8SkipGsm7In fuel q (gsm7len - gsm7Len c)

/-- What is left of the text behind `gsm7len` septets. -/
def utf8SkipGsm7 (utf8 : List UInt8) (gsm7len : ℕ) : List UInt8 := utf8SkipGsm7In gsm7len utf8 gsm7len

def utf8CheckGsm7 (utf8 : List UInt8) : Bool := (utf8Codes utf8).all fun c => unicharToGsm7Count c ≠ 0

/-- The loop of `utf8_from_gsm7`. `escaped` is not reset behind an extended character. -/
def utf8FromGsm7In (src : ℕ → UInt8) : (septetCount pos shift : ℕ) → (escaped : Bool) → List UInt8
  | 0, _, _, _ => []
  | n + 1, pos, shift, escaped =>
    let c := (src pos).toNat >>> shift &&& 0x7f
    let c := if 1 < shift then ((src (pos + 1)).toNat <<< (8 - shift) ||| c) &&& 0x7f else c
    let rest := utf8FromGsm7In src n (if 8 ≤ shift + 7 then pos + 1 else pos)
      (if 8 ≤ shift + 7 then shift + 7 - 8 else shift + 7)
    if escaped then utf8Write (gsm7bitsExtendToUnicode.getD c 0) ++ rest escaped
    else if c = gsm7bitsEscape then rest true
    else utf8Write (gsm7bitsToUnicode.getD c 0) ++ rest escaped

def utf8FromGsm7 (src : ℕ → UInt8) (septetOffset septetCount : ℕ) : List UInt8 :=
  utf8FromGsm7In src septetCount (septetOffset >>> 3) (septetOffset &&& 7) false

/-- The number of septets that a text takes. -/
def utf8ToGsm7Count (utf8 : List UInt8) : ℕ := ((utf8Codes utf8).map gsm7Len).sum

/-- `out` is what has been written at `dst`. -/
structure BWriter where
  out : List UInt8
  pad : ℕ
  bits : ℕ

/-- `first` is the octet at `dst`, and `start` is less than 8. -/
def bwriterInit (first : UInt8) (start : ℕ) : BWriter :=
  ⟨[], if 0 < start then first.toNat &&& (0xff >>> (8 - start)) else 0, start⟩

def bwriterAdd7 (writer : BWriter) (value : ℕ) : BWriter :=
  let pad := writer.pad ||| value <<< writer.bits
  if 8 ≤ writer.bits + 7 then ⟨writer.out ++ [.ofNat pad], pad >>> 8, writer.bits + 7 - 8⟩
  else ⟨writer.out, pad, writer.bits + 7⟩

def bwriterDone (writer : BWriter) : List UInt8 :=
  if 0 < writer.bits then writer.out ++ [.ofNat writer.pad] else writer.out

/-- The septets of a character. -/
def unicharSeptets (c : ℕ) : List ℕ :=
  match unicharToGsm7 c with
  | some nn => [nn]
  | none =>
    match unicharToGsm7Extend c with
    | some nn => [gsm7bitsEscape, nn]
    | none => [0x20]

/-- The octets that `utf8_to_gsm7` writes at a `dst` that is not `NULL`. -/
def utf8ToGsm7 (utf8 : List UInt8) (first : UInt8) (offset : ℕ) : List UInt8 :=
  bwriterDone (((utf8Codes utf8).flatMap unicharSeptets).foldl bwriterAdd7 (bwriterInit first offset))

theorem length_unicharSeptets (c : ℕ) : (unicharSeptets c).length = gsm7Len c := by
  unfold unicharSeptets gsm7Len unicharToGsm7Count
  rcases unicharToGsm7 c with _ | nn
  · rcases unicharToGsm7Extend c with _ | nn <;> simp
  · simp

theorem foldl_bwriterAdd7 (values : List ℕ) {writer : BWriter} (hb : writer.bits < 8) :
    (values.foldl bwriterAdd7 writer).bits < 8 ∧
      8 * (values.foldl bwriterAdd7 writer).out.length + (values.foldl bwriterAdd7 writer).bits =
        8 * writer.out.length + writer.bits + 7 * values.length := by
  induction values generalizing writer with
  | nil => simpa using hb
  | cons value values ih =>
    have hstep : (bwriterAdd7 writer value).bits < 8 ∧
        8 * (bwriterAdd7 writer value).out.length + (bwriterAdd7 writer value).bits =
          8 * writer.out.length + writer.bits + 7 := by
      unfold bwriterAdd7
      split_ifs <;> simp only [length_append, length_singleton] <;> omega
    obtain ⟨h1, h2⟩ := ih hstep.1
    refine ⟨h1, ?_⟩
    rw [foldl_cons, h2, hstep.2, length_cons]
    ring

/-- **The septets fill the octets** that `gsm_rope_add_sms_deliver_pdu` reserves for them. -/
theorem length_utf8ToGsm7 (utf8 : List UInt8) (first : UInt8) {offset : ℕ} (ho : offset < 8) :
    (utf8ToGsm7 utf8 first offset).length = (utf8ToGsm7Count utf8 * 7 + offset + 7) / 8 := by
  have hlen : ((utf8Codes utf8).flatMap unicharSeptets).length = utf8ToGsm7Count utf8 := by
    rw [length_flatMap]
    exact congrArg List.sum (map_congr_left fun c _ => length_unicharSeptets c)
  have hinit : (bwriterInit first offset).bits < 8 := ho
  obtain ⟨h1, h2⟩ := foldl_bwriterAdd7 ((utf8Codes utf8).flatMap unicharSeptets) hinit
  rw [hlen, show (bwriterInit first offset).bits = offset from rfl,
    show (bwriterInit first offset).out.length = 0 from rfl] at h2
  unfold utf8ToGsm7 bwriterDone
  split_ifs with hbits
  · rw [length_append, length_singleton]
    omega
  · omega

/-- `none` for a character that is no digit. -/
def gsmHexcharToInt (c : UInt8) : Option ℕ :=
  if 48 ≤ c.toNat ∧ c.toNat < 58 then some (c.toNat - 48)
  else if 97 ≤ c.toNat ∧ c.toNat < 103 then some (10 + (c.toNat - 97))
  else if 65 ≤ c.toNat ∧ c.toNat < 71 then some (10 + (c.toNat - 65))
  else none

def gsmHex2ToByte (hi lo : UInt8) : Option ℕ :=
  (gsmHexcharToInt hi).bind fun hi => (gsmHexcharToInt lo).map fun lo => hi <<< 4 ||| lo

/-- The characters `"0123456789abcdef"`. -/
def hexdigits (v : ℕ) : UInt8 := if v < 10 then .ofNat (48 + v) else .ofNat (87 + v)

def gsmHexFromByte (val : UInt8) : List UInt8 := [hexdigits (val.toNat >>> 4), hexdigits (val.toNat &&& 15)]

theorem hex2_byte (v : UInt8) :
    gsmHex2ToByte (hexdigits (v.toNat >>> 4)) (hexdigits (v.toNat &&& 15)) = some v.toNat := by
  have h : ∀ v < 256, gsmHex2ToByte (hexdigits (v >>> 4)) (hexdigits (v &&& 15)) = some v := by decide +kernel
  exact h _ v.toNat_lt

/-- `none` if the length is odd or a character is no digit. -/
def gsmHexToBytes : List UInt8 → Option (List UInt8)
  | [] => some []
  | [_] => none
  | hi :: lo :: hex => (gsmHex2ToByte hi lo).bind fun c => (gsmHexToBytes hex).map fun dst => .ofNat c :: dst

/-- `data` is the memory at the pointer, `max` octets of it; `isData0` says that it is the array inside the rope. -/
structure GsmRope where
  data : Option (List UInt8)
  isData0 : Bool
  max : ℕ
  pos : ℕ
  error : Bool

def gsmRopeInit : GsmRope := ⟨none, false, 0, 0, false⟩

/-- The new memory is zero. -/
def gsmRopeInitAlloc (count : ℕ) : GsmRope :=
  if 0 < count then ⟨some (List.replicate count 0), false, count, 0, false⟩
  else ⟨some (List.replicate 16 0), true, 16, 0, false⟩

/-- The loop of `gsm_rope_ensure`; each round adds 4 at least. -/
def growMax : (fuel newMax newCount : ℕ) → ℕ
  | 0, newMax, _ => newMax
  | fuel + 1, newMax, newCount =>
    if newMax < newCount then growMax fuel (newMax + (newMax >>> 1 + 4)) newCount else newMax

/-- What the array inside the rope holds is lost when the rope outgrows it. -/
def gsmRopeEnsure (rope : GsmRope) (newCount : ℕ) : GsmRope :=
  match rope.data with
  | none => { rope with max := newCount }
  | some data =>
    let newMax := growMax newCount rope.max newCount
    let kept := if rope.isData0 then [] else data
    { rope with data := some (kept ++ List.replicate (newMax - kept.length) 0), isData0 := false, max := newMax }

/-- `gsm_rope_can_grow` with what it does to the rope. -/
def gsmRopeCanGrow (rope : GsmRope) (count : ℕ) : Bool × GsmRope :=
  if rope.data = none ∨ rope.error then (false, rope)
  else if rope.max < rope.pos + count then (true, gsmRopeEnsure rope (rope.pos + count))
  else (true, rope)

/-- The three functions that add to a rope: `count` octets more, and `src` is written at their place if there is
memory. -/
def gsmRopeGrow (rope : GsmRope) (count : ℕ) (src : List UInt8) : GsmRope :=
  let (canGrow, rope) := gsmRopeCanGrow rope count
  { rope with
    data := if canGrow then rope.data.map fun data => overwrite data rope.pos src else rope.data
    pos := rope.pos + count }

def gsmRopeAddC (rope : GsmRope) (c : UInt8) : GsmRope := gsmRopeGrow rope 1 [c]

def gsmRopeAdd (rope : GsmRope) (buf : List UInt8) : GsmRope := gsmRopeGrow rope buf.length buf

/-- `gsm_rope_reserve`, and `src` is what its caller then writes at the place if it is not `NULL`. -/
def gsmRopeReserve (rope : GsmRope) (count : ℕ) (src : List UInt8) : GsmRope := gsmRopeGrow rope count src

/-- The first octet of the place that `gsm_rope_reserve` returns. -/
def gsmRopeFirst (rope : GsmRope) : UInt8 := (rope.data.bind fun data => data[rope.pos]?).getD 0

/-- The rope only counts. -/
def Counting (rope : GsmRope) (n : ℕ) : Prop := rope.data = none ∧ rope.pos = n ∧ rope.error = false

/-- The rope has memory, all of it zero behind the octets that were written. -/
def Written (rope : GsmRope) (bytes : List UInt8) : Prop :=
  bytes.length ≤ rope.max ∧ rope.data = some (bytes ++ List.replicate (rope.max - bytes.length) 0) ∧
    rope.pos = bytes.length ∧ rope.error = false

/-- The function adds the octets to a rope. -/
structure Adds (f : GsmRope → GsmRope) (bytes : List UInt8) : Prop where
  counts {rope n} : Counting rope n → Counting (f rope) (n + bytes.length)
  writes {rope l} : Written rope l → l.length + bytes.length ≤ rope.max →
    Written (f rope) (l ++ bytes) ∧ (f rope).max = rope.max

theorem Adds.comp {f g : GsmRope → GsmRope} {a b : List UInt8} (hf : Adds f a) (hg : Adds g b) :
    Adds (fun rope => g (f rope)) (a ++ b) := by
  refine ⟨fun h => ?_, fun h hle => ?_⟩
  · rw [length_append, ← Nat.add_assoc]
    exact hg.counts (hf.counts h)
  · rw [length_append] at hle
    obtain ⟨h1, h2⟩ := hf.writes h (by omega)
    obtain ⟨h3, h4⟩ := hg.writes h1 (by rw [length_append, h2]; omega)
    rw [append_assoc] at h3
    exact ⟨h3, h4.trans h2⟩

theorem Counting.grow {rope : GsmRope} {n : ℕ} (h : Counting rope n) (count : ℕ) (src : List UInt8) :
    Counting (gsmRopeGrow rope count src) (n + count) := by
  obtain ⟨h1, h2, h3⟩ := h
  unfold gsmRopeGrow gsmRopeCanGrow
  simp [Counting, h1, h2, h3]

theorem adds_grow (src : List UInt8) : Adds (fun rope => gsmRopeGrow rope src.length src) src := by
  refine ⟨fun h => h.grow .., ?_⟩
  rintro rope l ⟨h1, h2, h3, h4⟩ hle
  have hgrow : gsmRopeCanGrow rope src.length = (true, rope) := by
    unfold gsmRopeCanGrow
    rw [if_neg (by simp [h2, h4]), if_neg (by omega)]
  have hover : overwrite (l ++ List.replicate (rope.max - l.length) 0) rope.pos src =
      l ++ src ++ List.replicate (rope.max - (l ++ src).length) 0 := by
    unfold overwrite
    rw [h3, take_left, drop_append, drop_eq_nil_of_le (by omega), drop_replicate]
    simp only [nil_append, length_append, append_cancel_left_eq]
    congr 1
    omega
  unfold gsmRopeGrow
  simp only [hgrow]
  refine ⟨⟨by rw [length_append]; omega, ?_, ?_, h4⟩, trivial⟩
  · simp only [if_true, h2, Option.map_some, hover]
  · simp only [h3, length_append]

theorem adds_addC (c : UInt8) : Adds (fun rope => gsmRopeAddC rope c) [c] := adds_grow [c]

theorem adds_add (buf : List UInt8) : Adds (fun rope => gsmRopeAdd rope buf) buf := adds_grow buf

theorem Written.first {rope : GsmRope} {l : List UInt8} (h : Written rope l) : gsmRopeFirst rope = 0 := by
  obtain ⟨-, h2, h3, -⟩ := h
  unfold gsmRopeFirst
  rw [h2, h3, Option.bind_some, List.getElem?_append_right (Nat.le_refl _), List.getElem?_replicate]
  split_ifs <;> rfl

/-- The octets that the caller of `gsm_rope_reserve` writes may depend on what is there before, which is zero. -/
theorem adds_reserve {count : ℕ} (src : UInt8 → List UInt8) (h : (src 0).length = count) :
    Adds (fun rope => gsmRopeReserve rope count (src (gsmRopeFirst rope))) (src 0) := by
  subst h
  refine ⟨fun h => h.grow .., fun hw hle => ?_⟩
  rw [hw.first]
  exact (adds_grow (src 0)).writes hw hle

end Emulator.Telephony
