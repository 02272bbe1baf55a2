import Emulator.Telephony.MessageText
import Emulator.Telephony.Text

/-!
# Texts that come back from their message strings

* `toMessage_codes`: a text is taken for other characters, without the bits of each second octet;
* `messageStr_pieces`: the message string is made of the pieces for these characters;
* `unquote_lt`: no message string stands for a character of more than two octets;
* `messageText_iff`: which texts come back.
-/

namespace Emulator.Telephony

open List

/-- The octets of the code `v` in UTF-8. -/
def utf8Octets (v : ℕ) : List UInt8 :=
  if v ≤ 0x7f then [.ofNat v]
  else if v ≤ 0x7ff then [.ofNat (v / 64 % 0x20 + 0xc0), .ofNat (v % 0x40 + 0x80)]
  else if v ≤ 0xffff then [.ofNat (v / 4096 % 0x10 + 0xe0), .ofNat (v / 64 % 0x40 + 0x80), .ofNat (v % 0x40 + 0x80)]
  else [.ofNat (v / 262144 % 0x08 + 0xf0), .ofNat (v / 4096 % 0x40 + 0x80), .ofNat (v / 64 % 0x40 + 0x80),
    .ofNat (v % 0x40 + 0x80)]

theorem utf8EncodeChar_eq (c : Char) : String.utf8EncodeChar c = utf8Octets c.toNat := rfl

/-- What is read for the code `v` in UTF-8: the code without the bits of the second octet. -/
def codeValue (v : ℕ) : ℕ :=
  if v ≤ 0x7f then v
  else if v ≤ 0x7ff then v / 64
  else if v ≤ 0xffff then v / 4096 * 64 + v % 64
  else v / 262144 * 4096 + v % 4096

theorem encode_lead : (∀ x < 32, (128 : UInt8) ≤ .ofNat (x + 0xc0) ∧ (leadBits (.ofNat (x + 0xc0))).toNat = x) ∧
    (∀ x < 16, (128 : UInt8) ≤ .ofNat (x + 0xe0) ∧ (leadBits (.ofNat (x + 0xe0))).toNat = x) ∧
    ∀ x < 8, (128 : UInt8) ≤ .ofNat (x + 0xf0) ∧ (leadBits (.ofNat (x + 0xf0))).toNat = x := by
  decide

theorem encode_tail : ∀ x < 64, UInt8.ofNat (x + 0x80) &&& 0xc0 = 0x80 ∧
    (UInt8.ofNat (x + 0x80) &&& 0x3f).toNat = x := by
  decide

theorem continuation_boundary {l : List UInt8} (h : Boundary l) (c : ℤ) : continuation c l = (c, l) := by
  cases l with
  | nil => rfl
  | cons b l => rw [continuation, if_neg (h b rfl)]

theorem continuation_tail {x c : ℕ} (hx : x < 64) (hc : c < 2 ^ 24) (l : List UInt8) :
    continuation c (UInt8.ofNat (x + 0x80) :: l) = continuation ((c * 64 + x : ℕ) : ℤ) l := by
  obtain ⟨h1, h2⟩ := encode_tail x hx
  rw [continuation, if_pos h1, h2, Int.bmod_eq_of_le_mul_two (by omega) (by omega)]
  push_cast
  rfl

/-- **A character of UTF-8** as it is read, when no continuation octet follows. -/
theorem readChar_octets {v : ℕ} (hv : v < 0x110000) {l : List UInt8} (hl : Boundary l) :
    ∃ b t, utf8Octets v = b :: t ∧ readChar b (t ++ l) = ((codeValue v : ℤ), l) := by
  obtain ⟨hlead2, hlead3, hlead4⟩ := encode_lead
  unfold utf8Octets codeValue
  split_ifs with h1 h2 h3
  · obtain ⟨hlt, heq, -⟩ := ascii_octet v (by omega)
    exact ⟨_, _, rfl, by rw [readChar_ascii hlt, heq, nil_append]⟩
  · refine ⟨_, _, rfl, ?_⟩
    obtain ⟨hge, hbits⟩ := hlead2 (v / 64 % 0x20) (Nat.mod_lt _ (by omega))
    rw [readChar, if_pos hge, hbits, cons_append, nil_append, drop_succ_cons, drop_zero,
      continuation_boundary hl, Nat.mod_eq_of_lt (show v / 64 < 0x20 by omega)]
  · refine ⟨_, _, rfl, ?_⟩
    obtain ⟨hge, hbits⟩ := hlead3 (v / 4096 % 0x10) (Nat.mod_lt _ (by omega))
    rw [readChar, if_pos hge, hbits, cons_append, cons_append, nil_append, drop_succ_cons,
      drop_zero, continuation_tail (by omega) (by omega), continuation_boundary hl,
      Nat.mod_eq_of_lt (show v / 4096 < 0x10 by omega)]
  · refine ⟨_, _, rfl, ?_⟩
    obtain ⟨hge, hbits⟩ := hlead4 (v / 262144 % 0x08) (Nat.mod_lt _ (by omega))
    rw [readChar, if_pos hge, hbits, cons_append, cons_append, cons_append, nil_append,
      drop_succ_cons, drop_zero, continuation_tail (by omega) (by omega),
      continuation_tail (by omega) (by omega), continuation_boundary hl,
      Nat.mod_eq_of_lt (show v / 262144 < 0x08 by omega),
      show (v / 262144 * 64 + v / 64 % 0x40) * 64 + v % 0x40 = v / 262144 * 4096 + v % 4096 by omega]

/-- The first octet of a character of UTF-8: none of a continuation, and what it says about the code. -/
theorem utf8Octets_head (v : ℕ) : ∀ b ∈ (utf8Octets v).head?, b &&& 0xc0 ≠ 0x80 ∧ (0x80 ≤ v → 0x80 ≤ b) ∧
    (0x800 ≤ v → 0xe0 ≤ b) := by
  have h1 : ∀ v < 128, UInt8.ofNat v &&& 0xc0 ≠ 0x80 := by decide
  have h2 : ∀ x < 32, UInt8.ofNat (x + 0xc0) &&& 0xc0 ≠ 0x80 ∧ 0x80 ≤ UInt8.ofNat (x + 0xc0) := by decide
  have h3 : ∀ x < 16, UInt8.ofNat (x + 0xe0) &&& 0xc0 ≠ 0x80 ∧ 0x80 ≤ UInt8.ofNat (x + 0xe0) ∧
      0xe0 ≤ UInt8.ofNat (x + 0xe0) := by decide
  have h4 : ∀ x < 8, UInt8.ofNat (x + 0xf0) &&& 0xc0 ≠ 0x80 ∧ 0x80 ≤ UInt8.ofNat (x + 0xf0) ∧
      0xe0 ≤ UInt8.ofNat (x + 0xf0) := by decide
  unfold utf8Octets
  split_ifs with hv1 hv2 hv3
  · rintro _ ⟨⟩
    exact ⟨h1 v (by omega), fun h => by omega, fun h => by omega⟩
  · rintro _ ⟨⟩
    obtain ⟨hb, hge⟩ := h2 (v / 64 % 0x20) (Nat.mod_lt _ (by omega))
    exact ⟨hb, fun _ => hge, fun h => by omega⟩
  · rintro _ ⟨⟩
    obtain ⟨hb, hge, hhigh⟩ := h3 (v / 4096 % 0x10) (Nat.mod_lt _ (by omega))
    exact ⟨hb, fun _ => hge, fun _ => hhigh⟩
  · rintro _ ⟨⟩
    obtain ⟨hb, hge, hhigh⟩ := h4 (v / 262144 % 0x08) (Nat.mod_lt _ (by omega))
    exact ⟨hb, fun _ => hge, fun _ => hhigh⟩

theorem utf8Octets_ne_nil (v : ℕ) : utf8Octets v ≠ [] := by
  unfold utf8Octets
  split_ifs <;> exact cons_ne_nil _ _

/-- The codes of a text. -/
def codes (text : List Char) : List ℕ := text.map Char.toNat

theorem codes_lt (text : List Char) : ∀ v ∈ codes text, v < 0x110000 := by
  intro v hv
  obtain ⟨c, -, rfl⟩ := mem_map.1 hv
  have := c.valid
  simp only [UInt32.isValidChar, Nat.isValidChar] at this
  change c.val.toNat < _
  omega

/-- The text in UTF-8. -/
def textOctets (text : List Char) : List UInt8 := text.flatMap String.utf8EncodeChar

theorem textOctets_eq (text : List Char) : textOctets text = (codes text).flatMap utf8Octets := by
  rw [textOctets, codes, flatMap_map]
  rfl

theorem boundary_octets (vs : List ℕ) : Boundary (vs.flatMap utf8Octets) := by
  cases vs with
  | nil => rintro _ ⟨⟩
  | cons v vs =>
    intro b hb
    rw [flatMap_cons, List.head?_append_of_ne_nil _ (utf8Octets_ne_nil v)] at hb
    exact (utf8Octets_head v b hb).1

variable {vs : List ℕ}

/-- **A text is taken** character by character. -/
theorem toMessage_codes (strlen : ℕ) (hvs : ∀ v ∈ vs, v < 0x110000) (count : ℕ) (str : ℕ → UInt8) :
    toMessage strlen (vs.flatMap utf8Octets) count str =
      vs.foldl (fun st v => emitChar strlen (codeValue v) st.1 st.2) (count, str) := by
  induction vs generalizing count str with
  | nil => rw [flatMap_nil, toMessage, foldl_nil]
  | cons v vs ih =>
    obtain ⟨b, t, hoctets, hread⟩ := readChar_octets (hvs v mem_cons_self) (boundary_octets vs)
    rw [flatMap_cons, hoctets, cons_append, toMessage, hread, foldl_cons]
    exact ih (fun w hw => hvs w (mem_cons_of_mem _ hw)) _ _

/-- The piece of a message string for the value `v`. -/
def piece (v : ℕ) : List UInt8 :=
  if v = 10 then [92, 110]
  else if v = 92 then [92, 92]
  else if v < 32 then 92 :: 120 :: gsmHexFromByte (.ofNat v)
  else writeChar v

/-- Whether the piece is one of the two escapes of two octets. -/
def Pair (v : ℕ) : Prop := v = 10 ∨ v = 92

instance : DecidablePred Pair := fun _ => inferInstanceAs (Decidable (_ ∨ _))

theorem ofInt_natCast (v : ℕ) : UInt8.ofInt v = UInt8.ofNat v := by
  apply UInt8.toNat_inj.1
  rw [UInt8.ofInt, UInt8.toNat_ofNat', UInt8.toNat_ofNat']
  omega

theorem piece_length (v : ℕ) : 0 < (piece v).length ∧ (piece v).length ≤ 4 := by
  unfold piece writeChar gsmHexFromByte
  split_ifs <;> simp

theorem emitChar_count (strlen v count : ℕ) (str : ℕ → UInt8) :
    (emitChar strlen v count str).1 = count + (piece v).length := by
  unfold emitChar piece
  norm_cast
  split_ifs <;> rfl

theorem emitChar_written {strlen v count : ℕ} (hroom : count + (piece v).length ≤ strlen)
    (hpair : Pair v → count + (piece v).length < strlen) (str : ℕ → UInt8) :
    emitChar strlen v count str = (count + (piece v).length, putOctets str strlen count (piece v)) := by
  unfold emitChar
  norm_cast
  unfold piece at *
  split_ifs at * with h10 hlt h92 hlt h32 hlt
  · rfl
  · exact absurd (hpair (.inl h10)) hlt
  · rfl
  · exact absurd (hpair (.inr h92)) hlt
  · rw [ofInt_natCast]
    rfl
  · simp only [length_cons, gsmHexFromByte, length_nil] at hroom
    omega
  · rfl

/-- A pair in the last two octets of the buffer is left out. -/
theorem emitChar_lost {strlen v count : ℕ} (hpair : Pair v) (hroom : count + 2 = strlen) (str : ℕ → UInt8) :
    emitChar strlen v count str = (count + 2, str) := by
  have hlt : ¬ count + 2 < strlen := by omega
  rcases hpair with rfl | rfl
  · simp [emitChar, hlt]
  · simp [emitChar, hlt]

/-- The characters with the values `vs`, one after the other. -/
def emitAll (strlen : ℕ) (vs : List ℕ) (count : ℕ) (str : ℕ → UInt8) : ℕ × (ℕ → UInt8) :=
  vs.foldl (fun st (v : ℕ) => emitChar strlen v st.1 st.2) (count, str)

theorem emitAll_cons (strlen v : ℕ) (vs : List ℕ) (count : ℕ) (str : ℕ → UInt8) : emitAll strlen (v :: vs) count str =
    emitAll strlen vs (emitChar strlen v count str).1 (emitChar strlen v count str).2 := rfl

theorem emitAll_count (strlen : ℕ) (vs : List ℕ) (count : ℕ) (str : ℕ → UInt8) :
    (emitAll strlen vs count str).1 = count + (vs.flatMap piece).length := by
  induction vs generalizing count str with
  | nil => rfl
  | cons v vs ih =>
    rw [emitAll_cons, ih, emitChar_count, flatMap_cons, length_append, Nat.add_assoc]

theorem emitAll_append (strlen : ℕ) (vs ws : List ℕ) (count : ℕ) (str : ℕ → UInt8) :
    emitAll strlen (vs ++ ws) count str =
      emitAll strlen ws (emitAll strlen vs count str).1 (emitAll strlen vs count str).2 := foldl_append

/-- **All pieces are written** when they fit and the last one is no pair at the end of the buffer. -/
theorem emitAll_written {strlen : ℕ} {count : ℕ} (hroom : count + (vs.flatMap piece).length ≤ strlen)
    (hlast : count + (vs.flatMap piece).length < strlen ∨ ∀ v ∈ vs.getLast?, ¬ Pair v) (str : ℕ → UInt8) :
    emitAll strlen vs count str =
      (count + (vs.flatMap piece).length, putOctets str strlen count (vs.flatMap piece)) := by
  induction vs generalizing count str with
  | nil => rw [flatMap_nil, putOctets_nil]; rfl
  | cons v vs ih =>
    rw [flatMap_cons, length_append, ← Nat.add_assoc] at hroom hlast
    have hpair : Pair v → count + (piece v).length < strlen := by
      intro hv
      rcases hlast with hlt | hlast
      · omega
      · cases vs with
        | nil => exact absurd hv (hlast v rfl)
        | cons w vs =>
          have := (piece_length w).1
          rw [flatMap_cons, length_append] at hroom
          omega
    have htail : count + (piece v).length + (vs.flatMap piece).length < strlen ∨ ∀ w ∈ vs.getLast?, ¬ Pair w := by
      refine hlast.imp_right fun h w hw => h w ?_
      cases vs with
      | nil => exact nomatch hw
      | cons => rwa [List.getLast?_cons_cons]
    rw [emitAll_cons, emitChar_written (by omega) hpair str, ih hroom htail, putOctets_append, flatMap_cons,
      length_append, Nat.add_assoc]

/-- A pair at the end of the buffer is left out, and nothing else. -/
theorem emitAll_lost {strlen v : ℕ} {count : ℕ} (hpair : Pair v)
    (hroom : count + ((vs ++ [v]).flatMap piece).length = strlen) (str : ℕ → UInt8) :
    emitAll strlen (vs ++ [v]) count str = (strlen, putOctets str strlen count (vs.flatMap piece)) := by
  have htwo : (piece v).length = 2 := by
    rcases hpair with rfl | rfl <;> rfl
  rw [flatMap_append, length_append, flatMap_singleton, htwo] at hroom
  have hbefore : emitAll strlen vs count str =
      (count + (vs.flatMap piece).length, putOctets str strlen count (vs.flatMap piece)) :=
    emitAll_written (by omega) (.inl (by omega)) str
  rw [emitAll_append, hbefore, emitAll_cons, emitChar_lost hpair (by omega), Nat.add_assoc, hroom]
  rfl

/-- The message string that `sms_utf8_to_message_str` leaves in a buffer with these contents. -/
def messageStr (utf8 : List UInt8) (str : ℕ → UInt8) (strlen : ℕ) : List UInt8 :=
  (List.range (smsUtf8ToMessageStr utf8 str strlen).1).map (smsUtf8ToMessageStr utf8 str strlen).2

theorem map_putOctets {size n : ℕ} {octets : List UInt8} (hn : n = octets.length) (h : octets.length ≤ size)
    (mem : ℕ → UInt8) : (List.range n).map (putOctets mem size 0 octets) = octets := by
  subst hn
  refine ext_getElem (by rw [length_map, length_range]) fun i h1 h2 => ?_
  rw [getElem_map, getElem_range, putOctets, if_pos ⟨Nat.zero_le i, by omega⟩, Nat.sub_zero,
    List.getElem?_eq_getElem h2, Option.getD_some]

/-- The values that are read for a text. -/
def textValues (text : List Char) : List ℕ := (codes text).map codeValue

theorem toMessageStr_eq (text : List Char) (str : ℕ → UInt8) (strlen : ℕ) :
    smsUtf8ToMessageStr (textOctets text) str strlen = emitAll strlen (textValues text) 0 str := by
  rw [smsUtf8ToMessageStr, textOctets_eq, toMessage_codes strlen (codes_lt text), emitAll, textValues, foldl_map]

/-- The length that is reported, for every buffer. -/
theorem toMessageStr_count (text : List Char) (str : ℕ → UInt8) (strlen : ℕ) :
    (smsUtf8ToMessageStr (textOctets text) str strlen).1 = ((textValues text).flatMap piece).length := by
  rw [toMessageStr_eq, emitAll_count, Nat.zero_add]

variable {text : List Char}

theorem messageStr_written {strlen : ℕ} (hroom : ((textValues text).flatMap piece).length ≤ strlen)
    (hlast : ((textValues text).flatMap piece).length < strlen ∨ ∀ v ∈ (textValues text).getLast?, ¬ Pair v)
    (str : ℕ → UInt8) : messageStr (textOctets text) str strlen = (textValues text).flatMap piece := by
  rw [messageStr, toMessageStr_eq, emitAll_written (by rwa [Nat.zero_add]) (by rwa [Nat.zero_add])]
  exact map_putOctets (Nat.zero_add _) hroom str

/-- In a buffer full of `A` the pair that is left out reads as two of them. -/
theorem messageStr_lost {strlen v : ℕ} (hvs : textValues text = vs ++ [v])
    (hpair : Pair v) (hroom : ((textValues text).flatMap piece).length = strlen) :
    messageStr (textOctets text) (fun _ => 65) strlen = (vs ++ [65, 65]).flatMap piece := by
  have htwo : (piece v).length = 2 := by
    rcases hpair with rfl | rfl <;> rfl
  have hlen : (vs.flatMap piece).length + 2 = strlen := by
    rw [hvs, flatMap_append, length_append, flatMap_singleton, htwo] at hroom
    exact hroom
  rw [messageStr, toMessageStr_eq, hvs, emitAll_lost hpair (by rw [Nat.zero_add, ← hvs, hroom])]
  have hput : putOctets (fun _ => 65) strlen 0 (vs.flatMap piece) =
      putOctets (fun _ => 65) strlen 0 ((vs ++ [65, 65]).flatMap piece) := by
    funext i
    rw [flatMap_append, show [65, 65].flatMap piece = [65, 65] from rfl]
    simp only [putOctets, Nat.zero_le, true_and, Nat.sub_zero]
    split_ifs
    · rcases Nat.lt_or_ge i (vs.flatMap piece).length with hi | hi
      · rw [List.getElem?_append_left hi]
      · rw [List.getElem?_append_right hi, List.getElem?_eq_none hi, Option.getD_none]
        generalize i - (vs.flatMap piece).length = k
        rcases k with _ | _ | k <;> rfl
    · rfl
  have hall : strlen = ((vs ++ [65, 65]).flatMap piece).length := by
    rw [flatMap_append, length_append, ← hlen]
    rfl
  rw [hput]
  exact map_putOctets hall (Nat.le_of_eq hall.symm) _

variable {p : List UInt8}

theorem unquote_escape {b : UInt8} {r : ℤ × List UInt8} (h : Escape (readChar b p).1 (readChar b p).2 r) :
    unquote (b :: p) true = (unquote r.2 false).map (writeChar r.1 ++ ·) := by
  rw [unquote_escaped, unescape_eq_some.2 h]
  rfl

theorem unquote_backslash (p : List UInt8) : unquote (92 :: p) false = unquote p true := by
  rw [unquote_plain, readChar_ascii (by decide), if_pos (by rfl)]

theorem writeChar_ascii {v : ℕ} (hv : v < 128) : writeChar v = [.ofNat v] := by
  rw [writeChar, if_pos (by omega), ofInt_natCast]

/-- **The piece of an ASCII character** stands for it. -/
theorem unquote_piece {v : ℕ} (hv : v < 128) (l : List UInt8) :
    unquote (piece v ++ l) false = (unquote l false).map (.ofNat v :: ·) := by
  have hwrite : (fun out => writeChar v ++ out) = fun out => .ofNat v :: out := by
    rw [writeChar_ascii hv]
    rfl
  unfold piece
  split_ifs with h10 h92 h32
  · have hesc : Escape (readChar 110 l).1 (readChar 110 l).2 ((v : ℤ), l) := by
      rw [readChar_ascii (by decide), h10]
      exact .newline l
    rw [cons_append, unquote_backslash, cons_append, nil_append, unquote_escape hesc, hwrite]
  · have hesc : Escape (readChar 92 l).1 (readChar 92 l).2 ((v : ℤ), l) := by
      rw [readChar_ascii (by decide), h92]
      exact .backslash l
    rw [cons_append, unquote_backslash, cons_append, nil_append, unquote_escape hesc, hwrite]
  · have hhex := hex2_byte (.ofNat v)
    rw [(ascii_octet v hv).2.1] at hhex
    have hesc (h0 h1 : UInt8) (h : gsmHex2ToByte h0 h1 = some v) :
        Escape (readChar 120 (h0 :: h1 :: l)).1 (readChar 120 (h0 :: h1 :: l)).2 ((v : ℤ), l) := by
      rw [readChar_ascii (by decide)]
      exact .octet l h
    rw [gsmHexFromByte, cons_append, unquote_backslash, cons_append, (ascii_octet v hv).2.1, cons_append,
      cons_append, nil_append, unquote_escape (hesc _ _ hhex), hwrite]
  · have hb := ascii_octet v hv
    rw [writeChar_ascii hv, singleton_append, unquote_plain, readChar_ascii hb.1, hb.2.1,
      if_neg (show ¬ (v : ℤ) = 92 by omega), hwrite]

theorem unquote_pieces (hvs : ∀ v ∈ vs, v < 128) :
    unquote (vs.flatMap piece) false = some (vs.map UInt8.ofNat) := by
  induction vs with
  | nil => rw [flatMap_nil, unquote, if_neg Bool.false_ne_true]; rfl
  | cons v vs ih =>
    rw [flatMap_cons, unquote_piece (hvs v mem_cons_self), ih fun w hw => hvs w (mem_cons_of_mem _ hw)]
    rfl

/-- Nowhere more than four continuation octets in a row: no character overflows an `int`. -/
def Short (p : List UInt8) : Prop :=
  ∀ s, s <:+ p → (s.takeWhile fun b => b &&& 0xc0 == 0x80).length ≤ 4

theorem Short.suffix {p s : List UInt8} (h : Short p) (hs : s <:+ p) : Short s := fun t ht => h t (ht.trans hs)

theorem continuation_suffix (c : ℤ) (p : List UInt8) : (continuation c p).2 <:+ p := by
  induction p generalizing c with
  | nil => exact suffix_refl []
  | cons b p ih =>
    rw [continuation]
    split_ifs
    · exact (ih _).trans (suffix_cons b p)
    · exact suffix_refl _

theorem readChar_suffix (b : UInt8) (p : List UInt8) : (readChar b p).2 <:+ p := by
  rw [readChar]
  split_ifs
  · exact (continuation_suffix _ _).trans (drop_suffix 1 p)
  · exact suffix_refl p

theorem low_bits_lt (b : UInt8) : (b &&& 0x3f).toNat < 64 := by
  rw [UInt8.toNat_and]
  exact Nat.and_lt_two_pow (n := 6) _ (by decide)

theorem leadBits_lt (b : UInt8) : (leadBits b).toNat < 32 := by
  have h : ∀ n < 256, (leadBits (.ofNat n)).toNat < 32 := by decide +kernel
  have hb := h b.toNat b.toNat_lt
  rwa [UInt8.ofNat_toNat] at hb

theorem continuation_nonneg {k : ℕ} (hk : k ≤ 4)
    (hp : (p.takeWhile fun b => b &&& 0xc0 == 0x80).length ≤ k) {c : ℤ} (h0 : 0 ≤ c) (hc : c < 2 ^ (29 - 6 * k)) :
    0 ≤ (continuation c p).1 := by
  induction p generalizing k c with
  | nil => exact h0
  | cons b p ih =>
    rw [continuation]
    split_ifs with hb
    · rw [takeWhile_cons_of_pos (by simpa using hb), length_cons] at hp
      obtain ⟨k, rfl⟩ : ∃ j, k = j + 1 := ⟨k - 1, by omega⟩
      have hx := low_bits_lt b
      generalize (b &&& 0x3f).toNat = x at hx
      have hpow : (2 : ℤ) ^ (29 - 6 * k) = 64 * 2 ^ (29 - 6 * (k + 1)) := by
        rw [show 29 - 6 * k = 29 - 6 * (k + 1) + 6 by omega, pow_add]
        ring
      have hle : (2 : ℤ) ^ (29 - 6 * k) ≤ 2 ^ 29 := pow_le_pow_right₀ (by norm_num) (by omega)
      rw [Int.bmod_eq_of_le_mul_two (by omega) (by omega)]
      exact ih (k := k) (by omega) (by omega) (by omega) (by rw [hpow]; omega)
    · exact h0

theorem readChar_nonneg {b : UInt8} (h : Short p) : 0 ≤ (readChar b p).1 := by
  rw [readChar]
  split_ifs
  · have := leadBits_lt b
    exact continuation_nonneg (Nat.le_refl 4) (h _ (drop_suffix 1 p)) (by omega) (by norm_num; omega)
  · exact Int.natCast_nonneg _

theorem Escape.nonneg {c : ℤ} {r : ℤ × List UInt8} (h : Escape c p r) : 0 ≤ r.1 := by
  cases h with
  | backslash | newline => exact Int.le.intro_sub _ rfl
  | octet | short => exact Int.natCast_nonneg _

theorem writeChar_lt {c : ℤ} (hc : 0 ≤ c) : ∀ b ∈ writeChar c, b < 0xe0 := by
  have hlow : ∀ v < 128, UInt8.ofNat v < 0xe0 := by decide
  have hlead : ∀ x < 32, UInt8.ofNat (0xc0 ||| x) < 0xe0 := by decide
  have htail : ∀ x < 64, UInt8.ofNat (0x80 ||| x) < 0xe0 := by decide
  have hand (v n : ℕ) : v &&& (2 ^ n - 1) < 2 ^ n := Nat.and_lt_two_pow _ (Nat.sub_lt (Nat.two_pow_pos n) one_pos)
  obtain ⟨v, rfl⟩ := Int.eq_ofNat_of_zero_le hc
  rw [writeChar, Int.toNat_natCast]
  split_ifs with h128 h800
  · simp only [mem_singleton, forall_eq]
    rw [ofInt_natCast]
    exact hlow v (by omega)
  · simp only [mem_cons, not_mem_nil, or_false, forall_eq_or_imp, forall_eq]
    exact ⟨hlead _ (hand (v >>> 6) 5), htail _ (hand v 6)⟩
  · simp only [mem_cons, not_mem_nil, or_false, forall_eq_or_imp, forall_eq]
    exact ⟨hlead _ ((hand (v >>> 12) 4).trans (by norm_num)), htail _ (hand (v >>> 6) 6), htail _ (hand v 6)⟩

/-- **Only short characters** are made of a message string. -/
theorem unquote_lt (hp : Short p) {escaped : Bool} {out : List UInt8}
    (h : unquote p escaped = some out) : ∀ b ∈ out, b < 0xe0 := by
  induction hn : p.length using Nat.strong_induction_on generalizing p escaped out with
  | _ n ih =>
  rcases p with _ | ⟨b, p⟩ <;> rcases escaped with _ | _
  · rw [unquote, if_neg Bool.false_ne_true] at h
    cases h
    exact fun b hb => absurd hb not_mem_nil
  · rw [unquote, if_pos rfl] at h
    cases h
  · -- a character on its own
    have hp' := hp.suffix (suffix_cons b p)
    have hlt : (readChar b p).2.length < n := by
      have := length_readChar b p
      rw [← hn, length_cons]
      omega
    have hsuffix := hp'.suffix (readChar_suffix b p)
    rw [unquote_plain] at h
    split_ifs at h
    · exact ih _ hlt hsuffix h rfl
    · obtain ⟨rest, hrest, rfl⟩ := Option.map_eq_some_iff.1 h
      intro x hx
      rcases mem_append.1 hx with hx | hx
      · exact writeChar_lt (readChar_nonneg hp') x hx
      · exact ih _ hlt hsuffix hrest rfl x hx
  · -- an escape sequence
    have hp' := hp.suffix (suffix_cons b p)
    obtain ⟨r, hr, hrest⟩ := (isSome_unquote_escaped b p).1 (Option.isSome_of_eq_some h)
    rw [unquote_escape hr] at h
    obtain ⟨rest, hrest, rfl⟩ := Option.map_eq_some_iff.1 h
    have hsuffix := hr.suffix.trans (readChar_suffix b p)
    have hlt : r.2.length < n := by
      have := hsuffix.length_le
      rw [← hn, length_cons]
      omega
    intro x hx
    rcases mem_append.1 hx with hx | hx
    · exact writeChar_lt hr.nonneg x hx
    · exact ih _ hlt (hp'.suffix hsuffix) hrest rfl x hx

theorem short_append {a l : List UInt8} (ha : a.length ≤ 4) (hl : Short l) (hb : Boundary l) : Short (a ++ l) := by
  induction a with
  | nil => exact hl
  | cons x a ih =>
    intro s hs
    rw [cons_append, suffix_cons_iff] at hs
    rcases hs with rfl | hs
    · -- the whole list: the row ends in front of `l`
      have hnone : l.takeWhile (fun b => b &&& 0xc0 == 0x80) = [] := by
        cases l with
        | nil => rfl
        | cons b l => exact takeWhile_cons_of_neg (by simpa using hb b rfl)
      rw [← cons_append, takeWhile_append]
      split_ifs
      · rwa [hnone, append_nil]
      · exact (List.takeWhile_prefix _).length_le.trans ha
    · exact ih (by rw [length_cons] at ha; omega) s hs

theorem piece_head (v : ℕ) : ∀ b ∈ (piece v).head?, b &&& 0xc0 ≠ 0x80 := by
  have hlow : ∀ v < 128, UInt8.ofNat v &&& 0xc0 ≠ 0x80 := by decide
  have hlead : ∀ x < 32, UInt8.ofNat (0xc0 ||| x) &&& 0xc0 ≠ 0x80 := by decide
  have hand (v n : ℕ) : v &&& (2 ^ n - 1) < 2 ^ n := Nat.and_lt_two_pow _ (Nat.sub_lt (Nat.two_pow_pos n) one_pos)
  unfold piece writeChar
  split_ifs
  · rintro _ ⟨⟩; decide
  · rintro _ ⟨⟩; decide
  · rintro _ ⟨⟩; decide
  · rintro _ ⟨⟩
    rw [ofInt_natCast]
    exact hlow v (by omega)
  · rintro _ ⟨⟩
    exact hlead _ (hand (v >>> 6) 5)
  · rintro _ ⟨⟩
    exact hlead _ ((hand (v >>> 12) 4).trans (by norm_num))

theorem boundary_pieces (vs : List ℕ) : Boundary (vs.flatMap piece) := by
  cases vs with
  | nil => rintro _ ⟨⟩
  | cons v vs =>
    intro b hb
    rw [flatMap_cons, List.head?_append_of_ne_nil _ (ne_nil_of_length_pos (piece_length v).1)] at hb
    exact piece_head v b hb

theorem short_pieces (vs : List ℕ) : Short (vs.flatMap piece) := by
  induction vs with
  | nil =>
    intro s hs
    rw [flatMap_nil, suffix_nil] at hs
    rw [hs]
    exact Nat.zero_le 4
  | cons v vs ih =>
    rw [flatMap_cons]
    exact short_append (piece_length v).2 ih (boundary_pieces vs)

/-- **A text comes back** from its message string, whatever the buffers held before, and both functions report the
length that is needed for every size of the buffer. -/
structure ComesBack (utf8 : List UInt8) (strlen utf8len : ℕ) : Prop where
  back : ∀ str mem, ∃ mem', smsUtf8FromMessageStr (messageStr utf8 str strlen) mem utf8len =
    some (some utf8.length, mem') ∧ ∀ i (h : i < utf8.length), mem' i = utf8[i]
  toLength : ∀ str str' size, (smsUtf8ToMessageStr utf8 str' size).1 = (messageStr utf8 str strlen).length
  fromLength : ∀ str mem size, (smsUtf8FromMessageStr (messageStr utf8 str strlen) mem size).map Prod.fst =
    some (some utf8.length)

/-- The octets that come back, if they fit into the buffer. -/
theorem comesBack_unquote {utf8 : List UInt8} {strlen utf8len : ℕ} (h : ComesBack utf8 strlen utf8len)
    (hlen : utf8.length ≤ utf8len) (str : ℕ → UInt8) : unquote (messageStr utf8 str strlen) false = some utf8 := by
  obtain ⟨mem', hrun, hmem⟩ := h.back str fun _ => 0
  obtain ⟨mem'', hrun', hout⟩ := fromMessageStr_gives (messageStr utf8 str strlen) (fun _ => 0) utf8len
  obtain ⟨hcount, rfl⟩ := Prod.mk.inj (Option.some.inj (hrun.symm.trans hrun'))
  obtain ⟨out, hsome, hlength⟩ := Option.map_eq_some_iff.1 hcount.symm
  rw [Nat.zero_add] at hlength
  rw [hsome, Option.some.injEq]
  refine ext_getElem hlength fun i h1 h2 => ?_
  rw [← hmem i h2, hout out hsome, putOctets, if_pos ⟨Nat.zero_le i, h2.trans_le hlen⟩, Nat.sub_zero,
    List.getElem?_eq_getElem h1, Option.getD_some]

/-- **The message string in a buffer full of `A`** is made of pieces, with all of the text or without the last pair. -/
theorem messageStr_pieces {strlen : ℕ} (hroom : ((textValues text).flatMap piece).length ≤ strlen) :
    ∃ ws, messageStr (textOctets text) (fun _ => 65) strlen = ws.flatMap piece ∧
      (ws = textValues text ∧
          (((textValues text).flatMap piece).length < strlen ∨ ∀ v ∈ (textValues text).getLast?, ¬ Pair v) ∨
        ∃ vs v, textValues text = vs ++ [v] ∧ ws = vs ++ [65, 65]) := by
  by_cases hlast : ((textValues text).flatMap piece).length < strlen ∨ ∀ v ∈ (textValues text).getLast?, ¬ Pair v
  · exact ⟨_, messageStr_written hroom hlast _, .inl ⟨rfl, hlast⟩⟩
  · push Not at hlast
    obtain ⟨hfull, v, hv, hpair⟩ := hlast
    obtain ⟨vs, hvs⟩ := List.getLast?_eq_some_iff.1 hv
    exact ⟨_, messageStr_lost hvs hpair (Nat.le_antisymm hroom hfull), .inr ⟨vs, v, hvs, rfl⟩⟩

theorem head_mem_textOctets {c : Char} (hc : c ∈ text) :
    ∃ b ∈ textOctets text, b ∈ (utf8Octets c.toNat).head? := by
  obtain ⟨b, t, hb⟩ := exists_cons_of_ne_nil (utf8Octets_ne_nil c.toNat)
  refine ⟨b, ?_, by rw [hb]; rfl⟩
  rw [textOctets, mem_flatMap]
  exact ⟨c, hc, by rw [utf8EncodeChar_eq, hb]; exact mem_cons_self⟩

theorem textValues_ascii (h : ∀ c ∈ text, c.toNat < 128) : textValues text = codes text := by
  rw [textValues]
  refine (map_congr_left fun v hv => ?_).trans (map_id _)
  obtain ⟨c, hc, rfl⟩ := mem_map.1 hv
  rw [codeValue, if_pos (Nat.le_of_lt_succ (h c hc))]
  rfl

theorem textOctets_ascii (h : ∀ c ∈ text, c.toNat < 128) :
    textOctets text = (codes text).map UInt8.ofNat := by
  induction text with
  | nil => rfl
  | cons c text ih =>
    have hc : utf8Octets c.toNat = [.ofNat c.toNat] := by
      rw [utf8Octets, if_pos (Nat.le_of_lt_succ (h c mem_cons_self))]
    have htext := ih fun b hb => h b (mem_cons_of_mem _ hb)
    rw [textOctets, flatMap_cons, utf8EncodeChar_eq, hc, singleton_append]
    exact congrArg _ htext

/-- **Which texts come back**: those in ASCII that do not end in a pair at the end of the buffer. -/
theorem comesBack_iff {strlen utf8len : ℕ}
    (hroom : ((textValues text).flatMap piece).length ≤ strlen) (hlen : (textOctets text).length ≤ utf8len) :
    ComesBack (textOctets text) strlen utf8len ↔ (∀ c ∈ text, c.toNat < 128) ∧
      (((textValues text).flatMap piece).length < strlen ∨ ∀ v ∈ (textValues text).getLast?, ¬ Pair v) := by
  constructor
  · intro h
    obtain ⟨ws, hws, hcases⟩ := messageStr_pieces hroom
    have hback := comesBack_unquote h hlen fun _ => 65
    rw [hws] at hback
    have hshort : ∀ c ∈ text, c.toNat < 0x800 := by
      intro c hc
      by_contra hge
      obtain ⟨b, hb, hhead⟩ := head_mem_textOctets hc
      exact UInt8.not_le.2 (unquote_lt (short_pieces ws) hback b hb) ((utf8Octets_head _ b hhead).2.2 (by omega))
    have hvalues : ∀ v ∈ textValues text, v < 128 := by
      intro v hv
      obtain ⟨u, hu, rfl⟩ := mem_map.1 hv
      obtain ⟨c, hc, rfl⟩ := mem_map.1 hu
      have := hshort c hc
      unfold codeValue
      split_ifs <;> omega
    have hlow : ∀ v ∈ ws, v < 128 := by
      rcases hcases with ⟨rfl, -⟩ | ⟨vs, v, hvs, rfl⟩
      · exact hvalues
      · intro w hw
        rcases mem_append.1 hw with hw | hw
        · exact hvalues w (hvs ▸ mem_append_left _ hw)
        · simp only [mem_cons, not_mem_nil, or_false, or_self] at hw
          omega
    rw [unquote_pieces hlow, Option.some.injEq] at hback
    have hascii : ∀ c ∈ text, c.toNat < 128 := by
      intro c hc
      by_contra hge
      obtain ⟨b, hb, hhead⟩ := head_mem_textOctets hc
      rw [← hback] at hb
      obtain ⟨w, hw, rfl⟩ := mem_map.1 hb
      exact UInt8.not_le.2 (ascii_octet w (hlow w hw)).1 ((utf8Octets_head _ _ hhead).2.1 (by omega))
    refine ⟨hascii, ?_⟩
    rcases hcases with ⟨-, hlast⟩ | ⟨vs, v, hvs, rfl⟩
    · exact hlast
    · rw [textOctets_ascii hascii, ← textValues_ascii hascii, hvs] at hback
      have := congrArg List.length hback
      simp at this
  · rintro ⟨hascii, hlast⟩
    have hvalues : ∀ v ∈ textValues text, v < 128 := by
      rw [textValues_ascii hascii]
      intro v hv
      obtain ⟨c, hc, rfl⟩ := mem_map.1 hv
      exact hascii c hc
    have hmessage := messageStr_written hroom hlast
    have hunquote (str : ℕ → UInt8) :
      unquote (messageStr (textOctets text) str strlen) false = some (textOctets text) := by
      rw [hmessage, unquote_pieces hvalues, textOctets_ascii hascii, textValues_ascii hascii]
    constructor
    · intro str mem
      obtain ⟨mem', hrun, hout⟩ := fromMessageStr_gives (messageStr (textOctets text) str strlen) mem utf8len
      rw [hunquote] at hrun hout
      refine ⟨mem', by rw [hrun, Option.map_some, Nat.zero_add], fun i hi => ?_⟩
      rw [hout _ rfl, putOctets, if_pos ⟨Nat.zero_le i, hi.trans_le hlen⟩, Nat.sub_zero, List.getElem?_eq_getElem hi,
        Option.getD_some]
    · intro str str' size
      rw [toMessageStr_count, hmessage]
    · intro str mem size
      obtain ⟨mem', hrun, -⟩ := fromMessageStr_gives (messageStr (textOctets text) str strlen) mem size
      rw [hrun, hunquote, Option.map_some, Option.map_some, Nat.zero_add]

/-- The length of the piece of an ASCII character. -/
def escapeLength (c : Char) : ℕ := if c.toNat = 10 ∨ c.toNat = 92 then 2 else if c.toNat < 32 then 4 else 1

theorem length_pieces (h : ∀ c ∈ text, c.toNat < 128) :
    ((textValues text).flatMap piece).length = (text.map escapeLength).sum := by
  rw [textValues_ascii h, codes, flatMap_map, length_flatMap]
  refine congrArg List.sum (map_congr_left fun c hc => ?_)
  have hwrite := writeChar_ascii (h c hc)
  by_cases hpair : c.toNat = 10 ∨ c.toNat = 92
  · rw [escapeLength, if_pos hpair]
    rcases hpair with hc | hc <;> (rw [hc]; rfl)
  · rw [escapeLength, if_neg hpair, piece, if_neg (fun h => hpair (.inl h)), if_neg (fun h => hpair (.inr h))]
    split_ifs
    · rfl
    · rw [hwrite]
      rfl

theorem last_pair (h : ∀ c ∈ text, c.toNat < 128) :
    (∀ v ∈ (textValues text).getLast?, ¬ Pair v) ↔ ∀ c ∈ text.getLast?, c.toNat ≠ 10 ∧ c.toNat ≠ 92 := by
  rw [textValues_ascii h, codes, List.getLast?_map]
  simp only [Option.mem_def, Option.map_eq_some_iff, Pair, not_or]
  constructor
  · exact fun hall c hc => hall _ ⟨c, hc, rfl⟩
  · rintro hall _ ⟨c, hc, rfl⟩
    exact hall c hc

/-- **Message strings**: a text comes back if it is in ASCII and, where the buffer has no room to spare, does not end
in a line feed or a backslash. A string is taken rightly if what it is read as is in the syntax when it is itself. -/
theorem messageText_iff (text : List Char) {strlen utf8len : ℕ}
    (hstr : (smsUtf8ToMessageStr (textOctets text) (fun _ => 0) 0).1 ≤ strlen)
    (hutf8 : (textOctets text).length ≤ utf8len) (str : List UInt8) :
    ComesBack (textOctets text) strlen utf8len ∧ AcceptsQuoted str ↔
      (∀ c ∈ text, c.toNat < 128) ∧
      ((text.map escapeLength).sum < strlen ∨ ∀ c ∈ text.getLast?, c.toNat ≠ 10 ∧ c.toNat ≠ 92) ∧
      (Quoted (reread str) ↔ Quoted str) := by
  rw [toMessageStr_count] at hstr
  rw [comesBack_iff hstr hutf8, acceptsQuoted_iff, and_assoc]
  refine and_congr_right fun hascii => ?_
  rw [length_pieces hascii, last_pair hascii]

/-- The text `a` in buffers of one octet. -/
theorem messageText_iff_letter :
    ComesBack (textOctets ['a']) 1 1 ∧ AcceptsQuoted [97] ↔
      (∀ c ∈ ['a'], c.toNat < 128) ∧
      ((['a'].map escapeLength).sum < 1 ∨ ∀ c ∈ ['a'].getLast?, c.toNat ≠ 10 ∧ c.toNat ≠ 92) ∧
      (Quoted (reread [97]) ↔ Quoted [97]) :=
  messageText_iff ['a'] (by decide +kernel) (by decide) [97]

/-- The text with the one character U+00E9 comes back as one octet. -/
theorem messageText_accent : ¬ (ComesBack (textOctets [Char.ofNat 0xe9]) 8 8 ∧ AcceptsQuoted []) := by
  intro h
  have hlength := h.1.fromLength (fun _ => 0) (fun _ => 0) 8
  have hone : (smsUtf8FromMessageStr (messageStr (textOctets [Char.ofNat 0xe9]) (fun _ => 0) 8) (fun _ => 0) 8).map
      Prod.fst = some (some 1) := by decide +kernel
  rw [hone] at hlength
  exact absurd hlength (by decide)

end Emulator.Telephony
