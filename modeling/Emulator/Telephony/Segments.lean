import Emulator.Telephony.Text

/-!
# Segmenting a text

`smspdu_create_deliver_utf8` computes the number of PDUs from the length of the text and
then cuts the text with `utf8_skip_gsm7`. The two do not fit together: a full segment of
154 septets is one septet too long for its header, a character of two septets that does not
fit pushes text out of the last segment, and a text in UCS2 is cut by septets.

* `smspduCreateDeliver_eq`: the octets of a PDU.
* `segments_iff`: a text is segmented well exactly if it fits one segment.
-/

namespace Emulator.Telephony

open List

/-- The octets of an address in a PDU. -/
def addressOctets (addr : SmsAddress) : List UInt8 :=
  addr.len :: addr.toa :: if addr.len.toNat % 2 = 1 then fillLast addr.digitOctets else addr.digitOctets

theorem Written.fill {rope : GsmRope} {l : List UInt8} {x : UInt8} (h : Written rope (l ++ [x])) :
    Written (gsmRopeFill rope) (l ++ [x ||| 0xf0]) ∧ (gsmRopeFill rope).max = rope.max := by
  obtain ⟨h1, h2, h3, h4⟩ := h
  have hpos : rope.pos - 1 = l.length := by
    rw [h3]
    simp
  have hlen : (l ++ [x ||| 0xf0]).length = (l ++ [x]).length := by simp
  unfold gsmRopeFill
  rw [if_pos (by simp [h4])]
  refine ⟨⟨by rwa [hlen], ?_, h3.trans hlen.symm, h4⟩, rfl⟩
  simp only [h2, Option.map_some, hpos, hlen]
  unfold overwrite
  simp

theorem adds_fill {buf : List UInt8} (hne : buf ≠ []) :
    Adds (fun rope => gsmRopeFill (gsmRopeAdd rope buf)) (fillLast buf) := by
  obtain ⟨init, x, rfl⟩ := (eq_nil_or_concat buf).resolve_left hne
  rw [concat_eq_append]
  have hfill : fillLast (init ++ [x]) = init ++ [x ||| 0xf0] := by simp [fillLast]
  rw [hfill]
  refine ⟨fun h => ?_, fun {rope l} h hle => ?_⟩
  · obtain ⟨h1, h2, h3⟩ := (adds_add (init ++ [x])).counts h
    unfold gsmRopeFill Counting
    simp [h1, h2, h3]
  · obtain ⟨h1, h2⟩ := (adds_add (init ++ [x])).writes h (by simpa using hle)
    rw [← append_assoc] at h1
    obtain ⟨h3, h4⟩ := h1.fill
    rw [append_assoc] at h3
    exact ⟨h3, h4.trans h2⟩

theorem adds_address (addr : SmsAddress) : Adds (fun rope => gsmRopeAddAddress rope addr) (addressOctets addr) := by
  have h := (adds_addC addr.len).comp (adds_addC addr.toa)
  unfold gsmRopeAddAddress addressOctets
  split_ifs with hodd
  · refine h.comp (adds_fill fun hnil => ?_)
    have hlen := congrArg List.length hnil
    simp [SmsAddress.digitOctets] at hlen
    omega
  · exact h.comp (adds_add _)

def deliverHead (args : DeliverArgs) : List UInt8 :=
  [0] ++ [if 1 < args.pduCount then 0x20 ||| 0x40 else 0x20] ++ addressOctets args.senderAddress ++ [0] ++
    [if args.useGsm7 then 0x00 else 0x09] ++ args.timestamp.data.toList

theorem adds_head (args : DeliverArgs) : Adds (fun rope => gsmRopeAddDeliverHead args rope) (deliverHead args) :=
  (((((adds_addC _).comp (adds_addC _)).comp (adds_address _)).comp (adds_addC _)).comp (adds_addC _)).comp (adds_add _)

/-- The concatenation header. -/
def userHeader (args : DeliverArgs) (pduIndex : ℕ) : List UInt8 :=
  [0x05] ++ [0x00] ++ [0x03] ++ [.ofNat args.refNum] ++ [.ofNat args.pduCount] ++ [.ofNat (pduIndex + 1)]

theorem adds_userHeader (args : DeliverArgs) (pduIndex : ℕ) :
    Adds (fun rope => gsmRopeAddSmsUserHeader rope args.refNum args.pduCount pduIndex) (userHeader args pduIndex) :=
  (((((adds_addC _).comp (adds_addC _)).comp (adds_addC _)).comp (adds_addC _)).comp (adds_addC _)).comp (adds_addC _)

/-- The user data, with its length in front. -/
def userData (args : DeliverArgs) (utf8 : List UInt8) (pduIndex : ℕ) : List UInt8 :=
  if args.useGsm7 then
    if 1 < args.pduCount then
      [.ofNat (utf8ToGsm7Count utf8 + headerSeptets)] ++ userHeader args pduIndex ++ utf8ToGsm7 utf8 0 headerPad
    else [.ofNat (utf8ToGsm7Count utf8)] ++ utf8ToGsm7 utf8 0 0
  else
    (if 1 < args.pduCount then [.ofNat ((utf8ToUcs2 utf8).length / 2 * 2 + 6)] ++ userHeader args pduIndex
      else [.ofNat ((utf8ToUcs2 utf8).length / 2 * 2)]) ++ [.ofNat ((utf8ToUcs2 utf8).length / 2 * 2)] ++
        utf8ToUcs2 utf8

/-- The assertion of `gsm_rope_add_sms_deliver_pdu`. -/
def FitsSegment (useGsm7 : Bool) (utf8 : List UInt8) : Prop :=
  if useGsm7 then utf8ToGsm7Count utf8 ≤ maxUserDataSeptets - userDataHeaderSize
  else (utf8ToUcs2 utf8).length / 2 * 2 ≤ maxUserDataBytes - userDataHeaderSize

variable {args : DeliverArgs} {utf8 : List UInt8}

theorem addGsm7_adds (pduIndex : ℕ) (hg : args.useGsm7 = true) (h : FitsSegment args.useGsm7 utf8) :
    ∃ g, (∀ rope, gsmRopeAddGsm7 args utf8 pduIndex rope = some (g rope)) ∧ Adds g (userData args utf8 pduIndex) := by
  unfold FitsSegment at h
  rw [if_pos hg] at h
  unfold userData gsmRopeAddGsm7
  simp only [hg, if_true, if_neg (Nat.not_lt.2 h)]
  by_cases hc : 1 < args.pduCount
  · simp only [hc, if_true]
    have htext := adds_reserve (fun first => utf8ToGsm7 utf8 first headerPad) (length_utf8ToGsm7 utf8 0 (by decide))
    exact ⟨_, fun rope => rfl, ((adds_addC _).comp (adds_userHeader args pduIndex)).comp htext⟩
  · simp only [hc, if_false]
    have htext := adds_reserve (fun first => utf8ToGsm7 utf8 first 0) (length_utf8ToGsm7 utf8 0 (by decide))
    exact ⟨_, fun rope => rfl, (adds_addC _).comp htext⟩

theorem addUcs2_adds (pduIndex : ℕ) (hg : ¬ args.useGsm7 = true) (h : FitsSegment args.useGsm7 utf8) :
    ∃ g, (∀ rope, gsmRopeAddUcs2 args utf8 pduIndex rope = some (g rope)) ∧ Adds g (userData args utf8 pduIndex) := by
  have hlen := length_utf8ToUcs2 utf8
  have htext : Adds (fun rope => gsmRopeReserve rope ((utf8ToUcs2 utf8).length / 2 * 2) (utf8ToUcs2 utf8))
      (utf8ToUcs2 utf8) := adds_reserve (fun _ => utf8ToUcs2 utf8) (by omega)
  unfold FitsSegment at h
  rw [if_neg hg] at h
  unfold userData gsmRopeAddUcs2
  simp only [hg, if_neg (Nat.not_lt.2 h)]
  by_cases hc : 1 < args.pduCount
  · simp only [hc, if_true]
    exact ⟨_, fun rope => rfl, (((adds_addC _).comp (adds_userHeader args pduIndex)).comp (adds_addC _)).comp htext⟩
  · simp only [hc, if_false]
    exact ⟨_, fun rope => rfl, ((adds_addC _).comp (adds_addC _)).comp htext⟩

theorem deliverPdu_adds (pduIndex : ℕ) (h : FitsSegment args.useGsm7 utf8) :
    ∃ g, (∀ rope, gsmRopeAddSmsDeliverPdu args utf8 pduIndex rope = some (g rope)) ∧
      Adds g (deliverHead args ++ userData args utf8 pduIndex) := by
  unfold gsmRopeAddSmsDeliverPdu
  by_cases hg : args.useGsm7
  · obtain ⟨g, h1, h2⟩ := addGsm7_adds pduIndex hg h
    refine ⟨fun rope => g (gsmRopeAddDeliverHead args rope), fun rope => ?_, (adds_head args).comp h2⟩
    simp only [if_pos hg, h1]
  · obtain ⟨g, h1, h2⟩ := addUcs2_adds pduIndex hg h
    refine ⟨fun rope => g (gsmRopeAddDeliverHead args rope), fun rope => ?_, (adds_head args).comp h2⟩
    simp only [if_neg hg, h1]

theorem deliverPdu_none {pduIndex : ℕ} (h : ¬ FitsSegment args.useGsm7 utf8)
    (rope : GsmRope) : gsmRopeAddSmsDeliverPdu args utf8 pduIndex rope = none := by
  unfold FitsSegment at h
  unfold gsmRopeAddSmsDeliverPdu
  by_cases hg : args.useGsm7
  · simp only [hg, if_true] at h ⊢
    unfold gsmRopeAddGsm7
    simp only [if_pos (Nat.not_le.1 h)]
  · simp only [hg, Bool.false_eq_true, if_false] at h ⊢
    unfold gsmRopeAddUcs2
    simp only [if_pos (Nat.not_le.1 h)]

/-- **The octets of a PDU**, and the assertion fails if the text does not fit. -/
theorem smspduCreateDeliver_eq (pduIndex : ℕ) {pdu : SmsPDU} :
    smspduCreateDeliver args utf8 pduIndex = some pdu ↔
      FitsSegment args.useGsm7 utf8 ∧ pdu = ⟨deliverHead args ++ userData args utf8 pduIndex, 1⟩ := by
  unfold smspduCreateDeliver
  by_cases h : FitsSegment args.useGsm7 utf8
  · obtain ⟨g, hg, hadds⟩ := deliverPdu_adds pduIndex h
    set octets := deliverHead args ++ userData args utf8 pduIndex with hoctets
    have hpos : 0 < octets.length := by simp [hoctets, deliverHead]
    have hinit : Counting gsmRopeInit 0 := ⟨rfl, rfl, rfl⟩
    obtain ⟨-, hc, -⟩ := hadds.counts hinit
    have halloc : gsmRopeInitAlloc octets.length =
        ⟨some (List.replicate octets.length 0), false, octets.length, 0, false⟩ :=
      if_pos hpos
    have hw : Written (gsmRopeInitAlloc octets.length) [] := by
      rw [halloc]
      exact ⟨Nat.zero_le _, rfl, rfl, rfl⟩
    obtain ⟨⟨-, h2, h3, -⟩, hmax⟩ := hadds.writes hw (by rw [halloc]; simp)
    rw [Nat.zero_add] at hc
    simp only [hg, Option.bind_some, hc, h2, h3, Option.map_some, Option.some.injEq, h, true_and, nil_append,
      take_left]
    exact eq_comm
  · simp [deliverPdu_none h, h]

theorem utf8Of_injective : Function.Injective utf8Of := by
  intro a b h
  have hcodes := congrArg utf8Codes h
  rw [utf8Codes_utf8, utf8Codes_utf8] at hcodes
  refine map_injective_iff.2 (fun c d hcd => ?_) hcodes
  exact Subtype.ext (Char.toNat_inj.1 hcd)

theorem septets_append (a b : List BmpChar) : septets (a ++ b) = septets a + septets b := by
  simp [septets]

/-- The septets that a slice may take when `left` more are to come. -/
def sliceSkip (block leftover left : ℕ) : ℕ := if 0 < leftover ∧ left = 0 then leftover else block

/-- The septets that `left` slices may take. -/
def slicesSkip (block leftover : ℕ) : ℕ → ℕ
  | 0 => 0
  | left + 1 => sliceSkip block leftover left + slicesSkip block leftover left

variable (block leftover : ℕ) (text : List BmpChar)

theorem slicesSkip_succ (left : ℕ) : slicesSkip block leftover (left + 1) =
    left * block + if 0 < leftover then leftover else block := by
  induction left with
  | zero => simp [slicesSkip, sliceSkip]
  | succ left ih =>
    rw [slicesSkip, ih, sliceSkip, if_neg (by omega)]
    ring

theorem deliverSlices_succ (left : ℕ) :
    ∃ part rest, text = part ++ rest ∧ septets part ≤ sliceSkip block leftover left ∧
    (septets text ≤ sliceSkip block leftover left → rest = []) ∧
    deliverSlices block leftover (left + 1) (utf8Of text) =
      utf8Of part :: deliverSlices block leftover left (utf8Of rest) := by
  obtain ⟨part, h1, h2⟩ := skipSeptets_spec text (sliceSkip block leftover left)
  refine ⟨part, _, h1, h2, skipSeptets_all, ?_⟩
  have h3 : utf8Of text = utf8Of part ++ utf8Of (skipSeptets text (sliceSkip block leftover left)) := by
    rw [← utf8Of_append, ← h1]
  rw [deliverSlices]
  rw [show (if 0 < leftover ∧ left = 0 then leftover else block) = sliceSkip block leftover left from rfl,
    utf8SkipGsm7_utf8]
  congr 1
  rw [h3, length_append, Nat.add_sub_cancel, take_left]

/-- **The slices are consecutive**, never split a character, and take no more septets than they may. -/
theorem deliverSlices_utf8 (left : ℕ) : ∃ parts : List (List BmpChar), ∃ rest, text = parts.flatten ++ rest ∧
    deliverSlices block leftover left (utf8Of text) = parts.map utf8Of ∧
      septets parts.flatten ≤ slicesSkip block leftover left := by
  induction left generalizing text with
  | zero => exact ⟨[], text, rfl, rfl, Nat.zero_le _⟩
  | succ left ih =>
    obtain ⟨part, rest, rfl, h1, -, h2⟩ := deliverSlices_succ block leftover text left
    obtain ⟨parts, rest', rfl, h3, h4⟩ := ih rest
    refine ⟨part :: parts, rest', by simp, by rw [h2, h3, map_cons], ?_⟩
    rw [flatten_cons, septets_append, slicesSkip]
    omega

variable {block text}

/-- What is left of the text for the last segment. -/
def unitsLeft (count block : ℕ) : ℕ := count - count / block * block

/-- The segments that the loop makes of a text of so many units. -/
def segmentsOf (count block : ℕ) : ℕ := if 0 < unitsLeft count block then count / block + 1 else count / block

theorem segments_cases {count : ℕ} (hb : 0 < block) (hc : 0 < count) :
    ∃ left, segmentsOf count block = left + 1 ∧ slicesSkip block (unitsLeft count block) (left + 1) = count ∧
      sliceSkip block (unitsLeft count block) left = min count block ∧ (left = 0 ↔ count ≤ block) := by
  have hdiv := Nat.div_add_mod' count block
  have hmod := Nat.mod_lt count hb
  have hleft : unitsLeft count block = count % block := by
    unfold unitsLeft
    omega
  unfold segmentsOf
  rw [hleft]
  generalize count / block = q at hdiv
  generalize count % block = r at hdiv hmod
  rcases Nat.eq_zero_or_pos q with rfl | hq
  · have hr : count = r := by omega
    subst hr
    refine ⟨0, by rw [if_pos hc], by rw [slicesSkip_succ, if_pos hc]; omega, ?_, by omega⟩
    rw [sliceSkip, if_pos ⟨hc, rfl⟩]
    omega
  · obtain ⟨q, rfl⟩ := Nat.exists_eq_add_of_lt hq
    have hmul : (0 + q + 1) * block = q * block + block := by ring
    have hbig : q = 0 ∨ block ≤ q * block := (Nat.eq_zero_or_pos q).imp_right fun h => Nat.le_mul_of_pos_left block h
    rw [hmul] at hdiv
    by_cases hr : 0 < r
    · refine ⟨0 + q + 1, if_pos hr, ?_, ?_, ?_⟩
      · rw [slicesSkip_succ, if_pos hr, hmul]
        exact hdiv
      · rw [sliceSkip, if_neg (by omega)]
        omega
      · omega
    · refine ⟨q, by rw [if_neg hr]; omega, ?_, ?_, ?_⟩
      · rw [slicesSkip_succ, if_neg hr]
        omega
      · rw [sliceSkip, if_neg (by omega)]
        omega
      · constructor
        · rintro rfl
          omega
        · omega

theorem length_le_septets (text : List BmpChar) : text.length ≤ septets text := by
  induction text with
  | nil => exact Nat.le_refl _
  | cons c text ih =>
    have hpos := gsm7Len_pos c.code
    have hs : septets (c :: text) = gsm7Len c.code + septets text := rfl
    rw [hs, length_cons]
    omega

theorem gsm7Len_eq_one_iff (c : ℕ) : gsm7Len c = 1 ↔ unicharToGsm7Count c ≠ 2 := by
  unfold gsm7Len unicharToGsm7Count
  split_ifs <;> simp_all

/-- A text takes a septet for each character exactly if none of them is an extended one. -/
theorem septets_le_length_iff (text : List BmpChar) :
    septets text ≤ text.length ↔ ∀ c ∈ text, unicharToGsm7Count c.code ≠ 2 := by
  induction text with
  | nil => simp [septets]
  | cons c text ih =>
    have hpos := gsm7Len_pos c.code
    have hle := length_le_septets text
    have hs : septets (c :: text) = gsm7Len c.code + septets text := rfl
    rw [forall_mem_cons, ← ih, ← gsm7Len_eq_one_iff, hs, length_cons]
    omega

/-- Where the user data of a PDU starts, behind its length. -/
def userDataOffset (sender : SmsAddress) : ℕ := 14 + sender.digitOctets.length

theorem length_deliverHead (args : DeliverArgs) :
    (deliverHead args).length = 13 + args.senderAddress.digitOctets.length := by
  have hfill : ∀ l : List UInt8, (fillLast l).length = l.length := by
    intro l
    rcases eq_nil_or_concat l with rfl | ⟨init, x, rfl⟩
    · rfl
    · simp [fillLast]
  have haddr : (addressOctets args.senderAddress).length = 2 + args.senderAddress.digitOctets.length := by
    unfold addressOctets
    split_ifs
    · rw [length_cons, length_cons, hfill]
      omega
    · rw [length_cons, length_cons]
      omega
  simp [deliverHead, haddr]
  omega

/-- The user data of a PDU. -/
theorem length_drop_userData (args : DeliverArgs) (utf8 : List UInt8) (pduIndex : ℕ) :
    ((deliverHead args ++ userData args utf8 pduIndex).drop (userDataOffset args.senderAddress)).length =
      (userData args utf8 pduIndex).length - 1 := by
  rw [length_drop, length_append, length_deliverHead, userDataOffset]
  omega

/-- The arguments of the segments of a text. -/
def argsOf (text : List BmpChar) (sender : SmsAddress) (timestamp : SmsTimeStamp) (refNum : UInt8) : DeliverArgs :=
  ⟨utf8CheckGsm7 (utf8Of text), sender, timestamp, refNum.toNat, numPdus (utf8Of text)⟩

/-- The text is segmented well: no assertion fails, the slices are whole characters and make up the text, and no
segment has too much user data. -/
def SegmentsWell (text : List BmpChar) (sender : SmsAddress) (timestamp : SmsTimeStamp) (refNum : UInt8) : Prop :=
  ∃ (pdus : List SmsPDU) (parts : List (List BmpChar)),
    smspduCreateDeliverUtf8 (utf8Of text) sender timestamp refNum = some pdus ∧
    slices (utf8Of text) = parts.map utf8Of ∧ parts.flatten = text ∧
      ∀ pdu ∈ pdus, (pdu.base.drop (userDataOffset sender)).length ≤ maxUserDataBytes

theorem utf8CheckGsm7_utf8 (text : List BmpChar) :
    utf8CheckGsm7 (utf8Of text) = true ↔ ∀ c ∈ text, unicharToGsm7Count c.code ≠ 0 := by
  unfold utf8CheckGsm7
  rw [utf8Codes_utf8]
  simp

/-- The units of a text. -/
def units (text : List BmpChar) : ℕ := if utf8CheckGsm7 (utf8Of text) then septets text else text.length

def blockOf (text : List BmpChar) : ℕ := if utf8CheckGsm7 (utf8Of text) then 154 else 134

theorem deliverUnits_utf8 (text : List BmpChar) : deliverUnits (utf8Of text) = (units text, blockOf text) := by
  have hlen : (utf8ToUcs2 (utf8Of text)).length / 2 = text.length := by
    rw [length_utf8ToUcs2, utf8Codes_utf8, length_map]
    omega
  unfold deliverUnits units blockOf
  split_ifs
  · rw [utf8ToGsm7Count_utf8]
    rfl
  · rw [hlen]
    rfl

theorem slices_utf8 (text : List BmpChar) : slices (utf8Of text) = deliverSlices (blockOf text)
    (unitsLeft (units text) (blockOf text)) (segmentsOf (units text) (blockOf text)) (utf8Of text) := by
  unfold slices numPdus
  rw [deliverUnits_utf8]
  rfl

theorem numPdus_utf8 (text : List BmpChar) : numPdus (utf8Of text) = segmentsOf (units text) (blockOf text) := by
  unfold numPdus
  rw [deliverUnits_utf8]
  rfl

theorem blockOf_pos (text : List BmpChar) : 0 < blockOf text := by
  unfold blockOf
  split_ifs <;> omega

theorem units_le_septets (text : List BmpChar) : units text ≤ septets text := by
  unfold units
  split_ifs
  · exact Nat.le_refl _
  · exact length_le_septets text

/-- The first slice of a text that is cut into all of its parts takes all the septets that it may. -/
theorem first_part {parts : List (List BmpChar)} (h : slices (utf8Of text) = parts.map utf8Of)
    (hflat : parts.flatten = text) (hu : 0 < units text) :
    septets text ≤ units text ∧ ∃ part parts', parts = part :: parts' ∧
      septets part = min (units text) (blockOf text) := by
  obtain ⟨left, h1, h2, h3, -⟩ := segments_cases (blockOf_pos text) hu
  rw [slices_utf8, h1] at h
  obtain ⟨part, rest, ht, hp, -, hs⟩ := deliverSlices_succ (blockOf text) (unitsLeft (units text) (blockOf text))
    text left
  obtain ⟨parts', rest', hr, hs', hle⟩ :=
    deliverSlices_utf8 (blockOf text) (unitsLeft (units text) (blockOf text)) rest left
  have hparts : parts = part :: parts' := by
    apply map_injective_iff.2 utf8Of_injective
    rw [← h, hs, hs', map_cons]
  have hsum : septets text = septets part + septets parts'.flatten := by
    rw [← septets_append, ← flatten_cons, ← hparts, hflat]
  have hunits := units_le_septets text
  rw [slicesSkip] at h2
  exact ⟨by omega, part, parts', hparts, by omega⟩

/-- The text fits one segment. -/
def OneSegment (text : List BmpChar) : Prop :=
  if utf8CheckGsm7 (utf8Of text) then septets text ≤ 154
  else text.length ≤ 67 ∧ ∀ c ∈ text, unicharToGsm7Count c.code ≠ 2

theorem length_userData_gsm7 (utf8 : List UInt8) (pduIndex : ℕ) (hg : args.useGsm7 = true) :
    (userData args utf8 pduIndex).length = 1 + if 1 < args.pduCount then 6 + (utf8ToGsm7Count utf8 * 7 + 8) / 8
      else (utf8ToGsm7Count utf8 * 7 + 7) / 8 := by
  unfold userData
  rw [if_pos hg]
  split_ifs
  · simp only [length_append, length_utf8ToGsm7 utf8 0 (show headerPad < 8 by decide), userHeader,
      length_singleton]
    simp only [headerPad, headerSeptets]
    omega
  · simp only [length_append, length_utf8ToGsm7 utf8 0 (show 0 < 8 by decide), length_singleton, Nat.add_zero]

/-- The user data of the only segment. -/
theorem length_userData_le (hc : args.pduCount = 1)
    (h : FitsSegment args.useGsm7 utf8) : (userData args utf8 0).length - 1 ≤ maxUserDataBytes := by
  unfold FitsSegment at h
  rw [maxUserDataSeptets, maxUserDataBytes, userDataHeaderSize] at h
  split_ifs at h with hg
  · rw [length_userData_gsm7 utf8 0 hg, if_neg (by omega), maxUserDataBytes]
    omega
  · have hlen := length_utf8ToUcs2 utf8
    unfold userData
    rw [if_neg hg, if_neg (by omega), maxUserDataBytes]
    simp only [length_append, length_singleton]
    omega

theorem oneSegment_of_well {sender : SmsAddress} {timestamp : SmsTimeStamp} {refNum : UInt8}
    (h : SegmentsWell text sender timestamp refNum) : OneSegment text := by
  obtain ⟨pdus, parts, hcreate, hslices, hflat, hsize⟩ := h
  rcases Nat.eq_zero_or_pos (units text) with hu | hu
  · unfold units at hu
    unfold OneSegment
    split_ifs at hu ⊢ with hg
    · omega
    · obtain rfl := eq_nil_of_length_eq_zero hu
      simp
  obtain ⟨hsept, part, parts', rfl, hpart⟩ := first_part hslices hflat hu
  -- the PDU of the first slice
  unfold smspduCreateDeliverUtf8 at hcreate
  rw [hslices, map_cons, zipIdx_cons, mapM_cons] at hcreate
  obtain ⟨pdu, hpdu, hrest⟩ := Option.bind_eq_some_iff.1 hcreate
  obtain ⟨pdus', -, hcons⟩ := Option.bind_eq_some_iff.1 hrest
  obtain rfl := Option.some.inj hcons
  obtain ⟨hfits, rfl⟩ := (smspduCreateDeliver_eq 0).1 hpdu
  have hdata := hsize _ (mem_cons_self ..)
  have htext : septets text = septets part + septets parts'.flatten ∧
      text.length = part.length + parts'.flatten.length := by
    rw [← septets_append, ← length_append, ← flatten_cons, hflat]
    exact ⟨rfl, rfl⟩
  have hp := length_le_septets part
  have hr := length_le_septets parts'.flatten
  unfold OneSegment
  unfold units at hpart hsept
  unfold blockOf at hpart
  split_ifs at hpart hsept ⊢ with hg
  · by_contra hbig
    have hu' : units text = septets text := if_pos hg
    have hb' : blockOf text = 154 := if_pos hg
    obtain ⟨left, h1, -, -, h2⟩ := segments_cases (blockOf_pos text) hu
    have hcount : 1 < (argsOf text sender timestamp refNum).pduCount := by
      change 1 < numPdus (utf8Of text)
      rw [numPdus_utf8, h1]
      omega
    have hlen : (userData (argsOf text sender timestamp refNum) (utf8Of part) 0).length = _ :=
      length_userData_gsm7 (utf8Of part) 0 hg
    rw [if_pos hcount, utf8ToGsm7Count_utf8] at hlen
    have hdrop := (length_drop_userData (argsOf text sender timestamp refNum) _ 0).symm.trans_le hdata
    rw [hlen, maxUserDataBytes] at hdrop
    omega
  · refine ⟨?_, (septets_le_length_iff text).1 hsept⟩
    unfold FitsSegment at hfits
    rw [if_neg hg, length_utf8ToUcs2, utf8Codes_utf8, length_map, maxUserDataBytes, userDataHeaderSize] at hfits
    omega

theorem well_of_oneSegment (sender : SmsAddress) (timestamp : SmsTimeStamp) (refNum : UInt8) (h : OneSegment text) :
    SegmentsWell text sender timestamp refNum := by
  rcases Nat.eq_zero_or_pos (units text) with hu | hu
  · -- a text of no units is empty
    have hnil : text = [] := by
      have hle := length_le_septets text
      unfold units at hu
      apply eq_nil_of_length_eq_zero
      split_ifs at hu <;> omega
    subst hnil
    exact ⟨[], [], rfl, rfl, rfl, fun pdu hpdu => absurd hpdu not_mem_nil⟩
  · have hb : units text ≤ blockOf text ∧ septets text ≤ units text := by
      unfold OneSegment at h
      unfold units blockOf
      split_ifs at h ⊢
      · exact ⟨h, Nat.le_refl _⟩
      · exact ⟨by omega, (septets_le_length_iff text).2 h.2⟩
    obtain ⟨left, h1, -, h3, h4⟩ := segments_cases (blockOf_pos text) hu
    obtain rfl := h4.2 hb.1
    have hslices : slices (utf8Of text) = [utf8Of text] := by
      obtain ⟨part, rest, rfl, -, hrest, hs⟩ :=
        deliverSlices_succ (blockOf text) (unitsLeft (units text) (blockOf text)) text 0
      obtain rfl := hrest (by omega)
      rw [slices_utf8, h1, hs, append_nil]
      rfl
    have hpdus : numPdus (utf8Of text) = 1 := by rw [numPdus_utf8, h1]
    have hfits : FitsSegment (argsOf text sender timestamp refNum).useGsm7 (utf8Of text) := by
      unfold OneSegment at h
      unfold FitsSegment argsOf
      rw [utf8ToGsm7Count_utf8, length_utf8ToUcs2, utf8Codes_utf8, length_map, maxUserDataSeptets,
        maxUserDataBytes, userDataHeaderSize]
      split_ifs at h ⊢ <;> omega
    have hcreate := (smspduCreateDeliver_eq 0).2 ⟨hfits, rfl⟩
    refine ⟨[⟨deliverHead (argsOf text sender timestamp refNum) ++ userData (argsOf text sender timestamp refNum)
      (utf8Of text) 0, 1⟩], [text], ?_, by rw [hslices]; rfl, by simp, ?_⟩
    · unfold smspduCreateDeliverUtf8
      rw [hslices, zipIdx_singleton, mapM_cons, mapM_nil]
      exact congrArg (fun pdu => pdu.bind fun pdu => some [pdu]) hcreate
    · intro pdu hpdu
      obtain rfl := mem_singleton.1 hpdu
      exact (length_drop_userData (argsOf text sender timestamp refNum) _ 0).trans_le
        (length_userData_le hpdus hfits)

/-- **A text is segmented well exactly if it fits one segment**: at most 154 septets of the GSM alphabet, or at most 67
other characters none of which the GSM alphabet writes in two septets. -/
theorem segments_iff (text : List BmpChar) (sender : SmsAddress) (timestamp : SmsTimeStamp) (refNum : UInt8) :
    SegmentsWell text sender timestamp refNum ↔ OneSegment text :=
  ⟨oneSegment_of_well, well_of_oneSegment sender timestamp refNum⟩

/-- The letter that the GSM alphabet does not have. -/
def zhe : BmpChar := ⟨'Ж', by decide⟩

theorem not_oneSegment_zhe {n : ℕ} (h : 67 < n) : ¬ OneSegment (List.replicate n zhe) := by
  have hcheck : ¬ utf8CheckGsm7 (utf8Of (List.replicate n zhe)) = true := by
    rw [utf8CheckGsm7_utf8]
    intro hall
    have hzhe := hall zhe (mem_replicate.2 ⟨by omega, rfl⟩)
    exact absurd hzhe (by decide +kernel)
  unfold OneSegment
  rw [if_neg hcheck, length_replicate]
  omega

/-- A text of 68 letters of another alphabet, from 5554, makes the assertion fail. -/
theorem segments_cyrillic : ¬ SegmentsWell (List.replicate 68 zhe)
    ⟨4, 0x81, #v[0x55, 0x45, 0, 0, 0, 0, 0, 0, 0, 0, 0, 0, 0, 0, 0, 0]⟩
    ⟨#v[0x11, 0x10, 0x10, 0x21, 0x00, 0x00, 0x00]⟩ 0 :=
  mt oneSegment_of_well (not_oneSegment_zhe (by omega))

end Emulator.Telephony
