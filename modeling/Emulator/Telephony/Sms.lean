import Emulator.Telephony.Gsm

/-!
# SMS addresses and PDUs

`telephony/sms.c`: the parser of PDUs, the functions that read one, and the functions that
create one. A pointer into a PDU is an offset into its memory. A function that may return
`-1` or `NULL` returns `none` there, and one that fails an assertion returns `none` too.
-/

namespace Emulator.Telephony

def maxUserDataBytes : ℕ := 140

def maxUserDataSeptets : ℕ := 160

def userDataHeaderSize : ℕ := 6

structure SmsTimeStamp where
  data : Vector UInt8 7
deriving DecidableEq

/-- `len` is the number of digits. -/
structure SmsAddress where
  len : UInt8
  toa : UInt8
  data : Vector UInt8 16
deriving DecidableEq

/-- The octets of the digits. -/
def SmsAddress.digitOctets (addr : SmsAddress) : List UInt8 := addr.data.toList.take ((addr.len.toNat + 1) / 2)

/-- The digits, two in an octet with the lower half first. -/
def SmsAddress.digits (addr : SmsAddress) : List ℕ :=
  (List.range addr.len.toNat).map fun n =>
    let c := (addr.data.toList.getD (n / 2) 0).toNat
    if n % 2 = 0 then c &&& 0xf else c >>> 4

/-- The same type and digits. -/
def SmsAddress.Same (a b : SmsAddress) : Prop := a.toa = b.toa ∧ a.digits = b.digits

instance (a b : SmsAddress) : Decidable (a.Same b) := inferInstanceAs (Decidable (_ ∧ _))

/-- The last octet of `l` with its upper half set. -/
def fillLast (l : List UInt8) : List UInt8 := l.dropLast ++ (l.getLast?.map (· ||| 0xf0)).toList

/-- The filler behind an odd number of digits is written in place. -/
def gsmRopeFill (rope : GsmRope) : GsmRope :=
  if ¬ rope.error then
    { rope with data := rope.data.map fun data => overwrite data (rope.pos - 1) [data.getD (rope.pos - 1) 0 ||| 0xf0] }
  else rope

def gsmRopeAddAddress (rope : GsmRope) (addr : SmsAddress) : GsmRope :=
  let rope := gsmRopeAddC rope addr.len
  let rope := gsmRopeAddC rope addr.toa
  let rope := gsmRopeAdd rope addr.digitOctets
  if addr.len.toNat % 2 = 1 then gsmRopeFill rope else rope

section

variable (mem : ℕ → UInt8)

/-- `-1` at the end. -/
def smsGetByte (cur fin : ℕ) : ℤ × ℕ := if cur < fin then ((mem cur).toNat, cur + 1) else (-1, cur)

/-- The loop of `sms_get_sc_address`: the value of `address->len` and the digits. -/
def scDigits (cur : ℕ) : (left dlen adjust : ℕ) → Vector UInt8 16 → Option (ℕ × Vector UInt8 16)
  | 0, dlen, adjust, data => some (2 * dlen + adjust, data)
  | left + 1, dlen, _, data =>
    let c := mem (cur + dlen)
    if 16 ≤ dlen then none
    else if 0xe ≤ c.toNat &&& 0xf then some (2 * dlen, data)
    else if 0xe ≤ c.toNat >>> 4 then some (2 * dlen + 1, data.setIfInBounds dlen c)
    else scDigits cur left (dlen + 1) 1 (data.setIfInBounds dlen c)

/-- The cursor is left at the first digit. -/
def smsGetScAddress (cur fin : ℕ) (address : SmsAddress) : Option (SmsAddress × ℕ) :=
  if cur < fin then
    let len := (mem cur).toNat
    if len = 0 then some ({ address with len := 0, toa := 0 }, cur + 1)
    else if fin < cur + 1 + len then none
    else (scDigits mem (cur + 2) (len - 1) 0 0 address.data).map fun (alen, data) =>
      (⟨.ofNat alen, mem (cur + 1), data⟩, cur + 2)
  else none

def smsSkipScAddress (cur fin : ℕ) : Option ℕ :=
  if fin ≤ cur then none
  else if fin < cur + (1 + (mem cur).toNat) then none
  else some (cur + (1 + (mem cur).toNat))

def smsGetAddress (cur fin : ℕ) (address : SmsAddress) : Option (SmsAddress × ℕ) :=
  if fin ≤ cur then none
  else
    let dlen := (mem cur).toNat
    let len := (dlen + 1) / 2
    if dlen = 0 then some ({ address with len := 0, toa := 0 }, cur + 1)
    else if fin < cur + 1 + 1 + len then none
    else if 16 < len then none
    else some (⟨mem cur, mem (cur + 1), .ofFn fun i => if i.val < len then mem (cur + 2 + i.val) else address.data[i]⟩,
      cur + 2 + len)

/-- The cursor is not moved. -/
def smsSkipAddress (cur fin : ℕ) : Option ℕ :=
  if fin < cur + 2 then none
  else if fin < cur + (2 + ((mem cur).toNat + 1) / 2) then none
  else some cur

def smsGetTimestamp (cur fin : ℕ) : Option (SmsTimeStamp × ℕ) :=
  if fin < cur + 7 then none else some (⟨.ofFn fun i => mem (cur + i.val)⟩, cur + 7)

def smsSkipTimestamp (cur fin : ℕ) : Option ℕ := if fin < cur + 7 then none else some (cur + 7)

/-- The format is in the bits 3 and 4 of `mtiByte`. -/
def smsSkipValidityPeriod (cur fin : ℕ) (mtiByte : ℤ) : Option ℕ :=
  let cur := if mtiByte / 8 % 4 = 0 then cur else if mtiByte / 8 % 4 = 1 then cur + 1 else cur + 7
  if fin < cur then none else some cur

inductive SmsCodingScheme where
  | unknown | gsm7 | ucs2
deriving DecidableEq

def codingScheme (dataCoding : ℕ) : SmsCodingScheme :=
  match dataCoding >>> 4 with
  | 0x0 | 0x2 | 0x3 => .gsm7
  | 0x1 => if dataCoding = 0x10 then .gsm7 else if dataCoding = 0x11 then .ucs2 else .unknown
  | 0x4 | 0x5 | 0x6 | 0x7 =>
    if dataCoding &&& 0x20 ≠ 0 then .unknown
    else if dataCoding >>> 2 &&& 3 = 0 then .gsm7
    else if dataCoding >>> 2 &&& 3 = 2 then .ucs2
    else .unknown
  | 0xf => if dataCoding &&& 4 = 0 then .gsm7 else .unknown
  | _ => .unknown

def smsGetCodingScheme (cur fin : ℕ) : SmsCodingScheme × ℕ :=
  if fin ≤ cur then (.unknown, cur) else (codingScheme (mem cur).toNat, cur + 1)

/-- The user data behind the header: where it starts and its length, `len` of which is in septets or octets. -/
def skipUserHeader (cur fin : ℕ) (coding : SmsCodingScheme) (len : ℤ) : Option (ℕ × ℤ) :=
  if fin ≤ cur then none
  else
    let hlen := (mem cur).toNat
    if fin < cur + 1 + hlen then none
    else
      let len := if coding = .gsm7 then len - 2 * (hlen + 1) else len - (hlen + 1)
      if len < 0 then none else some (cur + 1 + hlen, len)

/-- The text is written into the rope; nothing checks that it ends before `fin`. -/
def smsGetTextUtf8 (cur fin : ℕ) (hasUDH : Bool) (coding : SmsCodingScheme) (rope : GsmRope) : Option GsmRope :=
  if fin ≤ cur then none
  else
    let len : ℤ := (mem cur).toNat
    let start := if hasUDH then skipUserHeader mem (cur + 1) fin coding len else some (cur + 1, len)
    start.map fun (cur, len) =>
      match coding with
      | .gsm7 =>
        let text := utf8FromGsm7 (fun i => mem (cur + i)) 0 len.toNat
        gsmRopeReserve rope text.length text
      | .ucs2 =>
        let text := ucs2ToUtf8 (fun i => mem (cur + i)) (len / 2).toNat
        gsmRopeReserve rope text.length text
      | .unknown => rope

end

/-- The octets between `base` and `end`, and the offset of `tpdu`. -/
structure SmsPDU where
  base : List UInt8
  tpdu : ℕ
deriving DecidableEq

/-- The memory at `base`; `beyond` is what stands behind the PDU. -/
def SmsPDU.mem (pdu : SmsPDU) (beyond : ℕ → UInt8) (i : ℕ) : UInt8 := pdu.base.getD i (beyond i)

/-- An address that nothing has been written to; its octets are never read. -/
def SmsAddress.unset : SmsAddress := ⟨0, 0, Vector.replicate 16 0⟩

/-- `address` is what the caller's address holds before. -/
def smspduGetSenderAddress (pdu : SmsPDU) (address : SmsAddress) : Option SmsAddress :=
  let mem := pdu.mem fun _ => 0
  let (mtiByte, data) := smsGetByte mem pdu.tpdu pdu.base.length
  if mtiByte % 4 = 0 then (smsGetScAddress mem data pdu.base.length address).map Prod.fst else none

def smspduGetScTimestamp (pdu : SmsPDU) : Option SmsTimeStamp :=
  let mem := pdu.mem fun _ => 0
  let (mtiByte, data) := smsGetByte mem pdu.tpdu pdu.base.length
  if mtiByte % 4 = 0 then
    (smsGetScAddress mem data pdu.base.length .unset).bind fun (_, data) =>
      (smsGetTimestamp mem (data + 2) pdu.base.length).map Prod.fst
  else none

def smspduGetReceiverAddress (pdu : SmsPDU) (address : SmsAddress) : Option SmsAddress :=
  let mem := pdu.mem fun _ => 0
  let (mtiByte, data) := smsGetByte mem pdu.tpdu pdu.base.length
  if mtiByte % 4 = 1 then (smsGetAddress mem (data + 1) pdu.base.length address).map Prod.fst else none

/-- The result, and the octets that are copied to a buffer of `utf8len` octets: `none` if they are copied from
`NULL`. -/
def ropeResult (rope : GsmRope) (utf8len : ℕ) : ℕ × Option (List UInt8) :=
  (rope.pos, if 0 < min utf8len rope.pos then rope.data.map (·.take (min utf8len rope.pos)) else some [])

/-- `rope` is what the local of that name holds before; only for a SMS-SUBMIT is it initialised. -/
def smspduGetTextMessage (pdu : SmsPDU) (beyond : ℕ → UInt8) (rope : GsmRope) (utf8len : ℕ) :
    Option (ℕ × Option (List UInt8)) :=
  let mem := pdu.mem beyond
  let (mtiByte, data) := smsGetByte mem pdu.tpdu pdu.base.length
  let hasUDH := decide (mtiByte / 64 % 2 = 1)
  if mtiByte % 4 = 0 then
    (smsGetScAddress mem data pdu.base.length .unset).bind fun (_, data) =>
      let (coding, data) := smsGetCodingScheme mem (data + 1) pdu.base.length
      if coding = .unknown then none
      else (smsGetTimestamp mem data pdu.base.length).bind fun (_, data) =>
        (smsGetTextUtf8 mem data pdu.base.length hasUDH coding rope).map fun rope => ropeResult rope utf8len
  else if mtiByte % 4 = 1 then
    (smsGetAddress mem (data + 1) pdu.base.length .unset).bind fun (_, data) =>
      let (coding, data) := smsGetCodingScheme mem (data + 1) pdu.base.length
      if coding = .unknown then none
      else (smsGetTextUtf8 mem data pdu.base.length hasUDH coding (gsmRopeInitAlloc 0)).map fun rope =>
        ropeResult rope utf8len
  else none

/-- The loop of `smspdu_get_user_data_ref`: the place of a reference, `some none` if there is none, and `none` if the
loop is never left, as an element of length 0 does not move the cursor and makes `len` greater. -/
def userHeaderWalk (mem : ℕ → UInt8) (fin : ℕ) : (fuel data : ℕ) → (len : ℤ) → Option (Option ℕ)
  | 0, _, _ => some none
  | fuel + 1, data, len =>
    if 2 ≤ len ∧ data + 2 ≤ fin then
      let htype := (mem data).toNat
      let hlen := (mem (data + 1)).toNat
      if htype = 0 ∧ hlen = 3 ∧ data + 5 ≤ fin then some (some (data + 2))
      else if hlen = 0 then none
      else userHeaderWalk mem fin fuel (data + hlen) (len - (hlen - 2))
    else some none

/-- Where the user data length of the PDU is expected. -/
def userDataPlace (mem : ℕ → UInt8) (data fin : ℕ) (mtiByte : ℤ) : Option ℕ :=
  if mtiByte / 64 % 2 = 0 then none
  else if mtiByte % 4 = 0 then
    (smsSkipAddress mem data fin).bind fun data => smsSkipTimestamp (data + 2) fin
  else if mtiByte % 4 = 1 then
    (smsSkipAddress mem (data + 1) fin).bind fun data => smsSkipValidityPeriod (data + 2) fin mtiByte
  else none

def smspduGetUserDataRef (pdu : SmsPDU) : Option (Option ℕ) :=
  let mem := pdu.mem fun _ => 0
  let fin := pdu.base.length
  let (mtiByte, data) := smsGetByte mem pdu.tpdu fin
  match userDataPlace mem data fin mtiByte with
  | none => some none
  | some data =>
    if fin ≤ data + 1 then some none
    else userHeaderWalk mem fin fin (data + 2) (mem (data + 1)).toNat

def smspduGetRef (pdu : SmsPDU) : Option ℤ :=
  let mem := pdu.mem fun _ => 0
  (smspduGetUserDataRef pdu).map fun userRef =>
    match userRef with
    | some p => (mem p).toNat
    | none =>
      let (mtiByte, data) := smsGetByte mem pdu.tpdu pdu.base.length
      if mtiByte % 4 = 1 ∧ data < pdu.base.length then (mem data).toNat else -1

def smspduGetMaxIndex (pdu : SmsPDU) : Option ℤ :=
  (smspduGetUserDataRef pdu).map fun userRef =>
    match userRef with
    | some p => (pdu.mem (fun _ => 0) (p + 1)).toNat
    | none => 1

def smspduGetCurIndex (pdu : SmsPDU) : Option ℤ :=
  (smspduGetUserDataRef pdu).map fun userRef =>
    match userRef with
    | some p => (pdu.mem (fun _ => 0) (p + 2)).toNat - 1
    | none => 0

def gsmRopeAddTimestamp (rope : GsmRope) (ts : SmsTimeStamp) : GsmRope := gsmRopeAdd rope ts.data.toList

def gsmRopeAddSmsUserHeader (rope : GsmRope) (refNumber pduCount pduIndex : ℕ) : GsmRope :=
  let rope := gsmRopeAddC rope 0x05
  let rope := gsmRopeAddC rope 0x00
  let rope := gsmRopeAddC rope 0x03
  let rope := gsmRopeAddC rope (.ofNat refNumber)
  let rope := gsmRopeAddC rope (.ofNat pduCount)
  gsmRopeAddC rope (.ofNat (pduIndex + 1))

/-- The arguments that `smspdu_create_deliver_utf8` gives to every segment. -/
structure DeliverArgs where
  useGsm7 : Bool
  senderAddress : SmsAddress
  timestamp : SmsTimeStamp
  refNum : ℕ
  pduCount : ℕ

variable (args : DeliverArgs) (utf8 : List UInt8) (pduIndex : ℕ)

/-- What comes before the user data. -/
def gsmRopeAddDeliverHead (rope : GsmRope) : GsmRope :=
  let rope := gsmRopeAddC rope 0
  let rope := gsmRopeAddC rope (if 1 < args.pduCount then 0x20 ||| 0x40 else 0x20)
  let rope := gsmRopeAddAddress rope args.senderAddress
  let rope := gsmRopeAddC rope 0
  let rope := gsmRopeAddC rope (if args.useGsm7 then 0x00 else 0x09)
  gsmRopeAddTimestamp rope args.timestamp

/-- A header of 6 octets takes 7 septets. -/
def headerSeptets : ℕ := 7

/-- The bits between the header and the first septet. -/
def headerPad : ℕ := headerSeptets * 7 - 6 * 8

def gsmRopeAddGsm7 (rope : GsmRope) : Option GsmRope :=
  let count := utf8ToGsm7Count utf8
  if maxUserDataSeptets - userDataHeaderSize < count then none
  else if 1 < args.pduCount then
    let rope := gsmRopeAddC rope (.ofNat (count + headerSeptets))
    let rope := gsmRopeAddSmsUserHeader rope args.refNum args.pduCount pduIndex
    some (gsmRopeReserve rope ((count * 7 + headerPad + 7) / 8) (utf8ToGsm7 utf8 (gsmRopeFirst rope) headerPad))
  else
    let rope := gsmRopeAddC rope (.ofNat count)
    some (gsmRopeReserve rope ((count * 7 + 0 + 7) / 8) (utf8ToGsm7 utf8 (gsmRopeFirst rope) 0))

/-- The length is written a second time in front of the text. -/
def gsmRopeAddUcs2 (rope : GsmRope) : Option GsmRope :=
  let count := (utf8ToUcs2 utf8).length / 2
  if maxUserDataBytes - userDataHeaderSize < count * 2 then none
  else
    let rope :=
      if 1 < args.pduCount then
        gsmRopeAddSmsUserHeader (gsmRopeAddC rope (.ofNat (count * 2 + 6))) args.refNum args.pduCount pduIndex
      else gsmRopeAddC rope (.ofNat (count * 2))
    let rope := gsmRopeAddC rope (.ofNat (count * 2))
    some (gsmRopeReserve rope (count * 2) (utf8ToUcs2 utf8))

def gsmRopeAddSmsDeliverPdu (rope : GsmRope) : Option GsmRope :=
  let rope := gsmRopeAddDeliverHead args rope
  if args.useGsm7 then gsmRopeAddGsm7 args utf8 pduIndex rope else gsmRopeAddUcs2 args utf8 pduIndex rope

/-- The first pass counts, the second one writes. -/
def smspduCreateDeliver : Option SmsPDU :=
  (gsmRopeAddSmsDeliverPdu args utf8 pduIndex gsmRopeInit).bind fun rope =>
    (gsmRopeAddSmsDeliverPdu args utf8 pduIndex (gsmRopeInitAlloc rope.pos)).bind fun rope =>
      rope.data.map fun data => ⟨data.take rope.pos, 1⟩

/-- The pieces of the text that the loop of `smspdu_create_deliver_utf8` gives to its PDUs, `left` of which are to
come. -/
def deliverSlices (block leftover : ℕ) : (left : ℕ) → (src : List UInt8) → List (List UInt8)
  | 0, _ => []
  | left + 1, src =>
    let skip := if 0 < leftover ∧ left = 0 then leftover else block
    let srcNext := utf8SkipGsm7 src skip
    src.take (src.length - srcNext.length) :: deliverSlices block leftover left srcNext

/-- The number of units of the text, and of units that a segment may have. -/
def deliverUnits : ℕ × ℕ :=
  if utf8CheckGsm7 utf8 then (utf8ToGsm7Count utf8, maxUserDataSeptets - userDataHeaderSize)
  else ((utf8ToUcs2 utf8).length / 2, maxUserDataBytes - userDataHeaderSize)

def numPdus : ℕ :=
  let (count, block) := deliverUnits utf8
  if 0 < count - count / block * block then count / block + 1 else count / block

def slices : List (List UInt8) :=
  let (count, block) := deliverUnits utf8
  deliverSlices block (count - count / block * block) (numPdus utf8) utf8

/-- `refNum` is the static reference number. -/
def smspduCreateDeliverUtf8 (senderAddress : SmsAddress) (timestamp : SmsTimeStamp) (refNum : UInt8) :
    Option (List SmsPDU) :=
  let args := ⟨utf8CheckGsm7 utf8, senderAddress, timestamp, refNum.toNat, numPdus utf8⟩
  (slices utf8).zipIdx.mapM fun (src, nn) => smspduCreateDeliver args src nn

def smspduCreateFromHex (hex : List UInt8) : Option SmsPDU :=
  (gsmHexToBytes hex).bind fun base => (smsSkipScAddress (fun i => base.getD i 0) 0 base.length).map fun data =>
    ⟨base, data⟩

def smspduToHex (pdu : SmsPDU) : List UInt8 := pdu.base.flatMap gsmHexFromByte

end Emulator.Telephony
