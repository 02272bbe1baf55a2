import Emulator.Telephony.Sms

/-!
# SMS address codecs

`sms_address_from_str`, `to_str`, `from_bytes`, `to_bytes`, `from_hex` and `to_hex` of `telephony/sms.c`.

* `fromStr_some`: what is accepted, and the octets it is packed into;
* `toStr_packed`: the dialling string, with one character too many behind an odd number of digits;
* `addressCodecs_iff`: the codecs are inverse and store inside of the address for an even number of digits, a buffer of
  the exact size for the hexadecimal digits, and a hexadecimal string whose count fits.
-/

namespace Emulator.Telephony

open List hiding Vector
open Option hiding min_eq_right

/-- The loop of `sms_address_from_str`, with `data` as the index `i` into the array. -/
def addressDigits : List UInt8 → Vector UInt8 16 → (i shift len : ℕ) → Option (Vector UInt8 16 × ℕ × ℕ × ℕ)
  | [], data, i, shift, len => some (data, i, shift, len)
  | c :: src, data, i, shift, len =>
    if ¬ (48 ≤ c.toNat ∧ c.toNat < 58) ∨ 16 ≤ i then none
    else
      let data := data.setIfInBounds i (.ofNat ((data.toList.getD i 0).toNat ||| (c.toNat - 48) <<< shift))
      if shift + 4 = 8 then addressDigits src data (i + 1) 0 (len + 1)
      else addressDigits src data i (shift + 4) (len + 1)

/-- The filler behind the loop. -/
def fillDigits (data : Vector UInt8 16) (i shift : ℕ) : Vector UInt8 16 :=
  if shift ≠ 0 then data.setIfInBounds i (.ofNat ((data.toList.getD i 0).toNat ||| 0xf0)) else data

/-- `sms_address_from_str` behind the test for `+`. -/
def packAddress (toa : UInt8) (src : List UInt8) : Option SmsAddress :=
  (addressDigits src (Vector.replicate 16 0) 0 0 0).map fun (data, i, shift, len) =>
    ⟨.ofNat len, toa, fillDigits data i shift⟩

/-- `sms_address_from_str`; `none` is `-1`. -/
def smsAddressFromStr (src : List UInt8) : Option SmsAddress :=
  match src with
  | [] => none
  | c :: rest =>
    if c = 43 then if rest = [] then none else packAddress 0x91 rest
    else packAddress 0x81 (c :: rest)

/-- The array `dialdigits`: `0123456789*#,N%` and the 0 behind it. -/
def dialdigits (v : ℕ) : UInt8 := [48, 49, 50, 51, 52, 53, 54, 55, 56, 57, 42, 35, 44, 78, 37, 0].getD v 0

/-- The loop of `sms_address_to_str` from `n` on, with `left` rounds to go: the characters. `none` if it reads behind
the digits. -/
def dialString (address : SmsAddress) : (left n : ℕ) → Option (List UInt8)
  | 0, _ => some []
  | left + 1, n => do
    let c ← address.data.toList[n / 2]?
    if address.len.toNat < n + 1 then some [dialdigits (c.toNat &&& 0xf)]
    else
      let rest ← dialString address left (n + 2)
      some (dialdigits (c.toNat &&& 0xf) :: dialdigits (c.toNat >>> 4 &&& 0xf) :: rest)

/-- `sms_address_to_str`: what is written at `str` and the count. -/
def smsAddressToStr (address : SmsAddress) (strlen : ℕ) : Option (List UInt8 × ℕ) := do
  let digits ← dialString address ((address.len.toNat + 1) / 2) 0
  let str := if address.toa = 0x91 then 43 :: digits else digits
  some (str.take strlen, str.length)

/-- The first `n` octets of the digits, `none` if they do not have so many. -/
def copyDigits (address : SmsAddress) (n : ℕ) : Option (List UInt8) :=
  if n ≤ 16 then some (address.data.toList.take n) else none

/-- The digits with other octets in front. `none` is a store behind them. -/
def storeDigits (data : Vector UInt8 16) (octets : List UInt8) : Option (Vector UInt8 16) :=
  if octets.length ≤ 16 then some (Vector.ofFn fun i => (octets[i.val]?).getD (data.get i)) else none

/-- `sms_address_from_bytes`: `some none` is `-1`, and `none` a store outside of the digits. -/
def smsAddressFromBytes (address : SmsAddress) (buf : ℕ → UInt8) (buflen : ℕ) : Option (Option SmsAddress) :=
  if buflen < 2 then some none
  else
    let len := ((buf 0).toNat + 1) / 2
    if 16 < len then some none
    else do
      let data ← storeDigits address.data ((List.range len).map fun i => buf (2 + i))
      some (some ⟨buf 0, buf 1, data⟩)

/-- `sms_address_to_bytes`: what is written at `buf` and the result. For a `buf` that is `NULL` the size is 0. -/
def smsAddressToBytes (address : SmsAddress) (bufsize : ℕ) : Option (List UInt8 × ℕ) :=
  let len := (address.len.toNat + 1) / 2 + 2
  if bufsize < 1 then some ([], len)
  else if bufsize < 2 then some ([address.len], len)
  else do
    let digits ← copyDigits address (min (bufsize - 2) (len - 2))
    some (address.len :: address.toa :: digits, len)

/-- `gsm_hex2_to_byte` as an `unsigned char`: `-1` is 255. -/
def hexOctet (hi lo : UInt8) : UInt8 := ((gsmHex2ToByte hi lo).map .ofNat).getD 255

/-- The octets of the first `n` pairs of hexadecimal digits. -/
def hexOctets (hex : List UInt8) : (n : ℕ) → List UInt8
  | 0 => []
  | n + 1 => hexOctet (hex.getD 0 0) (hex.getD 1 0) :: hexOctets (hex.drop 2) n

/-- `sms_address_from_hex`: `some none` is `-1`, and `none` a store outside of the digits. -/
def smsAddressFromHex (address : SmsAddress) (hex : List UInt8) : Option (Option SmsAddress) :=
  match hex with
  | h0 :: h1 :: h2 :: h3 :: rest =>
    let len := match gsmHex2ToByte h0 h1 with
      | some numDigits => (numDigits + 1) / 2
      | none => 0
    if rest.length < len * 2 then some none
    else do
      let data ← storeDigits address.data (hexOctets rest len)
      some (some ⟨hexOctet h0 h1, hexOctet h2 h3, data⟩)
  | _ => some none

/-- `sms_address_to_hex`: what is written at `hex` and the result. -/
def smsAddressToHex (address : SmsAddress) (hexlen : ℕ) : Option (List UInt8 × ℕ) :=
  let len := (address.len.toNat + 1) / 2 + 2
  if hexlen < 2 then some ([], len * 2)
  else if hexlen < 4 then some (gsmHexFromByte address.len, len * 2)
  else do
    let hexlen := if 2 * (len - 2) < hexlen - 4 then (len - 2) / 2 else hexlen - 4
    let digits ← copyDigits address ((hexlen + 1) / 2)
    some (gsmHexFromByte address.len ++ gsmHexFromByte address.toa ++ digits.flatMap gsmHexFromByte, len * 2)

/-- Two digits in an octet, the first one in the lower half; the upper half is filled behind an odd number. -/
def packDigits : List ℕ → List UInt8
  | [] => []
  | [d] => [.ofNat (d ||| 0xf0)]
  | d1 :: d2 :: ds => .ofNat (d1 ||| d2 <<< 4) :: packDigits ds

/-- The characters of digits. -/
def digitChars (ds : List ℕ) : List UInt8 := ds.map fun d => .ofNat (48 + d)

section Pack

variable {out : List UInt8} {data : Vector UInt8 16}

/-- The octet at the end of what is written. -/
theorem set_at {x y : UInt8} {tail : List UInt8} (h : data.toList = out ++ x :: tail) :
    (data.setIfInBounds out.length y).toList = out ++ y :: tail ∧ data.toList.getD out.length 0 = x := by
  constructor
  · simp [h]
  · simp [h]

/-- One round of the loop. -/
theorem addressDigits_cons {c : UInt8} {src : List UInt8} {i shift len : ℕ} {r : Vector UInt8 16 × ℕ × ℕ × ℕ}
    (h : addressDigits (c :: src) data i shift len = some r) : (48 ≤ c.toNat ∧ c.toNat < 58) ∧ i < 16 ∧
      (if shift + 4 = 8 then
        addressDigits src (data.setIfInBounds i
          (.ofNat ((data.toList.getD i 0).toNat ||| (c.toNat - 48) <<< shift))) (i + 1) 0 (len + 1)
      else
        addressDigits src (data.setIfInBounds i
          (.ofNat ((data.toList.getD i 0).toNat ||| (c.toNat - 48) <<< shift))) i (shift + 4) (len + 1)) = some r := by
  unfold addressDigits at h
  split_ifs at h with hbad h8
  · rw [not_or, not_not, not_le] at hbad
    rw [if_pos h8]
    exact ⟨hbad.1, hbad.2, h⟩
  · rw [not_or, not_not, not_le] at hbad
    rw [if_neg h8]
    exact ⟨hbad.1, hbad.2, h⟩

theorem digit_char {c : UInt8} (h : 48 ≤ c.toNat ∧ c.toNat < 58) :
    c.toNat - 48 < 10 ∧ c = .ofNat (48 + (c.toNat - 48)) := by
  refine ⟨by omega, ?_⟩
  rw [show 48 + (c.toNat - 48) = c.toNat by omega, UInt8.ofNat_toNat]

/-- **The loop packs the digits** behind what is written, two at a time. -/
theorem addressDigits_packed :
    ∀ {src : List UInt8} {out : List UInt8} {data data' : Vector UInt8 16} {i shift len len' : ℕ},
    data.toList = out ++ List.replicate (16 - out.length) 0 → out.length ≤ 16 →
    addressDigits src data out.length 0 len = some (data', i, shift, len') →
    ∃ ds : List ℕ, (∀ d ∈ ds, d < 10) ∧ src = digitChars ds ∧ len' = len + ds.length ∧
      out.length + (ds.length + 1) / 2 ≤ 16 ∧
      (fillDigits data' i shift).toList =
        out ++ packDigits ds ++ List.replicate (16 - out.length - (ds.length + 1) / 2) 0
  | [], out, data, data', i, shift, len, len', hdata, hle, h => by
    obtain ⟨rfl, rfl, rfl, rfl⟩ : data = data' ∧ out.length = i ∧ 0 = shift ∧ len = len' := by
      simpa [addressDigits] using h
    exact ⟨[], by simp, rfl, rfl, by simpa using hle, by simpa [fillDigits, packDigits] using hdata⟩
  | [c], out, data, data', i, shift, len, len', hdata, hle, h => by
    obtain ⟨hc, hi, h⟩ := addressDigits_cons h
    obtain ⟨hd, hchar⟩ := digit_char hc
    generalize c.toNat - 48 = d at hd hchar h
    obtain ⟨n, hn⟩ : ∃ n, 16 - out.length = n + 1 := ⟨15 - out.length, by omega⟩
    rw [hn, replicate_succ] at hdata
    obtain ⟨h1, h2⟩ := set_at (y := .ofNat d) hdata
    rw [if_neg (by decide), h2] at h
    simp only [addressDigits, Option.some.injEq, Prod.mk.injEq] at h
    obtain ⟨rfl, rfl, rfl, rfl⟩ := h
    have hzero : (0 : UInt8).toNat ||| d <<< 0 = d := by simp
    rw [hzero]
    obtain ⟨h3, h4⟩ := set_at (y := .ofNat (d ||| 0xf0)) h1
    have hto : (UInt8.ofNat d).toNat = d := by
      rw [UInt8.toNat_ofNat']
      omega
    refine ⟨[d], by simpa using hd, by rw [hchar]; rfl, rfl, by simp; omega, ?_⟩
    rw [fillDigits, if_pos (by decide), h4, hto, h3]
    simp [packDigits, hn]
  | c1 :: c2 :: src, out, data, data', i, shift, len, len', hdata, hle, h => by
    obtain ⟨hc1, hi, h⟩ := addressDigits_cons h
    obtain ⟨hd1, hchar1⟩ := digit_char hc1
    generalize c1.toNat - 48 = d1 at hd1 hchar1 h
    obtain ⟨n, hn⟩ : ∃ n, 16 - out.length = n + 1 := ⟨15 - out.length, by omega⟩
    rw [hn, replicate_succ] at hdata
    obtain ⟨h1, h2⟩ := set_at (y := .ofNat d1) hdata
    have hzero : (0 : UInt8).toNat ||| d1 <<< 0 = d1 := by simp
    rw [if_neg (by decide), h2, hzero] at h
    obtain ⟨hc2, -, h⟩ := addressDigits_cons h
    obtain ⟨hd2, hchar2⟩ := digit_char hc2
    generalize c2.toNat - 48 = d2 at hd2 hchar2 h
    obtain ⟨h3, h4⟩ := set_at (y := .ofNat (d1 ||| d2 <<< 4)) h1
    have hto : (UInt8.ofNat d1).toNat = d1 := by
      rw [UInt8.toNat_ofNat']
      omega
    rw [if_pos (by decide), h4, hto] at h
    have hout : (out ++ [UInt8.ofNat (d1 ||| d2 <<< 4)]).length = out.length + 1 := by simp
    rw [← hout] at h
    obtain ⟨ds, hds, hsrc, hlen, hfit, hfill⟩ := addressDigits_packed
      (by rw [h3, hout, append_assoc, singleton_append, show 16 - (out.length + 1) = n by omega])
      (by omega) h
    refine ⟨d1 :: d2 :: ds, ?_, ?_, ?_, ?_, ?_⟩
    · simp only [forall_mem_cons]
      exact ⟨hd1, hd2, hds⟩
    · rw [hchar1, hchar2, hsrc]
      rfl
    · rw [hlen, length_cons, length_cons]
      omega
    · rw [hout] at hfit
      simp only [length_cons]
      omega
    · have hrest : 16 - (out.length + 1) - (ds.length + 1) / 2 =
          16 - out.length - ((d1 :: d2 :: ds).length + 1) / 2 := by
        simp only [length_cons]
        omega
      rw [hfill, hout, packDigits, hrest]
      simp

end Pack

variable {a : SmsAddress}

theorem packAddress_some {toa : UInt8} {src : List UInt8} (h : packAddress toa src = some a) :
    ∃ ds : List ℕ, (∀ d ∈ ds, d < 10) ∧ ds.length ≤ 32 ∧ src = digitChars ds ∧ a.len.toNat = ds.length ∧ a.toa = toa ∧
      a.data.toList = packDigits ds ++ List.replicate (16 - (ds.length + 1) / 2) 0 := by
  obtain ⟨⟨data, i, shift, len⟩, hrun, rfl⟩ := map_eq_some_iff.1 h
  have hzero : (Vector.replicate 16 (0 : UInt8)).toList = [] ++ List.replicate (16 - ([] : List UInt8).length) 0 := by
    simp
  obtain ⟨ds, hds, hsrc, hlen, hfit, hfill⟩ := addressDigits_packed hzero (by simp) hrun
  have hle : ds.length ≤ 32 := by
    simp only [length_nil] at hfit
    omega
  refine ⟨ds, hds, hle, hsrc, ?_, rfl, by simpa using hfill⟩
  rw [hlen, Nat.zero_add, UInt8.toNat_ofNat']
  omega

/-- **What `sms_address_from_str` accepts**, and what it makes of it. -/
theorem fromStr_some {src : List UInt8} (h : smsAddressFromStr src = some a) :
    ∃ (plus : Bool) (ds : List ℕ), (∀ d ∈ ds, d < 10) ∧ ds ≠ [] ∧ ds.length ≤ 32 ∧
      src = (if plus then [43] else []) ++ digitChars ds ∧ a.len.toNat = ds.length ∧
      a.toa = (if plus then 0x91 else 0x81) ∧
      a.data.toList = packDigits ds ++ List.replicate (16 - (ds.length + 1) / 2) 0 := by
  cases src with
  | nil => cases h
  | cons c rest =>
    simp only [smsAddressFromStr] at h
    split_ifs at h with hplus hnil
    · obtain ⟨ds, hds, hle, hsrc, hlen, htoa, hdata⟩ := packAddress_some h
      refine ⟨true, ds, hds, ?_, hle, by rw [hplus, hsrc]; rfl, hlen, htoa, hdata⟩
      rintro rfl
      exact hnil hsrc
    · obtain ⟨ds, hds, hle, hsrc, hlen, htoa, hdata⟩ := packAddress_some h
      refine ⟨false, ds, hds, ?_, hle, by rw [hsrc]; rfl, hlen, htoa, hdata⟩
      rintro rfl
      cases hsrc

/-- The characters that the loop of `sms_address_to_str` gives for packed digits: the filler of an odd number is a
character too. -/
def dialled (ds : List ℕ) : List UInt8 := digitChars ds ++ if ds.length % 2 = 1 then [0] else []

theorem dialdigits_digit : ∀ d < 10, dialdigits d = .ofNat (48 + d) := by decide

theorem octet_digits : ∀ d1 < 10, ∀ d2 < 10, (UInt8.ofNat (d1 ||| d2 <<< 4)).toNat &&& 0xf = d1 ∧
    (UInt8.ofNat (d1 ||| d2 <<< 4)).toNat >>> 4 &&& 0xf = d2 := by decide

theorem octet_filled : ∀ d < 10, (UInt8.ofNat (d ||| 0xf0)).toNat &&& 0xf = d ∧
    (UInt8.ofNat (d ||| 0xf0)).toNat >>> 4 &&& 0xf = 15 := by decide

theorem dialString_packed {address : SmsAddress} : ∀ {ds : List ℕ} {n : ℕ} {tail : List UInt8}, (∀ d ∈ ds, d < 10) →
    n % 2 = 0 → address.len.toNat = n + ds.length → address.data.toList.drop (n / 2) = packDigits ds ++ tail →
    dialString address ((ds.length + 1) / 2) n = some (dialled ds)
  | [], n, tail, _, _, _, _ => rfl
  | [d], n, tail, hds, _, hlen, hdata => by
    obtain ⟨hd, -⟩ := forall_mem_cons.1 hds
    obtain ⟨h1, h2⟩ := octet_filled d hd
    have hget : address.data.toList[n / 2]? = some (.ofNat (d ||| 0xf0)) := by
      rw [← List.head?_drop, hdata]
      rfl
    have hmore : ¬ address.len.toNat < n + 1 := by
      rw [hlen, length_singleton]
      omega
    simp only [length_singleton, dialString, hget, bind_eq_bind, bind_some, if_neg hmore, h1, h2,
      dialdigits_digit d hd]
    rfl
  | d1 :: d2 :: ds, n, tail, hds, hn, hlen, hdata => by
    simp only [forall_mem_cons] at hds
    obtain ⟨hd1, hd2, hds⟩ := hds
    obtain ⟨h1, h2⟩ := octet_digits d1 hd1 d2 hd2
    have hget : address.data.toList[n / 2]? = some (.ofNat (d1 ||| d2 <<< 4)) := by
      rw [← List.head?_drop, hdata]
      rfl
    have hrest : address.data.toList.drop ((n + 2) / 2) = packDigits ds ++ tail := by
      rw [show (n + 2) / 2 = n / 2 + 1 by omega, ← drop_drop, hdata]
      rfl
    simp only [length_cons] at hlen ⊢
    have ih := dialString_packed hds (by omega) (show address.len.toNat = n + 2 + ds.length by omega) hrest
    rw [show (ds.length + 1 + 1 + 1) / 2 = (ds.length + 1) / 2 + 1 by omega]
    simp only [dialString, hget, bind_eq_bind, bind_some, ih,
      if_neg (show ¬ address.len.toNat < n + 1 by omega),
      h1, h2, dialdigits_digit d1 hd1, dialdigits_digit d2 hd2]
    have hparity : (ds.length + 1 + 1) % 2 = ds.length % 2 := by omega
    simp only [dialled, digitChars, map_cons, length_cons, cons_append, hparity]

/-- What `sms_address_to_str` gives for an address that was made of a string. -/
theorem toStr_packed {plus : Bool} {ds : List ℕ} (hds : ∀ d ∈ ds, d < 10)
    (hlen : a.len.toNat = ds.length)
    (htoa : a.toa = if plus then 0x91 else 0x81) {tail : List UInt8} (hdata : a.data.toList = packDigits ds ++ tail)
    (strlen : ℕ) :
    smsAddressToStr a strlen = some (((if plus then [43] else []) ++ dialled ds).take strlen,
      ((if plus then [43] else []) ++ dialled ds).length) := by
  have hdial := dialString_packed (n := 0) hds rfl (by rw [hlen, Nat.zero_add]) hdata
  simp only [smsAddressToStr, hlen, hdial, bind_eq_bind, bind_some, htoa]
  cases plus with
  | true => rfl
  | false => rfl

/-- `b` has the length, the type and the digits of `a`. -/
def SmsAddress.Equals (a b : SmsAddress) : Prop := b.len = a.len ∧ b.toa = a.toa ∧ b.digitOctets = a.digitOctets

theorem length_digitOctets (h : a.len.toNat ≤ 32) : a.digitOctets.length = (a.len.toNat + 1) / 2 := by
  rw [SmsAddress.digitOctets, length_take, Vector.length_toList]
  omega

/-- The octets that are stored are the digits of the address. -/
theorem storeDigits_octets (data : Vector UInt8 16) (h : a.len.toNat ≤ 32) :
    ∃ data', storeDigits data a.digitOctets = some data' ∧ a.Equals ⟨a.len, a.toa, data'⟩ := by
  have hlen := length_digitOctets h
  refine ⟨_, if_pos (by omega), rfl, rfl, ?_⟩
  rw [SmsAddress.digitOctets]
  apply ext_getElem?
  intro i
  simp only
  by_cases hi : i < (a.len.toNat + 1) / 2
  · have hi' : i < a.digitOctets.length := by omega
    rw [List.getElem?_take_of_lt hi, Vector.getElem?_toList, Vector.getElem?_eq_getElem (by omega), Vector.getElem_ofFn]
    simp only [List.getElem?_eq_getElem hi', getD_some]
  · rw [List.getElem?_eq_none (by rw [length_take]; omega), List.getElem?_eq_none (by omega)]

/-- **The octets of an address** are read back into any address. -/
theorem bytes_roundTrip (h : a.len.toNat ≤ 32) (into : SmsAddress) (mem : ℕ → UInt8) {bufsize : ℕ}
    (hsize : (a.len.toNat + 1) / 2 + 2 ≤ bufsize) :
    ∃ written len b, smsAddressToBytes a bufsize = some (written, len) ∧ written.length = len ∧
      smsAddressFromBytes into (fun i => (written[i]?).getD (mem i)) len = some (some b) ∧ a.Equals b := by
  have hlen := length_digitOctets h
  obtain ⟨data, hstore, heq⟩ := storeDigits_octets into.data h
  refine ⟨a.len :: a.toa :: a.digitOctets, (a.len.toNat + 1) / 2 + 2, ⟨a.len, a.toa, data⟩, ?_, ?_, ?_, heq⟩
  · have hcopy : copyDigits a (min (bufsize - 2) ((a.len.toNat + 1) / 2 + 2 - 2)) = some a.digitOctets := by
      rw [min_eq_right (by omega), Nat.add_sub_cancel, copyDigits, if_pos (by omega)]
      rfl
    simp only [smsAddressToBytes, if_neg (show ¬ bufsize < 1 by omega), if_neg (show ¬ bufsize < 2 by omega), hcopy,
      bind_eq_bind, bind_some]
  · rw [length_cons, length_cons, hlen]
  · have hmap : ((List.range ((a.len.toNat + 1) / 2)).map fun i =>
        ((a.len :: a.toa :: a.digitOctets)[2 + i]?).getD (mem (2 + i))) = a.digitOctets := by
      apply ext_getElem
      · rw [length_map, length_range, hlen]
      · intro i hi hi'
        rw [getElem_map, getElem_range, show 2 + i = i + 1 + 1 by omega, List.getElem?_cons_succ,
          List.getElem?_cons_succ, List.getElem?_eq_getElem hi', getD_some]
    have h16 : ¬ 16 < (a.len.toNat + 1) / 2 := by omega
    simp only [smsAddressFromBytes, List.getElem?_cons_zero, List.getElem?_cons_succ, getD_some,
      if_neg h16, hmap,
      hstore, bind_eq_bind, bind_some]
    rw [if_neg (by omega)]

theorem fromBytes_inside (into : SmsAddress) (buf : ℕ → UInt8) (buflen : ℕ) :
    smsAddressFromBytes into buf buflen ≠ none := by
  unfold smsAddressFromBytes
  split_ifs with h2
  · exact nofun
  · by_cases h16 : 16 < ((buf 0).toNat + 1) / 2
    · simp [h16]
    · have hlen : ((List.range (((buf 0).toNat + 1) / 2)).map fun i => buf (2 + i)).length ≤ 16 := by
        rw [length_map, length_range]
        omega
      simp [h16, storeDigits]

theorem hexOctet_byte (v : UInt8) : hexOctet (hexdigits (v.toNat >>> 4)) (hexdigits (v.toNat &&& 15)) = v := by
  rw [hexOctet, hex2_byte, map_some, getD_some, UInt8.ofNat_toNat]

theorem length_hexText (octets : List UInt8) : (octets.flatMap gsmHexFromByte).length = 2 * octets.length := by
  rw [length_flatMap]
  simp [gsmHexFromByte, Nat.mul_comm]

theorem hexOctets_hexText (octets : List UInt8) : hexOctets (octets.flatMap gsmHexFromByte) octets.length = octets := by
  induction octets with
  | nil => rfl
  | cons v octets ih =>
    simp only [flatMap_cons, gsmHexFromByte, length_cons, hexOctets, cons_append, nil_append,
      getD_cons_zero, getD_cons_succ, drop_succ_cons, drop_zero, hexOctet_byte]
    exact congrArg _ ih

theorem length_hexOctets (hex : List UInt8) (n : ℕ) : (hexOctets hex n).length = n := by
  induction n generalizing hex with
  | zero => rfl
  | succ n ih => rw [hexOctets, length_cons, ih]

/-- The count in front of the string is at most 32 digits, or the string is too short for it. -/
def HexCountFits (hex : List UInt8) : Prop :=
  ∀ h0 h1 rest n, hex = h0 :: h1 :: rest → gsmHex2ToByte h0 h1 = some n → n ≤ 32 ∨ hex.length < 4 + 2 * ((n + 1) / 2)

theorem fromHex_inside_iff (into : SmsAddress) (hex : List UInt8) :
    smsAddressFromHex into hex ≠ none ↔ HexCountFits hex := by
  rcases hex with _ | ⟨h0, _ | ⟨h1, _ | ⟨h2, _ | ⟨h3, rest⟩⟩⟩⟩
  · exact iff_of_true nofun (fun _ _ _ _ he => nomatch he)
  · exact iff_of_true nofun (fun _ _ _ _ he => nomatch he)
  · refine iff_of_true nofun fun _ _ _ n _ _ => Or.inr ?_
    simp only [length_cons, length_nil]
    omega
  · refine iff_of_true nofun fun _ _ _ n _ _ => Or.inr ?_
    simp only [length_cons, length_nil]
    omega
  · have hfits : HexCountFits (h0 :: h1 :: h2 :: h3 :: rest) ↔
        ∀ n, gsmHex2ToByte h0 h1 = some n → n ≤ 32 ∨ rest.length < 2 * ((n + 1) / 2) := by
      constructor
      · intro h n hn
        have := h h0 h1 (h2 :: h3 :: rest) n rfl hn
        simp only [length_cons] at this
        omega
      · rintro h _ _ _ n ⟨rfl, rfl, rfl⟩ hn
        have := h n hn
        simp only [length_cons]
        omega
    rw [hfits]
    cases hcount : gsmHex2ToByte h0 h1 with
    | none => simp [smsAddressFromHex, hcount, storeDigits, hexOctets]
    | some n =>
      simp only [smsAddressFromHex, hcount, Option.some.injEq, forall_eq']
      by_cases hshort : rest.length < (n + 1) / 2 * 2
      · rw [if_pos hshort]
        exact iff_of_true nofun (Or.inr (by omega))
      · rw [if_neg hshort]
        by_cases hfit : (n + 1) / 2 ≤ 16
        · have hstore : (storeDigits into.data (hexOctets rest ((n + 1) / 2))).isSome := by
            simp [storeDigits, length_hexOctets, hfit]
          obtain ⟨data, hdata⟩ := isSome_iff_exists.1 hstore
          rw [hdata]
          exact iff_of_true nofun (Or.inl (by omega))
        · have hstore : storeDigits into.data (hexOctets rest ((n + 1) / 2)) = none := by
            rw [storeDigits, length_hexOctets, if_neg hfit]
          rw [hstore]
          refine iff_of_false (fun h => h rfl) ?_
          omega

/-- **The hexadecimal digits of an address** are read back exactly when the buffer has just the size for them. -/
theorem hex_roundTrip_iff (h0 : 0 < a.len.toNat) (h : a.len.toNat ≤ 32) (into : SmsAddress)
    {hexlen : ℕ} (hsize : 2 * ((a.len.toNat + 1) / 2 + 2) ≤ hexlen) :
    (∃ written len b, smsAddressToHex a hexlen = some (written, len) ∧ written.length = len ∧
      smsAddressFromHex into written = some (some b) ∧ a.Equals b) ↔ hexlen = 2 * ((a.len.toNat + 1) / 2 + 2) := by
  have hlen := length_digitOctets h
  obtain ⟨data, hstore, heq⟩ := storeDigits_octets into.data h
  constructor
  · rintro ⟨written, len, b, hrun, hwritten, -⟩
    by_contra hne
    -- the buffer is larger: a quarter of the octets is written at most
    obtain ⟨digits, hcopy, hpair⟩ : ∃ digits, copyDigits a (((a.len.toNat + 1) / 2 / 2 + 1) / 2) = some digits ∧
        (gsmHexFromByte a.len ++ gsmHexFromByte a.toa ++ digits.flatMap gsmHexFromByte,
          ((a.len.toNat + 1) / 2 + 2) * 2) = (written, len) := by
      simp only [smsAddressToHex, if_neg (show ¬ hexlen < 2 by omega), if_neg (show ¬ hexlen < 4 by omega),
        Nat.add_sub_cancel,
        if_pos (show 2 * ((a.len.toNat + 1) / 2) < hexlen - 4 by omega)] at hrun
      obtain ⟨digits, h1, h2⟩ := bind_eq_some_iff.1 hrun
      exact ⟨digits, h1, Option.some.inj h2⟩
    obtain ⟨rfl, rfl⟩ := Prod.mk.inj hpair
    have hdigits : digits.length = ((a.len.toNat + 1) / 2 / 2 + 1) / 2 := by
      rw [copyDigits, if_pos (by omega), Option.some.injEq] at hcopy
      rw [← hcopy, length_take, Vector.length_toList]
      omega
    simp only [length_append, length_hexText, hdigits, gsmHexFromByte, length_cons,
      length_nil] at hwritten
    omega
  · rintro rfl
    refine ⟨(a.len :: a.toa :: a.digitOctets).flatMap gsmHexFromByte, ((a.len.toNat + 1) / 2 + 2) * 2,
      ⟨a.len, a.toa, data⟩, ?_, ?_, ?_, heq⟩
    · have hcopy : copyDigits a ((2 * ((a.len.toNat + 1) / 2 + 2) - 4 + 1) / 2) = some a.digitOctets := by
        rw [copyDigits, if_pos (by omega), SmsAddress.digitOctets]
        congr 2
        omega
      simp only [smsAddressToHex, if_neg (show ¬ 2 * ((a.len.toNat + 1) / 2 + 2) < 2 by omega),
        if_neg (show ¬ 2 * ((a.len.toNat + 1) / 2 + 2) < 4 by omega),
        if_neg (show ¬ 2 * ((a.len.toNat + 1) / 2 + 2 - 2) < 2 * ((a.len.toNat + 1) / 2 + 2) - 4 by omega), hcopy,
        bind_eq_bind, bind_some, flatMap_cons, append_assoc]
    · rw [length_hexText, length_cons, length_cons, hlen]
      omega
    · have hoctets : hexOctets (a.digitOctets.flatMap gsmHexFromByte) ((a.len.toNat + 1) / 2) = a.digitOctets := by
        rw [← hlen, hexOctets_hexText]
      simp only [flatMap_cons, gsmHexFromByte, cons_append, nil_append, smsAddressFromHex, hex2_byte,
        hexOctet_byte]
      rw [length_hexText, hlen,
        if_neg (show ¬ 2 * ((a.len.toNat + 1) / 2) < (a.len.toNat + 1) / 2 * 2 by omega), hoctets,
        hstore]
      rfl

/-- The number of digits of a dialling string. -/
def digitCount (src : List UInt8) : ℕ := if src.head? = some 43 then src.length - 1 else src.length

/-- **The codecs are inverse** on the address `a` that a string was made into, with buffers of these sizes, and store
only inside of an address. -/
structure CodecsInverse (src : List UInt8) (a into : SmsAddress) (strlen bufsize hexlen : ℕ) (mem buf : ℕ → UInt8)
    (buflen : ℕ) (hex : List UInt8) : Prop where
  str : smsAddressToStr a strlen = some (src, src.length)
  ofBytes : ∃ written len b, smsAddressToBytes a bufsize = some (written, len) ∧ written.length = len ∧
    smsAddressFromBytes into (fun i => (written[i]?).getD (mem i)) len = some (some b) ∧ a.Equals b
  ofHex : ∃ written len b, smsAddressToHex a hexlen = some (written, len) ∧ written.length = len ∧
    smsAddressFromHex into written = some (some b) ∧ a.Equals b
  bytesInside : smsAddressFromBytes into buf buflen ≠ none
  hexInside : smsAddressFromHex into hex ≠ none

/-- **The address codecs** do what they should for an even number of digits, a buffer that has just the size for the
hexadecimal digits, and a hexadecimal string whose count fits. -/
theorem addressCodecs_iff {src : List UInt8} {a : SmsAddress} (h : smsAddressFromStr src = some a) {strlen bufsize
    hexlen : ℕ} (hstr : src.length ≤ strlen) (hbuf : (digitCount src + 1) / 2 + 2 ≤ bufsize)
    (hhex : 2 * ((digitCount src + 1) / 2 + 2) ≤ hexlen) (into : SmsAddress) (mem buf : ℕ → UInt8) (buflen : ℕ)
    (hex : List UInt8) :
    CodecsInverse src a into strlen bufsize hexlen mem buf buflen hex ↔
      digitCount src % 2 = 0 ∧ hexlen = 2 * ((digitCount src + 1) / 2 + 2) ∧ HexCountFits hex := by
  obtain ⟨plus, ds, hds, hne, hle, hsrc, hlen, htoa, hdata⟩ := fromStr_some h
  have hcount : digitCount src = a.len.toNat := by
    rw [hlen, hsrc, digitCount]
    cases plus with
    | true => simp [digitChars]
    | false =>
      have hhead : (digitChars ds).head? ≠ some 43 := by
        obtain ⟨d, ds', rfl⟩ := exists_cons_of_ne_nil hne
        have hd := hds d mem_cons_self
        intro he
        have h43 := congrArg UInt8.toNat (Option.some.inj he)
        rw [UInt8.toNat_ofNat'] at h43
        simp only [UInt8.reduceToNat] at h43
        omega
      simp only [Bool.false_eq_true, if_false, nil_append]
      rw [if_neg hhead, digitChars, length_map]
  have hpos : 0 < a.len.toNat := by
    rw [hlen]
    exact length_pos_iff.2 hne
  have h32 : a.len.toNat ≤ 32 := by omega
  have hstrIff : smsAddressToStr a strlen = some (src, src.length) ↔ digitCount src % 2 = 0 := by
    rw [toStr_packed hds hlen htoa hdata, hcount, hlen, hsrc]
    by_cases hodd : ds.length % 2 = 1
    · refine iff_of_false (fun he => ?_) (by omega)
      have hlength := (Prod.mk.inj (Option.some.inj he)).2
      simp [dialled, hodd] at hlength
    · refine iff_of_true ?_ (by omega)
      rw [dialled, if_neg hodd, append_nil, take_of_length_le (by rw [← hsrc]; exact hstr)]
  rw [hcount] at hbuf hhex
  have hhexIff := hex_roundTrip_iff hpos h32 into hhex
  rw [← hstrIff, hcount, ← hhexIff, ← fromHex_inside_iff into hex]
  constructor
  · intro hinv
    exact ⟨hinv.str, hinv.ofHex, hinv.hexInside⟩
  · rintro ⟨h1, h2, h3⟩
    exact ⟨h1, bytes_roundTrip h32 into mem hbuf, h2, fromBytes_inside into buf buflen, h3⟩

/-- The number `12` and a buffer of the exact size. -/
theorem addressCodecs_iff_twelve :
    CodecsInverse [49, 50] ⟨2, 0x81, Vector.replicate 16 0 |>.set 0 0x21⟩ ⟨0, 0, Vector.replicate 16 0⟩ 2 3 6
      (fun _ => 0) (fun _ => 0) 5 [] ↔ digitCount [49, 50] % 2 = 0 ∧ 6 = 2 * ((digitCount [49, 50] + 1) / 2 + 2) ∧
      HexCountFits [] :=
  addressCodecs_iff (by rfl) (by decide) (by decide) (by decide) _ _ _ _ _

/-- The number `1` is dialled with a second character, the 0 behind the digits, and the count is 2. -/
theorem addressCodecs_oneDigit :
    smsAddressFromStr [49] = some ⟨1, 0x81, Vector.replicate 16 0 |>.set 0 0xf1⟩ ∧
      ¬ CodecsInverse [49] ⟨1, 0x81, Vector.replicate 16 0 |>.set 0 0xf1⟩ ⟨0, 0, Vector.replicate 16 0⟩ 2 3 6
        (fun _ => 0) (fun _ => 0) 5 [] := by
  refine ⟨by rfl, fun h => ?_⟩
  have hstr := h.str
  have hrun : smsAddressToStr ⟨1, 0x81, Vector.replicate 16 0 |>.set 0 0xf1⟩ 2 = some ([49, 0], 2) := by rfl
  rw [hrun] at hstr
  exact absurd hstr (by decide)

end Emulator.Telephony
