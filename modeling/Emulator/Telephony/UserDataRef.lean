import Emulator.Telephony.Sms

/-!
# The reference in a user data header

`smspdu_get_user_data_ref` of `telephony/sms.c`, which looks for the element 0 of the header.

* `userDataRef_beyond`: nothing behind a PDU is read, and a reference is inside of it;
* `walk_front`: where the walk begins: the address in front is not skipped;
* `userDataRef_iff`: none is found in PDUs in which the walk is not reached, that have none; in the others one is
  missed.
-/

namespace Emulator.Telephony

open List

/-- `smspdu_get_user_data_ref` with the memory at `base`. -/
def userDataRefIn (mem : ℕ → UInt8) (tpdu fin : ℕ) : Option (Option ℕ) :=
  match userDataPlace mem (smsGetByte mem tpdu fin).2 fin (smsGetByte mem tpdu fin).1 with
  | none => some none
  | some data =>
    if fin ≤ data + 1 then some none
    else userHeaderWalk mem fin fin (data + 2) (mem (data + 1)).toNat

theorem smspduGetUserDataRef_eq (pdu : SmsPDU) :
    smspduGetUserDataRef pdu = userDataRefIn (pdu.mem fun _ => 0) pdu.tpdu pdu.base.length := rfl

/-- Two memories with the same octets in front of `fin`. -/
def SameUpTo (fin : ℕ) (mem mem' : ℕ → UInt8) : Prop := ∀ i < fin, mem i = mem' i

variable {mem mem' : ℕ → UInt8}

theorem userHeaderWalk_same {fin : ℕ} (h : SameUpTo fin mem mem') (fuel data : ℕ) (len : ℤ) :
    userHeaderWalk mem fin fuel data len = userHeaderWalk mem' fin fuel data len := by
  induction fuel generalizing data len with
  | zero => rfl
  | succ fuel ih =>
    rw [userHeaderWalk, userHeaderWalk]
    by_cases hin : 2 ≤ len ∧ data + 2 ≤ fin
    · simp only [if_pos hin, h data (by omega), h (data + 1) (by omega), ih]
    · rw [if_neg hin, if_neg hin]

theorem smsSkipAddress_same {fin : ℕ} (h : SameUpTo fin mem mem') (cur : ℕ) :
    smsSkipAddress mem cur fin = smsSkipAddress mem' cur fin := by
  unfold smsSkipAddress
  by_cases hin : fin < cur + 2
  · rw [if_pos hin, if_pos hin]
  · rw [if_neg hin, if_neg hin, h cur (by omega)]

theorem userDataRefIn_same {tpdu fin : ℕ} (h : SameUpTo fin mem mem') :
    userDataRefIn mem tpdu fin = userDataRefIn mem' tpdu fin := by
  have hbyte : smsGetByte mem tpdu fin = smsGetByte mem' tpdu fin := by
    unfold smsGetByte
    split_ifs with ht
    · rw [h tpdu ht]
    · rfl
  have hplace (data : ℕ) (mti : ℤ) : userDataPlace mem data fin mti = userDataPlace mem' data fin mti := by
    simp only [userDataPlace, smsSkipAddress_same h]
  rw [userDataRefIn, userDataRefIn, hbyte, hplace]
  cases userDataPlace mem' (smsGetByte mem' tpdu fin).2 fin (smsGetByte mem' tpdu fin).1 with
  | none => rfl
  | some data =>
    simp only
    split_ifs with hend
    · rfl
    · rw [h (data + 1) (by omega), userHeaderWalk_same h]

theorem userHeaderWalk_inside {mem : ℕ → UInt8} {fin fuel data : ℕ} {len : ℤ} {p : ℕ}
    (h : userHeaderWalk mem fin fuel data len = some (some p)) : p + 3 ≤ fin := by
  induction fuel generalizing data len with
  | zero => exact nomatch h
  | succ fuel ih =>
    rw [userHeaderWalk] at h
    by_cases hin : 2 ≤ len ∧ data + 2 ≤ fin
    · simp only [if_pos hin] at h
      split_ifs at h with hfound
      · obtain rfl := Option.some.inj (Option.some.inj h)
        omega
      · exact ih h
    · rw [if_neg hin] at h
      exact nomatch h

/-- **Nothing behind a PDU is read**, and the reference that is given is inside of the PDU. -/
theorem userDataRef_beyond (pdu : SmsPDU) :
    (∀ beyond, userDataRefIn (pdu.mem beyond) pdu.tpdu pdu.base.length = smspduGetUserDataRef pdu) ∧
      ∀ p, smspduGetUserDataRef pdu = some (some p) → p + 3 ≤ pdu.base.length := by
  constructor
  · intro beyond
    rw [smspduGetUserDataRef_eq]
    refine userDataRefIn_same fun i hi => ?_
    rw [SmsPDU.mem, SmsPDU.mem, getD_eq_getElem?_getD, getD_eq_getElem?_getD, List.getElem?_eq_getElem hi]
    rfl
  · intro p hp
    rw [smspduGetUserDataRef_eq, userDataRefIn] at hp
    split at hp
    · exact nomatch hp
    · split_ifs at hp
      · exact nomatch hp
      · exact userHeaderWalk_inside hp

/-- The octets of the validity period of a submit PDU. -/
def validityLength (mti : UInt8) : ℕ :=
  if mti.toNat / 8 % 4 = 0 then 0 else if mti.toNat / 8 % 4 = 1 then 1 else 7

/-- **A deliver or submit PDU** in front of its user data: the octets of the service center, the first octet, the
reference of a submit PDU, the address, the protocol and the coding, and the time stamp or the validity period. -/
structure SmsFront where
  sc : List UInt8
  mti : UInt8
  type : mti.toNat % 4 = 0 ∨ mti.toNat % 4 = 1
  reference : UInt8
  addressLen : UInt8
  toa : UInt8
  digits : List UInt8
  digits_length : digits.length = (addressLen.toNat + 1) / 2
  protocol : UInt8
  coding : UInt8
  time : List UInt8
  time_length : time.length = if mti.toNat % 4 = 0 then 7 else validityLength mti

def SmsFront.octets (front : SmsFront) : List UInt8 :=
  front.sc ++ front.mti :: ((if front.mti.toNat % 4 = 0 then [] else [front.reference]) ++
    front.addressLen :: front.toa :: (front.digits ++ front.protocol :: front.coding :: front.time))

/-- The PDU with this user data, its length in front. -/
def SmsFront.pdu (front : SmsFront) (userData : List UInt8) : SmsPDU := ⟨front.octets ++ userData, front.sc.length⟩

/-- The flag for a user data header. -/
def SmsFront.HasHeader (front : SmsFront) : Prop := front.mti.toNat / 64 % 2 = 1

/-- The elements of a header, an id and the octets each. -/
def headerOctets (elements : List (UInt8 × List UInt8)) : List UInt8 :=
  elements.flatMap fun e => e.1 :: .ofNat e.2.length :: e.2

/-- The user data with this header in front of the text, which has so many octets. -/
def headedData (len : UInt8) (elements : List (UInt8 × List UInt8)) (text : List UInt8) : List UInt8 :=
  len :: .ofNat (headerOctets elements).length :: (headerOctets elements ++ text)

/-- Where the octets of the first element 0 with three octets are, if the elements begin at `place`. -/
def firstRef (place : ℕ) : List (UInt8 × List UInt8) → Option ℕ
  | [] => none
  | (id, body) :: elements =>
    if id = 0 ∧ body.length = 3 then some (place + 2) else firstRef (place + 2 + body.length) elements

/-- A length that fits the octets of the user data, in octets or, for the default alphabet, in septets. -/
def LengthFits (len : UInt8) (octets : ℕ) : Prop := len.toNat = octets ∨ (len.toNat * 7 + 7) / 8 = octets

/-- **The reference is found rightly** in a PDU: the walk ends, reads and points inside of the PDU, and gives the
first reference of a well-formed header, or none for a PDU without one. -/
structure RefRight (pdu : SmsPDU) : Prop where
  ends : smspduGetUserDataRef pdu ≠ none
  beyond : ∀ beyond, userDataRefIn (pdu.mem beyond) pdu.tpdu pdu.base.length = smspduGetUserDataRef pdu
  inside : ∀ p, smspduGetUserDataRef pdu = some (some p) → p + 3 ≤ pdu.base.length
  finds : ∀ (front : SmsFront) (len : UInt8) (elements : List (UInt8 × List UInt8)) (text : List UInt8),
    front.HasHeader → (∀ e ∈ elements, e.2.length < 256) → (headerOctets elements).length < 256 →
    LengthFits len (1 + (headerOctets elements).length + text.length) →
    pdu = front.pdu (headedData len elements text) →
    smspduGetUserDataRef pdu = some (firstRef (front.octets.length + 2) elements)
  plain : ∀ (front : SmsFront) (userData : List UInt8), ¬ front.HasHeader → pdu = front.pdu userData →
    smspduGetUserDataRef pdu = some none

/-- **The walk over the header is reached**: the first octet says that the PDU is a deliver or submit PDU with a user
data header, the address ends inside of the PDU, and so do, from the beginning of the address on, two octets, the time
stamp or the validity period, and two more octets. -/
def SmsPDU.WalkReached (pdu : SmsPDU) : Prop :=
  ∃ mti ∈ pdu.base[pdu.tpdu]?, mti.toNat / 64 % 2 = 1 ∧ (mti.toNat % 4 = 0 ∨ mti.toNat % 4 = 1) ∧
    ∃ len ∈ pdu.base[pdu.tpdu + if mti.toNat % 4 = 0 then 1 else 2]?,
      pdu.tpdu + (if mti.toNat % 4 = 0 then 1 else 2) + 2 + (len.toNat + 1) / 2 ≤ pdu.base.length ∧
      pdu.tpdu + (if mti.toNat % 4 = 0 then 1 else 2) + 4 + (if mti.toNat % 4 = 0 then 7 else validityLength mti) ≤
        pdu.base.length

theorem SmsPDU.mem_getElem {pdu : SmsPDU} {i : ℕ} (h : i < pdu.base.length) (beyond : ℕ → UInt8) :
    pdu.mem beyond i = pdu.base[i] := by
  rw [SmsPDU.mem, getD_eq_getElem?_getD, List.getElem?_eq_getElem h]
  rfl

theorem smsSkipAddress_some {mem : ℕ → UInt8} {cur fin cur' : ℕ} (h : smsSkipAddress mem cur fin = some cur') :
    cur' = cur ∧ cur + 2 + ((mem cur).toNat + 1) / 2 ≤ fin := by
  unfold smsSkipAddress at h
  split_ifs at h with h1 h2
  obtain rfl := Option.some.inj h
  omega

/-- The octets of the validity period are skipped. -/
theorem smsSkipValidityPeriod_eq (mti : UInt8) (cur fin : ℕ) : smsSkipValidityPeriod cur fin mti.toNat =
    if fin < cur + validityLength mti then none else some (cur + validityLength mti) := by
  have hmove : (if (mti.toNat : ℤ) / 8 % 4 = 0 then cur else if (mti.toNat : ℤ) / 8 % 4 = 1 then cur + 1 else cur + 7) =
      cur + validityLength mti := by
    norm_cast
    unfold validityLength
    split_ifs <;> rfl
  rw [smsSkipValidityPeriod, hmove]

theorem userDataRef_unreached {pdu : SmsPDU} (h : ¬ pdu.WalkReached) : smspduGetUserDataRef pdu = some none := by
  rw [smspduGetUserDataRef_eq, userDataRefIn, smsGetByte]
  by_cases ht : pdu.tpdu < pdu.base.length
  swap
  · -- `-1` has the flag, and is of no type
    rw [if_neg ht]
    rfl
  rw [if_pos ht]
  simp only
  cases hplace : userDataPlace (pdu.mem fun _ => 0) (pdu.tpdu + 1) pdu.base.length
    (pdu.mem (fun _ => 0) pdu.tpdu).toNat with
  | none => rfl
  | some place =>
    refine if_pos ?_
    by_contra hroom
    refine h ⟨pdu.mem (fun _ => 0) pdu.tpdu, ?_, ?_⟩
    · rw [SmsPDU.mem_getElem ht]
      exact List.getElem?_eq_getElem ht
    rw [userDataPlace] at hplace
    split_ifs at hplace with hflag h0 h1
    · obtain ⟨cur, haddress, htime⟩ := Option.bind_eq_some_iff.1 hplace
      obtain ⟨rfl, hinside⟩ := smsSkipAddress_some haddress
      unfold smsSkipTimestamp at htime
      split_ifs at htime
      obtain rfl := Option.some.inj htime
      have hlt : pdu.tpdu + 1 < pdu.base.length := by omega
      rw [SmsPDU.mem_getElem hlt] at hinside
      refine ⟨by omega, .inl (by omega), pdu.base[pdu.tpdu + 1], ?_, ?_⟩
      all_goals rw [if_pos (by omega)]
      · exact List.getElem?_eq_getElem hlt
      · rw [if_pos (by omega)]
        omega
    · obtain ⟨cur, haddress, htime⟩ := Option.bind_eq_some_iff.1 hplace
      obtain ⟨rfl, hinside⟩ := smsSkipAddress_some haddress
      rw [smsSkipValidityPeriod_eq] at htime
      split_ifs at htime
      obtain rfl := Option.some.inj htime
      have hlt : pdu.tpdu + 1 + 1 < pdu.base.length := by omega
      rw [SmsPDU.mem_getElem hlt] at hinside
      refine ⟨by omega, .inr (by omega), pdu.base[pdu.tpdu + 1 + 1], ?_, ?_⟩
      all_goals rw [if_neg (by omega)]
      · exact List.getElem?_eq_getElem hlt
      · rw [if_neg (by omega)]
        omega

theorem SmsFront.mti_at (front : SmsFront) (userData : List UInt8) :
    (front.pdu userData).base[(front.pdu userData).tpdu]? = some front.mti := by
  simp [SmsFront.pdu, SmsFront.octets]

theorem SmsFront.octets_length (front : SmsFront) : front.octets.length =
    front.sc.length + (if front.mti.toNat % 4 = 0 then 5 else 6) + front.digits.length + front.time.length := by
  unfold SmsFront.octets
  split_ifs <;> simp <;> omega

/-- Behind a whole front the walk is reached exactly if there is a header. -/
theorem SmsFront.walkReached_pdu (front : SmsFront) (userData : List UInt8) :
    (front.pdu userData).WalkReached ↔ front.HasHeader := by
  have hlen : (front.pdu userData).base.length = front.octets.length + userData.length := length_append
  have haddress : (front.pdu userData).base[front.sc.length + if front.mti.toNat % 4 = 0 then 1 else 2]? =
      some front.addressLen := by
    unfold SmsFront.pdu SmsFront.octets
    split_ifs <;> simp
  have hdigits := front.digits_length
  have htime := front.time_length
  rw [front.octets_length] at hlen
  constructor
  · rintro ⟨mti, hmti, hflag, -⟩
    obtain rfl := Option.some.inj ((front.mti_at userData).symm.trans hmti)
    exact hflag
  · intro hflag
    refine ⟨front.mti, front.mti_at userData, hflag, front.type, front.addressLen, haddress, ?_⟩
    rw [hlen, ← hdigits, ← htime]
    change front.sc.length + _ + _ + _ ≤ _ ∧ front.sc.length + _ + _ + _ ≤ _
    split_ifs <;> omega

theorem refRight_unreached {pdu : SmsPDU} (h : ¬ pdu.WalkReached) : RefRight pdu := by
  have hnone := userDataRef_unreached h
  refine ⟨by rw [hnone]; exact nofun, (userDataRef_beyond pdu).1, (userDataRef_beyond pdu).2, ?_, fun _ _ _ _ => hnone⟩
  rintro front len elements text hfront - - - rfl
  exact absurd ((front.walkReached_pdu _).2 hfront) h

theorem SmsFront.mem_mti (front : SmsFront) (userData : List UInt8) :
    (front.pdu userData).mem (fun _ => 0) front.sc.length = front.mti := by
  simp [SmsPDU.mem, SmsFront.pdu, SmsFront.octets]

theorem SmsFront.mem_addressLen (front : SmsFront) (userData : List UInt8) :
    (front.pdu userData).mem (fun _ => 0) (front.sc.length + if front.mti.toNat % 4 = 0 then 1 else 2) =
      front.addressLen := by
  unfold SmsPDU.mem SmsFront.pdu SmsFront.octets
  split_ifs
  · simp
  · simp

/-- The octets that are skipped by the type of the PDU: the place that is taken for the length of the user data. -/
theorem userDataPlace_front (front : SmsFront) (hheader : front.HasHeader) {mem : ℕ → UInt8} {fin : ℕ}
    (haddress : mem (front.sc.length + if front.mti.toNat % 4 = 0 then 1 else 2) = front.addressLen)
    (hfin : front.octets.length ≤ fin) :
    userDataPlace mem (front.sc.length + 1) fin front.mti.toNat =
      some (front.octets.length - front.digits.length - 2) := by
  have hlen := front.octets_length
  have htime := front.time_length
  have hdigits := front.digits_length
  have hflag : ¬ (front.mti.toNat : ℤ) / 64 % 2 = 0 := by
    unfold SmsFront.HasHeader at hheader
    omega
  rw [userDataPlace, if_neg hflag]
  -- a time stamp is skipped in a deliver PDU, a validity period in a submit PDU
  rcases front.type with h0 | h1
  · rw [if_pos h0] at hlen htime haddress
    have hskip : smsSkipAddress mem (front.sc.length + 1) fin = some (front.sc.length + 1) := by
      rw [smsSkipAddress, if_neg (by omega), haddress, ← hdigits, if_neg (by omega)]
    rw [if_pos (show (front.mti.toNat : ℤ) % 4 = 0 by omega), hskip, Option.bind_some, smsSkipTimestamp,
      if_neg (by omega), Option.some.injEq]
    omega
  · have h0 : ¬ front.mti.toNat % 4 = 0 := by omega
    rw [if_neg h0] at hlen htime haddress
    have hskip : smsSkipAddress mem (front.sc.length + 1 + 1) fin = some (front.sc.length + 1 + 1) := by
      rw [smsSkipAddress, if_neg (by omega), show front.sc.length + 1 + 1 = front.sc.length + 2 from rfl, haddress,
        ← hdigits, if_neg (by omega)]
    have hvalidity : smsSkipValidityPeriod (front.sc.length + 1 + 1 + 2) fin front.mti.toNat =
        some (front.sc.length + 1 + 1 + 2 + front.time.length) := by
      rw [htime, smsSkipValidityPeriod_eq]
      exact if_neg (by omega)
    rw [if_neg (show ¬ (front.mti.toNat : ℤ) % 4 = 0 by omega), if_pos (show (front.mti.toNat : ℤ) % 4 = 1 by omega),
      hskip, Option.bind_some, hvalidity, Option.some.injEq]
    omega

/-- **The walk begins** as many octets too early as the address has for its digits, with the octet in front as its
length. -/
theorem walk_front (front : SmsFront) (hheader : front.HasHeader) {userData : List UInt8} (hne : userData ≠ []) :
    smspduGetUserDataRef (front.pdu userData) =
      userHeaderWalk ((front.pdu userData).mem fun _ => 0) (front.pdu userData).base.length
        (front.pdu userData).base.length (front.octets.length - front.digits.length)
        ((front.pdu userData).mem (fun _ => 0) (front.octets.length - front.digits.length - 1)).toNat := by
  have hpos := length_pos_iff.2 hne
  have hlen := front.octets_length
  have hfin : (front.pdu userData).base.length = front.octets.length + userData.length := length_append
  have hlong : front.digits.length + 5 ≤ front.octets.length := by
    rw [hlen]
    split_ifs <;> omega
  -- the first octet is behind the service centre
  have hbyte : smsGetByte ((front.pdu userData).mem fun _ => 0) (front.pdu userData).tpdu
      (front.pdu userData).base.length = ((front.mti.toNat : ℤ), front.sc.length + 1) := by
    have ht : (front.pdu userData).tpdu < (front.pdu userData).base.length := by
      change front.sc.length < _
      rw [hfin, hlen]
      split_ifs <;> omega
    rw [smsGetByte, if_pos ht]
    exact congrArg (fun b : UInt8 => ((b.toNat : ℤ), front.sc.length + 1)) (front.mem_mti userData)
  rw [smspduGetUserDataRef_eq, userDataRefIn, hbyte,
    userDataPlace_front front hheader (front.mem_addressLen userData) (by omega)]
  simp only
  rw [if_neg (by omega), show front.octets.length - front.digits.length - 2 + 2 =
    front.octets.length - front.digits.length by omega, show front.octets.length - front.digits.length - 2 + 1 =
    front.octets.length - front.digits.length - 1 by omega]

theorem SmsFront.mem_same (front : SmsFront) (userData userData' : List UInt8) :
    SameUpTo front.octets.length ((front.pdu userData).mem fun _ => 0) ((front.pdu userData').mem fun _ => 0) := by
  intro i hi
  simp only [SmsPDU.mem, SmsFront.pdu, getD_eq_getElem?_getD]
  rw [List.getElem?_append_left hi, List.getElem?_append_left hi]

theorem SmsFront.mem_zero (front : SmsFront) (count : ℕ) {i : ℕ} (h : front.octets.length ≤ i) :
    (front.pdu (List.replicate count 0)).mem (fun _ => 0) i = 0 := by
  rw [SmsPDU.mem, SmsFront.pdu, getD_eq_getElem?_getD, List.getElem?_append_right h, List.getElem?_replicate]
  split_ifs <;> rfl

/-- **A walk that ends in front of zeros** has not left the octets in front: it ends likewise whatever is there in their
place. -/
theorem walk_zeros {n fin fin' : ℕ} (hsame : SameUpTo n mem mem')
    (hzero : ∀ i, n ≤ i → mem i = 0) (hfin : n + 258 ≤ fin) (hfin' : n + 3 ≤ fin') {fuel fuel' data : ℕ} {len : ℤ}
    (hdata : data < n + 256) (hfuel : n - data < fuel) (hfuel' : n - data < fuel') {ref : Option ℕ}
    (h : userHeaderWalk mem fin fuel data len = some ref) :
    userHeaderWalk mem' fin' fuel' data len = some ref ∧ ∀ p ∈ ref, p ≤ n := by
  induction fuel generalizing fuel' data len with
  | zero => omega
  | succ fuel ih =>
    obtain ⟨fuel', rfl⟩ : ∃ f, fuel' = f + 1 := ⟨fuel' - 1, by omega⟩
    rw [userHeaderWalk] at h ⊢
    by_cases hlen : 2 ≤ len
    · rw [if_pos ⟨hlen, by omega⟩] at h
      by_cases hn : data + 2 ≤ n
      · -- inside of the octets that both memories have
        rw [if_pos ⟨hlen, by omega⟩, ← hsame data (by omega), ← hsame (data + 1) (by omega)]
        simp only at h ⊢
        have hstep := (mem (data + 1)).toNat_lt
        by_cases hfound : (mem data).toNat = 0 ∧ (mem (data + 1)).toNat = 3
        · rw [if_pos ⟨hfound.1, hfound.2, by omega⟩] at h ⊢
          refine ⟨h, ?_⟩
          rw [← Option.some.inj h]
          rintro _ ⟨⟩
          exact hn
        · rw [if_neg fun hf => hfound ⟨hf.1, hf.2.1⟩] at h ⊢
          split_ifs at h ⊢ with h0
          exact ih (by omega) (by omega) (by omega) h
      · -- the next element has the length 0
        simp [hzero (data + 1) (by omega)] at h
    · rw [if_neg fun h => hlen h.1] at h ⊢
      obtain rfl := Option.some.inj h
      exact ⟨rfl, nofun⟩

/-- The user data of a header with a reference and no text. -/
def referenceData : List UInt8 := headedData 6 [(0, [1, 2, 1])] []

/-- **A header that is missed**, for every PDU in front of it: one that is no end to the walk, or a reference. -/
theorem refRight_header (front : SmsFront) (hheader : front.HasHeader) :
    ¬ (RefRight (front.pdu (List.replicate 300 0)) ∧ RefRight (front.pdu referenceData)) := by
  rintro ⟨hzeros, hreference⟩
  obtain ⟨ref, href⟩ := Option.ne_none_iff_exists'.1 hzeros.ends
  have hgiven : smspduGetUserDataRef (front.pdu referenceData) = some (some (front.octets.length + 4)) :=
    hreference.finds front 6 [(0, [1, 2, 1])] [] hheader (by decide) (by decide) (.inl (by decide)) rfl
  have hne : List.replicate 300 (0 : UInt8) ≠ [] := cons_ne_nil 0 (List.replicate 299 0)
  have hne' : referenceData ≠ [] := cons_ne_nil _ _
  rw [walk_front front hheader hne] at href
  rw [walk_front front hheader hne'] at hgiven
  have hlen := front.octets_length
  have hlong : front.digits.length + 5 ≤ front.octets.length := by
    rw [hlen]
    split_ifs <;> omega
  have hfin : (front.pdu (List.replicate 300 0)).base.length = front.octets.length + 300 := by
    rw [SmsFront.pdu, length_append, length_replicate]
  have hfin' : (front.pdu referenceData).base.length = front.octets.length + 7 := length_append
  have hsame := front.mem_same (List.replicate 300 0) referenceData
  rw [← hsame _ (by omega)] at hgiven
  have hwalk : userHeaderWalk ((front.pdu referenceData).mem fun _ => 0) (front.pdu referenceData).base.length
      (front.pdu referenceData).base.length (front.octets.length - front.digits.length) _ = some ref ∧
      ∀ p ∈ ref, p ≤ front.octets.length :=
    walk_zeros hsame (fun i hi => front.mem_zero 300 hi) (by omega) (by omega) (by omega) (by omega) (by omega) href
  have hle := hwalk.2 _ (Option.some.inj (hgiven.symm.trans hwalk.1)).symm
  omega

/-- **The reference of a PDU** is found rightly when the walk over the user data header is not reached. For the front
of a deliver or submit PDU, it is found rightly with all user data if and only if the walk is not reached. -/
theorem userDataRef_iff (pdu : SmsPDU) : (¬ pdu.WalkReached → RefRight pdu) ∧
    ∀ (front : SmsFront) (userData : List UInt8), pdu = front.pdu userData →
      ((∀ userData', RefRight (front.pdu userData')) ↔ ¬ pdu.WalkReached) := by
  refine ⟨refRight_unreached, ?_⟩
  rintro front userData rfl
  rw [front.walkReached_pdu]
  constructor
  · intro h hheader
    exact refRight_header front hheader ⟨h _, h _⟩
  · intro h userData'
    exact refRight_unreached fun hpdu => h ((front.walkReached_pdu userData').1 hpdu)

/-- A deliver PDU of a four-digit number at the full second, with the time zone 0 and a reference: the walk begins in
its time stamp. -/
def fullSecond : SmsPDU :=
  ⟨[0, 0x40, 4, 0x81, 0x21, 0x43, 0, 0, 0x21, 0x10, 0x51, 0x21, 0x30, 0, 0, 6, 5, 0, 3, 1, 2, 1], 1⟩

/-- The walk does not end in it. -/
theorem userDataRef_fullSecond : ¬ RefRight fullSecond := fun h => h.ends (by decide)

end Emulator.Telephony
