import Emulator.Telephony.Segments

/-!
# Reading a created PDU back

The functions that read a SMS-DELIVER do not agree with the one that creates it.
`sms_get_sc_address` takes the number of digits for a number of octets and leaves the cursor
in front of the digits, `sms_skip_address` does not move it at all, the coding scheme of a
UCS2 text reads as GSM7, and `smspdu_get_text_message` adds the text to a rope that it has
not initialised.

* `deliver_not_read_back`: no created PDU is read back, whatever it was created from.
-/

namespace Emulator.Telephony

open Option

/-- Everything that a PDU was created from is read back from it, whatever the locals of the functions that read it
hold before and whatever stands behind it in memory. -/
structure ReadsBack (args : DeliverArgs) (utf8 : List UInt8) (pduIndex : ℕ) (pdu : SmsPDU) : Prop where
  sender (address : SmsAddress) : ∃ sender, smspduGetSenderAddress pdu address = some sender ∧
    sender.Same args.senderAddress
  timestamp : smspduGetScTimestamp pdu = some args.timestamp
  text (beyond : ℕ → UInt8) (rope : GsmRope) (utf8len : ℕ) : utf8.length ≤ utf8len →
    smspduGetTextMessage pdu beyond rope utf8len = some (utf8.length, some utf8)
  reference : 1 < args.pduCount → smspduGetRef pdu = some args.refNum ∧ smspduGetMaxIndex pdu = some args.pduCount ∧
    smspduGetCurIndex pdu = some pduIndex

/-- The PDU is created, and read back, also when it has been written in hexadecimal. -/
def RoundTrip (args : DeliverArgs) (utf8 : List UInt8) (pduIndex : ℕ) : Prop :=
  ∃ pdu, smspduCreateDeliver args utf8 pduIndex = some pdu ∧ ReadsBack args utf8 pduIndex pdu ∧
    ∃ pdu', smspduCreateFromHex (smspduToHex pdu) = some pdu' ∧ ReadsBack args utf8 pduIndex pdu'

/-- A rope without memory that has counted so many octets. -/
def countedRope (n : ℕ) : GsmRope := ⟨none, false, 0, n, false⟩

/-- The text is added behind what the rope has counted. -/
theorem smsGetTextUtf8_counted {mem : ℕ → UInt8} {cur fin : ℕ} {hasUDH : Bool} {coding : SmsCodingScheme}
    {rope₀ rope₁ : GsmRope} (h₀ : smsGetTextUtf8 mem cur fin hasUDH coding (countedRope 0) = some rope₀)
    (h₁ : smsGetTextUtf8 mem cur fin hasUDH coding (countedRope 1) = some rope₁) : rope₁.pos = rope₀.pos + 1 := by
  have hgrow : ∀ n (src : List UInt8), (gsmRopeReserve (countedRope n) src.length src).pos = n + src.length := by
    intro n src
    have hc : Counting (countedRope n) n := ⟨rfl, rfl, rfl⟩
    exact (hc.grow src.length src).2.1
  unfold smsGetTextUtf8 at h₀ h₁
  by_cases hend : fin ≤ cur
  · rw [if_pos hend] at h₀
    cases h₀
  rw [if_neg hend] at h₀ h₁
  obtain ⟨place, hp, rfl⟩ := map_eq_some_iff.1 h₀
  obtain ⟨place', hp', rfl⟩ := map_eq_some_iff.1 h₁
  obtain rfl := Option.some.inj (hp.symm.trans hp')
  cases coding with
  | unknown => rfl
  | gsm7 | ucs2 =>
    simp only [hgrow]
    omega

theorem smspduGetTextMessage_counted {pdu : SmsPDU} {beyond : ℕ → UInt8} {utf8len : ℕ}
    {r₀ r₁ : ℕ × Option (List UInt8)} (hmti : (smsGetByte (pdu.mem beyond) pdu.tpdu pdu.base.length).1 % 4 = 0)
    (h₀ : smspduGetTextMessage pdu beyond (countedRope 0) utf8len = some r₀)
    (h₁ : smspduGetTextMessage pdu beyond (countedRope 1) utf8len = some r₁) : r₁.1 = r₀.1 + 1 := by
  unfold smspduGetTextMessage at h₀ h₁
  simp only [hmti, if_true] at h₀ h₁
  obtain ⟨a, ha, h₀⟩ := bind_eq_some_iff.1 h₀
  obtain ⟨a', ha', h₁⟩ := bind_eq_some_iff.1 h₁
  obtain rfl := Option.some.inj (ha.symm.trans ha')
  split_ifs at h₀ h₁ with hcoding
  obtain ⟨t, ht, h₀⟩ := bind_eq_some_iff.1 h₀
  obtain ⟨t', ht', h₁⟩ := bind_eq_some_iff.1 h₁
  obtain rfl := Option.some.inj (ht.symm.trans ht')
  obtain ⟨rope₀, hr₀, rfl⟩ := map_eq_some_iff.1 h₀
  obtain ⟨rope₁, hr₁, rfl⟩ := map_eq_some_iff.1 h₁
  exact smsGetTextUtf8_counted hr₀ hr₁

/-- **No created PDU is read back**: the text that is returned depends on what the rope holds before. -/
theorem deliver_not_read_back (args : DeliverArgs) (utf8 : List UInt8) (pduIndex : ℕ) :
    ¬ RoundTrip args utf8 pduIndex := by
  rintro ⟨pdu, hcreate, hreads, -⟩
  obtain ⟨-, rfl⟩ := (smspduCreateDeliver_eq pduIndex).1 hcreate
  have hmti : (smsGetByte (SmsPDU.mem ⟨deliverHead args ++ userData args utf8 pduIndex, 1⟩ fun _ => 0) 1
      (deliverHead args ++ userData args utf8 pduIndex).length).1 % 4 = 0 := by
    unfold smsGetByte
    rw [if_pos (by simp [deliverHead])]
    simp only [SmsPDU.mem, deliverHead]
    by_cases hc : 1 < args.pduCount <;> simp [hc]
  have h₀ := hreads.text (fun _ => 0) (countedRope 0) utf8.length (Nat.le_refl _)
  have h₁ := hreads.text (fun _ => 0) (countedRope 1) utf8.length (Nat.le_refl _)
  have h := smspduGetTextMessage_counted hmti h₀ h₁
  simp at h

/-- The text `hello` from 5554. -/
def hello : DeliverArgs :=
  ⟨true, ⟨4, 0x81, #v[0x55, 0x45, 0, 0, 0, 0, 0, 0, 0, 0, 0, 0, 0, 0, 0, 0]⟩,
    ⟨#v[0x11, 0x10, 0x10, 0x21, 0x00, 0x00, 0x00]⟩, 0, 1⟩

/-- A sender of 7 digits is read back. -/
theorem hello_not_read_back : ¬ RoundTrip hello [0x68, 0x65, 0x6c, 0x6c, 0x6f] 0 := by
  rintro ⟨pdu, hcreate, hreads, -⟩
  obtain ⟨sender, h1, h2⟩ := hreads.sender .unset
  have hlen : (smspduCreateDeliver hello [0x68, 0x65, 0x6c, 0x6c, 0x6f] 0).bind
      (fun pdu => (smspduGetSenderAddress pdu .unset).map (·.digits.length)) = some 7 := by decide +kernel
  rw [hcreate, bind_some, h1, map_some, h2.2] at hlen
  exact absurd hlen (by decide)

end Emulator.Telephony
