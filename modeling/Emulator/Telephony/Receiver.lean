import Emulator.Telephony.Segments

/-!
# The receiver of submitted messages

`sms_receiver_add_submit_pdu` collects the fragments of a message in a record, and
`sms_receiver_create_deliver` takes the record out and makes the message of it. The index of
a fragment is checked against the number of fragments that its own PDU gives, the record is
made before the index is checked, and the addresses are compared by the number of digits in
octets, beyond what was written of them.

* `receiver_run`: in every run whose PDUs fit the records that they belong to, the records
  are as they should be.
* `receiver_fails`: a second fragment that gives a greater number of fragments than the first
  one is stored outside the array.
-/

namespace Emulator.Telephony

open Option
open List hiding range_succ

/-- What may go wrong in a call: an access outside of `frag->pdus` or through one of its null pointers; or, `elsewhere`,
a loop that is never left, an assertion that fails, or a text that is written outside of its buffer. -/
inductive Fault where
  | slot | elsewhere
deriving DecidableEq

structure SmsFragment where
  sender : SmsAddress
  ref : ℕ
  max : ℕ
  count : ℕ
  index : ℤ
  pdus : List (Option SmsPDU)

structure SmsReceiver where
  last : ℤ
  fragments : List SmsFragment

def smsReceiverCreate : SmsReceiver := ⟨0, []⟩

/-- `memcmp` compares as many octets as there are digits: `beyond` says if those behind the arrays are equal. -/
def smsAddressEq (addr1 addr2 : SmsAddress) (beyond : Bool) : Bool :=
  addr1.toa = addr2.toa ∧ addr1.len = addr2.len ∧
    addr1.data.toList.take addr1.len.toNat = addr2.data.toList.take addr1.len.toNat ∧ (addr1.len.toNat ≤ 16 ∨ beyond)

/-- The new record, and `rec->last` behind it. -/
def smsFragmentAlloc (recv : SmsReceiver) (sender : SmsAddress) (ref max : ℤ) : SmsFragment × ℤ :=
  let last := (recv.last + 1).bmod (2 ^ 32)
  (⟨sender, ref.toNat % 256, max.toNat % 256, 0, last, List.replicate max.toNat none⟩, last)

/-- The memory that a call of `sms_receiver_add_submit_pdu` finds: what its local `from` holds before, and if the octets
that `memcmp` compares behind the address of a record and behind `from` are equal. -/
structure CallMemory where
  sender : SmsAddress
  beyond : SmsFragment → Bool

/-- The place of the record, the end of the list if there is none. -/
def smsReceiverFindP (recv : SmsReceiver) (mem : CallMemory) (sender : SmsAddress) (ref : ℤ) : ℕ :=
  recv.fragments.findIdx fun node => node.ref = ref ∧ smsAddressEq node.sender sender (mem.beyond node)

def smsReceiverFindIndexP (recv : SmsReceiver) (index : ℤ) : ℕ := recv.fragments.findIdx fun node => node.index = index

/-- The address, reference, number of fragments and index of a PDU; `none` if the call returns `-1` because of them. -/
def submitFields (pdu : SmsPDU) (mem : CallMemory) : Except Fault (Option (SmsAddress × ℤ × ℤ × ℤ)) :=
  match smspduGetReceiverAddress pdu mem.sender with
  | none => .ok none
  | some sender =>
    match smspduGetRef pdu, smspduGetMaxIndex pdu, smspduGetCurIndex pdu with
    | some ref, some max, some cur => .ok (if ref < 0 ∨ max < 0 then none else some (sender, ref, max, cur))
    | _, _, _ => .error .elsewhere

/-- The PDU is stored in the record at `pos`. -/
def storePdu (recv : SmsReceiver) (pos : ℕ) (frag : SmsFragment) (pdu : SmsPDU) (cur : ℕ) :
    Except Fault (ℤ × SmsReceiver) :=
  match frag.pdus[cur]? with
  | none => .error .slot
  | some old =>
    let count := if old.isSome then (frag.count + 255) % 256 else frag.count
    let frag := { frag with pdus := frag.pdus.set cur (some pdu), count := (count + 1) % 256 }
    .ok (if frag.max ≤ frag.count then frag.index else 0, { recv with fragments := recv.fragments.set pos frag })

/-- The record of the PDU at its place, which is made if it is not there. -/
def findOrAlloc (recv : SmsReceiver) (mem : CallMemory) (sender : SmsAddress) (ref max : ℤ) :
    ℕ × SmsFragment × SmsReceiver :=
  let pos := smsReceiverFindP recv mem sender ref
  match recv.fragments[pos]? with
  | some frag => (pos, frag, recv)
  | none =>
    let (frag, last) := smsFragmentAlloc recv sender ref max
    (pos, frag, ⟨last, recv.fragments ++ [frag]⟩)

def smsReceiverAddSubmitPdu (recv : SmsReceiver) (pdu : SmsPDU) (mem : CallMemory) : Except Fault (ℤ × SmsReceiver) :=
  (submitFields pdu mem).bind fun fields =>
    match fields with
    | none => .ok (-1, recv)
    | some (sender, ref, max, cur) =>
      let (pos, frag, recv) := findOrAlloc recv mem sender ref max
      if cur < 0 ∨ max ≤ cur then .ok (-1, recv) else storePdu recv pos frag pdu cur.toNat

/-- The PDUs that a loop to `frag->count` finds. -/
def fragmentPdus (frag : SmsFragment) : Except Fault (List SmsPDU) :=
  (List.range frag.count).mapM fun nn =>
    match frag.pdus[nn]? with
    | some (some pdu) => .ok pdu
    | _ => .error .slot

/-- `beyond` is what stands behind a PDU; the rope of a SMS-SUBMIT is initialised. -/
def submitText (beyond : SmsPDU → ℕ → UInt8) (pdu : SmsPDU) (utf8len : ℕ) : Option (ℕ × Option (List UInt8)) :=
  smspduGetTextMessage pdu (beyond pdu) gsmRopeInit utf8len

/-- `sms_receiver_get_text_message` without a buffer. -/
def smsReceiverGetTextMessage (beyond : SmsPDU → ℕ → UInt8) (pdus : List SmsPDU) : ℤ :=
  (pdus.map fun pdu => match submitText beyond pdu 0 with
    | none => -1
    | some (partialLen, _) => (partialLen : ℤ)).sum

/-- The text of one more PDU is written at `total`. -/
def writeText (beyond : SmsPDU → ℕ → UInt8) (utf8len : ℤ) (done : ℤ × List UInt8) (pdu : SmsPDU) :
    Except Fault (ℤ × List UInt8) :=
  match submitText beyond pdu (utf8len - done.1).toNat with
  | none => .ok (done.1 - 1, done.2)
  | some (_, none) => .error .elsewhere
  | some (partialLen, some src) =>
    if done.1 < 0 ∧ src ≠ [] then .error .elsewhere else .ok (done.1 + partialLen, overwrite done.2 done.1.toNat src)

/-- The arguments of `sms_receiver_create_deliver`, and what else it depends on: the time, the reference number of
`smspdu_create_deliver_utf8`, and what stands behind the PDUs. -/
structure DeliverCall where
  index : ℤ
  sender : SmsAddress
  now : SmsTimeStamp
  refNum : UInt8
  beyond : SmsPDU → ℕ → UInt8

/-- The PDUs of the message, and no record any more. -/
def smsReceiverCreateDeliver (recv : SmsReceiver) (call : DeliverCall) :
    Except Fault (Option (List SmsPDU) × SmsReceiver) :=
  let pos := smsReceiverFindIndexP recv call.index
  match recv.fragments[pos]? with
  | none => .ok (none, recv)
  | some frag =>
    if frag.count ≠ frag.max then .ok (none, recv)
    else
      let removed := { recv with fragments := recv.fragments.eraseIdx pos }
      (fragmentPdus frag).bind fun pdus =>
        let utf8len := smsReceiverGetTextMessage call.beyond pdus
        if utf8len < 0 then .ok (none, removed)
        else (pdus.foldlM (writeText call.beyond utf8len) (0, List.replicate (utf8len.toNat + 1) 0)).bind fun text =>
          match smspduCreateDeliverUtf8 (text.2.take utf8len.toNat) call.sender call.now call.refNum with
          | none => .error .elsewhere
          | some result => .ok (some result, removed)

/-- The number of fragments that are there. -/
def SmsFragment.present (frag : SmsFragment) : ℕ := frag.pdus.countP Option.isSome

/-- The array has `max` slots, and `count` of them are in use. -/
structure SmsFragment.Ok (frag : SmsFragment) (last : ℤ) : Prop where
  slots : frag.pdus.length = frag.max
  max_lt : frag.max < 256
  count : frag.count = frag.present
  index_pos : 0 < frag.index
  index_le : frag.index ≤ last

/-- The address and the reference of a record. -/
def SmsFragment.key (frag : SmsFragment) : SmsAddress × ℤ := (frag.sender, frag.ref)

/-- Two equal addresses and references. -/
def SameKey (a b : SmsAddress × ℤ) : Prop := a.2 = b.2 ∧ a.1.Same b.1

/-- Every record is as it should be, and there is at most one for an address and reference. -/
structure SmsReceiver.Ok (recv : SmsReceiver) : Prop where
  last_nonneg : 0 ≤ recv.last
  frags : ∀ frag ∈ recv.fragments, frag.Ok recv.last
  unique : (recv.fragments.map SmsFragment.key).Pairwise fun a b => ¬ SameKey a b

theorem smsReceiverCreate_ok : smsReceiverCreate.Ok :=
  ⟨Int.le_refl 0, fun _ h => absurd h not_mem_nil, .nil⟩

/-- All fragments of a record are there if as many are in use. -/
theorem SmsFragment.Ok.complete_iff {frag : SmsFragment} {last : ℤ} (h : frag.Ok last) :
    frag.max ≤ frag.count ↔ ∀ slot ∈ frag.pdus, slot.isSome := by
  rw [← countP_eq_length, h.count, h.slots, ← h.slots]
  have hle : frag.present ≤ frag.pdus.length := countP_le_length
  unfold present at *
  omega

theorem smsAddressEq_same {a b : SmsAddress} {beyond : Bool} (h : smsAddressEq a b beyond = true) : a.Same b := by
  obtain ⟨h1, h2, h3, -⟩ := of_decide_eq_true h
  refine ⟨h1, ?_⟩
  unfold SmsAddress.digits
  rw [← h2]
  refine map_congr_left fun n hn => ?_
  have hn' := mem_range.1 hn
  have hget : a.data.toList.getD (n / 2) 0 = b.data.toList.getD (n / 2) 0 := by
    have hidx := congrArg (fun l : List UInt8 => l.getD (n / 2) 0) h3
    simpa only [getD_eq_getElem?_getD, List.getElem?_take_of_lt (show n / 2 < a.len.toNat by omega)] using hidx
  simp only [hget]

/-- A slot is filled. -/
theorem countP_set {l : List (Option SmsPDU)} {i : ℕ} {old : Option SmsPDU} (h : l[i]? = some old) (pdu : SmsPDU) :
    (l.set i (some pdu)).countP Option.isSome + (if old.isSome then 1 else 0) = l.countP Option.isSome + 1 := by
  induction l generalizing i with
  | nil => simp at h
  | cons a l ih =>
    cases i with
    | zero =>
      obtain rfl : a = old := by simpa using h
      simp only [set_cons_zero, countP_cons, isSome_some, if_true]
      omega
    | succ i =>
      have := ih (by simpa using h)
      simp only [set_cons_succ, countP_cons]
      omega

variable {recv recv' : SmsReceiver} {frag : SmsFragment} {pos cur : ℕ} {pdu : SmsPDU}

/-- A record is replaced by one of the same address and reference. -/
theorem SmsReceiver.Ok.set (h : recv.Ok) {frag' : SmsFragment} (hpos : recv.fragments[pos]? = some frag)
    (hok : frag'.Ok recv.last) (hkey : frag'.key = frag.key) :
    SmsReceiver.Ok { recv with fragments := recv.fragments.set pos frag' } := by
  refine ⟨h.last_nonneg, fun f hf => ?_, ?_⟩
  · rcases mem_or_eq_of_mem_set hf with hf | rfl
    · exact h.frags f hf
    · exact hok
  · have hmap : (recv.fragments.set pos frag').map SmsFragment.key = recv.fragments.map SmsFragment.key := by
      rw [map_set, hkey]
      refine ext_getElem? fun i => ?_
      rw [List.getElem?_set]
      split_ifs with hi hlt
      · rw [← hi, List.getElem?_map, hpos, map_some]
      · rw [← hi, List.getElem?_eq_none (by omega)]
      · rfl
    rw [hmap]
    exact h.unique

/-- **A PDU that fits its record is stored** there, and the index of the record is returned if it is complete then. -/
theorem storePdu_ok (pdu : SmsPDU) (h : recv.Ok) (hpos : recv.fragments[pos]? = some frag) (hcur : cur < frag.max) :
    ∃ frag', storePdu recv pos frag pdu cur = .ok (if ∀ slot ∈ frag'.pdus, slot.isSome then frag'.index else 0,
        { recv with fragments := recv.fragments.set pos frag' }) ∧
      frag'.Ok recv.last ∧ frag'.key = frag.key ∧ frag'.pdus[cur]? = some (some pdu) := by
  have hfrag := h.frags frag (mem_of_getElem? hpos)
  obtain ⟨old, hold⟩ : ∃ old, frag.pdus[cur]? = some old :=
    ⟨_, List.getElem?_eq_getElem (by rw [hfrag.slots]; exact hcur)⟩
  have hcount := countP_set hold pdu
  have hle : (frag.pdus.set cur (some pdu)).countP Option.isSome ≤ frag.max := by
    rw [← hfrag.slots, ← length_set (i := cur) (a := some pdu)]
    exact countP_le_length
  have hpresent := hfrag.count
  have hmax := hfrag.max_lt
  unfold SmsFragment.present at hpresent
  set count := ((if old.isSome then (frag.count + 255) % 256 else frag.count) + 1) % 256 with hc
  have hok : SmsFragment.Ok { frag with pdus := frag.pdus.set cur (some pdu), count := count } recv.last := by
    refine ⟨by rw [length_set]; exact hfrag.slots, hmax, ?_, hfrag.index_pos, hfrag.index_le⟩
    unfold SmsFragment.present
    simp only [hc]
    split_ifs at hcount ⊢ <;> omega
  refine ⟨_, ?_, hok, rfl, List.getElem?_set_self (by rw [hfrag.slots]; exact hcur)⟩
  unfold storePdu
  simp only [hold, ← hc, ← hok.complete_iff]

theorem smspduGetRef_le {ref : ℤ} (h : smspduGetRef pdu = some ref) : ref < 256 := by
  obtain ⟨userRef, -, rfl⟩ := map_eq_some_iff.1 h
  cases userRef with
  | some p =>
    have := (pdu.mem (fun _ => 0) p).toNat_lt
    simp only
    omega
  | none =>
    have := (pdu.mem (fun _ => 0) (smsGetByte (pdu.mem fun _ => 0) pdu.tpdu pdu.base.length).2).toNat_lt
    simp only
    split_ifs <;> omega

theorem smspduGetMaxIndex_le {max : ℤ} (h : smspduGetMaxIndex pdu = some max) : 0 ≤ max ∧ max < 256 := by
  obtain ⟨userRef, -, rfl⟩ := map_eq_some_iff.1 h
  cases userRef with
  | some p =>
    have := (pdu.mem (fun _ => 0) (p + 1)).toNat_lt
    simp only
    omega
  | none => simp

variable {mem : CallMemory} {sender : SmsAddress} {ref max cur : ℤ}

theorem submitFields_bounds (h : submitFields pdu mem = .ok (some (sender, ref, max, cur))) :
    0 ≤ ref ∧ ref < 256 ∧ 0 ≤ max ∧ max < 256 := by
  unfold submitFields at h
  split at h
  · cases h
  · split at h
    · rename_i href hmax _
      have hr := smspduGetRef_le href
      have hm := smspduGetMaxIndex_le hmax
      have hfields := Except.ok.inj h
      split_ifs at hfields with hneg
      simp only [Option.some.injEq, Prod.mk.injEq] at hfields
      omega
    · cases h

/-- The PDU fits the records. The record of its address and reference is recognised, if there is one: what `memcmp`
compares behind the digits is equal. The index is below the number of fragments of that record, if it is below the one
of the PDU; and if there is no record yet, it is one of the indices that the PDU allows, and the indices of records have
not been used up. -/
structure Fits (recv : SmsReceiver) (mem : CallMemory) (sender : SmsAddress) (ref max cur : ℤ) : Prop where
  recognised : ∀ node ∈ recv.fragments, SameKey node.key (sender, ref) →
    smsAddressEq node.sender sender (mem.beyond node) = true
  below : ∀ node ∈ recv.fragments, SameKey node.key (sender, ref) → cur < max → cur < node.max
  fresh : (∀ node ∈ recv.fragments, ¬ SameKey node.key (sender, ref)) → 0 ≤ cur ∧ cur < max ∧ recv.last + 1 < 2 ^ 31

/-- The record that is found is the one of the address and reference. -/
theorem findP_some (h : recv.fragments[smsReceiverFindP recv mem sender ref]? = some frag) :
    SameKey frag.key (sender, ref) := by
  obtain ⟨hlt, rfl⟩ := List.getElem?_eq_some_iff.1 h
  obtain ⟨h1, h2⟩ := of_decide_eq_true (findIdx_getElem (w := hlt))
  exact ⟨h1, smsAddressEq_same h2⟩

theorem findP_none (hfit : Fits recv mem sender ref max cur)
    (h : recv.fragments[smsReceiverFindP recv mem sender ref]? = none) :
    smsReceiverFindP recv mem sender ref = recv.fragments.length ∧
      ∀ node ∈ recv.fragments, ¬ SameKey node.key (sender, ref) := by
  have hle : recv.fragments.length ≤ smsReceiverFindP recv mem sender ref := List.getElem?_eq_none_iff.1 h
  have heq := Nat.le_antisymm (findIdx_le_length) hle
  refine ⟨heq, fun node hnode hkey => ?_⟩
  have hfalse := findIdx_eq_length.1 heq node hnode
  exact absurd (show node.ref = ref ∧ _ from ⟨hkey.1, hfit.recognised node hnode hkey⟩) (of_decide_eq_false hfalse)

/-- A new record of an address and reference that has none. -/
theorem alloc_ok (h : recv.Ok) (hbounds : 0 ≤ ref ∧ ref < 256 ∧ 0 ≤ max ∧ max < 256) (hlast : recv.last + 1 < 2 ^ 31)
    (hfresh : ∀ node ∈ recv.fragments, ¬ SameKey node.key (sender, ref)) :
    SmsReceiver.Ok ⟨(smsFragmentAlloc recv sender ref max).2,
        recv.fragments ++ [(smsFragmentAlloc recv sender ref max).1]⟩ ∧
      (smsFragmentAlloc recv sender ref max).1.max = max ∧
      (smsFragmentAlloc recv sender ref max).1.key = (sender, ref) := by
  have hnonneg := h.last_nonneg
  have hindex : (recv.last + 1).bmod (2 ^ 32) = recv.last + 1 :=
    Int.bmod_eq_of_le (by norm_num; omega) (by norm_num; omega)
  have hkey : (smsFragmentAlloc recv sender ref max).1.key = (sender, ref) := by
    unfold smsFragmentAlloc SmsFragment.key
    simp only [Prod.mk.injEq, true_and]
    omega
  have hmax : ((smsFragmentAlloc recv sender ref max).1.max : ℤ) = max := by
    unfold smsFragmentAlloc
    simp only
    omega
  have hlast' : (smsFragmentAlloc recv sender ref max).2 = recv.last + 1 := hindex
  -- the new record is the last one, the old ones keep their indexes
  refine ⟨⟨by simp only [hlast']; omega, ?_, ?_⟩, hmax, hkey⟩
  · intro frag hfrag
    rcases mem_append.1 hfrag with hold | hnew
    · have hok := h.frags frag hold
      exact ⟨hok.slots, hok.max_lt, hok.count, hok.index_pos, by
        have := hok.index_le
        simp only [hlast']
        omega⟩
    · obtain rfl := mem_singleton.1 hnew
      have hidx : (smsFragmentAlloc recv sender ref max).1.index = recv.last + 1 := hindex
      refine ⟨?_, by omega, ?_, by rw [hidx]; omega, by rw [hidx, hlast']⟩
      · unfold smsFragmentAlloc
        simp only [length_replicate]
        omega
      · unfold smsFragmentAlloc SmsFragment.present
        simp [countP_replicate]
  · -- a record of the same key would have been found
    rw [map_append, map_singleton, hkey]
    refine pairwise_append.2 ⟨h.unique, pairwise_singleton .., ?_⟩
    intro a ha b hb
    obtain ⟨node, hnode, rfl⟩ := List.mem_map.1 ha
    obtain rfl := mem_singleton.1 hb
    exact hfresh node hnode

/-- What the record of a PDU is after `findOrAlloc`. -/
theorem findOrAlloc_ok (h : recv.Ok) (hbounds : 0 ≤ ref ∧ ref < 256 ∧ 0 ≤ max ∧ max < 256)
    (hfit : Fits recv mem sender ref max cur) {pos : ℕ} {frag : SmsFragment} {recv' : SmsReceiver}
    (hfind : findOrAlloc recv mem sender ref max = (pos, frag, recv')) :
    recv'.Ok ∧ recv'.fragments[pos]? = some frag ∧ SameKey frag.key (sender, ref) ∧ (cur < max → cur < frag.max) ∧
      (cur < 0 ∨ max ≤ cur → recv'.fragments = recv.fragments) := by
  unfold findOrAlloc at hfind
  rcases hfound : recv.fragments[smsReceiverFindP recv mem sender ref]? with _ | found
  · obtain ⟨hpos, hfresh⟩ := findP_none hfit hfound
    obtain ⟨hc0, hcmax, hlast⟩ := hfit.fresh hfresh
    obtain ⟨hok, hmax, hkey⟩ := alloc_ok h hbounds hlast hfresh
    simp only [hfound, Prod.mk.injEq] at hfind
    obtain ⟨rfl, rfl, rfl⟩ := hfind
    refine ⟨hok, ?_, ?_, by omega, by omega⟩
    · rw [hpos]
      simp
    · rw [hkey]
      exact ⟨rfl, rfl, rfl⟩
  · have hkey := findP_some hfound
    simp only [hfound, Prod.mk.injEq] at hfind
    obtain ⟨rfl, rfl, rfl⟩ := hfind
    exact ⟨h, hfound, hkey, hfit.below _ (mem_of_getElem? hfound) hkey, fun _ => rfl⟩

inductive ReceiverEvent where
  | add (pdu : SmsPDU) (mem : CallMemory)
  | deliver (call : DeliverCall)

/-- What a call returns, 0 for `sms_receiver_create_deliver`, and the receiver behind it. -/
def ReceiverEvent.run (recv : SmsReceiver) : ReceiverEvent → Except Fault (ℤ × SmsReceiver)
  | add pdu mem => smsReceiverAddSubmitPdu recv pdu mem
  | deliver call => (smsReceiverCreateDeliver recv call).map fun result => (0, result.2)

/-- What reading a stored PDU gives, however large the buffer is. -/
def HasText (beyond : SmsPDU → ℕ → UInt8) (pdu : SmsPDU) (text : List UInt8) : Prop :=
  ∀ utf8len, submitText beyond pdu utf8len = some (text.length, some (text.take utf8len))

/-- The message of a complete record can be made: every part of it has a text, and the assertion that a segment has room
for its text holds of each segment of the joined text. Or the sum of the lengths, -1 for a part without a text, is
negative, and nothing is made. -/
def MessageFits (beyond : SmsPDU → ℕ → UInt8) (pdus : List SmsPDU) : Prop :=
  smsReceiverGetTextMessage beyond pdus < 0 ∨ ∃ texts, List.Forall₂ (HasText beyond) pdus texts ∧
    ∀ slice ∈ slices texts.flatten, FitsSegment (utf8CheckGsm7 texts.flatten) slice

/-- **The condition on an event.** The walk over the user data header of a PDU ends, and the PDU fits the records; or
the message of the record that is taken out can be made. -/
def ReceiverEvent.Fits (recv : SmsReceiver) : ReceiverEvent → Prop
  | add pdu mem => (smspduGetReceiverAddress pdu mem.sender ≠ none → smspduGetUserDataRef pdu ≠ none) ∧
    ∀ sender ref max cur, submitFields pdu mem = .ok (some (sender, ref, max, cur)) →
      Telephony.Fits recv mem sender ref max cur
  | deliver call => ∀ frag pdus, recv.fragments[smsReceiverFindIndexP recv call.index]? = some frag →
    frag.pdus = pdus.map some → MessageFits call.beyond pdus

/-- A call that returns `-1` leaves the records as they are. One that does not has stored its PDU in the slot of its
index in the record of its address and reference, and returns the index of that record if it is complete, and nothing
else that could be taken for it. -/
def AddGood (recv recv' : SmsReceiver) (pdu : SmsPDU) (mem : CallMemory) (result : ℤ) : Prop :=
  (result = -1 → recv'.fragments = recv.fragments) ∧
    (result ≠ -1 → ∃ sender ref max, ∃ cur : ℕ, submitFields pdu mem = .ok (some (sender, ref, max, (cur : ℤ))) ∧
      ∃ frag ∈ recv'.fragments, SameKey frag.key (sender, ref) ∧ frag.pdus[cur]? = some (some pdu) ∧
        (result = frag.index ↔ ∀ slot ∈ frag.pdus, slot.isSome))

/-- **The call returns**, the records are then as they should be, and a PDU is added as it should be. -/
def ReceiverEvent.Good (recv : SmsReceiver) (ev : ReceiverEvent) : Prop :=
  ∃ result recv', ev.run recv = .ok (result, recv') ∧ recv'.Ok ∧
    ∀ pdu mem, ev = .add pdu mem → AddGood recv recv' pdu mem result

/-- The fields of a PDU whose user data header can be walked. -/
theorem submitFields_ok (h : smspduGetReceiverAddress pdu mem.sender ≠ none → smspduGetUserDataRef pdu ≠ none) :
    ∃ fields, submitFields pdu mem = .ok fields := by
  unfold submitFields
  cases haddr : smspduGetReceiverAddress pdu mem.sender with
  | none => exact ⟨_, rfl⟩
  | some sender =>
    obtain ⟨userRef, href⟩ := ne_none_iff_exists'.1 (h (by simp [haddr]))
    simp only [smspduGetRef, smspduGetMaxIndex, smspduGetCurIndex, href, map_some]
    exact ⟨_, rfl⟩

theorem add_good (h : recv.Ok) (hfit : (ReceiverEvent.add pdu mem).Fits recv) :
    (ReceiverEvent.add pdu mem).Good recv := by
  have hrun : (ReceiverEvent.add pdu mem).run recv = smsReceiverAddSubmitPdu recv pdu mem := rfl
  unfold smsReceiverAddSubmitPdu at hrun
  obtain ⟨fields, hfields⟩ := submitFields_ok hfit.1
  rw [hfields] at hrun
  rcases fields with _ | ⟨sender, ref, max, cur⟩
  · refine ⟨_, _, hrun, h, ?_⟩
    rintro _ _ ⟨⟩
    exact ⟨fun _ => rfl, fun hne => absurd rfl hne⟩
  obtain ⟨pos, frag, recv₁, hfind⟩ : ∃ pos frag recv₁, findOrAlloc recv mem sender ref max = (pos, frag, recv₁) :=
    ⟨_, _, _, rfl⟩
  obtain ⟨hok, hpos, hkey, hbelow, hsame⟩ :=
    findOrAlloc_ok h (submitFields_bounds hfields) (hfit.2 sender ref max cur hfields) hfind
  simp only [Except.bind, hfind] at hrun
  -- the index is checked after the record has been put into the list
  by_cases hcur : cur < 0 ∨ max ≤ cur
  · rw [if_pos hcur] at hrun
    refine ⟨_, _, hrun, hok, ?_⟩
    rintro _ _ ⟨⟩
    exact ⟨fun _ => hsame hcur, fun hne => absurd rfl hne⟩
  · have hlt : cur.toNat < frag.max := by omega
    obtain ⟨frag', hstore, hok', hkey', hslot⟩ := storePdu_ok pdu hok hpos hlt
    rw [if_neg hcur, hstore] at hrun
    refine ⟨_, _, hrun, hok.set hpos hok' hkey', ?_⟩
    rintro _ _ ⟨⟩
    have hmem : frag' ∈ recv₁.fragments.set pos frag' := mem_set (List.getElem?_eq_some_iff.1 hpos).1 frag'
    have hipos := hok'.index_pos
    have hnat : (cur.toNat : ℤ) = cur := by omega
    refine ⟨fun hres => ?_, fun _ => ⟨sender, ref, max, cur.toNat, by rw [hnat, hfields], frag', hmem, ?_, hslot, ?_⟩⟩
    · split_ifs at hres
      omega
    · rw [hkey']
      exact hkey
    · split_ifs with hall
      · exact iff_of_true rfl hall
      · exact iff_of_false (by omega) hall

/-- A loop that finds every entry gives the list. -/
theorem mapM_range_ok {f : ℕ → Except Fault SmsPDU} {pdus : List SmsPDU}
    (h : ∀ nn pdu, pdus[nn]? = some pdu → f nn = .ok pdu) : (List.range pdus.length).mapM f = .ok pdus := by
  induction pdus using List.reverseRecOn with
  | nil => rfl
  | append_singleton pdus pdu ih =>
    have hinit : ∀ nn pdu', pdus[nn]? = some pdu' → f nn = .ok pdu' := fun nn pdu' hnn =>
      h nn pdu' (by rw [List.getElem?_append_left (List.getElem?_eq_some_iff.1 hnn).1, hnn])
    rw [length_append, length_singleton, List.range_succ, mapM_append, ih hinit, mapM_cons,
      h pdus.length pdu (by simp)]
    rfl

/-- The PDUs of a complete record. -/
theorem SmsFragment.Ok.pdus {last : ℤ} (h : frag.Ok last) (hcount : frag.count = frag.max) :
    ∃ pdus, frag.pdus = pdus.map some ∧ fragmentPdus frag = .ok pdus := by
  have hall := h.complete_iff.1 (by omega)
  obtain ⟨pdus, hpdus⟩ : ∃ pdus : List SmsPDU, frag.pdus = pdus.map some := by
    refine ⟨frag.pdus.filterMap id, ext_getElem? fun i => ?_⟩
    have hsame : (frag.pdus.filterMap id).map some = frag.pdus := by
      rw [map_filterMap]
      refine (filterMap_congr fun slot hslot => ?_).trans filterMap_some
      obtain ⟨pdu, rfl⟩ := isSome_iff_exists.1 (hall slot hslot)
      rfl
    rw [hsame]
  refine ⟨pdus, hpdus, ?_⟩
  have hlen : frag.count = pdus.length := by rw [hcount, ← h.slots, hpdus, length_map]
  unfold fragmentPdus
  rw [hlen, hpdus]
  refine mapM_range_ok fun nn pdu hnn => ?_
  simp only [List.getElem?_map, hnn, map_some]

/-- A record is taken out. -/
theorem SmsReceiver.Ok.erase (h : recv.Ok) (pos : ℕ) :
    SmsReceiver.Ok { recv with fragments := recv.fragments.eraseIdx pos } := by
  have hsub := eraseIdx_sublist recv.fragments pos
  exact ⟨h.last_nonneg, fun frag hfrag => h.frags frag (hsub.mem hfrag), h.unique.sublist (hsub.map _)⟩

/-- The lengths of texts are added. -/
theorem textMessage_length {beyond : SmsPDU → ℕ → UInt8} {pdus : List SmsPDU} {texts : List (List UInt8)}
    (h : List.Forall₂ (HasText beyond) pdus texts) :
    smsReceiverGetTextMessage beyond pdus = (texts.flatten.length : ℤ) := by
  induction h with
  | nil => rfl
  | cons hpdu _ ih =>
    unfold smsReceiverGetTextMessage at ih ⊢
    rw [map_cons, sum_cons, ih, hpdu 0, flatten_cons, length_append]
    push_cast
    rfl

/-- **The texts are written one after the other**, from `total` on. -/
theorem writeTexts_ok {beyond : SmsPDU → ℕ → UInt8} {pdus : List SmsPDU} {texts : List (List UInt8)}
    (h : List.Forall₂ (HasText beyond) pdus texts) {utf8len total : ℕ} {buf : List UInt8}
    (hroom : total + texts.flatten.length ≤ utf8len) (hlen : utf8len ≤ buf.length) :
    ∃ buf', pdus.foldlM (writeText beyond utf8len) ((total : ℤ), buf) =
        .ok (((total + texts.flatten.length : ℕ) : ℤ), buf') ∧
      buf'.take (total + texts.flatten.length) = buf.take total ++ texts.flatten := by
  -- over the parts: `total` octets of the buffer are written so far
  induction h generalizing total buf with
  | nil => exact ⟨buf, rfl, by simp⟩
  | @cons pdu text pdus texts hpdu hrest ih =>
    rw [flatten_cons, length_append] at hroom
    have hwrite : writeText beyond utf8len ((total : ℤ), buf) pdu =
        .ok (((total + text.length : ℕ) : ℤ), overwrite buf total text) := by
      have htake : text.take ((utf8len : ℤ) - (total : ℤ)).toNat = text := take_of_length_le (by omega)
      unfold writeText
      rw [hpdu, htake]
      simp
    have hover : (overwrite buf total text).take (total + text.length) = buf.take total ++ text := by
      unfold overwrite
      rw [take_append_of_le_length (by rw [length_append, length_take]; omega),
        take_of_length_le (by rw [length_append, length_take]; omega)]
    have hfits : utf8len ≤ (overwrite buf total text).length := by
      rw [length_overwrite (by omega)]
      exact hlen
    obtain ⟨buf', hfold, hbuf'⟩ := @ih (total + text.length) (overwrite buf total text) (by omega) hfits
    refine ⟨buf', ?_, ?_⟩
    · rw [foldlM_cons, hwrite]
      refine hfold.trans ?_
      rw [flatten_cons, length_append, Nat.add_assoc]
    · rw [flatten_cons, length_append, ← Nat.add_assoc, hbuf', hover, append_assoc]

/-- Segments whose texts have room are created. -/
theorem createDeliver_ok {text : List UInt8} (h : ∀ slice ∈ slices text, FitsSegment (utf8CheckGsm7 text) slice)
    (sender : SmsAddress) (now : SmsTimeStamp) (refNum : UInt8) :
    ∃ pdus, smspduCreateDeliverUtf8 text sender now refNum = some pdus := by
  unfold smspduCreateDeliverUtf8
  simp only
  have hmem : ∀ p ∈ (slices text).zipIdx, FitsSegment (utf8CheckGsm7 text) p.1 :=
    fun p hp => h p.1 (fst_mem_of_mem_zipIdx hp)
  generalize (slices text).zipIdx = ps at hmem
  induction ps with
  | nil => exact ⟨[], rfl⟩
  | cons p ps ih =>
    rw [forall_mem_cons] at hmem
    obtain ⟨pdus, hpdus⟩ := ih hmem.2
    rw [mapM_cons, (smspduCreateDeliver_eq p.2).2 ⟨hmem.1, rfl⟩, hpdus]
    exact ⟨_, rfl⟩

theorem deliver_good {call : DeliverCall} (h : recv.Ok) (hfit : (ReceiverEvent.deliver call).Fits recv) :
    (ReceiverEvent.deliver call).Good recv := by
  have hadd : ∀ {recv' : SmsReceiver} {result : ℤ} (pdu mem), ReceiverEvent.deliver call = .add pdu mem →
      AddGood recv recv' pdu mem result := fun _ _ heq => by cases heq
  have hrun : (ReceiverEvent.deliver call).run recv = (smsReceiverCreateDeliver recv call).map fun r => (0, r.2) := rfl
  unfold smsReceiverCreateDeliver at hrun
  rcases hfrag : recv.fragments[smsReceiverFindIndexP recv call.index]? with _ | frag
  · simp only [hfrag] at hrun
    exact ⟨_, _, hrun, h, hadd⟩
  simp only [hfrag] at hrun
  -- a full message leaves the list, whatever comes of its text
  by_cases hcount : frag.count = frag.max
  · obtain ⟨pdus, hsome, hpdus⟩ := (h.frags frag (mem_of_getElem? hfrag)).pdus hcount
    simp only [hcount, ne_eq, not_true_eq_false, if_false, hpdus, Except.bind] at hrun
    have herase := h.erase (smsReceiverFindIndexP recv call.index)
    rcases hfit frag pdus hfrag hsome with hneg | ⟨texts, htexts, hslices⟩
    · rw [if_pos hneg] at hrun
      exact ⟨_, _, hrun, herase, hadd⟩
    have hlen := textMessage_length htexts
    obtain ⟨buf', hfold, hbuf'⟩ := @writeTexts_ok _ _ _ htexts texts.flatten.length 0
      (List.replicate (texts.flatten.length + 1) 0) (by omega) (by rw [length_replicate]; omega)
    obtain ⟨result, hcreate⟩ := createDeliver_ok hslices call.sender call.now call.refNum
    simp only [hlen, Int.toNat_natCast] at hrun
    rw [if_neg (by omega), show ((0 : ℤ) = ((0 : ℕ) : ℤ)) from rfl, hfold] at hrun
    simp only [Nat.zero_add, take_zero, nil_append] at hbuf'
    simp only [hbuf', hcreate] at hrun
    exact ⟨_, _, hrun, herase, hadd⟩
  · simp only [ne_eq, hcount, not_false_eq_true, if_true] at hrun
    exact ⟨_, _, hrun, h, hadd⟩

theorem ReceiverEvent.good_of_fits (h : recv.Ok) {ev : ReceiverEvent} (hfit : ev.Fits recv) : ev.Good recv := by
  cases ev with
  | add pdu mem => exact add_good h hfit
  | deliver call => exact deliver_good h hfit

/-- Every event of the run fits the records that are there then. -/
def RunFits : SmsReceiver → List ReceiverEvent → Prop
  | _, [] => True
  | recv, ev :: evs => ev.Fits recv ∧ ∀ result recv', ev.run recv = .ok (result, recv') → RunFits recv' evs

/-- In every state of the run the records are as they should be, and every call of it does what it should. -/
def RunGood : SmsReceiver → List ReceiverEvent → Prop
  | recv, [] => recv.Ok
  | recv, ev :: evs => recv.Ok ∧ ev.Good recv ∧ ∀ result recv', ev.run recv = .ok (result, recv') → RunGood recv' evs

theorem runGood_of_runFits {evs : List ReceiverEvent} (h : recv.Ok) (hfits : RunFits recv evs) : RunGood recv evs := by
  induction evs generalizing recv with
  | nil => exact h
  | cons ev evs ih =>
    have hgood := ReceiverEvent.good_of_fits h hfits.1
    refine ⟨h, hgood, fun result recv' hrun => ih ?_ (hfits.2 result recv' hrun)⟩
    obtain ⟨_, _, hrun', hok, -⟩ := hgood
    obtain ⟨rfl, rfl⟩ := Prod.mk.inj (Except.ok.inj (hrun'.symm.trans hrun))
    exact hok

/-- **The receiver reassembles any arrival order** of fragments that fit the records: no slot is accessed wrongly, the
counts are right, no two records have the same address and reference, and the index of a record is returned exactly if
all of its fragments are there. -/
theorem receiver_run (evs : List ReceiverEvent) (h : RunFits smsReceiverCreate evs) : RunGood smsReceiverCreate evs :=
  runGood_of_runFits smsReceiverCreate_ok h

/-- The receiver after a run. -/
def receiverRun (recv : SmsReceiver) : List ReceiverEvent → Except Fault SmsReceiver
  | [] => .ok recv
  | ev :: evs => (ev.run recv).bind fun r => receiverRun r.2 evs

/-- No call of a good run stops short. -/
theorem RunGood.returns {evs : List ReceiverEvent} (h : RunGood recv evs) :
    ∃ recv', receiverRun recv evs = .ok recv' := by
  induction evs generalizing recv with
  | nil => exact ⟨recv, rfl⟩
  | cons ev evs ih =>
    obtain ⟨-, ⟨result, recv', hrun, -⟩, hrest⟩ := h
    obtain ⟨last, hlast⟩ := ih (hrest result recv' hrun)
    refine ⟨last, ?_⟩
    unfold receiverRun
    rw [hrun]
    exact hlast

/-- A submitted fragment to the number 12. -/
def submitFragment (ref max cur : UInt8) : SmsPDU := ⟨[0, 0x41, 0, 2, 0x81, 0x21, 5, 0, 3, ref, max, cur], 1⟩

def clearMemory : CallMemory := ⟨.unset, fun _ => false⟩

/-- The receiver of the fragments. -/
def number12 : SmsAddress := ⟨2, 0x81, #v[0x21, 0, 0, 0, 0, 0, 0, 0, 0, 0, 0, 0, 0, 0, 0, 0]⟩

/-- The record when the second of two fragments has arrived. -/
def secondOfTwo : SmsFragment := ⟨number12, 7, 2, 1, 1, [none, some (submitFragment 7 2 2)]⟩

/-- The second of two fragments arrives before the first one. -/
theorem receiver_reordered : RunGood smsReceiverCreate
    [.add (submitFragment 7 2 2) clearMemory, .add (submitFragment 7 2 1) clearMemory] := by
  have hfields₂ : submitFields (submitFragment 7 2 2) clearMemory = .ok (some (number12, 7, 2, 1)) := rfl
  have hfields₁ : submitFields (submitFragment 7 2 1) clearMemory = .ok (some (number12, 7, 2, 0)) := rfl
  have hrun : (ReceiverEvent.add (submitFragment 7 2 2) clearMemory).run smsReceiverCreate =
      .ok (0, ⟨1, [secondOfTwo]⟩) := rfl
  refine receiver_run _ ⟨⟨fun _ => by decide, ?_⟩, fun result recv' hrun' =>
    ⟨⟨fun _ => by decide, ?_⟩, fun _ _ _ => trivial⟩⟩
  · intro sender ref max cur hfields
    obtain ⟨rfl, rfl, rfl, rfl⟩ := by simpa using hfields₂.symm.trans hfields
    exact ⟨fun _ h => absurd h not_mem_nil, fun _ h => absurd h not_mem_nil, fun _ => by decide⟩
  · obtain ⟨rfl, rfl⟩ := Prod.mk.inj (Except.ok.inj (hrun.symm.trans hrun'))
    intro sender ref max cur hfields
    obtain ⟨rfl, rfl, rfl, rfl⟩ := by simpa using hfields₁.symm.trans hfields
    refine ⟨fun node h _ => ?_, fun node h _ _ => ?_, fun h => ?_⟩
    · obtain rfl := mem_singleton.1 h
      decide
    · obtain rfl := mem_singleton.1 h
      decide
    · exact absurd ⟨rfl, rfl, rfl⟩ (h secondOfTwo (mem_cons_self ..))

/-- The second fragment gives a greater number of fragments than the first one: its slot is not there. -/
theorem receiver_fails : ¬ RunGood smsReceiverCreate
    [.add (submitFragment 7 2 1) clearMemory, .add (submitFragment 7 5 5) clearMemory] := by
  intro h
  obtain ⟨recv', hrun⟩ := h.returns
  cases hrun

end Emulator.Telephony
