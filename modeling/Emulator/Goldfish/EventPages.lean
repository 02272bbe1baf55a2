import Emulator.Exec.CodeBitmap
import Emulator.Goldfish.Events

/-!
# The pages of the events device

The guest selects a page and reads it at any offset. `get_page_data` lets the first offset behind a page through: there
the name has its terminator, but a bitmap has no byte, and the table of the axes, which nothing ever fills, no entry.

* `bitAt_maskBits`: `events_set_bits` sets exactly the bits from `bitl` to `bith`.
* `EvBitsOK`: what the tables hold after any calls.
* `pageRight_iff`: which reads come out right.
-/

namespace Emulator.Goldfish

open Function

open Exec (orByte fillBytes bitAt bitAt_orByte bitAt_fillBytes getLsbD_endMask)
open EventsState

/-- A call of `events_set_bits`. -/
structure SetBits where
  type : ℕ
  bitl : ℕ
  bith : ℕ
  type_le : type ≤ EV_MAX
  le : bitl ≤ bith
  int : bith < 2 ^ 31

/-- The state after `events_dev_init` with these calls. -/
def eventsDevInit (name : List (BitVec 8)) (calls : List SetBits) : EventsState :=
  calls.foldl (fun s c => s.eventsSetBits c.type c.bitl c.bith) (newEventsState name)

/-- **The tables hold the bits of the calls**, each table all of its own. -/
structure EvBitsOK (s : EventsState) (calls : List SetBits) : Prop where
  len : ∀ t, (s.evBits t).len ≤ 2 ^ 28
  room : ∀ c ∈ calls, c.bith / 8 < (s.evBits c.type).len
  bits : ∀ t k, k / 8 < (s.evBits t).len →
    (bitAt (s.evBits t).bits k = true ↔ ∃ c ∈ calls, c.type = t ∧ c.bitl ≤ k ∧ k ≤ c.bith)

variable {s : EventsState} {calls : List SetBits}

/-- The mask of the last byte. -/
theorem getLsbD_lowMask (n k : ℕ) : (0xff#8 >>> (7 - n % 8)).getLsbD (k % 8) = decide (k % 8 ≤ n % 8) := by
  have hk : k % 8 < 8 := Nat.mod_lt k (by omega)
  have hn : n % 8 < 8 := Nat.mod_lt n (by omega)
  have hall : ∀ a < 8, ∀ b < 8, (0xff#8 >>> (7 - a)).getLsbD b = decide (b ≤ a) := by decide
  exact hall _ hn _ hk

/-- **`events_set_bits` is exact.** -/
theorem bitAt_maskBits (bits : ℕ → BitVec 8) {bitl bith : ℕ} (hle : bitl ≤ bith) (k : ℕ) :
    bitAt (maskBits bits bitl bith) k = (bitAt bits k || decide (bitl ≤ k ∧ k ≤ bith)) := by
  unfold maskBits
  simp only
  by_cases hsame : bitl / 8 ≥ bith / 8
  · -- the bits are in one byte
    rw [if_pos hsame, bitAt_orByte, BitVec.getLsbD_and, getLsbD_endMask, getLsbD_lowMask, ← Bool.decide_and,
      ← Bool.decide_and]
    congr 1
    refine decide_eq_decide.2 ?_
    omega
  · rw [if_neg hsame, bitAt_orByte, bitAt_fillBytes, bitAt_orByte, getLsbD_endMask, getLsbD_lowMask, Bool.or_assoc,
      Bool.or_assoc, ← Bool.decide_and, ← Bool.decide_and, ← Bool.decide_or, ← Bool.decide_or]
    congr 1
    refine decide_eq_decide.2 ?_
    omega

theorem growBits_len (t : EvBits) (ih : ℕ) : (growBits t ih).len = max t.len (ih + 1) := by
  unfold growBits
  split_ifs with h
  · exact (max_eq_right (Nat.le_succ_of_le h)).symm
  · exact (max_eq_left (by omega)).symm

theorem bitAt_growBits (t : EvBits) (ih k : ℕ) :
    bitAt (growBits t ih).bits k = true ↔ bitAt t.bits k = true ∧ (k / 8 < t.len ∨ ih < t.len) := by
  unfold growBits
  by_cases hgrow : ih ≥ t.len
  · by_cases hk : k / 8 < t.len
    · simp [bitAt, hgrow, hk]
    · simp [bitAt, hgrow, hk, Nat.not_lt.2 hgrow]
  · simp [hgrow, Nat.lt_of_not_ge hgrow]

theorem EvBitsOK.setBits (h : EvBitsOK s calls) (c : SetBits) :
    EvBitsOK (s.eventsSetBits c.type c.bitl c.bith) (calls ++ [c]) := by
  have hlen : ∀ t, (s.evBits t).len ≤ ((s.eventsSetBits c.type c.bitl c.bith).evBits t).len := by
    intro t
    by_cases ht : t = c.type
    · subst ht
      simp [eventsSetBits, growBits_len]
    · simp [eventsSetBits, ht]
  refine ⟨fun t => ?_, fun d hd => ?_, fun t k hk => ?_⟩
  · have hint := c.int
    have hold := h.len t
    by_cases ht : t = c.type
    · subst ht
      simp only [eventsSetBits, update_self, growBits_len]
      omega
    · simpa [eventsSetBits, ht] using hold
  · rcases List.mem_append.1 hd with hd | hd
    · exact (h.room d hd).trans_le (hlen d.type)
    · obtain rfl := List.mem_singleton.1 hd
      simp only [eventsSetBits, update_self, growBits_len]
      omega
  · by_cases ht : t = c.type
    · subst ht
      have hmem : (∃ d ∈ calls ++ [c], d.type = c.type ∧ d.bitl ≤ k ∧ k ≤ d.bith) ↔
          (∃ d ∈ calls, d.type = c.type ∧ d.bitl ≤ k ∧ k ≤ d.bith) ∨ (c.bitl ≤ k ∧ k ≤ c.bith) := by
        simp [or_and_right, exists_or]
      have hbits : bitAt ((s.eventsSetBits c.type c.bitl c.bith).evBits c.type).bits k =
          (bitAt (growBits (s.evBits c.type) (c.bith / 8)).bits k || decide (c.bitl ≤ k ∧ k ≤ c.bith)) := by
        simp only [eventsSetBits, update_self]
        exact bitAt_maskBits _ c.le k
      rw [hmem, hbits, Bool.or_eq_true, decide_eq_true_eq, bitAt_growBits]
      refine or_congr_left ?_
      by_cases hold : k / 8 < (s.evBits c.type).len
      · rw [h.bits c.type k hold]
        exact and_iff_left (.inl hold)
      · -- a byte that has just been added
        refine iff_of_false ?_ ?_
        · rintro ⟨-, hin | hin⟩
          · exact hold hin
          · simp only [eventsSetBits, update_self, growBits_len] at hk
            omega
        · rintro ⟨d, hd, hdt, -, hdk⟩
          have hroom := h.room d hd
          rw [hdt] at hroom
          omega
    · have hkept : (s.eventsSetBits c.type c.bitl c.bith).evBits t = s.evBits t := by simp [eventsSetBits, ht]
      have hmem : (∃ d ∈ calls ++ [c], d.type = t ∧ d.bitl ≤ k ∧ k ≤ d.bith) ↔
          ∃ d ∈ calls, d.type = t ∧ d.bitl ≤ k ∧ k ≤ d.bith := by
        simp [or_and_right, exists_or, Ne.symm ht]
      rw [hkept] at hk ⊢
      rw [hmem, h.bits t k hk]

/-- The tables after `events_dev_init`, and what the calls leave alone. -/
theorem eventsDevInit_ok (name : List (BitVec 8)) (calls : List SetBits) :
    EvBitsOK (eventsDevInit name calls) calls ∧ (eventsDevInit name calls).name = name ∧
      (eventsDevInit name calls).absInfo = [] ∧ (eventsDevInit name calls).absInfoCount = 0 := by
  induction calls using List.reverseRecOn with
  | nil => exact ⟨⟨by simp [eventsDevInit, newEventsState], by simp, by simp [eventsDevInit, newEventsState]⟩,
      rfl, rfl, rfl⟩
  | append_singleton calls c ih =>
    have hstep : eventsDevInit name (calls ++ [c]) = (eventsDevInit name calls).eventsSetBits c.type c.bitl c.bith := by
      rw [eventsDevInit, List.foldl_append]
      rfl
    rw [hstep]
    exact ⟨ih.1.setBits c, ih.2⟩

/-- **A read at an offset comes out right**: it stays in the table of the page, a bitmap has exactly the bits of the
calls, and behind the page there are zeros. -/
def PageRight (calls : List SetBits) (s : EventsState) (offset : ℕ) : Prop :=
  ∃ v, s.getPageData offset = some v ∧
    (∀ t ≤ EV_MAX, s.page.toInt = PAGE_EVBITS + t → ∃ byte : BitVec 8, v = byte.zeroExtend 32 ∧
      ∀ i < 8, byte.getLsbD i = true ↔ ∃ c ∈ calls, c.type = t ∧ c.bitl ≤ 8 * offset + i ∧ 8 * offset + i ≤ c.bith) ∧
    (s.getPageLen ≤ offset → v = 0)

/-- The page of a bitmap is selected. -/
def OnEvBits (s : EventsState) : Prop := PAGE_EVBITS ≤ s.page.toInt ∧ s.page.toInt ≤ PAGE_EVBITS + EV_MAX

theorem toInt_ofNat {n : ℕ} (h : n < 2 ^ 31) : (BitVec.ofNat 32 n).toInt = n := by
  have hlt : (BitVec.ofNat 32 n).toNat = n := by
    rw [BitVec.toNat_ofNat]
    exact Nat.mod_eq_of_lt (by omega)
  rw [BitVec.toInt_eq_toNat_of_lt (by omega), hlt]

/-- The bitmap page `t`. -/
theorem evBits_page (h : EvBitsOK s calls) {t : ℕ} (ht : t ≤ EV_MAX) (hpage : s.page.toInt = PAGE_EVBITS + t)
    (offset : ℕ) :
    s.getPageLen = (s.evBits t).len ∧
      s.getPageData offset = if (s.evBits t).len < offset then some 0
        else if offset < (s.evBits t).len then some (((s.evBits t).bits offset).zeroExtend 32) else none := by
  have hlen := h.len t
  have hin : PAGE_EVBITS ≤ s.page.toInt ∧ s.page.toInt ≤ PAGE_EVBITS + EV_MAX := by
    simp only [hpage, PAGE_EVBITS]
    omega
  have hname : s.page.toInt ≠ PAGE_NAME := by
    simp only [hpage, PAGE_EVBITS, PAGE_NAME]
    omega
  have hidx : (s.page.toInt - PAGE_EVBITS).toNat = t := by
    rw [hpage]
    omega
  have hget : s.getPageLen = (s.evBits t).len := by
    simp only [getPageLen, if_neg hname, ge_iff_le, if_pos hin, hidx]
    exact toInt_ofNat (by omega)
  refine ⟨hget, ?_⟩
  simp only [getPageData, hget, if_neg hname, ge_iff_le, if_pos hin, hidx, gt_iff_lt, Nat.cast_lt]

/-- On a bitmap page the reads come out right, but for the first one behind the table. -/
theorem pageRight_evBits (h : EvBitsOK s calls) {t : ℕ} (ht : t ≤ EV_MAX) (hpage : s.page.toInt = PAGE_EVBITS + t)
    (offset : ℕ) : PageRight calls s offset ↔ offset ≠ (s.evBits t).len := by
  obtain ⟨hlen, hdata⟩ := evBits_page h ht hpage offset
  have hnone : (s.evBits t).len ≤ offset →
      ∀ i < 8, ¬ ∃ c ∈ calls, c.type = t ∧ c.bitl ≤ 8 * offset + i ∧ 8 * offset + i ≤ c.bith := by
    rintro hle i hi ⟨c, hc, rfl, -, hcle⟩
    have hroom := h.room c hc
    omega
  have hsame : ∀ u, s.page.toInt = PAGE_EVBITS + (u : ℕ) → u = t := by
    intro u hu
    omega
  constructor
  · rintro ⟨v, hv, -⟩ rfl
    simp [hdata] at hv
  · intro hne
    rcases Nat.lt_or_gt_of_ne hne with hlt | hgt
    · refine ⟨((s.evBits t).bits offset).zeroExtend 32, ?_, fun u _ hu => ?_, fun hle => ?_⟩
      · rw [hdata, if_neg (by omega), if_pos hlt]
      · obtain rfl := hsame u hu
        refine ⟨_, rfl, fun i hi => ?_⟩
        have hbits := h.bits u (8 * offset + i) (by omega)
        rwa [bitAt, show (8 * offset + i) / 8 = offset by omega, show (8 * offset + i) % 8 = i by omega] at hbits
      · rw [hlen] at hle
        omega
    · refine ⟨0, by rw [hdata, if_pos hgt], fun u _ hu => ?_, fun _ => rfl⟩
      obtain rfl := hsame u hu
      exact ⟨0, rfl, fun i hi => iff_of_false (by simp) (hnone hgt.le i hi)⟩

/-- On the page of the name the first offset behind it has the terminator. -/
theorem pageRight_name (hname : s.name.length < 2 ^ 31) (hpage : s.page.toInt = PAGE_NAME) (offset : ℕ) :
    PageRight calls s offset := by
  have hlen : s.getPageLen = s.name.length := by
    simp only [getPageLen, if_pos hpage]
    exact toInt_ofNat hname
  have hbits : ∀ t : ℕ, s.page.toInt ≠ PAGE_EVBITS + t := by
    intro t
    simp only [hpage, PAGE_NAME, PAGE_EVBITS]
    omega
  by_cases hgt : s.name.length < offset
  · refine ⟨0, ?_, fun t _ ht => absurd ht (hbits t), fun _ => rfl⟩
    simp only [getPageData, hlen, gt_iff_lt, Nat.cast_lt, if_pos hgt]
  · have hget : s.getPageData offset = (s.name ++ [0])[offset]?.map (BitVec.signExtend 32) := by
      simp only [getPageData, hlen, gt_iff_lt, Nat.cast_lt, if_neg hgt, if_pos hpage]
    have hin : offset < (s.name ++ [0]).length := by simp; omega
    rw [List.getElem?_eq_getElem hin, Option.map_some] at hget
    refine ⟨_, hget, fun t _ ht => absurd ht (hbits t), fun hle => ?_⟩
    obtain rfl : offset = s.name.length := by omega
    simp

/-- **Which reads of a page come out right**: all but those of the first offset behind a bitmap or the table of the
axes. -/
theorem pageRight_iff (name : List (BitVec 8)) (hname : name.length < 32) (calls : List SetBits) (val off : BitVec 32)
    (hoff : REG_DATA ≤ off.toInt) :
    let s := (eventsDevInit name calls).eventsWrite 0 val
    let offset := (off.toInt - REG_DATA).toNat
    s.eventsRead off = (s.getPageData offset).map (fun v => (v, s)) ∧
      (PageRight calls s offset ↔ ¬ (s.getPageLen = offset ∧ (OnEvBits s ∨ s.page.toInt = PAGE_ABSDATA))) := by
  intro s offset
  obtain ⟨htables, hn, habs, hcount⟩ := eventsDevInit_ok name calls
  have hs : EvBitsOK s calls := ⟨htables.len, htables.room, htables.bits⟩
  have hread : off.toInt ≠ REG_READ ∧ off.toInt ≠ REG_LEN := by
    unfold REG_DATA at hoff
    unfold REG_READ REG_LEN
    omega
  refine ⟨by simp only [eventsRead, if_neg hread.1, if_neg hread.2, ge_iff_le, if_pos hoff]; rfl, ?_⟩
  by_cases hbits : OnEvBits s
  · obtain ⟨t, ht⟩ : ∃ t : ℕ, s.page.toInt = PAGE_EVBITS + t := ⟨(s.page.toInt - PAGE_EVBITS).toNat, by
      have hle := hbits.1
      omega⟩
    have hmax : t ≤ EV_MAX := by
      have hle := hbits.2
      omega
    have hlen := (evBits_page hs hmax ht offset).1
    rw [pageRight_evBits hs hmax ht, hlen]
    simp only [hbits, true_or, and_true, Nat.cast_inj, Ne, eq_comm]
  · have hno : ∀ t ≤ EV_MAX, s.page.toInt ≠ PAGE_EVBITS + (t : ℕ) := by
      intro t ht hpage
      refine hbits ⟨?_, ?_⟩ <;> omega
    by_cases hpage : s.page.toInt = PAGE_NAME
    · refine iff_of_true (pageRight_name (by rw [show s.name = name from hn]; omega) hpage offset) ?_
      rintro ⟨-, hb | habs⟩
      · exact hbits hb
      · rw [hpage] at habs
        exact absurd habs (by decide)
    · have hin : ¬ (PAGE_EVBITS ≤ s.page.toInt ∧ s.page.toInt ≤ PAGE_EVBITS + EV_MAX) := hbits
      have hlen : s.getPageLen = 0 := by
        simp only [getPageLen, if_neg hpage, ge_iff_le, if_neg hin, show s.absInfoCount = 0 from hcount]
        split_ifs <;> rfl
      rw [hlen]
      by_cases hfirst : offset = 0
      · by_cases habsPage : s.page.toInt = PAGE_ABSDATA
        · refine iff_of_false ?_ (fun hc => hc ⟨by omega, .inr habsPage⟩)
          rintro ⟨v, hv, -⟩
          simp only [getPageData, hlen, hfirst, if_neg hpage, ge_iff_le, if_neg hin, if_pos habsPage,
            show s.absInfo = [] from habs] at hv
          exact absurd hv (by simp)
        · refine iff_of_true ⟨0, ?_, fun t ht hp => absurd hp (hno t ht), fun _ => rfl⟩ ?_
          · simp [getPageData, hlen, hfirst, hpage, hin, habsPage]
          · rintro ⟨-, hb | ha⟩
            · exact hbits hb
            · exact habsPage ha
      · refine iff_of_true ⟨0, ?_, fun t ht hp => absurd hp (hno t ht), fun _ => rfl⟩ (fun hc => by omega)
        simp only [getPageData, hlen, gt_iff_lt]
        rw [if_pos (by omega)]

/-- `events_set_bit (s, EV_SYN, EV_KEY)`. -/
def setSynKey : SetBits := ⟨0, 1, 1, by decide, le_rfl, by norm_num⟩

/-- The first byte of the types. -/
theorem pageRight_iff_syn : PageRight [setSynKey] ((eventsDevInit [] [setSynKey]).eventsWrite 0 0x10000) 0 := by
  refine (pageRight_iff [] (by decide) [setSynKey] 0x10000 8 (by decide)).2.2 ?_
  rintro ⟨hlen, -⟩
  exact absurd hlen (by decide)

/-- `EV_MSC` has no table: the first byte of its page is read through a null pointer. -/
theorem pageRight_noTable : ¬ PageRight [setSynKey] ((eventsDevInit [] [setSynKey]).eventsWrite 0 0x10004) 0 := by
  rintro ⟨v, hv, -⟩
  have hnone : ((eventsDevInit [] [setSynKey]).eventsWrite 0 0x10004).getPageData 0 = none := by decide
  rw [hnone] at hv
  cases hv

end Emulator.Goldfish
