import Emulator.Telephony.Gsm

/-!
# BCD numbers

`gsm_bcdnum_from_ascii` and `gsm_bcdnum_to_ascii` of `telephony/gsm.c`.

* `fromAscii_octets`: the octets a number is packed into, and where they are stored;
* `toAscii_endless`: from the count 2 on the unpacker does not stop;
* `bcdRoundTrip_iff`: a number comes back if it has no digit, or one that is read with the count 1.
-/

namespace Emulator.Telephony

open List

/-- The digit of a character. -/
def bcdDigit (c : UInt8) : Option ℕ :=
  if c = 42 then some 10
  else if c = 35 then some 11
  else if c = 44 then some 12
  else if c = 78 then some 13
  else if 48 ≤ c.toNat ∧ c.toNat < 58 then some (c.toNat - 48)
  else none

/-- The loop of `gsm_bcdnum_from_ascii`: the result, `none` for `-1`, and the stores to `dst` in their order. -/
def packBcd : List UInt8 → (result phase : ℕ) → Option ℕ × List (ℕ × UInt8)
  | [], result, phase => (some result, if result &&& 1 ≠ 0 then [(result / 2, .ofNat (phase ||| 0xf0))] else [])
  | c :: ascii, result, phase =>
    match bcdDigit c with
    | none => (none, [])
    | some d =>
      let phase := phase <<< 4 ||| d
      if phase &&& 0x100 ≠ 0 then
        -- `result` counts the second digit already
        let (n, stores) := packBcd ascii (result + 1) 0x01
        (n, ((result + 1) / 2, .ofNat phase) :: stores)
      else packBcd ascii (result + 1) phase

/-- `gsm_bcdnum_from_ascii`. A `dst` that is `NULL` gets none of the stores. -/
def gsmBcdnumFromAscii (ascii : List UInt8) : Option ℕ × List (ℕ × UInt8) := packBcd ascii 0 0x01

/-- The memory at `dst` behind the stores. -/
def storeAll (mem : ℕ → UInt8) (stores : List (ℕ × UInt8)) : ℕ → UInt8 :=
  stores.foldl (fun m s => Function.update m s.1 s.2) mem

/-- The characters `"0123456789*#,N"`. -/
def bcdChars : List UInt8 := [48, 49, 50, 51, 52, 53, 54, 55, 56, 57, 42, 35, 44, 78]

/-- The loop of `gsm_bcdnum_to_ascii` at `bcd[pos]`: the characters. The count stays what it is. -/
def unpackBcd (bcd : ℕ → UInt8) (count : ℕ) : (fuel pos shift : ℕ) → Option (List UInt8)
  | 0, _, _ => none
  | fuel + 1, pos, shift =>
    if count = 0 then some []
    else
      let c := (bcd pos).toNat >>> shift &&& 0xf
      if c = 15 ∧ count = 1 then some []
      else
        let c := if 14 ≤ c then 0 else c
        let rest := if shift + 4 = 8 then unpackBcd bcd count fuel (pos + 1) 0
          else unpackBcd bcd count fuel pos (shift + 4)
        rest.map (bcdChars.getD c 0 :: ·)

/-- `gsm_bcdnum_to_ascii` with the `fuel` for its loop; `none` if that is used up. -/
def gsmBcdnumToAscii (bcd : ℕ → UInt8) (count fuel : ℕ) : Option (List UInt8) := unpackBcd bcd count fuel 0 0

/-- The stores of a number whose first octet is to be the one behind `k`. -/
def bcdStores : (k : ℕ) → List ℕ → List (ℕ × UInt8)
  | _, [] => []
  | k, [d] => [(k, .ofNat (d ||| 0xf0))]
  | k, d :: d' :: ds => (k + 1, .ofNat (16 * d + d')) :: bcdStores (k + 1) ds

theorem bcdDigit_char : ∀ d < 14, bcdDigit (bcdChars.getD d 0) = some d := by decide

variable {ascii : List UInt8}

/-- The digits of a string of `bcdChars`. -/
theorem exists_digits (h : ∀ c ∈ ascii, c ∈ bcdChars) :
    ∃ ds : List ℕ, (∀ d ∈ ds, d < 14) ∧ ascii = ds.map (bcdChars.getD · 0) := by
  induction ascii with
  | nil => exact ⟨[], nofun, rfl⟩
  | cons c ascii ih =>
    obtain ⟨ds, hds, rfl⟩ := ih fun b hb => h b (mem_cons_of_mem _ hb)
    obtain ⟨d, hd, hc⟩ := mem_iff_getElem.1 (h c mem_cons_self)
    refine ⟨d :: ds, forall_mem_cons.2 ⟨hd, hds⟩, ?_⟩
    rw [map_cons, getD_eq_getElem?_getD, List.getElem?_eq_getElem hd, Option.getD_some, hc]

theorem phase_first {d : ℕ} (hd : d < 14) : (0x01 <<< 4 ||| d) &&& 0x100 = 0 := by
  interval_cases d <;> rfl

theorem phase_second {d d' : ℕ} (hd : d < 14) (hd' : d' < 14) :
    ((0x01 <<< 4 ||| d) <<< 4 ||| d') &&& 0x100 ≠ 0 ∧
      UInt8.ofNat ((0x01 <<< 4 ||| d) <<< 4 ||| d') = UInt8.ofNat (16 * d + d') := by
  have h : ∀ d < 14, ∀ d' < 14, ((0x01 <<< 4 ||| d) <<< 4 ||| d') &&& 0x100 ≠ 0 ∧
      UInt8.ofNat ((0x01 <<< 4 ||| d) <<< 4 ||| d') = UInt8.ofNat (16 * d + d') := by decide +kernel
  exact h d hd d' hd'

theorem phase_fill : ∀ d < 14, UInt8.ofNat ((0x01 <<< 4 ||| d) ||| 0xf0) = UInt8.ofNat (d ||| 0xf0) := by decide

theorem packBcd_digits : ∀ {ds : List ℕ}, (∀ d ∈ ds, d < 14) → ∀ k,
    packBcd (ds.map (bcdChars.getD · 0)) (2 * k) 0x01 = (some (2 * k + ds.length), bcdStores k ds)
  | [], _, k => by
    have heven : (2 * k) &&& 1 = 0 := by rw [Nat.and_one_is_mod]; omega
    simp [packBcd, bcdStores, heven]
  | [d], h, k => by
    have hd := h d mem_cons_self
    have hodd : (2 * k + 1) &&& 1 ≠ 0 := by rw [Nat.and_one_is_mod]; omega
    have hhalf : (2 * k + 1) / 2 = k := by omega
    simp only [map_cons, map_nil, packBcd, bcdDigit_char d hd, phase_first hd, ne_eq, not_true_eq_false,
      if_false, if_pos hodd, hhalf, phase_fill d hd, length_cons, length_nil, bcdStores]
  | d :: d' :: ds, h, k => by
    have hd := h d mem_cons_self
    have hd' := h d' (mem_cons_of_mem _ mem_cons_self)
    obtain ⟨hfull, hoctet⟩ := phase_second hd hd'
    have ih := packBcd_digits (fun b hb => h b (mem_cons_of_mem _ (mem_cons_of_mem _ hb))) (k + 1)
    simp only [map_cons, packBcd, bcdDigit_char d hd, bcdDigit_char d' hd', phase_first hd, ne_eq,
      not_true_eq_false, if_false, if_pos hfull, hoctet, bcdStores, length_cons]
    rw [show 2 * k + 1 + 1 = 2 * (k + 1) by ring, ih]
    simp only [Prod.mk.injEq, Option.some.injEq, List.cons.injEq, and_true]
    omega

/-- **The octets of a number**: two digits an octet, the first one in the upper half, one place too far. -/
theorem fromAscii_octets {ds : List ℕ} (h : ∀ d ∈ ds, d < 14) :
    gsmBcdnumFromAscii (ds.map (bcdChars.getD · 0)) = (some ds.length, bcdStores 0 ds) := by
  have := packBcd_digits h 0
  rwa [Nat.mul_zero, Nat.zero_add] at this

theorem le_of_mem_bcdStores : ∀ {ds : List ℕ} {k : ℕ}, ∀ s ∈ bcdStores k ds, k ≤ s.1
  | [], _, _, h => by simp [bcdStores] at h
  | [_], _, _, h => by
    rw [bcdStores, mem_singleton] at h
    rw [h]
  | _ :: _ :: ds, k, s, h => by
    rcases mem_cons.1 h with rfl | h
    · exact Nat.le_succ k
    · exact Nat.le_of_succ_le (le_of_mem_bcdStores s h)

/-- From two digits on nothing is stored in the first octet. -/
theorem bcdStores_first {ds : List ℕ} (h : 2 ≤ ds.length) : 0 ∉ (bcdStores 0 ds).map Prod.fst := by
  intro hmem
  obtain ⟨s, hs, h0⟩ := mem_map.1 hmem
  match ds, h with
  | _ :: _ :: ds, _ =>
    rcases mem_cons.1 hs with rfl | hs
    · exact absurd h0 (Nat.succ_ne_zero 0)
    · exact absurd (le_of_mem_bcdStores s hs) (by omega)

theorem unpackBcd_endless (bcd : ℕ → UInt8) {count : ℕ} (h : 2 ≤ count) (fuel : ℕ) :
    ∀ pos shift, unpackBcd bcd count fuel pos shift = none := by
  induction fuel with
  | zero => exact fun _ _ => rfl
  | succ fuel ih =>
    intro pos shift
    simp only [unpackBcd, if_neg (show ¬ count = 0 by omega), show (count = 1) = False by simp; omega, and_false,
      if_false, ih, ite_self, Option.map_none]

/-- **Reading does not stop** for a count of two or more, whatever is read. -/
theorem toAscii_endless (bcd : ℕ → UInt8) {count : ℕ} (h : 2 ≤ count) (fuel : ℕ) :
    gsmBcdnumToAscii bcd count fuel = none := unpackBcd_endless bcd h fuel 0 0

theorem toAscii_one {d : ℕ} (hd : d < 14) (bcd : ℕ → UInt8) (h : bcd 0 = .ofNat (d ||| 0xf0)) :
    gsmBcdnumToAscii bcd 1 2 = some [bcdChars.getD d 0] := by
  have hhalves : ∀ d < 14, (UInt8.ofNat (d ||| 0xf0)).toNat >>> 0 &&& 0xf = d ∧
      (UInt8.ofNat (d ||| 0xf0)).toNat >>> 4 &&& 0xf = 15 := by decide
  obtain ⟨hlow, hhigh⟩ := hhalves d hd
  rw [← h] at hlow hhigh
  rw [gsmBcdnumToAscii, unpackBcd, if_neg one_ne_zero, hlow]
  simp only [show ¬ d = 15 by omega, false_and, if_false, show ¬ 14 ≤ d by omega, Nat.zero_add,
    show ¬ 4 = 8 by omega, unpackBcd, one_ne_zero, hhigh, and_self, if_true, Option.map_some]

/-- A number is stored at the first places, two digits a place, and nowhere else. -/
def PackedInPlace (ascii : List UInt8) : Prop :=
  (gsmBcdnumFromAscii ascii).1 = some ascii.length ∧
    ∀ i, i ∈ (gsmBcdnumFromAscii ascii).2.map Prod.fst ↔ i < (ascii.length + 1) / 2

/-- Reading the stored octets stops with the number. -/
def ReadBack (ascii : List UInt8) (mem : ℕ → UInt8) (count : ℕ) : Prop :=
  ∃ fuel, gsmBcdnumToAscii (storeAll mem (gsmBcdnumFromAscii ascii).2) count fuel = some ascii

theorem packedInPlace_iff (h : ∀ c ∈ ascii, c ∈ bcdChars) :
    PackedInPlace ascii ↔ ascii.length ≤ 1 := by
  obtain ⟨ds, hds, rfl⟩ := exists_digits h
  rw [PackedInPlace, fromAscii_octets hds, length_map]
  constructor
  · intro hpacked
    by_contra hlen
    exact bcdStores_first (by omega) ((hpacked.2 0).2 (by omega))
  · intro hlen
    refine ⟨rfl, fun i => ?_⟩
    match ds with
    | [] => simp [bcdStores]
    | [_] => simp [bcdStores]

theorem readBack_iff (h : ∀ c ∈ ascii, c ∈ bcdChars) (mem : ℕ → UInt8) {count : ℕ}
    (hcount : count = ascii.length ∨ count = 2 * ((ascii.length + 1) / 2)) :
    ReadBack ascii mem count ↔ count ≤ 1 := by
  obtain ⟨ds, hds, rfl⟩ := exists_digits h
  rw [length_map] at hcount
  constructor
  · rintro ⟨fuel, hrun⟩
    by_contra hc
    rw [toAscii_endless _ (by omega)] at hrun
    exact nomatch hrun
  · intro hc
    match ds, hds with
    | [], _ =>
      obtain rfl : count = 0 := by
        rw [length_nil] at hcount
        omega
      exact ⟨1, rfl⟩
    | [d], hds =>
      obtain rfl : count = 1 := by
        rw [length_singleton] at hcount
        omega
      -- the upper half of the one octet is the filler, at the count 1
      refine ⟨2, toAscii_one (hds d mem_cons_self) _ ?_⟩
      rw [fromAscii_octets hds]
      simp [bcdStores, storeAll]
    | _ :: _ :: _, _ =>
      simp only [length_cons] at hcount
      omega

/-- **BCD numbers come back** if they are empty, or have one digit and are read with the count 1. The count is the
number of digits, or that of the halves of the octets. -/
theorem bcdRoundTrip_iff {ascii : List UInt8} (h : ∀ c ∈ ascii, c ∈ bcdChars) (mem : ℕ → UInt8) {count : ℕ}
    (hcount : count = ascii.length ∨ count = 2 * ((ascii.length + 1) / 2)) :
    PackedInPlace ascii ∧ ReadBack ascii mem count ↔ count ≤ 1 := by
  rw [packedInPlace_iff h, readBack_iff h mem hcount]
  omega

/-- The number `#` in one octet, read with the count 1. -/
theorem bcdRoundTrip_iff_hash : PackedInPlace [35] ∧ ReadBack [35] (fun _ => 0) 1 ↔ 1 ≤ 1 :=
  bcdRoundTrip_iff (by simp [bcdChars]) _ (Or.inl rfl)

/-- The number `12`: its octet is stored behind the place for it. -/
theorem bcdRoundTrip_misplaced : ¬ (PackedInPlace [49, 50] ∧ ReadBack [49, 50] (fun _ => 0) 2) := by
  intro h
  have hfirst := (h.1.2 0).2 (by decide)
  exact absurd hfirst (by decide)

end Emulator.Telephony
