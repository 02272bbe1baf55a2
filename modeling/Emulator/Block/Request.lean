import Mathlib.Tactic

/-!
# The request check of the block layer (`block.c`)

`bdrv_check_request` multiplies a sector number and a count by 512 in the types that they have, and
compares the products with the length of the device. The program is built with `-m32`, so `size_t` has 32 bits.

* `bdrvCheckRequest_accepts`: what is accepted is what fits after the products have wrapped around.
* `bdrvCheckRequest_iff`: for which requests this is the same as to fit.
-/

namespace Emulator.Block

inductive Errno
  | eio
  | enomedium
  | eacces
  | enotsup
deriving DecidableEq, Repr

/-- What the check asks of a device: `bdrv_is_inserted`, `growable` and `bdrv_getlength`. -/
structure Device where
  inserted : Bool
  growable : Bool
  length : BitVec 64

/-- `bdrv_check_byte_request`, `none` for 0. Behind the first comparison `len - offset` is not negative. -/
def bdrvCheckByteRequest (bs : Device) (offset : BitVec 64) (size : BitVec 32) : Option Errno :=
  if ¬ bs.inserted then some .enomedium
  else if bs.growable then none
  else if offset.slt 0 then some .eio
  else if bs.length.slt offset ∨ (bs.length - offset).slt (size.zeroExtend 64) then some .eio
  else none

/-- `bdrv_check_request`: the count is multiplied as an `int` and converted to `size_t`. -/
def bdrvCheckRequest (bs : Device) (sectorNum : BitVec 64) (nbSectors : BitVec 32) : Option Errno :=
  bdrvCheckByteRequest bs (sectorNum * 512#64) (nbSectors * 512#32)

/-- The sectors are within the `length` bytes of a device. -/
def Fits (length sectorNum nbSectors : ℤ) : Prop :=
  0 ≤ sectorNum ∧ 0 ≤ nbSectors ∧ (sectorNum + nbSectors) * 512 ≤ length

instance (length sectorNum nbSectors : ℤ) : Decidable (Fits length sectorNum nbSectors) :=
  inferInstanceAs (Decidable (_ ∧ _))

/-- The sector number that is left of a 64-bit one after its byte offset has wrapped around. -/
def wrappedSector (sectorNum : BitVec 64) : ℤ := sectorNum.toInt.bmod (2 ^ 55)

/-- The count that is left of an `int` after its bytes have wrapped around. -/
def wrappedCount (nbSectors : BitVec 32) : ℤ := nbSectors.toInt % 2 ^ 23

theorem toInt_offset (x : BitVec 64) : (x * 512#64).toInt = wrappedSector x * 512 := by
  rw [BitVec.toInt_mul, show (512#64).toInt = 512 by decide]
  unfold wrappedSector
  rw [Int.bmod_def, Int.bmod_def]
  push_cast
  split_ifs <;> omega

theorem toInt_size (x : BitVec 32) : ((x * 512#32).zeroExtend 64).toInt = wrappedCount x * 512 := by
  have hlt := (x * 512#32).isLt
  have hnat : ((x * 512#32).zeroExtend 64).toNat = x.toNat * 512 % 2 ^ 32 := by
    rw [BitVec.zeroExtend, BitVec.toNat_setWidth, Nat.mod_eq_of_lt (by omega), BitVec.toNat_mul]
    rfl
  rw [BitVec.toInt_eq_toNat_of_lt (by omega), hnat]
  unfold wrappedCount
  rw [BitVec.toInt_eq_toNat_cond]
  push_cast
  split_ifs <;> omega

/-- **What the check accepts.** -/
theorem bdrvCheckRequest_accepts {bs : Device} (hin : bs.inserted = true) (hgrow : bs.growable = false)
    (sectorNum : BitVec 64) (nbSectors : BitVec 32) :
    bdrvCheckRequest bs sectorNum nbSectors = none ↔
      Fits bs.length.toInt (wrappedSector sectorNum) (wrappedCount nbSectors) := by
  have hoffset := toInt_offset sectorNum
  have hsize := toInt_size nbSectors
  have hcount : 0 ≤ wrappedCount nbSectors := Int.emod_nonneg _ (by omega)
  unfold bdrvCheckRequest bdrvCheckByteRequest Fits
  set offset := sectorNum * 512#64
  rw [hin, hgrow]
  simp only [BitVec.slt_eq_decide, hsize, not_true_eq_false, if_false, Bool.false_eq_true, decide_eq_true_eq,
    show (0 : BitVec 64).toInt = 0 from rfl]
  have hlength := bs.length.toInt_lt
  by_cases hneg : offset.toInt < 0
  · rw [if_pos hneg]
    simp only [reduceCtorEq, false_iff, not_and]
    omega
  · rw [if_neg hneg]
    by_cases hafter : bs.length.toInt < offset.toInt
    · rw [if_pos (.inl hafter)]
      simp only [reduceCtorEq, false_iff, not_and]
      omega
    · -- the difference is not negative, so it does not wrap around
      have hroom : (bs.length - offset).toInt = bs.length.toInt - offset.toInt := by
        rw [BitVec.toInt_sub]
        exact Int.bmod_eq_of_le (by omega) (by omega)
      rw [hroom]
      by_cases hshort : bs.length.toInt - offset.toInt < wrappedCount nbSectors * 512
      · rw [if_pos (.inr hshort)]
        simp only [reduceCtorEq, false_iff, not_and]
        omega
      · rw [if_neg (not_or.mpr ⟨hafter, hshort⟩)]
        simp only [true_iff]
        omega

/-- A sector number inside a device does not wrap around. -/
theorem Fits.wrappedSector {length sectorNum : BitVec 64} {nbSectors : ℤ}
    (h : Fits length.toInt sectorNum.toInt nbSectors) : wrappedSector sectorNum = sectorNum.toInt := by
  obtain ⟨hsector, hcount, hend⟩ := h
  have hlength := length.toInt_lt
  unfold Block.wrappedSector
  rw [Int.bmod_def]
  push_cast
  split_ifs <;> omega

/-- **For which requests the check is right.** All that fit are accepted; one that does not fit must not fit
after it has wrapped around. -/
theorem bdrvCheckRequest_iff {bs : Device} (hin : bs.inserted = true) (hgrow : bs.growable = false)
    (sectorNum : BitVec 64) (nbSectors : BitVec 32) :
    (bdrvCheckRequest bs sectorNum nbSectors = none ↔ Fits bs.length.toInt sectorNum.toInt nbSectors.toInt) ↔
      (¬ Fits bs.length.toInt sectorNum.toInt nbSectors.toInt →
        ¬ Fits bs.length.toInt (wrappedSector sectorNum) (wrappedCount nbSectors)) := by
  rw [bdrvCheckRequest_accepts hin hgrow, not_imp_not]
  refine ⟨Iff.mp, fun h => ⟨h, fun hfits => ?_⟩⟩
  -- a count that is not negative only becomes smaller
  have hsector := hfits.wrappedSector
  obtain ⟨hs0, hn0, hend⟩ := hfits
  have hcount : 0 ≤ wrappedCount nbSectors := Int.emod_nonneg _ (by omega)
  have hle : wrappedCount nbSectors ≤ nbSectors.toInt := by
    unfold wrappedCount
    omega
  exact ⟨by omega, hcount, by omega⟩

/-- Numbers whose bytes are within their types are checked as they should be. -/
theorem bdrvCheckRequest_safe {bs : Device} (hin : bs.inserted = true) (hgrow : bs.growable = false)
    {sectorNum : BitVec 64} {nbSectors : BitVec 32}
    (hsector : -(2 ^ 54) ≤ sectorNum.toInt ∧ sectorNum.toInt < 2 ^ 54)
    (hcount : 0 ≤ nbSectors.toInt ∧ nbSectors.toInt < 2 ^ 23) :
    bdrvCheckRequest bs sectorNum nbSectors = none ↔ Fits bs.length.toInt sectorNum.toInt nbSectors.toInt := by
  rw [bdrvCheckRequest_accepts hin hgrow]
  have hs : wrappedSector sectorNum = sectorNum.toInt := Int.bmod_eq_of_le (by omega) (by omega)
  have hn : wrappedCount nbSectors = nbSectors.toInt := Int.emod_eq_of_lt hcount.1 hcount.2
  rw [hs, hn]

/-- The check of natural numbers of sectors. -/
theorem bdrvCheckRequest_sectors {bs : Device} (hin : bs.inserted = true) (hgrow : bs.growable = false) {length : ℕ}
    (hsize : bs.length.toInt = length) {sectorNum nbSectors : ℕ} (hsector : sectorNum < 2 ^ 54)
    (hcount : nbSectors < 2 ^ 22) :
    bdrvCheckRequest bs (BitVec.ofNat 64 sectorNum) (BitVec.ofNat 32 nbSectors) = none ↔
      512 * (sectorNum + nbSectors) ≤ length := by
  have hs : (BitVec.ofNat 64 sectorNum).toInt = sectorNum := by
    rw [BitVec.toInt_ofNat']
    exact Int.bmod_eq_of_le (by omega) (by omega)
  have hc : (BitVec.ofNat 32 nbSectors).toInt = nbSectors := by
    rw [BitVec.toInt_ofNat']
    exact Int.bmod_eq_of_le (by omega) (by omega)
  rw [bdrvCheckRequest_safe hin hgrow (by omega) (by omega), hs, hc, hsize]
  unfold Fits
  omega

/-- A device of one sector. -/
def oneSector : Device := ⟨true, false, 512⟩

theorem bdrvCheckRequest_second :
    bdrvCheckRequest oneSector 1 1 = none ↔ Fits oneSector.length.toInt (1 : BitVec 64).toInt (1 : BitVec 32).toInt :=
  (@bdrvCheckRequest_iff oneSector rfl rfl 1 1).mpr (by decide)

/-- 2^23 sectors are accepted: their bytes are 0 as an `int`. -/
theorem bdrvCheckRequest_wraps :
    ¬ (bdrvCheckRequest oneSector 0 8388608 = none ↔
      Fits oneSector.length.toInt (0 : BitVec 64).toInt (8388608 : BitVec 32).toInt) := by
  decide

end Emulator.Block
