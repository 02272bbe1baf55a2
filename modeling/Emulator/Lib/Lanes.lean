import Mathlib.Tactic
import Emulator.Lib.BitWindow
import Emulator.Lib.CInteger

/-!
# Lanes of a word

A word as a vector of integers of one type, the first one in the low bits.

* `lane_packLanes`: a lane is read back as it was stored.
* `lanesM_iff`: a computation on every lane, by what it does on each.
-/

namespace Emulator.Lib

open List

/-- The lane at the place `i`. -/
def lane {W : ℕ} (t : IntType) (word : BitVec W) (i : ℕ) : ℤ := t.wrap (word.toNat / 2 ^ (t.width * i) : ℕ)

/-- The word with these lanes. A stored value wraps. -/
def packLanes (W : ℕ) (t : IntType) (lanes : List ℤ) : BitVec W :=
  BitVec.ofNat W (Nat.ofDigits (2 ^ t.width) (lanes.map fun x => (x % 2 ^ t.width).toNat))

variable {W : ℕ} {t : IntType} {n : ℕ}

theorem holds_lane (t : IntType) (word : BitVec W) (i : ℕ) : t.Holds (lane t word i) := t.holds_wrap _

theorem lane_modEq (t : IntType) (word : BitVec W) (i : ℕ) :
    lane t word i ≡ (word.toNat / 2 ^ (t.width * i) : ℕ) [ZMOD 2 ^ t.width] := t.wrap_modEq _

/-- **Lanes are read back.** -/
theorem lane_packLanes {lanes : List ℤ} (hW : t.width * lanes.length ≤ W) {i : ℕ} (hi : i < lanes.length) :
    lane t (packLanes W t lanes) i = t.wrap lanes[i] := by
  have hbase : 1 < 2 ^ t.width := Nat.one_lt_two_pow t.width_pos.ne'
  have hpos : (0 : ℤ) < 2 ^ t.width := by positivity
  have hdigits : ∀ d ∈ lanes.map (fun x => (x % 2 ^ t.width).toNat), d < 2 ^ t.width := by
    intro d hd
    obtain ⟨x, -, rfl⟩ := mem_map.1 hd
    have := Int.emod_nonneg x hpos.ne'
    have := Int.emod_lt_of_pos x hpos
    zify
    omega
  have hlt := Nat.ofDigits_lt_base_pow_length hbase hdigits
  rw [length_map, ← pow_mul] at hlt
  have hdigit := digit_eq hbase hdigits (i := i) (by simpa using hi)
  rw [lane, packLanes, BitVec.toNat_ofNat, Nat.mod_eq_of_lt (hlt.trans_le (Nat.pow_le_pow_right (by omega) hW)),
    pow_mul]
  refine IntType.wrap_congr ((Int.mod_modEq _ _).symm.trans ?_)
  have hcast : ((Nat.ofDigits (2 ^ t.width) (lanes.map fun x => (x % 2 ^ t.width).toNat) / (2 ^ t.width) ^ i : ℕ) : ℤ) %
      2 ^ t.width = lanes[i] % 2 ^ t.width := by
    have h := congrArg (Nat.cast : ℕ → ℤ) hdigit
    rw [getElem_map, Int.toNat_of_nonneg (Int.emod_nonneg _ hpos.ne')] at h
    exact_mod_cast h
  rw [hcast]
  exact Int.mod_modEq _ _

theorem mapM_of_some {α β : Type*} {f : α → Option β} {g : α → β} {l : List α} (h : ∀ a ∈ l, f a = some (g a)) :
    l.mapM f = some (l.map g) := by
  induction l with
  | nil => rfl
  | cons a l ih =>
    rw [mapM_cons, h a (mem_cons_self ..), ih fun b hb => h b (mem_cons_of_mem a hb)]
    rfl

theorem mapM_of_none {α β : Type*} {f : α → Option β} {l : List α} {a : α} (ha : a ∈ l) (h : f a = none) :
    l.mapM f = none := by
  induction l with
  | nil => simp at ha
  | cons b l ih =>
    rw [mapM_cons]
    rcases mem_cons.1 ha with rfl | hl
    · rw [h]
      rfl
    · cases f b with
      | none => rfl
      | some y =>
        rw [ih hl]
        rfl

/-- What each lane has, as a function of the place. -/
theorem choose_lanes {α : Type*} [Inhabited α] {P : ℕ → α → Prop} (h : ∀ i < n, ∃ a, P i a) :
    ∃ g : ℕ → α, ∀ i < n, P i (g i) := by
  have hex : ∀ i, ∃ a, i < n → P i a := by
    intro i
    by_cases hi : i < n
    · obtain ⟨a, ha⟩ := h i hi
      exact ⟨a, fun _ => ha⟩
    · exact ⟨default, fun h => absurd h hi⟩
  choose g hg using hex
  exact ⟨g, hg⟩

/-- **A computation on every lane**: it ends exactly if it ends on each lane. -/
theorem lanesM_iff {α : Type*} [Inhabited α] {f : ℕ → Option α} {P : List α → Prop} :
    (∃ ys, (List.range n).mapM f = some ys ∧ P ys) ↔
      ∃ g : ℕ → α, (∀ i < n, f i = some (g i)) ∧ P ((List.range n).map g) := by
  constructor
  · rintro ⟨ys, hys, hP⟩
    have hsome : ∀ i < n, f i = some ((f i).getD default) := by
      intro i hi
      cases hf : f i with
      | none =>
        rw [mapM_of_none (mem_range.2 hi) hf] at hys
        cases hys
      | some y => rfl
    rw [mapM_of_some fun i hi => hsome i (mem_range.1 hi)] at hys
    cases hys
    exact ⟨_, hsome, hP⟩
  · rintro ⟨g, hg, hP⟩
    exact ⟨_, mapM_of_some fun i hi => hg i (mem_range.1 hi), hP⟩

end Emulator.Lib
