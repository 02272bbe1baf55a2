import Mathlib.Data.Int.Notation
import Mathlib.Data.List.Basic
import Mathlib.Logic.Function.Basic

/-!
# Memory with cells that are not there

`Cells β` has at each address a value or no cell. A load or a store where there is no cell fails, so a program that
ends in a memory with few cells touches nothing else.

* `storeAll_eq`: where there are cells for all of them, values are stored in a row;
* `Cells.overlay_append`: two rows of which the second starts at the end of the first are one.
-/

namespace Emulator.Lib

open Function List

/-- `none` where there is no cell. -/
abbrev Cells (β : Type*) := ℕ → Option β

variable {β : Type*}

/-- The memory with a value stored, `none` if there is no cell at the address. -/
def Cells.store (mem : Cells β) (a : ℕ) (b : β) : Option (Cells β) :=
  if (mem a).isSome then some (update mem a (some b)) else none

/-- Values are stored in a row. -/
def Cells.storeAll : (mem : Cells β) → (a : ℕ) → List β → Option (Cells β)
  | mem, _, [] => some mem
  | mem, a, b :: l => (mem.store a b).bind fun mem => Cells.storeAll mem (a + 1) l

/-- The cells with an address in `[lo, hi)`. -/
def Cells.between (mem : Cells β) (lo hi : ℕ) : Cells β := fun i => if lo ≤ i ∧ i < hi then mem i else none

/-- The cells of a row alone. -/
def Cells.row (l : List β) : Cells β := fun i => l[i]?

/-- There is a cell at each address of `[lo, hi)`. -/
def Cells.Room (mem : Cells β) (lo hi : ℕ) : Prop := ∀ i, lo ≤ i → i < hi → (mem i).isSome

/-- The memory with the row `l` from `a` on. -/
def Cells.overlay (mem : Cells β) (a : ℕ) (l : List β) : Cells β :=
  fun i => if a ≤ i ∧ i < a + l.length then l[i - a]? else mem i

variable {mem : Cells β} {a b lo hi i : ℕ} {l l' : List β}

theorem Cells.Room.mono (h : mem.Room lo hi) (h₁ : lo ≤ a) (h₂ : b ≤ hi) : mem.Room a b :=
  fun i hi₁ hi₂ => h i (Nat.le_trans h₁ hi₁) (Nat.lt_of_lt_of_le hi₂ h₂)

theorem Cells.room_between (h : mem.Room lo hi) : (mem.between lo hi).Room lo hi := by
  intro i h₁ h₂
  rw [Cells.between, if_pos ⟨h₁, h₂⟩]
  exact h i h₁ h₂

theorem Cells.overlay_nil (mem : Cells β) (a : ℕ) : mem.overlay a [] = mem := by
  funext i
  rw [overlay, if_neg (by rw [length_nil]; omega)]

theorem Cells.overlay_inside (mem : Cells β) (h₁ : a ≤ i) (h₂ : i < a + l.length) :
    mem.overlay a l i = l[i - a]? := if_pos ⟨h₁, h₂⟩

theorem Cells.overlay_outside (mem : Cells β) (h : i < a ∨ a + l.length ≤ i) : mem.overlay a l i = mem i :=
  if_neg (by omega)

/-- **Two rows in a row.** -/
theorem Cells.overlay_append (mem : Cells β) (a : ℕ) (l l' : List β) :
    (mem.overlay a l).overlay (a + l.length) l' = mem.overlay a (l ++ l') := by
  funext i
  by_cases h₁ : i < a + l.length
  · rw [overlay_outside _ (Or.inl h₁)]
    by_cases h₀ : a ≤ i
    · rw [overlay_inside _ h₀ h₁, overlay_inside _ h₀ (by rw [length_append]; omega),
        List.getElem?_append_left (by omega)]
    · rw [overlay_outside _ (Or.inl (by omega)), overlay_outside _ (Or.inl (by omega))]
  · by_cases h₂ : i < a + (l ++ l').length
    · rw [overlay_inside _ (by omega) h₂, List.getElem?_append_right (by omega),
        overlay_inside _ (by omega) (by rw [length_append] at h₂; omega)]
      congr 1
      omega
    · rw [overlay_outside _ (Or.inr (by rw [length_append] at h₂; omega)), overlay_outside _ (Or.inr (by omega)),
        overlay_outside _ (Or.inr (by omega))]

/-- A row inside of the cells that are kept. -/
theorem Cells.overlay_between (mem : Cells β) (h₁ : lo ≤ a) (h₂ : a + l.length ≤ hi) :
    (mem.between lo hi).overlay a l = (mem.overlay a l).between lo hi := by
  funext i
  by_cases hin : a ≤ i ∧ i < a + l.length
  · rw [overlay_inside _ hin.1 hin.2, between, if_pos (by omega), overlay_inside _ hin.1 hin.2]
  · rw [overlay_outside _ (by omega), between, between, overlay_outside _ (by omega)]

theorem Cells.overlay_next (mem : Cells β) (h : b = a + l.length) :
    (mem.overlay a l).overlay b l' = mem.overlay a (l ++ l') := by
  rw [h, overlay_append]

theorem Cells.store_eq (v : β) (h : (mem a).isSome) : mem.store a v = some (mem.overlay a [v]) := by
  rw [store, if_pos h]
  congr 1
  funext i
  by_cases hi : i = a
  · subst hi
    rw [update_self, overlay_inside _ (Nat.le_refl _) (by rw [length_singleton]; omega), Nat.sub_self]
    rfl
  · rw [update_of_ne hi, overlay_outside _ (by rw [length_singleton]; omega)]

theorem Cells.Room.overlay (h : mem.Room lo hi) : (mem.overlay a l).Room lo hi := by
  intro i h₁ h₂
  by_cases hin : a ≤ i ∧ i < a + l.length
  · rw [overlay_inside _ hin.1 hin.2, List.getElem?_eq_getElem (by omega)]
    rfl
  · rw [overlay_outside _ (by omega)]
    exact h i h₁ h₂

/-- **A row is stored** where there is room for it. -/
theorem Cells.storeAll_eq (h : mem.Room a (a + l.length)) : mem.storeAll a l = some (mem.overlay a l) := by
  induction l generalizing mem a with
  | nil => rw [overlay_nil, storeAll]
  | cons v l ih =>
    rw [length_cons] at h
    rw [storeAll, store_eq v (h a (Nat.le_refl _) (by omega)), Option.bind_some,
      ih (Cells.Room.overlay (h.mono (by omega) (by omega)))]
    have happ := overlay_append mem a [v] l
    rw [length_singleton] at happ
    rw [happ, singleton_append]

/-- Memory of `n` cells as it is allocated: nothing has been stored yet. -/
def Cells.fresh (n : ℕ) : Cells (Option β) := Cells.row (List.replicate n none)

/-- `none` where there is no cell, or no value in it yet. -/
def Cells.load (mem : Cells (Option β)) (i : ℕ) : Option β := (mem i).bind id

/-- At an index that may be negative. -/
def Cells.loadAt (mem : Cells (Option β)) (i : ℤ) : Option β := if 0 ≤ i then mem.load i.toNat else none

/-- `memcpy` of `n` values from `src` on to `dst` and behind it. -/
def Cells.copy (mem : Cells (Option β)) (dst : ℕ) (source : Cells (Option β)) (src : ℕ) : ℕ → Option (Cells (Option β))
  | 0 => some mem
  | n + 1 => (source.load src).bind fun v => (mem.store dst (some v)).bind fun mem =>
      Cells.copy mem (dst + 1) source (src + 1) n

variable {β : Type*} {mem source : Cells (Option β)} {l : List β} {dst src n : ℕ}

theorem Cells.load_row {i : ℕ} (hi : i < l.length) : (row (l.map some)).load i = some l[i] := by
  rw [load, row, List.getElem?_map, List.getElem?_eq_getElem hi]
  rfl

theorem Cells.room_fresh (n : ℕ) : (fresh n : Cells (Option β)).Room 0 n := by
  intro i _ hi
  rw [fresh, row, List.getElem?_eq_getElem (by rwa [length_replicate])]
  rfl

/-- **A copy of values that are there**, to where there is room. -/
theorem Cells.copy_eq (h : ∀ i (hi : i < l.length), source.load (src + i) = some l[i])
    (hroom : mem.Room dst (dst + l.length)) :
      mem.copy dst source src l.length = some (mem.overlay dst (l.map some)) := by
  induction l generalizing mem dst src with
  | nil => rw [map_nil, overlay_nil, length_nil, copy]
  | cons v l ih =>
    rw [length_cons] at hroom
    have hv : source.load src = some v := h 0 (Nat.zero_lt_succ _)
    have htail : ∀ i (hi : i < l.length), source.load (src + 1 + i) = some l[i] := by
      intro i hi
      rw [Nat.add_assoc, Nat.add_comm 1 i]
      exact h (i + 1) (Nat.succ_lt_succ hi)
    have happ := overlay_append mem dst [some v] (l.map some)
    rw [length_singleton] at happ
    rw [length_cons, copy, hv, Option.bind_some, store_eq _ (hroom dst (Nat.le_refl _) (by omega)),
      Option.bind_some,
      ih htail (Cells.Room.overlay (hroom.mono (by omega) (by omega))), happ, singleton_append, map_cons]

/-- A row over fresh cells is all that is left of them. -/
theorem Cells.fresh_overlay (l : List β) : (fresh l.length).overlay 0 (l.map some) = row (l.map some) := by
  funext i
  by_cases hi : i < l.length
  · rw [overlay_inside _ (Nat.zero_le _) (by rw [length_map]; omega), Nat.sub_zero, row]
  · rw [overlay_outside _ (Or.inr (by rw [length_map]; omega)), fresh, row, row,
      List.getElem?_eq_none (by rw [length_replicate]; omega),
        List.getElem?_eq_none (by rw [length_map]; omega)]

end Emulator.Lib
