import Mathlib.Data.List.Basic
import Mathlib.Data.List.TakeDrop
import Mathlib.Logic.Function.Basic
import Mathlib.Tactic.SplitIfs

/-!
# Queues in a ring buffer

A queue is kept in the cells `0..size - 1` of a memory: it starts at the cell `r`, and goes
on at the cell `0` behind the last one.

* `ringList_put`: what is stored behind the queue, in two pieces at most, is appended;
* `ringList_drop`: the start is moved on to drop the first elements;
* `ringList_wrap`: the queue is read in two pieces.
-/

namespace Emulator.Lib

open Function
open List hiding range_succ

variable {α : Type*} {mem : ℕ → α} {size r cc : ℕ}

/-- The cell of the element `i`. -/
def ringAt (size r i : ℕ) : ℕ := if r + i < size then r + i else r + i - size

/-- The queue of `len` elements from the cell `r` on. -/
def ringList (size : ℕ) (mem : ℕ → α) (r len : ℕ) : List α := (List.range len).map fun i => mem (ringAt size r i)

/-- The cells `p..p + len - 1` in a row. -/
def load (mem : ℕ → α) (p len : ℕ) : List α := (List.range len).map fun i => mem (p + i)

/-- The list is stored in a row from the cell `p` on. -/
def store (mem : ℕ → α) (p : ℕ) (l : List α) : ℕ → α := fun i => if p ≤ i then (l[i - p]?).getD (mem i) else mem i

@[simp] theorem length_load (mem : ℕ → α) (p len : ℕ) : (load mem p len).length = len := by simp [load]

@[simp] theorem length_ringList (size : ℕ) (mem : ℕ → α) (r len : ℕ) : (ringList size mem r len).length = len := by
  simp [ringList]

theorem ringAt_lt {i : ℕ} (hr : r < size) (hi : i ≤ size) : ringAt size r i < size := by
  unfold ringAt
  split_ifs <;> omega

theorem ringAt_mod {i : ℕ} (hr : r < size) (hi : i ≤ size) : ringAt size r i = (r + i) % size := by
  unfold ringAt
  split_ifs with h
  · exact (Nat.mod_eq_of_lt h).symm
  · rw [Nat.mod_eq_sub_mod (by omega), Nat.mod_eq_of_lt (by omega)]

theorem store_of_not_mem {p i : ℕ} {l : List α} (h : i < p ∨ p + l.length ≤ i) : store mem p l i = mem i := by
  unfold store
  split_ifs with hp
  · rw [List.getElem?_eq_none (by omega), Option.getD_none]
  · rfl

theorem store_of_mem {p i : ℕ} {l : List α} (h : i < l.length) : store mem p l (p + i) = l[i] := by
  unfold store
  rw [if_pos (Nat.le_add_right p i), Nat.add_sub_cancel_left, List.getElem?_eq_getElem h, Option.getD_some]

@[simp] theorem store_nil (mem : ℕ → α) (p : ℕ) : store mem p [] = mem := by
  funext i
  simp [store]

/-- **What is stored behind the queue** in one piece, or up to the last cell and on from the first one. -/
theorem ringList_put {a b : List α} (hr : r < size) (hroom : cc + (a.length + b.length) ≤ size)
    (ha : ringAt size r cc + a.length ≤ size) (hb : b = [] ∨ ringAt size r cc + a.length = size) :
    ringList size (store (store mem (ringAt size r cc) a) 0 b) r (cc + (a.length + b.length)) =
      ringList size mem r cc ++ (a ++ b) := by
  have hlen : b.length = 0 ∨ ringAt size r cc + a.length = size := hb.imp_left (by rintro rfl; rfl)
  unfold ringAt at ha hlen
  refine ext_getElem (by simp) fun i h1 h2 => ?_
  rw [length_ringList] at h1
  rw [getElem_append]
  simp only [ringList, getElem_map, getElem_range, length_map, length_range]
  by_cases hi : i < cc
  · -- the cells of the queue are left alone
    rw [dif_pos hi, store_of_not_mem, store_of_not_mem]
    · unfold ringAt
      split_ifs at ha ⊢ <;> omega
    · unfold ringAt
      split_ifs at ha hlen ⊢ <;> omega
  · rw [dif_neg hi, getElem_append]
    by_cases hia : i - cc < a.length
    · have hcell : ringAt size r i = ringAt size r cc + (i - cc) := by
        unfold ringAt
        split_ifs at ha ⊢ <;> omega
      rw [dif_pos hia, store_of_not_mem, hcell, store_of_mem hia]
      unfold ringAt
      split_ifs at ha hlen ⊢ <;> omega
    · have hcell : ringAt size r i = 0 + (i - cc - a.length) := by
        unfold ringAt
        split_ifs at ha hlen ⊢ <;> omega
      rw [dif_neg hia, hcell, store_of_mem (by omega)]

/-- One element more, in the cell behind the queue. -/
theorem ringList_push {x : α} (hroom : cc < size) :
    ringList size (update mem (ringAt size r cc) x) r (cc + 1) = ringList size mem r cc ++ [x] := by
  have hcell : ∀ i < cc, ringAt size r i ≠ ringAt size r cc := by
    intro i hi
    unfold ringAt
    split_ifs <;> omega
  rw [ringList, List.range_succ, map_append, map_singleton, update_self]
  congr 1
  refine map_congr_left fun i hi => ?_
  rw [update_of_ne (hcell i (mem_range.1 hi))]

theorem ringList_linear {len : ℕ} (h : r + len ≤ size) : ringList size mem r len = load mem r len := by
  refine map_congr_left fun i hi => ?_
  rw [mem_range] at hi
  rw [ringAt, if_pos (by omega)]

/-- The queue is read up to the last cell, and on from the first one. -/
theorem ringList_wrap {a b : ℕ} (h : r + a = size) : ringList size mem r (a + b) = load mem r a ++ load mem 0 b := by
  rw [ringList, range_add, map_append, map_map]
  congr 1
  · exact ringList_linear (Nat.le_of_eq h)
  · refine map_congr_left fun i _ => ?_
    rw [comp_apply, ringAt, if_neg (by omega), show r + (a + i) - size = 0 + i by omega]

theorem ringList_take {n len : ℕ} (h : n ≤ len) : (ringList size mem r len).take n = ringList size mem r n := by
  rw [ringList, ← map_take, take_range, Nat.min_eq_left h]
  rfl

/-- **The first elements are dropped.** -/
theorem ringList_drop {n len : ℕ} (hr : r < size) (h : n + len ≤ size) :
    ringList size mem (ringAt size r n) len = (ringList size mem r (n + len)).drop n := by
  refine ext_getElem (by simp) fun i h1 h2 => ?_
  rw [length_ringList] at h1
  simp only [ringList, getElem_drop, getElem_map, getElem_range]
  congr 1
  unfold ringAt
  split_ifs <;> omega

end Emulator.Lib
