import Mathlib.Data.List.Basic
import Mathlib.Data.List.TakeDrop
import Mathlib.Order.Lattice

/-!
# Files

A file is the list of its bytes. A write behind the end leaves a hole, which is filled.

* `getElem?_writeAt`: what is where after a write;
* `writeAt_writeAt`: writes in a row are one write;
* `writeAt_length`: a write at the end appends.
-/

namespace Emulator.Lib

open List

variable {α : Type*}

/-- `data` is written at the offset `pos`. A write of nothing leaves the file alone. -/
def writeAt (fill : α) (file : List α) (pos : ℕ) (data : List α) : List α :=
  if data = [] then file
  else file.take pos ++ List.replicate (pos - file.length) fill ++ data ++ file.drop (pos + data.length)

variable {fill : α} {file data : List α} {pos : ℕ}

@[simp] theorem writeAt_nil : writeAt fill file pos [] = file := by simp [writeAt]

theorem length_writeAt (h : data ≠ []) : (writeAt fill file pos data).length = max file.length (pos + data.length) := by
  simp only [writeAt, if_neg h, length_append, length_take, length_replicate, length_drop]
  omega

/-- **What is where** after a write. -/
theorem getElem?_writeAt (h : data ≠ []) (i : ℕ) : (writeAt fill file pos data)[i]? =
    if pos ≤ i ∧ i < pos + data.length then data[i - pos]?
    else if file.length ≤ i ∧ i < pos then some fill else file[i]? := by
  simp only [writeAt, if_neg h]
  have hlow : (file.take pos ++ List.replicate (pos - file.length) fill).length = pos := by
    simp only [length_append, length_take, length_replicate]
    omega
  by_cases hi : i < pos
  · rw [if_neg (by omega), append_assoc, List.getElem?_append_left (by omega)]
    by_cases hf : i < file.length
    · rw [if_neg (by omega), List.getElem?_append_left (by rw [length_take]; omega), List.getElem?_take_of_lt hi]
    · rw [if_pos (by omega), List.getElem?_append_right (by rw [length_take]; omega), length_take,
        List.getElem?_replicate, if_pos (by omega)]
  · rw [append_assoc, List.getElem?_append_right (by omega), hlow]
    by_cases hd : i < pos + data.length
    · rw [if_pos (by omega), List.getElem?_append_left (by omega)]
    · rw [if_neg (by omega), if_neg (by omega), List.getElem?_append_right (by omega), List.getElem?_drop]
      congr 1
      omega

/-- The bytes outside the write, if there is no hole. -/
theorem getElem?_writeAt_of_not_mem {i : ℕ} (h : i < pos ∨ pos + data.length ≤ i)
    (hhole : pos ≤ file.length ∨ i < file.length ∨ pos ≤ i) :
    (writeAt fill file pos data)[i]? = file[i]? := by
  by_cases hd : data = []
  · rw [hd, writeAt_nil]
  · rw [getElem?_writeAt hd, if_neg (by omega), if_neg (by omega)]

theorem getElem?_writeAt_of_mem {i : ℕ} (h : i < data.length) : (writeAt fill file pos data)[pos + i]? = data[i]? := by
  rw [getElem?_writeAt (ne_nil_of_length_pos (by omega)), if_pos (by omega), Nat.add_sub_cancel_left]

/-- **Writes in a row are one write.** -/
theorem writeAt_writeAt {a b : List α} (ha : a ≠ []) :
    writeAt fill (writeAt fill file pos a) (pos + a.length) b = writeAt fill file pos (a ++ b) := by
  by_cases hb : b = []
  · rw [hb, writeAt_nil, append_nil]
  have hab : a ++ b ≠ [] := by simp [ha]
  refine ext_getElem? fun i => ?_
  rw [getElem?_writeAt hb, getElem?_writeAt hab, length_writeAt ha, length_append]
  by_cases hin : pos + a.length ≤ i ∧ i < pos + a.length + b.length
  · rw [if_pos hin, if_pos (by omega), List.getElem?_append_right (by omega)]
    congr 1
    omega
  · rw [if_neg hin, if_neg (by omega), getElem?_writeAt ha]
    by_cases hina : pos ≤ i ∧ i < pos + a.length
    · rw [if_pos hina, if_pos (by omega), List.getElem?_append_left (by omega)]
    · rw [if_neg hina, if_neg (show ¬ (pos ≤ i ∧ i < pos + (a.length + b.length)) by omega)]

/-- **A write at the end** appends. -/
theorem writeAt_length : writeAt fill file file.length data = file ++ data := by
  by_cases hd : data = []
  · rw [hd, writeAt_nil, append_nil]
  · simp [writeAt, hd]

end Emulator.Lib
