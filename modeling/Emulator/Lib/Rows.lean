import Emulator.Lib.RingBuffer

/-!
# Rows of a memory

`Holds mem p l`: the list `l` is stored in a row from the cell `p` on. A list that was put together from parts is read
part by part, and is still there if other cells are written.
-/

namespace Emulator.Lib

open List

variable {α : Type*} {mem mem' : ℕ → α} {p n m : ℕ} {l l' : List α}

@[simp] theorem load_zero : load mem p 0 = [] := rfl

theorem load_succ : load mem p (n + 1) = mem p :: load mem (p + 1) n := by
  simp only [load, range_succ_eq_map, map_cons, map_map, Nat.add_zero]
  congr 1
  refine map_congr_left fun i _ => ?_
  rw [Function.comp_apply, Nat.succ_eq_add_one, show p + (i + 1) = p + 1 + i by omega]

theorem load_add : load mem p (m + n) = load mem p m ++ load mem (p + m) n := by
  rw [load, range_add, map_append, map_map]
  congr 1
  refine map_congr_left fun i _ => ?_
  rw [Function.comp_apply, Nat.add_assoc]

theorem load_congr (h : ∀ i, p ≤ i → i < p + n → mem' i = mem i) : load mem' p n = load mem p n := by
  refine map_congr_left fun i hi => h _ (by omega) ?_
  have := mem_range.1 hi
  omega

def Holds (mem : ℕ → α) (p : ℕ) (l : List α) : Prop := load mem p l.length = l

theorem holds_cons {a : α} : Holds mem p (a :: l) ↔ mem p = a ∧ Holds mem (p + 1) l := by
  unfold Holds
  rw [length_cons, load_succ, List.cons.injEq]

theorem holds_append : Holds mem p (l ++ l') ↔ Holds mem p l ∧ Holds mem (p + l.length) l' := by
  unfold Holds
  rw [length_append, load_add]
  constructor
  · intro h
    exact append_inj h (length_load mem p l.length)
  · rintro ⟨h, h'⟩
    rw [h, h']

/-- **Other cells** may be written. -/
theorem Holds.frame (h : Holds mem p l) (hc : ∀ i, p ≤ i → i < p + l.length → mem' i = mem i) : Holds mem' p l :=
  (load_congr hc).trans h

/-- The first part of a row. -/
theorem Holds.left (h : Holds mem p (l ++ l')) (hn : l.length = n) : load mem p n = l := by
  subst hn
  exact (holds_append.1 h).1

theorem Holds.right (h : Holds mem p (l ++ l')) (hn : l.length = n) : Holds mem (p + n) l' := by
  subst hn
  exact (holds_append.1 h).2

theorem Holds.get (h : Holds mem p l) {i : ℕ} (hi : i < l.length) : mem (p + i) = l[i] := by
  have hget : (load mem p l.length)[i]? = l[i]? := congrArg (·[i]?) h
  simpa [load, hi] using hget

theorem holds_of_get (h : ∀ i (hi : i < l.length), mem (p + i) = l[i]) : Holds mem p l := by
  refine ext_getElem (length_load mem p l.length) fun i h₁ h₂ => ?_
  simpa [load] using h i h₂

end Emulator.Lib
