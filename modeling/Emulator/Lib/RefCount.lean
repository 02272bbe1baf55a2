import Mathlib.Tactic

/-!
# Reference counts that bound their holders

`held i` is the cell that `i` points to. A count that is never lowered when a holder
goes away is too large but still safe: a cell whose count is one has one holder.

* `Counted.sole`: the holder of such a cell is the only one;
* `Counted.drop`, `acquire`, `alloc`: letting a cell go, taking one more pointer, a new cell.
-/

namespace Emulator

open Function

variable {ι κ σ : Type} {held : ι → Option σ} {count : σ → ℤ}

/-- **The count of every cell is at least the number of its holders.** -/
def Counted (held : ι → Option σ) (count : σ → ℤ) : Prop :=
  ∀ (s : σ) (holders : Finset ι), (∀ i ∈ holders, held i = some s) → (holders.card : ℤ) ≤ count s

theorem Counted.one_le (h : Counted held count) {i : ι} {s : σ} (hi : held i = some s) : 1 ≤ count s := by
  have := h s {i} (by simpa using hi)
  simpa using this

/-- **A cell of count one has one holder.** -/
theorem Counted.sole (h : Counted held count) {i j : ι} {s : σ} (hs : count s = 1) (hi : held i = some s)
    (hj : held j = some s) : i = j := by
  classical
  by_contra hne
  have h2 := h s {i, j} (by simp [hi, hj])
  rw [Finset.card_pair hne, hs] at h2
  norm_num at h2

/-- Renaming the holders. -/
theorem Counted.comp (h : Counted held count) (f : κ ↪ ι) : Counted (fun k => held (f k)) count := by
  intro s holders hall
  have := h s (holders.map f) (by simpa using hall)
  simpa using this

variable [DecidableEq ι]

theorem Counted.release (h : Counted held count) (i : ι) : Counted (update held i none) count := by
  intro s holders hall
  refine h s holders fun j hj => ?_
  have hji := hall j hj
  by_cases hij : j = i
  · subst hij
    simp at hji
  · rwa [update_of_ne hij] at hji

variable [DecidableEq σ]

/-- A holder lets its cell go and lowers the count. -/
theorem Counted.drop (h : Counted held count) {i : ι} {s : σ} (hi : held i = some s) :
    Counted (update held i none) (update count s (count s - 1)) := by
  intro t holders hall
  by_cases hts : t = s
  · subst hts
    have hni : i ∉ holders := fun hm => by simpa using hall i hm
    have hins := h t (insert i holders) fun j hj => by
      rcases Finset.mem_insert.1 hj with rfl | hj
      · exact hi
      · have hji : j ≠ i := fun he => hni (he ▸ hj)
        simpa [update_of_ne hji] using hall j hj
    rw [Finset.card_insert_of_notMem hni] at hins
    rw [update_self]
    push_cast at hins
    omega
  · rw [update_of_ne hts]
    exact h.release i t holders hall

/-- One more pointer to a cell. -/
theorem Counted.acquire (h : Counted held count) (i : ι) (s : σ) :
    Counted (update held i (some s)) (update count s (count s + 1)) := by
  intro t holders hall
  have hold : ∀ j ∈ holders.erase i, held j = some t := by
    intro j hj
    obtain ⟨hji, hj⟩ := Finset.mem_erase.1 hj
    simpa [update_of_ne hji] using hall j hj
  have hrest := h t _ hold
  by_cases hts : t = s
  · subst hts
    have hcard := Finset.pred_card_le_card_erase (s := holders) (a := i)
    rw [update_self]
    omega
  · have hni : i ∉ holders := fun hm => hts (by simpa using (hall i hm).symm)
    rw [Finset.erase_eq_of_notMem hni] at hrest
    rwa [update_of_ne hts]

/-- A pointer to a cell that nobody holds. -/
theorem Counted.alloc (h : Counted held count) (i : ι) {s : σ} (hfree : ∀ j, held j ≠ some s) :
    Counted (update held i (some s)) (update count s 1) := by
  intro t holders hall
  by_cases hts : t = s
  · subst hts
    have hsub : holders ⊆ {i} := by
      intro j hj
      by_contra hji
      rw [Finset.mem_singleton] at hji
      exact hfree j (by simpa [update_of_ne hji] using hall j hj)
    have hcard := Finset.card_le_card hsub
    rw [Finset.card_singleton] at hcard
    rw [update_self]
    exact_mod_cast hcard
  · rw [update_of_ne hts]
    refine h t holders fun j hj => ?_
    by_cases hji : j = i
    · subst hji
      exact absurd (by simpa using (hall j hj).symm) hts
    · simpa [update_of_ne hji] using hall j hj

end Emulator
