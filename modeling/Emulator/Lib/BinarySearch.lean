import Mathlib.Order.Interval.Set.Defs
import Mathlib.Tactic.Ring

/-!
# Binary search with two inclusive bounds

The loop `while (m_min <= m_max)` with the middle `(m_min + m_max) >> 1`, which leaves at once where it meets the key.
The bounds are integers: the upper one ends below the lower one, and may end at -1.

* `search_found`, `search_past`: on increasing values, the loop meets the key if it is there, and else ends with the
  last index whose value is less.
-/

namespace Emulator.Lib

variable {α : Type*} [LinearOrder α]

/-- Where a search ends: where it met the key, or with its upper bound. -/
inductive SearchEnd
  | found (m : ℤ)
  | past (mMax : ℤ)
  deriving DecidableEq

/-- `none` if an index is read where there is nothing. -/
def search (read : ℤ → Option α) (key : α) (mMin mMax : ℤ) : Option SearchEnd :=
  if h : mMin ≤ mMax then
    (read ((mMin + mMax) >>> (1 : ℕ))).bind fun saved =>
      if key = saved then some (.found ((mMin + mMax) >>> (1 : ℕ)))
      else if key < saved then search read key mMin ((mMin + mMax) >>> (1 : ℕ) - 1)
      else search read key ((mMin + mMax) >>> (1 : ℕ) + 1) mMax
  else some (.past mMax)
termination_by (mMax - mMin + 1).toNat
decreasing_by
  all_goals
    rw [Int.shiftRight_eq_div_pow]
    omega

variable {read : ℤ → Option α} {f : ℤ → α} {key : α} {lo hi : ℤ}

/-- The values from `lo` to `hi`, increasing. -/
structure Increasing (read : ℤ → Option α) (f : ℤ → α) (lo hi : ℤ) : Prop where
  read_eq {i} : lo ≤ i → i ≤ hi → read i = some (f i)
  lt {i j} : lo ≤ i → i < j → j ≤ hi → f i < f j

theorem Increasing.mono (h : Increasing read f lo hi) {lo' hi' : ℤ} (hlo : lo ≤ lo') (hhi : hi' ≤ hi) :
    Increasing read f lo' hi' :=
  ⟨fun h₁ h₂ => h.read_eq (hlo.trans h₁) (h₂.trans hhi), fun h₁ h₂ h₃ => h.lt (hlo.trans h₁) h₂ (h₃.trans hhi)⟩

theorem Increasing.le (h : Increasing read f lo hi) {i j : ℤ} (hi₀ : lo ≤ i) (hij : i ≤ j) (hj : j ≤ hi) :
    f i ≤ f j := by
  rcases hij.lt_or_eq with hlt | rfl
  · exact (h.lt hi₀ hlt hj).le
  · exact le_rfl

/-- What the search tells about the key. -/
def SearchEnd.Tells (f : ℤ → α) (key : α) (lo hi : ℤ) : SearchEnd → Prop
  | .found m => lo ≤ m ∧ m ≤ hi ∧ f m = key
  | .past r => lo - 1 ≤ r ∧ r ≤ hi ∧ (∀ i, lo ≤ i → i ≤ r → f i < key) ∧ ∀ i, r < i → i ≤ hi → key < f i

/-- **The search on increasing values.** -/
theorem search_tells (key : α) (h : Increasing read f lo hi) (hle : lo ≤ hi + 1) :
    ∃ e, search read key lo hi = some e ∧ e.Tells f key lo hi := by
  induction hn : (hi - lo + 1).toNat using Nat.strong_induction_on generalizing lo hi with
  | h n ih =>
    rw [search]
    by_cases hlt : lo ≤ hi
    · set m := (lo + hi) >>> (1 : ℕ) with hm
      rw [Int.shiftRight_eq_div_pow] at hm
      have hlo : lo ≤ m := by omega
      have hhi : m ≤ hi := by omega
      rw [dif_pos hlt, h.read_eq hlo hhi, Option.bind_some]
      rcases lt_trichotomy key (f m) with hkey | hkey | hkey
      · -- the key is below the middle, and so below everything behind it
        rw [if_neg hkey.ne, if_pos hkey]
        obtain ⟨e, he, htell⟩ := ih _ (by omega) (h.mono le_rfl (by omega : m - 1 ≤ hi)) (by omega) rfl
        refine ⟨e, he, ?_⟩
        cases e with
        | found k => exact ⟨htell.1, by have := htell.2.1; omega, htell.2.2⟩
        | past r =>
          obtain ⟨h₁, h₂, h₃, h₄⟩ := htell
          refine ⟨h₁, by omega, h₃, fun i hri hi' => ?_⟩
          rcases lt_or_ge i m with him | him
          · exact h₄ i hri (by omega)
          · exact hkey.trans_le (h.le hlo him hi')
      · rw [if_pos hkey]
        exact ⟨_, rfl, hlo, hhi, hkey.symm⟩
      · rw [if_neg hkey.ne', if_neg hkey.not_gt]
        obtain ⟨e, he, htell⟩ := ih _ (by omega) (h.mono (by omega : lo ≤ m + 1) le_rfl) (by omega) rfl
        refine ⟨e, he, ?_⟩
        cases e with
        | found k => exact ⟨by have := htell.1; omega, htell.2⟩
        | past r =>
          obtain ⟨h₁, h₂, h₃, h₄⟩ := htell
          refine ⟨by omega, h₂, fun i hi₀ hir => ?_, h₄⟩
          rcases le_or_gt i m with him | him
          · exact (h.le hi₀ him hhi).trans_lt hkey
          · exact h₃ i (by omega) hir
    · rw [dif_neg hlt]
      exact ⟨_, rfl, by omega, le_rfl, fun i h₁ h₂ => by omega, fun i h₁ h₂ => by omega⟩

/-- A search that meets the key. -/
theorem search_found (h : Increasing read f lo hi) {k : ℤ} (hlo : lo ≤ k) (hhi : k ≤ hi) (hk : f k = key) :
    search read key lo hi = some (.found k) := by
  obtain ⟨e, he, htell⟩ := search_tells key h (by omega)
  cases e with
  | found m =>
    obtain ⟨h₁, h₂, hm⟩ := htell
    rcases lt_trichotomy m k with hlt | rfl | hlt
    · exact absurd (hm.trans hk.symm) (h.lt h₁ hlt hhi).ne
    · exact he
    · exact absurd (hk.trans hm.symm) (h.lt hlo hlt h₂).ne
  | past r =>
    obtain ⟨-, -, h₃, h₄⟩ := htell
    rcases le_or_gt k r with hkr | hkr
    · exact absurd hk (h₃ k hlo hkr).ne
    · exact absurd hk.symm (h₄ k hkr hhi).ne

/-- A search for a key that is not there. -/
theorem search_past (h : Increasing read f lo hi) (hle : lo ≤ hi + 1) (hne : ∀ i, lo ≤ i → i ≤ hi → f i ≠ key) :
    ∃ r, search read key lo hi = some (.past r) ∧ lo - 1 ≤ r ∧ r ≤ hi ∧ (∀ i, lo ≤ i → i ≤ r → f i < key) ∧
      ∀ i, r < i → i ≤ hi → key < f i := by
  obtain ⟨e, he, htell⟩ := search_tells key h hle
  cases e with
  | found m => exact absurd htell.2.2 (hne m htell.1 htell.2.1)
  | past r => exact ⟨r, he, htell⟩

end Emulator.Lib
