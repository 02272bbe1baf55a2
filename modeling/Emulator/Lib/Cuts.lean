import Mathlib.Algebra.BigOperators.Group.Finset.Basic
import Mathlib.Data.Finset.Basic

/-!
# Intervals between cut points

`CutFrom lo hi cuts t is`: the intervals `[lo i, hi i)` of the list `is` lie one after
the other from `t` on, each starts at a cut point and has none inside.

* `CutFrom.before`, `CutFrom.weaken`, `CutFrom.skip`: one more interval, and more cut points;
* `CutFrom.mem_iff`: a cut point is covered when an interval starts there;
* `CutFrom.sum`: so a sum over the intervals is one over the covered cut points.
-/

namespace Emulator.Lib

open List

variable {α ι : Type*} [LinearOrder α] {lo hi : ι → α} {cuts cuts' : Finset α} {t t' : α} {i : ι} {is : List ι}

/-- **Intervals between cut points**, from `t` on. -/
inductive CutFrom (lo hi : ι → α) (cuts : Finset α) : α → List ι → Prop
  | nil (t : α) : CutFrom lo hi cuts t []
  | cons {t : α} {i : ι} {is : List ι} (start : t ≤ lo i) (mem : lo i ∈ cuts) (lt : lo i < hi i)
      (inside : ∀ x ∈ cuts, ¬ (lo i < x ∧ x < hi i)) (rest : CutFrom lo hi cuts (hi i) is) :
      CutFrom lo hi cuts t (i :: is)

namespace CutFrom

theorem mono (h : CutFrom lo hi cuts t is) (hle : t' ≤ t) : CutFrom lo hi cuts t' is := by
  cases h with
  | nil => exact .nil t'
  | cons start mem lt inside rest => exact .cons (hle.trans start) mem lt inside rest

theorem le_lo (h : CutFrom lo hi cuts t is) : ∀ i ∈ is, t ≤ lo i := by
  induction h with
  | nil => simp
  | cons start mem lt inside rest ih =>
    exact forall_mem_cons.2 ⟨start, fun j hj => (start.trans lt.le).trans (ih j hj)⟩

theorem ordered (h : CutFrom lo hi cuts t is) :
    (∀ i ∈ is, lo i < hi i) ∧ is.Pairwise fun i j => hi i ≤ lo j := by
  induction h with
  | nil => simp
  | cons start mem lt inside rest ih => exact ⟨forall_mem_cons.2 ⟨lt, ih.1⟩, pairwise_cons.2 ⟨rest.le_lo, ih.2⟩⟩

/-- More cut points, none of which is behind `t`. -/
theorem weaken (h : CutFrom lo hi cuts t is) (hsub : cuts ⊆ cuts') (hnew : ∀ x ∈ cuts', x ∈ cuts ∨ x ≤ t) :
    CutFrom lo hi cuts' t is := by
  induction h with
  | nil t => exact .nil t
  | cons start mem lt inside rest ih =>
    refine .cons start (hsub mem) lt ?_ (ih fun x hx => (hnew x hx).imp_right fun hle => ?_)
    · rintro x hx ⟨h1, h2⟩
      rcases hnew x hx with hold | hle
      · exact inside x hold ⟨h1, h2⟩
      · exact absurd (h1.trans_le hle) (not_lt.2 start)
    · exact hle.trans (start.trans lt.le)

/-- Nothing, or one interval, put before the others. -/
theorem before (h : CutFrom lo hi cuts t is) (htt : t' ≤ t) {c : Prop} [Decidable c]
    (hi' : t' ≤ lo i ∧ lo i < hi i ∧ hi i ≤ t) (hmem : lo i ∈ cuts) (hin : ∀ x ∈ cuts, x ≤ lo i ∨ hi i ≤ x) :
    CutFrom lo hi cuts t' ((if c then [i] else []) ++ is) := by
  split_ifs
  · refine .cons hi'.1 hmem hi'.2.1 ?_ (h.mono hi'.2.2)
    rintro x hx ⟨h1, h2⟩
    rcases hin x hx with hle | hle
    · exact absurd h1 (not_lt.2 hle)
    · exact absurd h2 (not_lt.2 hle)
  · exact h.mono htt

/-- An interval that starts first: the cut points are its two ends and those of the others. -/
theorem skip (h : CutFrom lo hi cuts' (hi i) is) (ht : t ≤ lo i) (hlt : lo i < hi i) (hmem : lo i ∈ cuts)
    (hsub : cuts' ⊆ cuts) (hends : ∀ x ∈ cuts, x = lo i ∨ hi i ≤ x ∧ (x = hi i ∨ x ∈ cuts')) {c : Prop}
    [Decidable c] : CutFrom lo hi cuts t ((if c then [i] else []) ++ is) := by
  refine (h.weaken hsub ?_).before (ht.trans hlt.le) ⟨ht, hlt, le_rfl⟩ hmem ?_
  · intro x hx
    rcases hends x hx with rfl | ⟨-, rfl | hin⟩
    · exact .inr hlt.le
    · exact .inr le_rfl
    · exact .inl hin
  · intro x hx
    rcases hends x hx with rfl | ⟨hle, -⟩
    · exact .inl le_rfl
    · exact .inr hle

/-- **A cut point is covered** exactly when an interval starts there. -/
theorem mem_iff (h : CutFrom lo hi cuts t is) {x : α} (hx : x ∈ cuts) :
    (∃ i ∈ is, lo i ≤ x ∧ x < hi i) ↔ ∃ i ∈ is, lo i = x := by
  induction h with
  | nil => simp
  | cons start mem lt inside rest ih =>
    rw [exists_mem_cons_iff, exists_mem_cons_iff, ih]
    refine or_congr_left ⟨fun ⟨h1, h2⟩ => ?_, fun he => ⟨he.le, he ▸ lt⟩⟩
    by_contra hne
    exact inside x hx ⟨lt_of_le_of_ne h1 hne, h2⟩

/-- **A sum over the intervals** is a sum over the cut points that they cover. -/
theorem sum {M : Type*} [AddCommMonoid M] (h : CutFrom lo hi cuts t is) (covered : α → Prop) [DecidablePred covered]
    (hcov : ∀ x ∈ cuts, covered x ↔ ∃ i ∈ is, lo i ≤ x ∧ x < hi i) (g : α → M) :
    (is.map fun i => g (lo i)).sum = ∑ x ∈ cuts with covered x, g x := by
  have hstarts : cuts.filter covered = cuts.filter fun x => x ∈ is.map lo := by
    apply Finset.filter_congr
    intro x hx
    rw [hcov x hx, h.mem_iff hx, mem_map]
  rw [hstarts]
  clear hstarts hcov
  induction h with
  | nil => simp
  | @cons t i is start mem lt inside rest ih =>
    have hfirst : lo i ∉ cuts.filter fun x => x ∈ is.map lo := by
      intro hin
      obtain ⟨j, hj, he⟩ := mem_map.1 (Finset.mem_filter.1 hin).2
      exact absurd (he ▸ rest.le_lo j hj) (not_le.2 lt)
    have hinsert : cuts.filter (fun x => x ∈ (i :: is).map lo) =
      insert (lo i) (cuts.filter fun x => x ∈ is.map lo) := by
      ext x
      simp only [Finset.mem_filter, Finset.mem_insert, map_cons, mem_cons]
      constructor
      · rintro ⟨hx, he | he⟩
        · exact .inl he
        · exact .inr ⟨hx, he⟩
      · rintro (rfl | ⟨hx, he⟩)
        · exact ⟨mem, .inl rfl⟩
        · exact ⟨hx, .inr he⟩
    rw [hinsert, Finset.sum_insert hfirst, map_cons, sum_cons, ih]

end CutFrom

end Emulator.Lib
