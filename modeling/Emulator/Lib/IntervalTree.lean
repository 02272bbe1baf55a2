import Emulator.Lib.SearchTree

/-!
# Search trees of disjoint intervals

The elements of the tree are intervals, from `start` to `last`. Two intervals compare equal
if they meet. This is no equivalence, but on disjoint intervals it is a strict order, and a
search for any interval finds one that it meets, if there is one.

* `Ok.find_iff`: what a search finds.
* `Ok.insert`, `Ok.remove`: the intervals stay disjoint and in order.
-/

namespace Emulator.IntervalTree

/-- The comparison of two intervals. -/
def compare (start₁ last₁ start₂ last₂ : ℕ) : Ordering :=
  if start₁ < start₂ then if last₁ < start₂ then .lt else .eq
  else if last₂ < start₁ then .gt else .eq

section

variable {start₁ last₁ start₂ last₂ : ℕ}

theorem compare_lt_iff (h₁ : start₁ ≤ last₁) : compare start₁ last₁ start₂ last₂ = .lt ↔ last₁ < start₂ := by
  unfold compare
  split_ifs <;> simp <;> omega

theorem compare_gt_iff (h₂ : start₂ ≤ last₂) : compare start₁ last₁ start₂ last₂ = .gt ↔ last₂ < start₁ := by
  unfold compare
  split_ifs <;> simp <;> omega

theorem compare_eq_iff (h₁ : start₁ ≤ last₁) (h₂ : start₂ ≤ last₂) :
    compare start₁ last₁ start₂ last₂ = .eq ↔ start₁ ≤ last₂ ∧ start₂ ≤ last₁ := by
  unfold compare
  split_ifs <;> simp <;> omega

end

variable {α : Type} {start last : α → ℕ} {t : Tree α} {s l : ℕ}

/-- The intervals are not empty, and each ends before the next one starts. -/
structure Ok (start last : α → ℕ) (t : Tree α) : Prop where
  proper : ∀ a ∈ t.toList, start a ≤ last a
  ordered : t.toList.Pairwise fun a b => last a < start b

theorem ok_leaf : Ok start last Tree.leaf := ⟨fun _ h => absurd h List.not_mem_nil, .nil⟩

namespace Ok

/-- A search for any interval is cut by the intervals of the tree. -/
theorem cuts (h : Ok start last t) (hs : s ≤ l) :
    Tree.Cuts (fun a => compare s l (start a) (last a)) t.toList := by
  refine h.ordered.imp_of_mem fun {a b} ha hb hab => ⟨?_, ?_⟩
  · rw [compare_lt_iff hs, compare_lt_iff hs]
    have := h.proper a ha
    omega
  · rw [compare_gt_iff (h.proper a ha), compare_gt_iff (h.proper b hb)]
    have := h.proper b hb
    omega

theorem disjoint (h : Ok start last t) {a b : α} (ha : a ∈ t.toList) (hb : b ∈ t.toList) (hne : a ≠ b) :
    last a < start b ∨ last b < start a := by
  have hp : t.toList.Pairwise fun a b => last a < start b ∨ last b < start a := h.ordered.imp fun hab => .inl hab
  have : Std.Symm fun a b => last a < start b ∨ last b < start a := ⟨fun _ _ => Or.symm⟩
  exact hp.forall ha hb hne

theorem nodup (h : Ok start last t) : t.toList.Nodup := by
  refine h.ordered.imp_of_mem fun {a b} ha _ hab heq => ?_
  subst heq
  have := h.proper a ha
  omega

/-- **A search finds an interval that it meets, if there is one.** -/
theorem find_iff (h : Ok start last t) (hs : s ≤ l) :
    (∃ a, t.find (fun a => compare s l (start a) (last a)) = some a) ↔
      ∃ a ∈ t.toList, s ≤ last a ∧ start a ≤ l := by
  constructor
  · rintro ⟨a, ha⟩
    obtain ⟨h1, h2⟩ := Tree.find_some ha
    exact ⟨a, h1, (compare_eq_iff hs (h.proper a h1)).1 h2⟩
  · rintro ⟨a, ha, h1⟩
    rcases hf : t.find (fun a => compare s l (start a) (last a)) with _ | b
    · exact absurd ((compare_eq_iff hs (h.proper a ha)).2 h1) (Tree.find_none (h.cuts hs) hf a ha)
    · exact ⟨b, rfl⟩

/-- What is found is an interval that is met. -/
theorem find_some (h : Ok start last t) (hs : s ≤ l) {a : α}
    (ha : t.find (fun a => compare s l (start a) (last a)) = some a) : a ∈ t.toList ∧ s ≤ last a ∧ start a ≤ l := by
  obtain ⟨h1, h2⟩ := Tree.find_some ha
  exact ⟨h1, (compare_eq_iff hs (h.proper a h1)).1 h2⟩

theorem find_none (h : Ok start last t) (hs : s ≤ l)
    (hf : t.find (fun a => compare s l (start a) (last a)) = none) :
    ∀ a ∈ t.toList, ¬ (s ≤ last a ∧ start a ≤ l) := by
  intro a ha hm
  obtain ⟨b, hb⟩ := (h.find_iff hs).2 ⟨a, ha, hm⟩
  rw [hf] at hb
  exact absurd hb (by simp)

theorem find_eq_none (h : Ok start last t) (hs : s ≤ l) (hm : ∀ a ∈ t.toList, ¬ (s ≤ last a ∧ start a ≤ l)) :
    t.find (fun a => compare s l (start a) (last a)) = none := by
  rcases hf : t.find (fun a => compare s l (start a) (last a)) with _ | b
  · rfl
  · have := h.find_some hs hf
    exact absurd this.2 (hm b this.1)

variable [DecidableEq α] (R : Rebalance α)

/-- **A new interval that meets none of the others joins them.** -/
theorem insert (h : Ok start last t) {x : α} (hx : start x ≤ last x)
    (hf : t.find (fun a => compare (start x) (last x) (start a) (last a)) = none) :
    Ok start last (R.insert (fun a => compare (start x) (last x) (start a) (last a)) t x).2 ∧
      ∀ a, a ∈ (R.insert (fun a => compare (start x) (last x) (start a) (last a)) t x).2.toList ↔
        a = x ∨ a ∈ t.toList := by
  have hmem := fun a => R.mem_insert (x := x) (a := a) (h.cuts hx) hf
  refine ⟨⟨fun a ha => ?_, ?_⟩, hmem⟩
  · rcases (hmem a).1 ha with rfl | ha
    · exact hx
    · exact h.proper a ha
  · -- the order is transitive on intervals that are not empty
    have hord := R.pairwise_insert (x := x) (fun a b => start a ≤ last a ∧ last a < start b)
      (fun h1 h2 => ⟨h1.1, by omega⟩) (h.cuts hx) hf
      (h.ordered.imp_of_mem fun {a b} ha _ hab => ⟨h.proper a ha, hab⟩)
      (fun a ha hgt => ⟨h.proper a ha, (compare_gt_iff (h.proper a ha)).1 hgt⟩)
      (fun a _ hlt => ⟨hx, (compare_lt_iff hx).1 hlt⟩)
    exact hord.imp And.right

theorem remove (h : Ok start last t) (x : α) :
    Ok start last (R.remove t x) ∧ ∀ a, a ∈ (R.remove t x).toList ↔ a ≠ x ∧ a ∈ t.toList :=
  ⟨⟨fun a ha => h.proper a ((R.mem_remove h.nodup).1 ha).2, R.pairwise_remove h.ordered⟩,
    fun _ => R.mem_remove h.nodup⟩

end Ok

end Emulator.IntervalTree
