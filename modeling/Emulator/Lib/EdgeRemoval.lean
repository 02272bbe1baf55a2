import Mathlib.Logic.Relation
import Mathlib.Data.Set.Insert

/-!
# Taking away the edges behind a node

A graph whose edges are things of their own, with a source each; `E f t` says that the edge `f` goes to `t`. A
traversal without marks takes an edge away before it goes on at its target.

* `Cleared`: the edges taken away so far are ones that can be reached, and none behind them is left.
* `Cleared.edge`, `Cleared.append`: following one edge, and one traversal after the other.
* `Cleared.mem_iff`: if none is left at the start, exactly the edges that can be reached are gone.
-/

namespace Emulator

variable {ι σ : Type} {src : σ → ι} {E E' : σ → ι → Prop} {a t : ι} {f : σ} {gone gone' : Set σ}

/-- There is an edge from `x` to `y`. -/
def EdgeStep (src : σ → ι) (E : σ → ι → Prop) (x y : ι) : Prop := ∃ f, src f = x ∧ E f y

def EdgeReach (src : σ → ι) (E : σ → ι → Prop) : ι → ι → Prop := Relation.ReflTransGen (EdgeStep src E)

def edgesWithout (E : σ → ι → Prop) (gone : Set σ) (f : σ) (t : ι) : Prop := E f t ∧ f ∉ gone

/-- The edges that are gone can be reached from `a`, and all edges behind them are gone too. -/
structure Cleared (src : σ → ι) (E : σ → ι → Prop) (a : ι) (gone : Set σ) : Prop where
  reach : ∀ f ∈ gone, EdgeReach src E a (src f)
  closed : ∀ f ∈ gone, ∀ g t u, E f t → src g = t → E g u → g ∈ gone

theorem EdgeReach.mono (h : EdgeReach src E' a t) (hE : ∀ f t, E' f t → E f t) : EdgeReach src E a t :=
  Relation.ReflTransGen.mono (fun _ _ ⟨g, hg, hgt⟩ => ⟨g, hg, hE _ _ hgt⟩) _ _ h

theorem Cleared.empty : Cleared src E a ∅ := ⟨fun _ hf => hf.elim, fun _ hf => hf.elim⟩

/-- The edge `f` is taken away, and then what is behind its target. -/
theorem Cleared.edge (hf : src f = a) (hft : ∀ u, E f u ↔ u = t) (h : Cleared src (edgesWithout E {f}) t gone)
    (hstart : ∀ g u, src g = t → edgesWithout E {f} g u → g ∈ gone) : Cleared src E a (insert f gone) := by
  have hedge : EdgeReach src E a t := .single ⟨f, hf, (hft t).2 rfl⟩
  have hbehind : ∀ g u, src g = t → E g u → g ∈ insert f gone := by
    intro g u hg hgu
    by_cases hgf : g = f
    · exact Set.mem_insert_iff.2 (.inl hgf)
    · exact Set.mem_insert_of_mem f (hstart g u hg ⟨hgu, hgf⟩)
  constructor
  · intro g hg
    rcases Set.mem_insert_iff.1 hg with rfl | hg
    · rw [hf]
      exact .refl
    · exact hedge.trans ((h.reach g hg).mono fun _ _ h => h.1)
  · intro g hg g' t' u hgt hg' hu
    by_cases hgf : g = f
    · rw [hgf, hft] at hgt
      exact hbehind g' u (hg'.trans hgt) hu
    by_cases hg'f : g' = f
    · exact Set.mem_insert_iff.2 (.inl hg'f)
    · have hmem : g ∈ gone := (Set.mem_insert_iff.1 hg).resolve_left hgf
      exact Set.mem_insert_of_mem f (h.closed g hmem g' t' u ⟨hgt, hgf⟩ hg' ⟨hu, hg'f⟩)

/-- One traversal after the other. -/
theorem Cleared.append (h : Cleared src E a gone) (h' : Cleared src (edgesWithout E gone) a gone') :
    Cleared src E a (gone ∪ gone') := by
  constructor
  · rintro g (hg | hg)
    · exact h.reach g hg
    · exact (h'.reach g hg).mono fun _ _ h => h.1
  · intro g hg g' t u hgt hg' hu
    by_cases hgone : g ∈ gone
    · exact .inl (h.closed g hgone g' t u hgt hg' hu)
    by_cases hgone' : g' ∈ gone
    · exact .inl hgone'
    · exact .inr (h'.closed g (hg.resolve_left hgone) g' t u ⟨hgt, hgone⟩ hg' ⟨hu, hgone'⟩)

/-- **Complete and no more.** Gone are the edges whose source can be reached. -/
theorem Cleared.mem_iff (h : Cleared src E a gone) (hstart : ∀ g u, src g = a → E g u → g ∈ gone) (hft : E f t) :
    f ∈ gone ↔ EdgeReach src E a (src f) := by
  refine ⟨h.reach f, fun hreach => ?_⟩
  have key : ∀ x, EdgeReach src E a x → ∀ g u, src g = x → E g u → g ∈ gone := by
    intro x hx
    induction hx with
    | refl => exact hstart
    | tail hxy hstep ih =>
      obtain ⟨g, hg, hgt⟩ := hstep
      exact fun g' u hg' hu => h.closed g (ih g _ hg hgt) g' _ u hgt hg' hu
  exact key _ hreach f t rfl hft

end Emulator
