import Mathlib.Data.List.Basic
import Mathlib.Logic.Function.Basic

/-!
# Chains of nodes with a next pointer

`ChainFrom next p l`: from the pointer `p` on, the nodes are those of `l`, to a null pointer.

* `ChainFrom.push`: a node in front of the chain;
* `ChainFrom.snoc`: a node behind the last one;
* `ChainFrom.retail`: another chain behind the first nodes;
* `not_chainFrom_cycle`: no chain goes through two nodes that point to each other.
-/

namespace Emulator.Lib

open Function List Option

variable {α : Type*} {next next' : α → Option α} {p : Option α} {a b : α} {l : List α}

/-- The nodes from `p` on. -/
def ChainFrom (next : α → Option α) : Option α → List α → Prop
  | p, [] => p = none
  | p, a :: l => p = some a ∧ ChainFrom next (next a) l

theorem ChainFrom.head (h : ChainFrom next p l) : p = l.head? := by
  cases l with
  | nil => exact h
  | cons a l => exact h.1

/-- The chain behind one of its nodes. -/
theorem ChainFrom.drop {t : List α} (h : ChainFrom next p (l ++ a :: t)) : ChainFrom next (next a) t := by
  induction l generalizing p with
  | nil => exact h.2
  | cons b l ih => exact ih h.2

/-- A chain depends on the pointers of its nodes only. -/
theorem ChainFrom.congr (h : ChainFrom next p l) (hl : ∀ a ∈ l, next' a = next a) : ChainFrom next' p l := by
  induction l generalizing p with
  | nil => exact h
  | cons a l ih =>
    refine ⟨h.1, ?_⟩
    rw [hl a mem_cons_self]
    exact ih h.2 fun b hb => hl b (mem_cons_of_mem _ hb)

/-- **A node in front.** -/
theorem ChainFrom.push [DecidableEq α] (h : ChainFrom next p l) (hb : b ∉ l) :
    ChainFrom (update next b p) (some b) (b :: l) := by
  refine ⟨rfl, ?_⟩
  rw [update_self]
  exact h.congr fun a ha => update_of_ne (ne_of_mem_of_not_mem ha hb) _ _

/-- **A node behind the last one.** -/
theorem ChainFrom.snoc [DecidableEq α] (h : ChainFrom next p (l ++ [a])) (ha : a ∉ l) (hb : next b = none)
    (hab : a ≠ b) :
    ChainFrom (update next a (some b)) p (l ++ [a] ++ [b]) := by
  induction l generalizing p with
  | nil =>
    refine ⟨h.1, ?_, ?_⟩
    · rw [update_self]
    · rw [update_of_ne hab.symm]
      exact hb
  | cons c l ih =>
    have hne : c ≠ a := fun he => ha (he ▸ mem_cons_self)
    refine ⟨h.1, ?_⟩
    rw [update_of_ne hne]
    exact ih h.2 fun hmem => ha (mem_cons_of_mem _ hmem)

/-- **Another chain behind the nodes `l`**: the last of them, or the head if there is none, gets the pointer `q`. -/
theorem ChainFrom.retail {q : Option α} {t t' : List α} (h : ChainFrom next p (l ++ t)) (ht : ChainFrom next' q t')
    (hfront : ∀ a ∈ l.dropLast, next' a = next a) (hlast : ∀ a ∈ l.getLast?, next' a = q) :
    ChainFrom next' (if l = [] then q else p) (l ++ t') := by
  induction l generalizing p with
  | nil => exact ht
  | cons a l ih =>
    rw [if_neg (cons_ne_nil a l)]
    refine ⟨h.1, ?_⟩
    cases l with
    | nil =>
      rw [hlast a rfl]
      exact ht
    | cons b l =>
      have hrest := ih h.2 (fun c hc => hfront c (mem_cons_of_mem _ hc)) hlast
      rw [if_neg (cons_ne_nil b l)] at hrest
      rw [hfront a mem_cons_self]
      exact hrest

/-- A chain goes through the node that was behind the nodes `l`, if their pointers are the same. -/
theorem ChainFrom.reach {t l' : List α} (h : ChainFrom next p (l ++ a :: t)) (hl : ∀ b ∈ l, next' b = next b)
    (h' : ChainFrom next' p l') : ∃ t', ChainFrom next' (some a) t' := by
  induction l generalizing p l' with
  | nil =>
    rw [h.1] at h'
    exact ⟨l', h'⟩
  | cons b l ih =>
    cases l' with
    | nil => exact absurd (h.1.symm.trans h') (some_ne_none b)
    | cons d l' =>
      obtain rfl : b = d := some_inj.1 (h.1.symm.trans h'.1)
      have htail := h'.2
      rw [hl b mem_cons_self] at htail
      exact ih h.2 (fun c hc => hl c (mem_cons_of_mem _ hc)) htail

/-- **Two nodes that point to each other** are on no chain, as it would not end. -/
theorem not_chainFrom_cycle (hab : next a = some b) (hba : next b = some a) (l : List α) :
    ¬ ChainFrom next (some a) l := by
  induction hn : l.length using Nat.strongRecOn generalizing l with
  | ind n ih =>
    intro h
    match l, h with
    | [], h => exact some_ne_none a h
    | [c], h =>
      obtain rfl : a = c := some_inj.1 h.1
      exact some_ne_none b (hab.symm.trans h.2)
    | c :: d :: l, h =>
      obtain rfl : a = c := some_inj.1 h.1
      obtain rfl : b = d := some_inj.1 (hab.symm.trans h.2.1)
      have htail := h.2.2
      rw [hba] at htail
      exact ih l.length (by rw [← hn]; simp only [length_cons]; omega) l rfl htail

end Emulator.Lib
