import Mathlib.Tactic

/-!
# Closed lists with links one way

Cells that hold a pointer to the next cell, which may be null. A closed list starts at its head cell
and comes back to it; the head is a cell like the others.

* `findLink_path`: the search for the cell whose pointer passes a test.
* `Loop.unlink`, `Loop.push`: taking a cell out and putting one in behind the head.
* `Loop.frame`: a closed list does not depend on cells that are not in it.
-/

namespace Emulator

open List

variable {α : Type} {next next' : α → Option α}

/-- From the cell `a` on the cells `l` follow, and then `b`. -/
def Path (next : α → Option α) : α → List α → α → Prop
  | a, [], b => next a = some b
  | a, x :: l, b => next a = some x ∧ Path next x l b

/-- The closed list of the head `h` and the cells `l`. -/
structure Loop (next : α → Option α) (h : α) (l : List α) : Prop where
  nodup : (h :: l).Nodup
  path : Path next h l h

/-- `for (p = a; !stop(*p); p = *p);`: the first cell from `a` on whose pointer passes the test. -/
def findLink (next : α → Option α) (stop : α → Bool) : ℕ → α → Option α
  | 0, _ => none
  | fuel + 1, a => do
    let x ← next a
    if stop x then some a else findLink next stop fuel x

theorem Path.congr {a b : α} {l : List α} (h : Path next a l b) (hc : ∀ x ∈ a :: l, next' x = next x) :
    Path next' a l b := by
  induction l generalizing a with
  | nil => exact (hc a mem_cons_self).trans h
  | cons x l ih =>
    exact ⟨(hc a mem_cons_self).trans h.1, ih h.2 fun y hy => hc y (mem_cons_of_mem _ hy)⟩

theorem path_append {a x b : α} {l r : List α} :
    Path next a (l ++ x :: r) b ↔ Path next a l x ∧ Path next x r b := by
  induction l generalizing a with
  | nil => rfl
  | cons y l ih => simp only [cons_append, Path, ih, and_assoc]

theorem Path.last {a b : α} {l : List α} (h : Path next a l b) : next (l.getLastD a) = some b := by
  induction l generalizing a with
  | nil => exact h
  | cons x l ih =>
    rw [getLastD_cons]
    exact ih h.2

/-- The same cells with another end, when the last pointer is changed. -/
theorem Path.retarget {a b b' : α} {l : List α} (h : Path next a l b) (hn : (a :: l).Nodup)
    (hlast : next' (l.getLastD a) = some b') (hc : ∀ x ∈ a :: l, x ≠ l.getLastD a → next' x = next x) :
    Path next' a l b' := by
  induction l generalizing a with
  | nil => exact hlast
  | cons x l ih =>
    have hn' := nodup_cons.1 hn
    rw [getLastD_cons] at hlast hc
    have hmem : l.getLastD x ∈ x :: l := getLastD_mem_cons
    have hne : a ≠ l.getLastD x := fun he => hn'.1 (he ▸ hmem)
    exact ⟨(hc a mem_cons_self hne).trans h.1,
      ih h.2 hn'.2 hlast fun y hy hy' => hc y (mem_cons_of_mem _ hy) hy'⟩

theorem findLink_path {stop : α → Bool} {fuel : ℕ} {a b : α} {l : List α} (h : Path next a l b)
    (hl : ∀ x ∈ l, stop x = false) (hb : stop b = true) (hf : l.length < fuel) :
    findLink next stop fuel a = some (l.getLastD a) := by
  induction l generalizing a fuel with
  | nil =>
    obtain ⟨n, rfl⟩ := Nat.exists_eq_succ_of_ne_zero (show fuel ≠ 0 by omega)
    rw [findLink, show next a = some b from h]
    simp [hb]
  | cons x l ih =>
    obtain ⟨n, rfl⟩ := Nat.exists_eq_succ_of_ne_zero (show fuel ≠ 0 by omega)
    rw [findLink, h.1, getLastD_cons]
    simp only [Option.bind_eq_bind, Option.bind_some, hl x mem_cons_self, Bool.false_eq_true, if_false]
    exact ih h.2 (fun y hy => hl y (mem_cons_of_mem _ hy)) (by simpa using hf)

namespace Loop

variable {h e : α} {l r : List α}

theorem frame (hl : Loop next h l) (hc : ∀ x ∈ h :: l, next' x = next x) : Loop next' h l :=
  ⟨hl.nodup, hl.path.congr hc⟩

/-- The same closed list from one of its cells on. -/
theorem from_cell (hl : Loop next h (l ++ e :: r)) : Path next e (r ++ h :: l) e := by
  obtain ⟨hle, her⟩ := path_append.1 hl.path
  exact path_append.2 ⟨her, hle⟩

/-- The cells determine each other: following the links from the head there is one closed list. -/
theorem unique {l' : List α} (hl : Loop next h l) (hl' : Loop next h l') : l = l' := by
  have key : ∀ (l l' : List α) (a : α), Path next a l h → Path next a l' h → h ∉ l → h ∉ l' → l = l' := by
    intro l
    induction l with
    | nil =>
      intro l' a hp hp' _ hn'
      cases l' with
      | nil => rfl
      | cons y l' => exact absurd (by simp [Option.some.inj (hp.symm.trans hp'.1)]) hn'
    | cons x l ih =>
      intro l' a hp hp' hn hn'
      cases l' with
      | nil => exact absurd (by simp [Option.some.inj (hp.1.symm.trans hp')]) hn
      | cons y l' =>
        obtain rfl : x = y := Option.some.inj (hp.1.symm.trans hp'.1)
        rw [ih l' x hp.2 hp'.2 (fun hm => hn (by simp [hm])) (fun hm => hn' (by simp [hm]))]
  exact key l l' h hl.path hl'.path (nodup_cons.1 hl.nodup).1 (nodup_cons.1 hl'.nodup).1

/-- **Taking a cell out.** The cell in front of `e` gets the pointer of `e`. -/
theorem unlink (hl : Loop next h (l ++ e :: r)) (hprev : next' (l.getLastD h) = next e)
    (hc : ∀ x ∈ h :: (l ++ r), x ≠ l.getLastD h → next' x = next x) : Loop next' h (l ++ r) := by
  have hnd : (h :: (l ++ r)).Nodup := by
    refine hl.nodup.sublist (List.Sublist.cons_cons h ?_)
    exact (sublist_cons_self e r).append_left l
  refine ⟨hnd, ?_⟩
  obtain ⟨hle, her⟩ := path_append.1 hl.path
  have hfront : (h :: l).Nodup := by
    rw [← cons_append] at hnd
    exact hnd.of_append_left
  cases r with
  | nil =>
    rw [append_nil] at hc ⊢
    exact hle.retarget hfront (hprev.trans her) hc
  | cons y r =>
    refine path_append.2 ⟨hle.retarget hfront (hprev.trans her.1) ?_, her.2.congr ?_⟩
    · intro x hx
      refine hc x ?_
      rw [← cons_append]
      exact mem_append_left _ hx
    · intro x hx
      refine hc x (mem_cons_of_mem _ (mem_append_right _ hx)) fun he => ?_
      have hmem : x ∈ h :: l := he ▸ getLastD_mem_cons
      rw [← cons_append] at hnd
      exact disjoint_of_nodup_append hnd hmem hx

/-- **Putting a cell in** behind the head. -/
theorem push (hl : Loop next h l) (he : e ∉ h :: l) (hhead : next' h = some e) (hnew : next' e = next h)
    (hc : ∀ x ∈ l, next' x = next x) : Loop next' h (e :: l) := by
  refine ⟨?_, hhead, ?_⟩
  · exact ((List.Perm.swap h e l).nodup_iff).1 (nodup_cons.2 ⟨he, hl.nodup⟩)
  · cases l with
    | nil => exact hnew.trans hl.path
    | cons x l => exact ⟨hnew.trans hl.path.1, hl.path.2.congr hc⟩

end Loop

end Emulator
