import Mathlib.Tactic

/-!
# Linked lists through the cells that hold their pointers

A singly linked list is followed through *links*: the cells that hold a pointer to
a node, which are the head of the list and one field of every node. `read k` is
the pointer in the cell `k` (`none` where `k` is not a cell of a live object) and
`succ a` is the cell of the node `a` that holds the pointer to the next node.

* `Linked.unlink`, `Back.unlink`: what stays linked when one node is taken out;
* `walk_found`, `walk_end`: what a walk along the list finds.
-/

namespace Emulator

open List

variable {α L : Type} {read read' : L → Option (Option α)} {back back' : α → Option L} {succ : α → L}

/-- From the cell `k` on the list is `l`, to its end. -/
def Linked (read : L → Option (Option α)) (succ : α → L) : L → List α → Prop
  | k, [] => read k = some none
  | k, a :: l => read k = some (some a) ∧ Linked read succ (succ a) l

/-- Every node of `l` has a back pointer to the cell that points to it. -/
def Back (back : α → Option L) (succ : α → L) : L → List α → Prop
  | _, [] => True
  | k, a :: l => back a = some k ∧ Back back succ (succ a) l

/-- The cell after the nodes `l`, from the cell `k` on. -/
def endLink (succ : α → L) (k : L) (l : List α) : L := l.foldl (fun _ a => succ a) k

/-- `for (p = &head; *p; p = &(*p)->next) if (test) break;`: the cell and the node
where the test is first true. -/
def walk (read : L → Option (Option α)) (succ : α → L) (test : α → Option Bool) :
    ℕ → L → Option (Option (L × α))
  | 0, _ => none
  | fuel + 1, k => do
    match ← read k with
    | none => some none
    | some a => if ← test a then some (some (k, a)) else walk read succ test fuel (succ a)

theorem endLink_cons (k : L) (a : α) (l : List α) : endLink succ k (a :: l) = endLink succ (succ a) l := rfl

theorem endLink_mem (k : L) (l : List α) : endLink succ k l = k ∨ ∃ a ∈ l, endLink succ k l = succ a := by
  induction l generalizing k with
  | nil => exact Or.inl rfl
  | cons a l ih =>
    rw [endLink_cons]
    rcases ih (succ a) with h | ⟨b, hb, h⟩
    · exact Or.inr ⟨a, mem_cons_self, h⟩
    · exact Or.inr ⟨b, mem_cons_of_mem _ hb, h⟩

variable {k : L} {l : List α}

/-- A list depends on the cells it goes through only. -/
theorem Linked.congr (h : Linked read succ k l) (hk : read' k = read k)
    (hl : ∀ a ∈ l, read' (succ a) = read (succ a)) : Linked read' succ k l := by
  induction l generalizing k with
  | nil => exact hk.trans h
  | cons a l ih =>
    exact ⟨hk.trans h.1, ih h.2 (hl a mem_cons_self) fun b hb => hl b (mem_cons_of_mem _ hb)⟩

/-- The same list from another cell, which holds the same pointer. -/
theorem Linked.move {k k' : L} (h : Linked read succ k l) (hk : read' k' = read k)
    (hl : ∀ a ∈ l, read' (succ a) = read (succ a)) : Linked read' succ k' l := by
  cases l with
  | nil => exact hk.trans h
  | cons a l =>
    exact ⟨hk.trans h.1, h.2.congr (hl a mem_cons_self) fun b hb => hl b (mem_cons_of_mem _ hb)⟩

theorem Back.congr (h : Back back succ k l) (hl : ∀ a ∈ l, back' a = back a) :
    Back back' succ k l := by
  induction l generalizing k with
  | nil => trivial
  | cons a l ih =>
    exact ⟨(hl a mem_cons_self).trans h.1, ih h.2 fun b hb => hl b (mem_cons_of_mem _ hb)⟩

variable {l₁ l₂ : List α}

theorem Linked.drop (h : Linked read succ k (l₁ ++ l₂)) :
    Linked read succ (endLink succ k l₁) l₂ := by
  induction l₁ generalizing k with
  | nil => exact h
  | cons a l₁ ih => exact ih h.2

theorem Back.drop (h : Back back succ k (l₁ ++ l₂)) :
    Back back succ (endLink succ k l₁) l₂ := by
  induction l₁ generalizing k with
  | nil => exact h
  | cons a l₁ ih => exact ih h.2

/-- The cells a list goes through can be read. -/
theorem Linked.read_mem (h : Linked read succ k l) {a : α} (ha : a ∈ l) :
    ∃ n, read (succ a) = some n := by
  obtain ⟨l₁, l₂, rfl⟩ := append_of_mem ha
  have h2 := h.drop.2
  cases l₂ with
  | nil => exact ⟨none, h2⟩
  | cons b l₂ => exact ⟨some b, h2.1⟩

/-- **Taking a node out.** When the cell that points to `c` gets the pointer to the
node after `c`, and no other cell but the one of `c` changes, the list is the old
one without `c`. -/
theorem Linked.unlink {c : α} (hs : Function.Injective succ)
    (h : Linked read succ k (l₁ ++ c :: l₂)) (hn : (l₁ ++ c :: l₂).Nodup)
    (hk : ∀ a ∈ l₁ ++ c :: l₂, k ≠ succ a) (hc : read' (endLink succ k l₁) = read (succ c))
    (hr : ∀ x, x ≠ endLink succ k l₁ → x ≠ succ c → read' x = read x) :
    Linked read' succ k (l₁ ++ l₂) := by
  induction l₁ generalizing k with
  | nil =>
    have hframe : ∀ a ∈ l₂, read' (succ a) = read (succ a) := by
      intro a ha
      refine hr _ (fun he => hk a (mem_cons_of_mem _ ha) he.symm) fun he => ?_
      obtain rfl := hs he
      exact (nodup_cons.1 hn).1 ha
    have h2 := h.2
    cases l₂ with
    | nil => exact hc.trans h2
    | cons d l₃ =>
      exact ⟨hc.trans h2.1, h2.2.congr (hframe d mem_cons_self)
        fun a ha => hframe a (mem_cons_of_mem _ ha)⟩
  | cons a l₁ ih =>
    have hn' := nodup_cons.1 hn
    refine ⟨?_, ih h.2 hn'.2 ?_ hc hr⟩
    · rw [hr k ?_ (hk c (by simp))]
      · exact h.1
      · rw [endLink_cons]
        rcases (endLink_mem (succ a) l₁ : endLink succ (succ a) l₁ = succ a ∨ _) with he | ⟨b, hb, he⟩
        · rw [he]; exact hk a (by simp)
        · rw [he]; exact hk b (by simp [hb])
    · intro b hb he
      rw [hs he] at hn'
      exact hn'.1 hb

/-- The back pointers after a node has been taken out: the node after it, if any,
takes over its back pointer. -/
theorem Back.unlink {c : α} (h : Back back succ k (l₁ ++ c :: l₂))
    (hn : (l₁ ++ c :: l₂).Nodup) (hd : ∀ d ∈ l₂.head?, back' d = back c)
    (hr : ∀ a, a ∉ l₂.head? → a ≠ c → back' a = back a) : Back back' succ k (l₁ ++ l₂) := by
  induction l₁ generalizing k with
  | nil =>
    cases l₂ with
    | nil => trivial
    | cons d l₃ =>
      have hn₁ := nodup_cons.1 hn
      have hn₂ := nodup_cons.1 hn₁.2
      refine ⟨(hd d rfl).trans h.1, h.2.2.congr fun a ha => hr a ?_ ?_⟩
      · rintro he
        obtain rfl : d = a := by simpa using he
        exact hn₂.1 ha
      · rintro rfl
        exact hn₁.1 (mem_cons_of_mem _ ha)
  | cons a l₁ ih =>
    have hn' := nodup_cons.1 hn
    refine ⟨?_, ih h.2 hn'.2⟩
    rw [hr a ?_ ?_]
    · exact h.1
    · intro ha
      exact hn'.1 (by simp [mem_of_mem_head? ha])
    · rintro rfl
      exact hn'.1 (by simp)

variable {test : α → Option Bool}

/-- A walk goes on behind a node that fails the test. -/
theorem walk_next {fuel : ℕ} {a : α} (ha : read k = some (some a))
    (ht : test a = some false) : walk read succ test (fuel + 1) k = walk read succ test fuel (succ a) := by
  rw [walk, ha]
  simp only [Option.bind_eq_bind, Option.bind_some, ht, Bool.false_eq_true, if_false]

/-- A walk that finds nothing has seen the whole list. -/
theorem walk_end {fuel : ℕ} (h : Linked read succ k l)
    (hf : l.length < fuel) (ht : ∀ a ∈ l, test a = some false) :
    walk read succ test fuel k = some none := by
  induction l generalizing k fuel with
  | nil =>
    obtain ⟨n, rfl⟩ := Nat.exists_eq_succ_of_ne_zero (show fuel ≠ 0 by omega)
    rw [walk, show read k = some none from h]
    rfl
  | cons a l ih =>
    obtain ⟨n, rfl⟩ := Nat.exists_eq_succ_of_ne_zero (show fuel ≠ 0 by omega)
    rw [walk_next h.1 (ht a mem_cons_self)]
    exact ih h.2 (by simpa using hf) fun b hb => ht b (mem_cons_of_mem _ hb)

/-- A walk stops at the first node that passes the test. -/
theorem walk_found {fuel : ℕ} {c : α}
    (h : Linked read succ k (l₁ ++ c :: l₂)) (hf : (l₁ ++ c :: l₂).length < fuel)
    (ht : ∀ a ∈ l₁, test a = some false) (hc : test c = some true) :
    walk read succ test fuel k = some (some (endLink succ k l₁, c)) := by
  induction l₁ generalizing k fuel with
  | nil =>
    obtain ⟨n, rfl⟩ := Nat.exists_eq_succ_of_ne_zero (show fuel ≠ 0 by omega)
    rw [walk, h.1]
    simp only [Option.bind_eq_bind, Option.bind_some, hc, if_true]
    rfl
  | cons a l ih =>
    obtain ⟨n, rfl⟩ := Nat.exists_eq_succ_of_ne_zero (show fuel ≠ 0 by omega)
    rw [walk_next h.1 (ht a mem_cons_self)]
    exact ih h.2 (by simpa using hf) fun b hb => ht b (mem_cons_of_mem _ hb)

end Emulator
