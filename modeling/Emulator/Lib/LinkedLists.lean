import Emulator.Lib.Linked

/-!
# Several linked lists that share no node

The heads and the nodes are cells of one memory; `here i` says that the head `i` is there.

* `LinkedLists.unlink`, `LinkedLists.push`: one of the lists loses or gets a node, the others stay.
-/

namespace Emulator

open Function

variable {ι α : Type} {read read' : ι ⊕ α → Option (Option α)} {here : ι → Prop} {lists : ι → List α}

structure LinkedLists (read : ι ⊕ α → Option (Option α)) (here : ι → Prop) (lists : ι → List α) : Prop where
  linked : ∀ i, here i → Linked read .inr (.inl i) (lists i)
  nodup : ∀ i, (lists i).Nodup
  disjoint : ∀ i j, i ≠ j → List.Disjoint (lists i) (lists j)

namespace LinkedLists

/-- The cell behind the nodes `l` of a list is its head or one of them. -/
theorem prev_cases (i : ι) (l : List α) :
    endLink Sum.inr (Sum.inl i : ι ⊕ α) l = Sum.inl i ∨ ∃ a ∈ l, endLink Sum.inr (Sum.inl i : ι ⊕ α) l = Sum.inr a :=
  endLink_mem _ _

variable {i : ι} {c : α} {l r : List α}

theorem read_head (h : LinkedLists read here lists) (hi : here i) : read (.inl i) = some (lists i).head? := by
  have hlinked := h.linked i hi
  cases hl : lists i with
  | nil =>
    rw [hl] at hlinked
    exact hlinked
  | cons c l =>
    rw [hl] at hlinked
    exact hlinked.1

/-- The cell in front of `c` points to it. -/
theorem read_prev (h : LinkedLists read here lists) (hi : here i) (hl : lists i = l ++ c :: r) :
    read (endLink .inr (.inl i) l) = some (some c) := by
  have hlinked := h.linked i hi
  rw [hl] at hlinked
  exact hlinked.drop.1

/-- The pointer of a node is the one to the rest. -/
theorem read_node (h : LinkedLists read here lists) (hi : here i) (hl : lists i = l ++ c :: r) :
    read (.inr c) = some r.head? := by
  have hlinked := h.linked i hi
  rw [hl] at hlinked
  have hrest := hlinked.drop.2
  cases r with
  | nil => exact hrest
  | cons d r => exact hrest.1

/-- The node that is found first is the first one that passes the test. -/
theorem walk_found (h : LinkedLists read here lists) (hi : here i) (hl : lists i = l ++ c :: r)
    {test : α → Bool} {fuel : ℕ}
    (hfuel : (lists i).length < fuel) (hfirst : ∀ a ∈ l, test a = false) (hc : test c = true) :
    walk read .inr (fun a => some (test a)) fuel (.inl i) = some (some (endLink .inr (.inl i) l, c)) := by
  have hlinked := h.linked i hi
  rw [hl] at hlinked hfuel
  exact Emulator.walk_found hlinked hfuel (fun a ha => congrArg some (hfirst a ha)) (congrArg some hc)

/-- A walk that passes no test ends at the null pointer. -/
theorem walk_end (h : LinkedLists read here lists) (hi : here i) {test : α → Bool} {fuel : ℕ}
    (hfuel : (lists i).length < fuel) (htest : ∀ a ∈ lists i, test a = false) :
    walk read .inr (fun a => some (test a)) fuel (.inl i) = some none :=
  Emulator.walk_end (h.linked i hi) hfuel fun a ha => congrArg some (htest a ha)

/-- More heads, without nodes. -/
theorem grow {here' : ι → Prop} (h : LinkedLists read here lists) (hnode : ∀ x, read' (.inr x) = read (.inr x))
    (hold : ∀ i, here i → read' (.inl i) = read (.inl i))
    (hnew : ∀ i, here' i → ¬ here i → read' (.inl i) = some none ∧ lists i = []) : LinkedLists read' here' lists := by
  refine ⟨fun i hi => ?_, h.nodup, h.disjoint⟩
  by_cases hi' : here i
  · exact (h.linked i hi').congr (hold i hi') fun x _ => hnode x
  · obtain ⟨hread, hnil⟩ := hnew i hi hi'
    rw [hnil]
    exact hread

variable [DecidableEq ι] [DecidableEq α]

theorem unlink (h : LinkedLists read here lists) (hi : here i) (hl : lists i = l ++ c :: r)
    (hread' : read' = update read (endLink .inr (.inl i) l) (read (.inr c))) :
    LinkedLists read' here (update lists i (l ++ r)) := by
  have hnd := h.nodup i
  rw [hl] at hnd
  have hsub : List.Sublist (l ++ r) (lists i) := by
    rw [hl]
    exact (List.sublist_cons_self c r).append_left l
  have hmem : ∀ j, ∀ x ∈ update lists i (l ++ r) j, x ∈ lists j := by
    intro j x hx
    by_cases hj : j = i
    · subst hj
      rw [update_self] at hx
      exact hsub.subset hx
    · rwa [update_of_ne hj] at hx
  refine ⟨fun j hj => ?_, fun j => ?_, fun j k hjk x hxj hxk => h.disjoint j k hjk (hmem j x hxj) (hmem k x hxk)⟩
  · by_cases hji : j = i
    · subst hji
      have hlinked := h.linked j hj
      rw [hl] at hlinked
      rw [update_self]
      refine hlinked.unlink Sum.inr_injective hnd (fun a _ => by simp) ?_ fun x hx _ => ?_
      · rw [hread', update_self]
      · rw [hread', update_of_ne hx]
    · rw [update_of_ne hji]
      refine (h.linked j hj).congr ?_ fun x hx => ?_
      · rw [hread', update_of_ne]
        intro he
        rcases prev_cases i l with hend | ⟨a, -, hend⟩
        · exact hji (Sum.inl.inj (he.trans hend))
        · cases he.trans hend
      · rw [hread', update_of_ne]
        intro he
        rcases prev_cases i l with hend | ⟨a, ha, hend⟩
        · cases he.trans hend
        · refine h.disjoint j i hji hx ?_
          rw [Sum.inr.inj (he.trans hend), hl]
          exact List.mem_append_left _ ha
  · by_cases hji : j = i
    · subst hji
      rw [update_self]
      exact (h.nodup j).sublist hsub
    · rw [update_of_ne hji]
      exact h.nodup j

theorem push (h : LinkedLists read here lists) (hc : ∀ j, c ∉ lists j)
    (hread' : read' = update (update read (.inr c) (read (.inl i))) (.inl i) (some (some c))) :
    LinkedLists read' here (update lists i (c :: lists i)) := by
  have hmem : ∀ j, ∀ x ∈ update lists i (c :: lists i) j, x ∈ lists j ∨ x = c ∧ j = i := by
    intro j x hx
    by_cases hj : j = i
    · subst hj
      rw [update_self, List.mem_cons] at hx
      exact hx.symm.imp_right fun hx => ⟨hx, rfl⟩
    · rw [update_of_ne hj] at hx
      exact .inl hx
  have hnode : ∀ j, ∀ x ∈ lists j, read' (.inr x) = read (.inr x) := by
    intro j x hx
    rw [hread', update_of_ne (by simp), update_of_ne]
    intro he
    exact hc j (Sum.inr.inj he ▸ hx)
  refine ⟨fun j hj => ?_, fun j => ?_, fun j k hjk x hxj hxk => ?_⟩
  · by_cases hji : j = i
    · subst hji
      rw [update_self]
      refine ⟨by rw [hread', update_self], (h.linked j hj).move ?_ fun x hx => hnode j x hx⟩
      rw [hread', update_of_ne (by simp), update_self]
    · rw [update_of_ne hji]
      refine (h.linked j hj).congr ?_ fun x hx => hnode j x hx
      rw [hread', update_of_ne (fun he => hji (Sum.inl.inj he)), update_of_ne (by simp)]
  · by_cases hji : j = i
    · subst hji
      rw [update_self]
      exact List.nodup_cons.2 ⟨hc j, h.nodup j⟩
    · rw [update_of_ne hji]
      exact h.nodup j
  · rcases hmem j x hxj with hj | ⟨rfl, rfl⟩
    · rcases hmem k x hxk with hk | ⟨rfl, rfl⟩
      · exact h.disjoint j k hjk hj hk
      · exact hc j hj
    · rcases hmem k x hxk with hk | ⟨-, rfl⟩
      · exact hc k hk
      · exact hjk rfl

end LinkedLists

end Emulator
