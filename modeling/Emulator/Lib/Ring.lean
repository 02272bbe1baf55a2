import Mathlib.Tactic

/-!
# Doubly linked rings

Nodes that are linked forwards and backwards by two fields, `next` and `prev`, which may be null.
A ring starts and ends at its head; the head is a node like the others.

* `Ring.insque`, `Ring.unlink`, `Ring.remque`: putting a node into a ring and taking one out.
* `Ring.frame`: a ring does not depend on nodes that are not in it.
* `Ring.rotate`: a ring seen from its second node.
* `Rings.insque`, `Rings.remque`: the same for several rings that share the link fields.
-/

namespace Emulator

open Function List

/-- The two link fields of all nodes. -/
structure Links (α : Type) where
  next : α → Option α
  prev : α → Option α

namespace Links

variable {α : Type} (k : Links α)

section Operations

variable [DecidableEq α]

/-- `insque (e, h)`: `e` comes behind `h`. `none` if a null pointer is followed. -/
def insque (e h : α) : Option (Links α) := do
  let k : Links α := { k with next := update k.next e (k.next h) }
  let k : Links α := { k with next := update k.next h (some e) }
  let k : Links α := { k with prev := update k.prev e (some h) }
  let n ← k.next e
  return { k with prev := update k.prev n (some e) }

/-- `e` is taken out; its own links stay as they are. -/
def unlink (e : α) : Option (Links α) := do
  let n ← k.next e
  let k : Links α := { k with prev := update k.prev n (k.prev e) }
  let p ← k.prev e
  return { k with next := update k.next p (k.next e) }

/-- `remque (e)`: `e` is taken out and its link backwards is null. -/
def remque (e : α) : Option (Links α) := do
  let k ← k.unlink e
  return { k with prev := update k.prev e none }

end Operations

/-- `b` follows `a`. -/
def Link (a b : α) : Prop := k.next a = some b ∧ k.prev b = some a

/-- From `a` the nodes `l` follow. -/
def Front : α → List α → Prop
  | _, [] => True
  | a, x :: l => k.Link a x ∧ Front x l

/-- The nodes `l` follow one another, and then `b`. -/
def Rear : List α → α → Prop
  | [], _ => True
  | x :: l, b => k.Link x (l.headD b) ∧ Rear l b

/-- From `a` the nodes `l` follow, and then `b`. -/
def Seg (a : α) (l : List α) (b : α) : Prop := k.Link a (l.headD b) ∧ k.Rear l b

/-- A ring of the head `h` and the nodes `l`. -/
structure Ring (h : α) (l : List α) : Prop where
  nodup : (h :: l).Nodup
  seg : k.Seg h l h

variable {k}

theorem seg_append {a b : α} {l r : List α} :
    k.Seg a (l ++ r) b ↔ k.Front a l ∧ k.Link (l.getLastD a) (r.headD b) ∧ k.Rear r b := by
  induction l generalizing a with
  | nil => simp [Seg, Front]
  | cons x l ih =>
    have hx : k.Seg a (x :: l ++ r) b ↔ k.Link a x ∧ k.Seg x (l ++ r) b := Iff.rfl
    rw [hx, ih, ← and_assoc, getLastD_cons]
    rfl

theorem Front.congr {k' : Links α} {a : α} {l : List α} (h : k.Front a l)
    (hc : ∀ x ∈ a :: l, ∀ y ∈ l, k.Link x y → k'.Link x y) : k'.Front a l := by
  induction l generalizing a with
  | nil => trivial
  | cons x l ih =>
    refine ⟨hc a mem_cons_self x mem_cons_self h.1, ih h.2 fun u hu v hv => ?_⟩
    exact hc u (mem_cons_of_mem _ hu) v (mem_cons_of_mem _ hv)

theorem headD_mem (l : List α) (b : α) : l.headD b ∈ l ++ [b] := by
  cases l <;> simp

theorem getLastD_mem (l : List α) (a : α) : l.getLastD a ∈ a :: l := by
  rcases eq_nil_or_concat l with rfl | ⟨l, z, rfl⟩
  · simp
  · simp [concat_eq_append]

theorem Rear.congr {k' : Links α} {b : α} {l : List α} (h : k.Rear l b)
    (hc : ∀ x ∈ l, ∀ y ∈ l ++ [b], k.Link x y → k'.Link x y) : k'.Rear l b := by
  induction l with
  | nil => trivial
  | cons x l ih =>
    refine ⟨hc x mem_cons_self _ ?_ h.1, ih h.2 fun u hu v hv => ?_⟩
    · exact mem_cons_of_mem _ (headD_mem l b)
    · exact hc u (mem_cons_of_mem _ hu) v (mem_cons_of_mem _ hv)

theorem mem_ring {h y : α} {l : List α} (hy : y ∈ l ++ [h]) : y ∈ h :: l := by
  rw [mem_append, mem_singleton] at hy
  exact mem_cons.2 hy.symm

theorem perm_ring {h e : α} {l r : List α} : (h :: (l ++ e :: r)).Perm (e :: h :: (l ++ r)) := by
  rw [← cons_append, ← cons_append]
  exact perm_middle

/-- A ring does not depend on the nodes that are not in it. -/
theorem Ring.frame {k' : Links α} {h : α} {l : List α} (hr : k.Ring h l)
    (hf : ∀ y ∈ h :: l, k'.next y = k.next y ∧ k'.prev y = k.prev y) : k'.Ring h l := by
  have hlink : ∀ x ∈ h :: l, ∀ y ∈ h :: l, k.Link x y → k'.Link x y := by
    intro x hx y hy hl
    exact ⟨(hf x hx).1.trans hl.1, (hf y hy).2.trans hl.2⟩
  refine ⟨hr.nodup, hlink h mem_cons_self _ (mem_ring (headD_mem l h)) hr.seg.1,
    hr.seg.2.congr fun x hx y hy => ?_⟩
  exact hlink x (mem_cons_of_mem _ hx) y (mem_ring hy)

theorem Seg.unique {a h : α} {l l' : List α} (hl : k.Seg a l h) (hl' : k.Seg a l' h) (hn : h ∉ l) (hn' : h ∉ l') :
    l = l' := by
  induction l generalizing a l' with
  | nil =>
    cases l' with
    | nil => rfl
    | cons y l' =>
      have hy : h = y := Option.some.inj (hl.1.1.symm.trans hl'.1.1)
      exact absurd (by simp [hy]) hn'
  | cons x l ih =>
    cases l' with
    | nil =>
      have hx : x = h := Option.some.inj (hl.1.1.symm.trans hl'.1.1)
      exact absurd (by simp [hx]) hn
    | cons y l' =>
      obtain rfl : x = y := Option.some.inj (hl.1.1.symm.trans hl'.1.1)
      rw [ih hl.2 hl'.2 (fun h' => hn (by simp [h'])) (fun h' => hn' (by simp [h']))]

/-- The links determine the nodes of a ring. -/
theorem Ring.unique {h : α} {l l' : List α} (hl : k.Ring h l) (hl' : k.Ring h l') : l = l' :=
  hl.seg.unique hl'.seg (nodup_cons.mp hl.nodup).1 (nodup_cons.mp hl'.nodup).1

theorem Ring.next_head {h : α} {l : List α} (hr : k.Ring h l) : k.next h = some (l.headD h) := hr.seg.1.1

theorem Ring.prev_head {h : α} {l : List α} (hr : k.Ring h l) : k.prev h = some (l.getLastD h) := by
  have hs := hr.seg
  rw [← append_nil l, seg_append] at hs
  exact hs.2.1.2

theorem Ring.link {h x : α} {l r : List α} (hr : k.Ring h (l ++ x :: r)) :
    k.Link (l.getLastD h) x ∧ k.Link x (r.headD h) := by
  obtain ⟨-, hl, hx, -⟩ := seg_append.1 hr.seg
  exact ⟨hl, hx⟩

/-- The same ring from its second node on. -/
theorem Ring.rotate {h x : α} {l : List α} (hr : k.Ring h (x :: l)) : k.Ring x (l ++ [h]) := by
  refine ⟨?_, ?_⟩
  · rw [← cons_append]
    exact (perm_append_singleton h (x :: l)).nodup_iff.2 hr.nodup
  · obtain ⟨hx, hseg⟩ := hr.seg
    have hseg' : k.Seg x (l ++ []) h := by
      rw [append_nil]
      exact hseg
    obtain ⟨hf, hl, -⟩ := seg_append.1 hseg'
    exact seg_append.2 ⟨hf, hl, hx, trivial⟩

variable [DecidableEq α]

/-- `e` is put behind the nodes `l`. -/
theorem Ring.insque {h e p : α} {l r : List α} (hr : k.Ring h (l ++ r)) (he : e ∉ h :: (l ++ r))
    (hp : p = l.getLastD h) :
    ∃ k', k.insque e p = some k' ∧ k'.Ring h (l ++ e :: r) ∧
      ∀ y ∉ e :: h :: (l ++ r), k'.next y = k.next y ∧ k'.prev y = k.prev y := by
  obtain ⟨hfront, hlink, hrear⟩ := seg_append.1 hr.seg
  obtain ⟨n, hn⟩ : ∃ n, n = r.headD h := ⟨_, rfl⟩
  rw [← hp, ← hn] at hlink
  have hpl : p ∈ h :: l := hp ▸ getLastD_mem l h
  have hnr : n ∈ r ++ [h] := hn ▸ headD_mem r h
  have hpmem : p ∈ h :: (l ++ r) := by
    rw [← cons_append]
    exact mem_append_left _ hpl
  have hnmem : n ∈ h :: (l ++ r) := by
    rw [mem_append, mem_singleton] at hnr
    rcases hnr with hnr | rfl
    · exact mem_cons_of_mem _ (mem_append_right _ hnr)
    · exact mem_cons_self
  have hep : e ≠ p := fun heq => he (heq ▸ hpmem)
  have hen : e ≠ n := fun heq => he (heq ▸ hnmem)
  obtain ⟨k', hk', hnext, hprev⟩ : ∃ k', k.insque e p = some k' ∧
      k'.next = update (update k.next e (some n)) p (some e) ∧
      k'.prev = update (update k.prev e (some p)) n (some e) := by
    refine ⟨⟨update (update k.next e (some n)) p (some e),
      update (update k.prev e (some p)) n (some e)⟩, ?_, rfl, rfl⟩
    unfold Links.insque
    simp [update_of_ne hep, hlink.1]
  refine ⟨k', hk', ⟨?_, ?_⟩, ?_⟩
  · exact perm_ring.nodup_iff.2 (nodup_cons.2 ⟨he, hr.nodup⟩)
  · -- the links inside of both parts are the old ones
    have hlr : ∀ x ∈ l, x ∉ r ++ [h] := by
      intro x hx hxr
      have hnd := hr.nodup
      rw [← cons_append] at hnd
      rw [mem_append, mem_singleton] at hxr
      rcases hxr with hxr | rfl
      · exact disjoint_of_nodup_append hnd (mem_cons_of_mem _ hx) hxr
      · exact (nodup_cons.1 hnd).1 (mem_append_left _ hx)
    have hrl : ∀ x ∈ r, x ∉ h :: l := by
      intro x hx hxl
      have hnd := hr.nodup
      rw [← cons_append] at hnd
      exact disjoint_of_nodup_append hnd hxl hx
    have hold : ∀ x y, x ≠ e → y ≠ e → x ≠ p → y ≠ n → k.Link x y → k'.Link x y := by
      intro x y hx hy hxp hyn hl
      refine ⟨?_, ?_⟩
      · rw [hnext, update_of_ne hxp, update_of_ne hx]
        exact hl.1
      · rw [hprev, update_of_ne hyn, update_of_ne hy]
        exact hl.2
    have hne : ∀ x ∈ h :: (l ++ r), x ≠ e := fun x hx heq => he (heq ▸ hx)
    refine seg_append.2 ⟨hfront.congr fun x hx y hy hl => ?_, ⟨?_, ?_⟩, ⟨?_, ?_⟩, hrear.congr fun x hx y hy hl => ?_⟩
    · have hyn : y ≠ n := fun heq => hlr y hy (heq ▸ hnr)
      refine hold x y (hne x ?_) (hne y (mem_cons_of_mem _ (mem_append_left _ hy))) (fun heq => ?_) hyn hl
      · rw [← cons_append]
        exact mem_append_left _ hx
      · rw [heq] at hl
        exact hyn (Option.some.inj (hl.1.symm.trans hlink.1))
    · rw [← hp, hnext, update_self]
      rfl
    · rw [← hp, headD_cons, hprev, update_of_ne hen, update_self]
    · rw [hnext, update_of_ne hep, update_self, hn]
    · rw [hprev, ← hn, update_self]
    · have hxp : x ≠ p := fun heq => hrl x hx (heq ▸ hpl)
      refine hold x y (hne x (mem_cons_of_mem _ (mem_append_right _ hx))) (hne y ?_) hxp (fun heq => ?_) hl
      · have := mem_ring hy
        rcases mem_cons.1 this with rfl | hy
        · exact mem_cons_self
        · exact mem_cons_of_mem _ (mem_append_right _ hy)
      · rw [heq] at hl
        exact hxp (Option.some.inj (hl.2.symm.trans hlink.2))
  · intro y hy
    rw [mem_cons, not_or] at hy
    have hyp : y ≠ p := fun heq => hy.2 (heq ▸ hpmem)
    have hyn : y ≠ n := fun heq => hy.2 (heq ▸ hnmem)
    refine ⟨?_, ?_⟩
    · rw [hnext, update_of_ne hyp, update_of_ne hy.1]
    · rw [hprev, update_of_ne hyn, update_of_ne hy.1]

/-- `e` is taken out; its own links stay. -/
theorem Ring.unlink {h e : α} {l r : List α} (hr : k.Ring h (l ++ e :: r)) :
    ∃ k', k.unlink e = some k' ∧ k'.Ring h (l ++ r) ∧ k'.next e = k.next e ∧ k'.prev e = k.prev e ∧
      ∀ y ∉ h :: (l ++ e :: r), k'.next y = k.next y ∧ k'.prev y = k.prev y := by
  obtain ⟨hfront, hpe, hen, hrear⟩ := seg_append.1 hr.seg
  obtain ⟨p, hp⟩ : ∃ p, p = l.getLastD h := ⟨_, rfl⟩
  obtain ⟨n, hn⟩ : ∃ n, n = r.headD h := ⟨_, rfl⟩
  rw [← hp] at hpe
  rw [← hn] at hen
  obtain ⟨he, hnd⟩ := nodup_cons.1 (perm_ring.nodup_iff.1 hr.nodup)
  have hpmem : p ∈ h :: (l ++ r) := by
    rw [← cons_append]
    exact mem_append_left _ (hp ▸ getLastD_mem l h)
  have hnmem : n ∈ h :: (l ++ r) := by
    rcases mem_cons.1 (mem_ring (hn ▸ headD_mem r h)) with heq | hnr
    · rw [heq]
      exact mem_cons_self
    · exact mem_cons_of_mem _ (mem_append_right _ hnr)
  have hep : e ≠ p := fun heq => he (heq ▸ hpmem)
  have hne : e ≠ n := fun heq => he (heq ▸ hnmem)
  obtain ⟨k', hk', hnext, hprev⟩ : ∃ k', k.unlink e = some k' ∧ k'.next = update k.next p (some n) ∧
      k'.prev = update k.prev n (some p) := by
    refine ⟨⟨update k.next p (some n), update k.prev n (some p)⟩, ?_, rfl, rfl⟩
    have hprev : k.prev e = some p := hpe.2
    unfold Links.unlink
    simp [hen.1, update_of_ne hne, hprev]
  refine ⟨k', hk', ⟨hnd, ?_⟩, ?_, ?_, ?_⟩
  · -- a link between two other nodes neither leaves `p` nor comes to `n`
    have hold : ∀ x y, x ≠ e → y ≠ e → k.Link x y → k'.Link x y := by
      intro x y hx hy hl
      refine ⟨?_, ?_⟩
      · rw [hnext, update_of_ne fun heq => ?_]
        · exact hl.1
        · rw [heq] at hl
          exact hy (Option.some.inj (hl.1.symm.trans hpe.1))
      · rw [hprev, update_of_ne fun heq => ?_]
        · exact hl.2
        · rw [heq] at hl
          exact hx (Option.some.inj (hl.2.symm.trans hen.2))
    have hother : ∀ x ∈ h :: (l ++ r), x ≠ e := fun x hx heq => he (heq ▸ hx)
    refine seg_append.2 ⟨hfront.congr fun x hx y hy => ?_, ⟨?_, ?_⟩, hrear.congr fun x hx y hy => ?_⟩
    · refine hold x y (hother x ?_) (hother y (mem_cons_of_mem _ (mem_append_left _ hy)))
      rw [← cons_append]
      exact mem_append_left _ hx
    · rw [← hp, ← hn, hnext, update_self]
    · rw [← hp, ← hn, hprev, update_self]
    · refine hold x y (hother x (mem_cons_of_mem _ (mem_append_right _ hx))) (hother y ?_)
      rcases mem_cons.1 (mem_ring hy) with rfl | hy
      · exact mem_cons_self
      · exact mem_cons_of_mem _ (mem_append_right _ hy)
  · rw [hnext, update_of_ne hep]
  · rw [hprev, update_of_ne hne]
  · intro y hy
    rw [perm_ring.mem_iff, mem_cons, not_or] at hy
    have hyp : y ≠ p := fun heq => hy.2 (heq ▸ hpmem)
    have hyn : y ≠ n := fun heq => hy.2 (heq ▸ hnmem)
    refine ⟨?_, ?_⟩
    · rw [hnext, update_of_ne hyp]
    · rw [hprev, update_of_ne hyn]

/-- `e` is taken out by `remque`. -/
theorem Ring.remque {h e : α} {l r : List α} (hr : k.Ring h (l ++ e :: r)) :
    ∃ k', k.remque e = some k' ∧ k'.Ring h (l ++ r) ∧ k'.next e = k.next e ∧
      ∀ y ∉ h :: (l ++ e :: r), k'.next y = k.next y ∧ k'.prev y = k.prev y := by
  obtain ⟨k₁, hk₁, hring, hnext, -, hframe⟩ := hr.unlink
  have he := (nodup_cons.1 (perm_ring.nodup_iff.1 hr.nodup)).1
  refine ⟨{ k₁ with prev := update k₁.prev e none }, ?_, hring.frame fun y hy => ⟨rfl, ?_⟩, hnext,
    fun y hy => ⟨(hframe y hy).1, ?_⟩⟩
  · unfold Links.remque
    rw [hk₁]
    rfl
  · have hye : y ≠ e := fun heq => he (heq ▸ hy)
    exact update_of_ne hye _ _
  · have hye : y ≠ e := fun heq => hy (heq ▸ perm_ring.mem_iff.2 mem_cons_self)
    exact (update_of_ne hye _ _).trans (hframe y hy).2

/-- Rings that share the link fields and no node. -/
structure Rings {ι : Type} (k : Links α) (head : ι → α) (ring : ι → List α) : Prop where
  closed : ∀ i, k.Ring (head i) (ring i)
  disjoint : ∀ i j, i ≠ j → List.Disjoint (head i :: ring i) (head j :: ring j)

section Rings

variable {ι : Type} [DecidableEq ι] {head : ι → α} {ring : ι → List α} {i : ι} {e : α} {l r : List α}

theorem Rings.insque {p : α} (H : k.Rings head ring) (hi : ring i = l ++ r) (he : ∀ j, e ∉ head j :: ring j)
    (hp : p = l.getLastD (head i)) :
    ∃ k', k.insque e p = some k' ∧ k'.Rings head (update ring i (l ++ e :: r)) := by
  have hring := H.closed i
  have hmem := he i
  rw [hi] at hring hmem
  obtain ⟨k', hk', hring', hframe⟩ := hring.insque hmem hp
  refine ⟨k', hk', fun j => ?_, fun j₁ j₂ hj y h₁ h₂ => ?_⟩
  · by_cases hj : j = i
    · subst hj
      rw [update_self]
      exact hring'
    · rw [update_of_ne hj]
      refine (H.closed j).frame fun y hy => hframe y fun hmem => ?_
      rcases mem_cons.1 hmem with rfl | hmem
      · exact he j hy
      · rw [← hi] at hmem
        exact H.disjoint j i hj hy hmem
  · -- the new node is in one ring only
    have hback : ∀ j, y ∈ head j :: update ring i (l ++ e :: r) j → y ∈ head j :: ring j ∨ y = e ∧ j = i := by
      intro j hy
      by_cases hji : j = i
      · subst hji
        rw [update_self] at hy
        rw [hi]
        simp only [mem_cons, mem_append] at hy ⊢
        tauto
      · rw [update_of_ne hji] at hy
        exact .inl hy
    rcases hback j₁ h₁ with hy₁ | ⟨hye, hj₁⟩
    · rcases hback j₂ h₂ with hy₂ | ⟨hye, -⟩
      · exact H.disjoint j₁ j₂ hj hy₁ hy₂
      · exact he j₁ (hye ▸ hy₁)
    · rcases hback j₂ h₂ with hy₂ | ⟨-, hj₂⟩
      · exact he j₂ (hye ▸ hy₂)
      · exact hj (hj₁.trans hj₂.symm)

theorem Rings.remque (H : k.Rings head ring) (hi : ring i = l ++ e :: r) :
    ∃ k', k.remque e = some k' ∧ k'.Rings head (update ring i (l ++ r)) ∧ k'.next e = k.next e ∧
      ∀ j, e ∉ head j :: update ring i (l ++ r) j := by
  have hring := H.closed i
  rw [hi] at hring
  obtain ⟨k', hk', hring', hnext, hframe⟩ := hring.remque
  have hsub : ∀ j, ∀ y ∈ head j :: update ring i (l ++ r) j, y ∈ head j :: ring j := by
    intro j y hy
    by_cases hj : j = i
    · subst hj
      rw [update_self] at hy
      rw [hi]
      simp only [mem_cons, mem_append] at hy ⊢
      tauto
    · rw [update_of_ne hj] at hy
      exact hy
  refine ⟨k', hk', ⟨fun j => ?_, fun j₁ j₂ hj y h₁ h₂ => ?_⟩, hnext, fun j hj => ?_⟩
  · by_cases hj : j = i
    · subst hj
      rw [update_self]
      exact hring'
    · rw [update_of_ne hj]
      refine (H.closed j).frame fun y hy => hframe y fun hmem => ?_
      rw [← hi] at hmem
      exact H.disjoint j i hj hy hmem
  · exact H.disjoint j₁ j₂ hj (hsub j₁ y h₁) (hsub j₂ y h₂)
  · by_cases hji : j = i
    · subst hji
      rw [update_self] at hj
      exact (nodup_cons.1 (perm_ring.nodup_iff.1 hring.nodup)).1 hj
    · rw [update_of_ne hji] at hj
      refine H.disjoint j i hji hj ?_
      rw [hi]
      exact perm_ring.mem_iff.2 mem_cons_self

end Rings

end Links

end Emulator
