import Mathlib.Data.List.Basic
import Mathlib.Data.List.Pairwise

/-!
# Search trees with an arbitrary rebalancing

A binary search tree whose comparison may be coarser than equality, as with a tree of
disjoint intervals that is searched for an interval. `Rebalance` stands for the part of a
balanced tree that is invisible to its users: whatever it does to the shape, it keeps the
elements in order.

* `find_some`, `find_none`: a search finds an element that compares equal, if there is one.
* `mem_insert`, `mem_remove`, `pairwise_insert`: what the tree holds afterwards, in order.
-/

namespace Emulator

open List

/-- A binary tree with a colour at each node. -/
inductive Tree (α : Type) where
  | leaf
  | node (red : Bool) (left : Tree α) (elm : α) (right : Tree α)

namespace Tree

variable {α : Type} {cmp : α → Ordering} {t : Tree α} {x a : α}

/-- The elements in order. -/
def toList : Tree α → List α
  | leaf => []
  | node _ l a r => l.toList ++ a :: r.toList

/-- The first element on the way down that compares equal; `cmp` compares what is looked for with an element. -/
def find (cmp : α → Ordering) : Tree α → Option α
  | leaf => none
  | node _ l a r =>
    match cmp a with
    | .lt => l.find cmp
    | .gt => r.find cmp
    | .eq => some a

/-- A new leaf where a search for it ends. -/
def place (cmp : α → Ordering) (x : α) : Tree α → Tree α
  | leaf => node true leaf x leaf
  | node red l a r =>
    match cmp a with
    | .lt => node red (l.place cmp x) a r
    | .gt => node red l a (r.place cmp x)
    | .eq => node red l a r

/-- Along the list, what is looked for is first greater, then equal, then less. -/
def Cuts (cmp : α → Ordering) (l : List α) : Prop :=
  l.Pairwise fun a b => (cmp a = .lt → cmp b = .lt) ∧ (cmp b = .gt → cmp a = .gt)

theorem cuts_node {red : Bool} {l r : Tree α} (h : Cuts cmp (node red l a r).toList) :
    Cuts cmp l.toList ∧ Cuts cmp r.toList ∧ (∀ b ∈ l.toList, cmp a = .gt → cmp b = .gt) ∧
      ∀ b ∈ r.toList, cmp a = .lt → cmp b = .lt := by
  unfold Cuts toList at h
  obtain ⟨h1, h2, h3⟩ := pairwise_append.1 h
  obtain ⟨h4, h5⟩ := pairwise_cons.1 h2
  exact ⟨h1, h5, fun b hb => (h3 b hb a (mem_cons_self ..)).2, fun b hb => (h4 b hb).1⟩

theorem find_some (h : t.find cmp = some a) : a ∈ t.toList ∧ cmp a = .eq := by
  induction t with
  | leaf => exact absurd h (by simp [find])
  | node red l b r ihl ihr =>
    unfold find at h
    unfold toList
    split at h
    · exact ⟨mem_append_left _ (ihl h).1, (ihl h).2⟩
    · exact ⟨mem_append_right _ (mem_cons_of_mem _ (ihr h).1), (ihr h).2⟩
    · rename_i hb
      obtain rfl := Option.some.inj h
      exact ⟨mem_append_right _ (mem_cons_self ..), hb⟩

theorem find_none (hc : Cuts cmp t.toList) (h : t.find cmp = none) : ∀ a ∈ t.toList, cmp a ≠ .eq := by
  induction t with
  | leaf => exact fun a ha => absurd ha (not_mem_nil)
  | node red l b r ihl ihr =>
    obtain ⟨hl, hr, hgt, hlt⟩ := cuts_node hc
    unfold find at h
    unfold toList
    intro a ha
    rcases mem_append.1 ha with hal | har
    · split at h
      · exact ihl hl h a hal
      · rename_i hb
        simp [hgt a hal hb]
      · exact absurd h (by simp)
    · rcases mem_cons.1 har with rfl | har
      · split at h
        · rename_i hb
          simp [hb]
        · rename_i hb
          simp [hb]
        · exact absurd h (by simp)
      · split at h
        · rename_i hb
          simp [hlt a har hb]
        · exact ihr hr h a har
        · exact absurd h (by simp)

/-- The new element stands between those that are less and those that are greater. -/
theorem toList_place (hc : Cuts cmp t.toList) (hne : ∀ a ∈ t.toList, cmp a ≠ .eq) :
    (t.place cmp x).toList =
      t.toList.filter (fun a => cmp a = .gt) ++ x :: t.toList.filter (fun a => cmp a = .lt) := by
  induction t with
  | leaf => rfl
  | node red l b r ihl ihr =>
    obtain ⟨hl, hr, hgt, hlt⟩ := cuts_node hc
    have hnl : ∀ a ∈ l.toList, cmp a ≠ .eq := fun a ha => hne a (mem_append_left _ ha)
    have hnr : ∀ a ∈ r.toList, cmp a ≠ .eq :=
      fun a ha => hne a (mem_append_right _ (mem_cons_of_mem _ ha))
    rcases hb : cmp b
    · have h1 : r.toList.filter (fun a => cmp a = .gt) = [] :=
        filter_eq_nil_iff.2 fun a ha => by simp [hlt a ha hb]
      have h2 : r.toList.filter (fun a => cmp a = .lt) = r.toList :=
        filter_eq_self.2 fun a ha => by simp [hlt a ha hb]
      simp [place, toList, hb, h1, h2, ihl hl hnl]
    · exact absurd hb (hne b (mem_append_right _ (mem_cons_self ..)))
    · have h1 : l.toList.filter (fun a => cmp a = .lt) = [] :=
        filter_eq_nil_iff.2 fun a ha => by simp [hgt a ha hb]
      have h2 : l.toList.filter (fun a => cmp a = .gt) = l.toList :=
        filter_eq_self.2 fun a ha => by simp [hgt a ha hb]
      simp [place, toList, hb, h1, h2, ihr hr hnr]

end Tree

/-- The rebalancing of a search tree: the fixing after a leaf is added, and the removal of an element. -/
structure Rebalance (α : Type) [DecidableEq α] where
  insertColor : Tree α → Tree α
  toList_insertColor : ∀ t, (insertColor t).toList = t.toList
  remove : Tree α → α → Tree α
  toList_remove : ∀ t a, (remove t a).toList = t.toList.erase a

namespace Rebalance

variable {α : Type} [DecidableEq α] (R : Rebalance α) {cmp : α → Ordering} {t : Tree α} {x a : α}

/-- The element that compares equal to the new one, and then nothing is changed; or else the new one is added. -/
def insert (cmp : α → Ordering) (t : Tree α) (x : α) : Option α × Tree α :=
  match t.find cmp with
  | some a => (some a, t)
  | none => (none, R.insertColor (t.place cmp x))

theorem insert_of_some (h : t.find cmp = some a) : R.insert cmp t x = (some a, t) := by
  unfold insert
  rw [h]

theorem insert_of_none (h : t.find cmp = none) : R.insert cmp t x = (none, R.insertColor (t.place cmp x)) := by
  unfold insert
  rw [h]

theorem mem_insert (hc : Tree.Cuts cmp t.toList) (h : t.find cmp = none) :
    a ∈ (R.insert cmp t x).2.toList ↔ a = x ∨ a ∈ t.toList := by
  have hne := Tree.find_none hc h
  rw [R.insert_of_none h, R.toList_insertColor, Tree.toList_place hc hne]
  simp only [mem_append, mem_cons, mem_filter, decide_eq_true_eq]
  constructor
  · rintro (⟨h1, -⟩ | rfl | ⟨h1, -⟩)
    · exact .inr h1
    · exact .inl rfl
    · exact .inr h1
  · rintro (rfl | h1)
    · exact .inr (.inl rfl)
    · have := hne a h1
      rcases hcmp : cmp a
      · exact .inr (.inr ⟨h1, rfl⟩)
      · exact absurd hcmp this
      · exact .inl ⟨h1, rfl⟩

/-- If the comparison with the new element follows a transitive order, the elements stay in that order. -/
theorem pairwise_insert (lt : α → α → Prop) (htrans : ∀ {a b c}, lt a b → lt b c → lt a c)
    (hc : Tree.Cuts cmp t.toList) (h : t.find cmp = none) (hp : t.toList.Pairwise lt)
    (hgt : ∀ a ∈ t.toList, cmp a = .gt → lt a x) (hlt : ∀ a ∈ t.toList, cmp a = .lt → lt x a) :
    (R.insert cmp t x).2.toList.Pairwise lt := by
  rw [R.insert_of_none h, R.toList_insertColor, Tree.toList_place hc (Tree.find_none hc h)]
  have hbefore : ∀ a ∈ t.toList.filter (fun a => cmp a = .gt), lt a x := by
    intro a ha
    obtain ⟨h1, h2⟩ := mem_filter.1 ha
    exact hgt a h1 (by simpa using h2)
  have hafter : ∀ a ∈ t.toList.filter (fun a => cmp a = .lt), lt x a := by
    intro a ha
    obtain ⟨h1, h2⟩ := mem_filter.1 ha
    exact hlt a h1 (by simpa using h2)
  refine pairwise_append.2 ⟨hp.sublist filter_sublist,
    pairwise_cons.2 ⟨hafter, hp.sublist filter_sublist⟩, fun a ha b hb => ?_⟩
  rcases mem_cons.1 hb with rfl | hb
  · exact hbefore a ha
  · exact htrans (hbefore a ha) (hafter b hb)

theorem mem_remove (hnd : t.toList.Nodup) {b : α} : b ∈ (R.remove t a).toList ↔ b ≠ a ∧ b ∈ t.toList := by
  rw [R.toList_remove, hnd.mem_erase_iff]

theorem pairwise_remove {lt : α → α → Prop} (hp : t.toList.Pairwise lt) : (R.remove t a).toList.Pairwise lt := by
  rw [R.toList_remove]
  exact hp.sublist erase_sublist

/-- The tree whose left branches are all empty. -/
def ofList : List α → Tree α
  | [] => .leaf
  | a :: l => .node false .leaf a (ofList l)

omit [DecidableEq α] in
theorem toList_ofList (l : List α) : (ofList l).toList = l := by
  induction l with
  | nil => rfl
  | cons a l ih => simp [ofList, Tree.toList, ih]

/-- No rebalancing after an insertion; a removal leaves a list. -/
def spine : Rebalance α where
  insertColor := id
  toList_insertColor _ := rfl
  remove t a := ofList (t.toList.erase a)
  toList_remove _ _ := toList_ofList _

end Rebalance

end Emulator
