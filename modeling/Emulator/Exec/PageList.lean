import Emulator.Exec.TbState
import Emulator.Exec.JumpDrop
import Emulator.Lib.LinkedLists

/-!
# Taking a block out of the lists of its pages

* `pageRead_setPageLink`, `hashRead_setHashLink`: the setters change one pointer.
* `tbRemove_ok`: a block is taken out of its hash chain.
* `tbLeavePage_ok`: the first link of a block is taken out of the list of a page, whose bitmap is dropped.
-/

namespace Emulator.Exec

open Function

namespace TbState

variable {s s' : TbState}

theorem pageFind_setPage_ne {i j : ℕ} (p : PageDesc) (hij : j ≠ i) : (s.setPage i p).pageFind j = s.pageFind j := by
  unfold setPage pageFind
  by_cases hdiv : j / 1024 = i / 1024
  · have hmod : j % 1024 ≠ i % 1024 := by omega
    simp [hdiv, comp_def, update_of_ne hmod]
  · simp [update_of_ne hdiv]

theorem pageFind_setPage_self {i : ℕ} (p : PageDesc) : (s.setPage i p).pageFind i = (s.pageFind i).map fun _ => p := by
  simp [setPage, pageFind, comp_def]

theorem pageFind_isSome_setPage (i j : ℕ) (p : PageDesc) :
    ((s.setPage i p).pageFind j).isSome = (s.pageFind j).isSome := by
  by_cases hij : j = i
  · subst hij
    rw [pageFind_setPage_self, Option.isSome_map]
  · rw [pageFind_setPage_ne p hij]

/-- Blocks keep what they are about and their jumps, and the CPUs and the flags are the same. -/
structure SameRest (s s' : TbState) : Prop where
  code : ∀ t, (s'.tb t).toTbCode = (s.tb t).toTbCode
  jumps : ∀ t, (s'.tb t).toTbJumps = (s.tb t).toTbJumps
  pages : ∀ i, (s'.pageFind i).isSome = (s.pageFind i).isSome
  cpus : s'.cpus = s.cpus
  env : s'.cpuSingleEnv = s.cpuSingleEnv
  icount : s'.useIcount = s.useIcount
  dirty : s'.physRamDirty = s.physRamDirty

theorem SameRest.refl (s : TbState) : SameRest s s :=
  ⟨fun _ => rfl, fun _ => rfl, fun _ => rfl, rfl, rfl, rfl, rfl⟩

theorem SameRest.trans {s'' : TbState} (h : SameRest s s') (h' : SameRest s' s'') : SameRest s s'' :=
  ⟨fun t => (h'.code t).trans (h.code t), fun t => (h'.jumps t).trans (h.jumps t), fun i =>
    (h'.pages i).trans (h.pages i),
    h'.cpus.trans h.cpus, h'.env.trans h.env, h'.icount.trans h.icount, h'.dirty.trans h.dirty⟩

theorem sameRest_setPage (i : ℕ) (p : PageDesc) : SameRest s (s.setPage i p) :=
  ⟨fun _ => rfl, fun _ => rfl, fun j => pageFind_isSome_setPage i j p, rfl, rfl, rfl, rfl⟩

theorem sameRest_setPageLink (c : ℕ ⊕ PageLink) (v : Option PageLink) : SameRest s (s.setPageLink c v) := by
  cases c with
  | inl i =>
    unfold setPageLink
    cases hp : s.pageFind i with
    | none =>
      simp only [hp]
      exact .refl s
    | some p =>
      simp only [hp]
      exact sameRest_setPage i _
  | inr e =>
    refine ⟨fun t => ?_, fun t => ?_, fun _ => rfl, rfl, rfl, rfl, rfl⟩ <;>
    · by_cases ht : t = e.1
      · subst ht
        simp [setPageLink, Blocks.setPageNext]
      · simp [setPageLink, Blocks.setPageNext, ht]

theorem sameRest_setHashLink (c : ℕ ⊕ ℕ) (v : Option ℕ) : SameRest s (s.setHashLink c v) := by
  cases c with
  | inl h => exact ⟨fun _ => rfl, fun _ => rfl, fun _ => rfl, rfl, rfl, rfl, rfl⟩
  | inr tb =>
    refine ⟨fun t => ?_, fun t => ?_, fun _ => rfl, rfl, rfl, rfl, rfl⟩ <;>
    · by_cases ht : t = tb
      · subst ht
        simp [setHashLink, Blocks.setPhysHashNext]
      · simp [setHashLink, Blocks.setPhysHashNext, ht]

theorem pageRead_setPageLink {c : ℕ ⊕ PageLink} {v old : Option PageLink} (hc : s.pageRead c = some old) :
    (s.setPageLink c v).pageRead = update s.pageRead c (some v) := by
  funext d
  cases c with
  | inl i =>
    obtain ⟨p, hp, -⟩ := Option.map_eq_some_iff.1 (show (s.pageFind i).map (·.firstTb) = some old from hc)
    have hset : s.setPageLink (.inl i) v = s.setPage i { p with firstTb := v } := by
      simp only [setPageLink, hp]
    rw [hset]
    cases d with
    | inl j =>
      by_cases hji : j = i
      · subst hji
        simp [pageRead, pageFind_setPage_self, hp]
      · simp [pageRead, pageFind_setPage_ne _ hji, hji]
    | inr e => simp [pageRead, setPage]
  | inr e =>
    cases d with
    | inl j => simp [pageRead, setPageLink, pageFind]
    | inr e' =>
      obtain ⟨t, n⟩ := e
      obtain ⟨t', n'⟩ := e'
      by_cases ht : t' = t
      · subst ht
        by_cases hn : n' = n
        · subst hn
          simp [pageRead, setPageLink, Blocks.setPageNext]
        · simp [pageRead, setPageLink, Blocks.setPageNext, hn]
      · simp [pageRead, setPageLink, Blocks.setPageNext, ht]

theorem hashRead_setHashLink (c : ℕ ⊕ ℕ) (v : Option ℕ) :
    (s.setHashLink c v).hashRead = update s.hashRead c (some v) := by
  funext d
  cases c with
  | inl h =>
    cases d with
    | inl h' => by_cases hh : h' = h <;> simp [hashRead, setHashLink, hh]
    | inr t => simp [hashRead, setHashLink]
  | inr tb =>
    cases d with
    | inl h' => simp [hashRead, setHashLink]
    | inr t => by_cases ht : t = tb <;> simp [hashRead, setHashLink, Blocks.setPhysHashNext, ht]

theorem pageRead_setPage_update {i : ℕ} {p : PageDesc} (hp : s.pageFind i = some p) (p' : PageDesc) :
    (s.setPage i p').pageRead = update s.pageRead (.inl i) (some p'.firstTb) := by
  funext d
  cases d with
  | inl j =>
    by_cases hji : j = i
    · subst hji
      simp [pageRead, pageFind_setPage_self, hp]
    · simp [pageRead, pageFind_setPage_ne _ hji, hji]
  | inr e => rfl

theorem pageRead_setPage {i : ℕ} {p p' : PageDesc} (hp : s.pageFind i = some p) (hfirst : p'.firstTb = p.firstTb) :
    (s.setPage i p').pageRead = s.pageRead := by
  rw [pageRead_setPage_update hp, hfirst]
  refine update_eq_self_iff.2 ?_
  simp [pageRead, hp]

theorem hashRead_setPageLink (c : ℕ ⊕ PageLink) (v : Option PageLink) : (s.setPageLink c v).hashRead = s.hashRead := by
  funext d
  cases c with
  | inl i =>
    have hset : (s.setPageLink (.inl i) v).tb = s.tb ∧ (s.setPageLink (.inl i) v).tbPhysHash = s.tbPhysHash := by
      cases hp : s.pageFind i <;> simp [setPageLink, hp, setPage]
    cases d with
    | inl h => simp only [hashRead, hset.2]
    | inr t => simp only [hashRead, hset.1]
  | inr e =>
    cases d with
    | inl h => rfl
    | inr t => by_cases ht : t = e.1 <;> simp [hashRead, setPageLink, Blocks.setPageNext, ht]

theorem pageRead_setHashLink (c : ℕ ⊕ ℕ) (v : Option ℕ) : (s.setHashLink c v).pageRead = s.pageRead := by
  funext d
  cases c with
  | inl h => cases d <;> rfl
  | inr tb =>
    cases d with
    | inl i => rfl
    | inr e => by_cases he : e.1 = tb <;> simp [pageRead, setHashLink, Blocks.setPhysHashNext, he]

/-- The bitmap of a page, if there is one. -/
def bitmapOf (s : TbState) (i : ℕ) : Option (ℕ → BitVec 8) := (s.pageFind i).bind (·.codeBitmap)

theorem bitmapOf_setPage_ne {i j : ℕ} (p : PageDesc) (hij : j ≠ i) : (s.setPage i p).bitmapOf j = s.bitmapOf j := by
  rw [bitmapOf, bitmapOf, pageFind_setPage_ne p hij]

theorem bitmapOf_setPageLink (c : ℕ ⊕ PageLink) (v : Option PageLink) (j : ℕ) :
    (s.setPageLink c v).bitmapOf j = s.bitmapOf j := by
  cases c with
  | inl i =>
    cases hp : s.pageFind i with
    | none => simp [setPageLink, hp]
    | some p =>
      simp only [setPageLink, hp]
      by_cases hji : j = i
      · subst hji
        simp [bitmapOf, pageFind_setPage_self, hp]
      · exact bitmapOf_setPage_ne _ hji
  | inr e => rfl

theorem tbRemove_ok {hashes : ℕ → List ℕ} (h : LinkedLists s.hashRead (fun _ => True) hashes) {i t fuel : ℕ}
    (ht : t ∈ hashes i) (hfuel : (hashes i).length < fuel) :
    ∃ s', s.tbRemove fuel i t = some s' ∧
      LinkedLists s'.hashRead (fun _ => True) (update hashes i ((hashes i).erase t)) ∧ SameRest s s' ∧
      s'.pageRead = s.pageRead ∧ s'.pageFind = s.pageFind := by
  obtain ⟨l, r, hl⟩ := List.append_of_mem ht
  have hnd := h.nodup i
  rw [hl] at hnd
  have htl : t ∉ l := fun hmem => List.disjoint_of_nodup_append hnd hmem List.mem_cons_self
  have hfirst : ∀ a ∈ l, (a == t) = false := by
    intro a ha
    refine beq_eq_false_iff_ne.2 ?_
    rintro rfl
    exact htl ha
  have hfind : walk s.hashRead .inr (fun a => some (a == t)) fuel (.inl i) = some (some (endLink .inr (.inl i) l, t)) :=
    h.walk_found trivial hl hfuel hfirst (beq_self_eq_true t)
  refine ⟨s.setHashLink (endLink .inr (.inl i) l) (s.tb t).physHashNext, ?_, ?_, sameRest_setHashLink _ _,
    pageRead_setHashLink _ _, ?_⟩
  · rw [tbRemove, hfind]
    rfl
  · rw [hl, List.erase_append_right _ htl, List.erase_cons_head]
    exact h.unlink trivial hl (hashRead_setHashLink _ _)
  · funext j
    cases hend : endLink Sum.inr (Sum.inl i) l <;> rfl

/-- The list of the page loses the first link of the block. -/
theorem tbLeavePage_ok {lists : ℕ → List PageLink}
    (h : LinkedLists s.pageRead (fun i => (s.pageFind i).isSome) lists) {t fuel : ℕ} {n : Fin 2} {e : PageLink}
    {l r : List PageLink} (hl : lists (pageIndex ((s.tb t).pageAddr n)) = l ++ e :: r) (he : e.1 = t)
    (hfirst : ∀ x ∈ l, x.1 ≠ t) (hhere : (s.pageFind (pageIndex ((s.tb t).pageAddr n))).isSome)
    (hfuel : (l ++ e :: r).length < fuel) :
    ∃ s', s.tbLeavePage fuel t n = some s' ∧
      LinkedLists s'.pageRead (fun i => (s'.pageFind i).isSome)
        (update lists (pageIndex ((s.tb t).pageAddr n)) (l ++ r)) ∧
      SameRest s s' ∧ s'.hashRead = s.hashRead ∧ (s'.tb t).pageNext = (s.tb t).pageNext ∧
      s'.bitmapOf (pageIndex ((s.tb t).pageAddr n)) = none ∧
      ∀ j, j ≠ pageIndex ((s.tb t).pageAddr n) → s'.bitmapOf j = s.bitmapOf j := by
  generalize hi : pageIndex ((s.tb t).pageAddr n) = i at hl hhere ⊢
  have hfind : walk s.pageRead .inr (fun a => some (a.1 == t)) fuel (.inl i) =
    some (some (endLink .inr (.inl i) l, e)) :=
    h.walk_found hhere hl (hl ▸ hfuel) (fun a ha => beq_eq_false_iff_ne.2 (hfirst a ha)) (beq_iff_eq.2 he)
  have hprev := h.read_prev hhere hl
  obtain ⟨c, hc⟩ : ∃ c, c = endLink Sum.inr (Sum.inl i) l := ⟨_, rfl⟩
  rw [← hc] at hfind hprev
  obtain ⟨s₁, hs₁⟩ : ∃ s₁, s₁ = s.setPageLink c ((s.tb e.1).pageNext e.2) := ⟨_, rfl⟩
  have hrest : SameRest s s₁ := hs₁ ▸ sameRest_setPageLink _ _
  have hlists : LinkedLists s₁.pageRead (fun i => (s.pageFind i).isSome) (update lists i (l ++ r)) := by
    refine h.unlink hhere hl ?_
    rw [hs₁, pageRead_setPageLink hprev, hc]
    rfl
  obtain ⟨p, hp⟩ := Option.isSome_iff_exists.1 ((hrest.pages i).trans hhere)
  have hnext : (s₁.tb t).pageNext = (s.tb t).pageNext := by
    rw [hs₁]
    rcases LinkedLists.prev_cases i l with hend | ⟨a, ha, hend⟩
    · rw [hc, hend]
      cases hp : s.pageFind i <;> simp [setPageLink, hp, setPage]
    · rw [hc, hend]
      simp [setPageLink, Blocks.setPageNext, (hfirst a ha).symm]
  refine ⟨s₁.setPage i (invalidatePageBitmap p), ?_, ?_, hrest.trans (sameRest_setPage _ _), ?_, hnext, ?_,
    fun j hj => ?_⟩
  · have hremove : s.tbPageRemove fuel i t = some s₁ := by
      rw [tbPageRemove, hfind, hs₁]
      rfl
    have haddr : (s₁.tb t).pageAddr n = (s.tb t).pageAddr n := congrFun (congrArg TbCode.pageAddr (hrest.code t)) n
    simp only [tbLeavePage, hi, hremove, Option.bind_eq_bind, Option.bind_some, haddr, dropBitmap, hp]
    rfl
  · have hread : (s₁.setPage i (invalidatePageBitmap p)).pageRead = s₁.pageRead := pageRead_setPage hp rfl
    rw [hread]
    simp only [pageFind_isSome_setPage, hrest.pages]
    exact hlists
  · rw [hs₁]
    exact hashRead_setPageLink c _
  · simp [bitmapOf, pageFind_setPage_self, hp, invalidatePageBitmap]
  · rw [bitmapOf_setPage_ne _ hj, hs₁, bitmapOf_setPageLink]

end TbState
end Emulator.Exec
