import Emulator.Exec.PageHit
import Emulator.Exec.CodeBitmap

/-!
# Invalidating a range of a page

`tb_invalidate_phys_page_range` walks along the list of a page and invalidates the blocks with code in the range. The
walk deletes the nodes that it stands on.

* `invalidateWalk_ok`: the walk, if no block is hit under both of its tags.
* `invalidateWalk_twice`: the walk follows a null pointer if one is.
* `tbInvalidatePhysPageRange_ok`, `tbInvalidatePhysPageRange_twice`: the same for a call.
-/

namespace Emulator.Exec

open Blocks TbState List Option

variable {s s' : TbState} {L : TbLists} {i t : ℕ} {start last : TargetUlong}

/-- The lists after the calls of `tb_phys_invalidate`, the first of which may interrupt the CPU. -/
noncomputable def TbLists.afterCalls : Option ℕ → TbLists → List ℕ → TbLists
  | _, L, [] => L
  | interrupted, L, t :: calls => (L.afterHit interrupted t).afterCalls none calls

/-- The blocks of the links that are hit. -/
def hitTbs (b : Blocks) (start last : TargetUlong) (links : List PageLink) : List ℕ :=
  (links.filter fun e => TbHit b start last e).map Prod.fst

/-- The block is hit under both of its tags. -/
def HitTwice (b : Blocks) (start last : TargetUlong) (i t : ℕ) : Prop :=
  (OnPage (b t) 0 i ∧ TbHit b start last (t, 0)) ∧ OnPage (b t) 1 i ∧ TbHit b start last (t, 1)

/-- What a walk leaves alone. A page that still has its bitmap has lost no block. -/
structure WalkedBy (s s' : TbState) (L : TbLists) (calls : List ℕ) : Prop where
  code : ∀ u, (s'.tb u).toTbCode = (s.tb u).toTbCode
  pages : ∀ j, (s'.pageFind j).isSome = (s.pageFind j).isSome
  env : s'.cpuSingleEnv = s.cpuSingleEnv
  dirty : s'.physRamDirty = s.physRamDirty
  bitmap : ∀ j tab, s'.bitmapOf j = some tab → s.bitmapOf j = some tab ∧ ∀ u ∈ calls, u ∉ L.pages j

theorem WalkedBy.refl (s : TbState) (L : TbLists) : WalkedBy s s L [] :=
  ⟨fun _ => rfl, fun _ => rfl, rfl, rfl, fun _ _ h => ⟨h, fun _ hu => absurd hu not_mem_nil⟩⟩

theorem afterHit_pages (interrupted : Option ℕ) (t : ℕ) : (L.afterHit interrupted t).pages = (L.drop t).pages := by
  cases interrupted <;> rfl

theorem afterHit_live (interrupted : Option ℕ) (t : ℕ) : (L.afterHit interrupted t).live = L.live.erase t := by
  cases interrupted <;> rfl

theorem WalkedBy.cons {s₁ : TbState} {calls : List ℕ} {interrupted : Option ℕ} (h : TbsOK s L)
    (hhit : HitBy s s₁ t (t ∈ L.pages ·)) (hwalk : WalkedBy s₁ s' (L.afterHit interrupted t) calls) :
    WalkedBy s s' L (t :: calls) := by
  refine ⟨fun u => (hwalk.code u).trans (hhit.code u), fun j => (hwalk.pages j).trans (hhit.pages j),
    hwalk.env.trans hhit.env, hwalk.dirty.trans hhit.dirty, fun j tab hj => ?_⟩
  obtain ⟨hj₁, hcalls⟩ := hwalk.bitmap j tab hj
  have ht : t ∉ L.pages j := by
    intro hmem
    rw [hhit.dropped j hmem] at hj₁
    cases hj₁
  refine ⟨(hhit.bitmap j ht).symm.trans hj₁, fun u hu hmem => ?_⟩
  rcases mem_cons.1 hu with rfl | hu
  · exact ht hmem
  · refine hcalls u hu ?_
    rw [afterHit_pages, TbLists.drop_pages, (h.pageNodup j).mem_erase_iff]
    refine ⟨?_, hmem⟩
    rintro rfl
    exact ht hmem

/-- The pointer of a link leads to the rest of the list. -/
theorem TbsOK.next_link (h : TbsOK s L) {A B : List ℕ} (hpages : L.pages i = A ++ t :: B) {e : PageLink}
    {l r : List PageLink} (he : entries s.tb i t = l ++ e :: r) :
    (s.tb e.1).pageNext e.2 = (r ++ pageLinks s.tb i B).head? := by
  have ht : t ∈ L.pages i := by simp [hpages]
  have hlist : pageLinks s.tb i (L.pages i) = (pageLinks s.tb i A ++ l) ++ e :: (r ++ pageLinks s.tb i B) := by
    rw [hpages, pageLinks, flatMap_append, flatMap_cons, he]
    simp [pageLinks]
  exact Option.some.inj (h.page.read_node (h.present i t ht) hlist)

theorem invalidateWalk_miss {steps fuel : ℕ} {e : PageLink} (hmiss : ¬ TbHit s.tb start last e) :
    invalidateWalk steps start last (fuel + 1) s (some e) =
      invalidateWalk steps start last fuel s ((s.tb e.1).pageNext e.2) := by
  rw [invalidateWalk, if_neg hmiss]

theorem invalidateWalk_hit {steps fuel : ℕ} {e : PageLink} {s₁ : TbState} (hhit : TbHit s.tb start last e)
    (hrun : s.invalidateHit steps e.1 = some s₁) :
    invalidateWalk steps start last (fuel + 1) s (some e) =
      (invalidateWalk steps start last fuel s₁ ((s.tb e.1).pageNext e.2)).map fun r => (r.1, e.1 :: r.2) := by
  rw [invalidateWalk, if_pos hhit]
  simp only [hrun, bind_eq_bind, bind_some]
  cases invalidateWalk steps start last fuel s₁ ((s.tb e.1).pageNext e.2) <;> rfl

theorem tbHit_congr {b b' : Blocks} (h : ∀ t, (b' t).toTbCode = (b t).toTbCode) (e : PageLink) :
    TbHit b' start last e ↔ TbHit b start last e := by
  have hstart : tbStart (b' e.1) e.2 = tbStart (b e.1) e.2 := by
    rw [tbStart, tbStart, congrArg TbCode.pageAddr (h e.1), congrArg TbCode.pc (h e.1)]
  have hend : tbEnd (b' e.1) e.2 = tbEnd (b e.1) e.2 := by
    rw [tbEnd, tbEnd, hstart, congrArg TbCode.pc (h e.1), congrArg TbCode.size (h e.1)]
  rw [TbHit, TbHit, hstart, hend]

theorem hitTbs_congr {b b' : Blocks} (h : ∀ t, (b' t).toTbCode = (b t).toTbCode) (l : List PageLink) :
    hitTbs b' start last l = hitTbs b start last l := by
  simp only [hitTbs, tbHit_congr h]

theorem hitTwice_congr {b b' : Blocks} (h : ∀ t, (b' t).toTbCode = (b t).toTbCode) :
    HitTwice b' start last i t ↔ HitTwice b start last i t := by
  rw [HitTwice, HitTwice, onPage_code (h t), onPage_code (h t), tbHit_congr h, tbHit_congr h]

/-- The links of a block on a page. -/
theorem entries_cases (b : Blocks) {n : Fin 2} (hn : OnPage (b t) n i) :
    (∃ n, entries b i t = [(t, n)]) ∨ entries b i t = [(t, 1), (t, 0)] ∧ OnPage (b t) 0 i ∧ OnPage (b t) 1 i := by
  by_cases h0 : OnPage (b t) 0 i <;> by_cases h1 : OnPage (b t) 1 i
  · exact .inr ⟨by simp [entries, h0, h1], h0, h1⟩
  · exact .inl ⟨0, by simp [entries, h0, h1]⟩
  · exact .inl ⟨1, by simp [entries, h0, h1]⟩
  · fin_cases n
    · exact absurd hn h0
    · exact absurd hn h1

theorem hitTbs_append (b : Blocks) (l r : List PageLink) :
    hitTbs b start last (l ++ r) = hitTbs b start last l ++ hitTbs b start last r := by
  simp [hitTbs]

/-- A block that is not hit twice is hit under none of its links, or under one. -/
theorem hitTbs_entries {b : Blocks} (hself : ¬ HitTwice b start last i t) :
    hitTbs b start last (entries b i t) = [] ∨ hitTbs b start last (entries b i t) = [t] := by
  unfold hitTbs entries
  by_cases h1 : OnPage (b t) 1 i ∧ TbHit b start last (t, 1)
  · obtain ⟨hon1, hhit1⟩ := h1
    right
    by_cases hon : OnPage (b t) 0 i
    · have hmiss : ¬ TbHit b start last (t, 0) := fun hhit => hself ⟨⟨hon, hhit⟩, hon1, hhit1⟩
      simp [hon1, hhit1, hon, hmiss]
    · simp [hon1, hhit1, hon]
  · have hfirst : ((if OnPage (b t) 1 i then [((t, 1) : PageLink)] else []).filter
        fun e => TbHit b start last e) = [] := by
      split_ifs with hon
      · have hmiss : ¬ TbHit b start last (t, 1) := fun hhit => h1 ⟨hon, hhit⟩
        simp [hmiss]
      · rfl
    rw [filter_append, hfirst, nil_append]
    by_cases hon : OnPage (b t) 0 i <;> by_cases hhit : TbHit b start last (t, 0) <;> simp [hon, hhit]

/-- A hit of a block in the list of the page. -/
theorem TbsOK.hit_front {steps : ℕ} {A B : List ℕ} (h : TbsOK s L) (hpages : L.pages i = A ++ t :: B)
    (hsteps : 2 * L.live.card < steps) : (∃ n, OnPage (s.tb t) n i) ∧ ∃ s₁, s.invalidateHit steps t = some s₁ ∧
      TbsOK s₁ (L.afterHit s.interrupted t) ∧ s₁.interrupted = none ∧ HitBy s s₁ t (t ∈ L.pages ·) ∧
      (L.afterHit s.interrupted t).pages i = A ++ B ∧ t ∉ (L.afterHit s.interrupted t).live ∧
      2 * (L.afterHit s.interrupted t).live.card < steps := by
  have ht : t ∈ L.pages i := by simp [hpages]
  obtain ⟨hlive, hon⟩ := (h.mem_page i t).1 ht
  have hnd := h.pageNodup i
  rw [hpages] at hnd
  have htA : t ∉ A := fun hmem => disjoint_of_nodup_append hnd hmem mem_cons_self
  obtain ⟨s₁, hrun, hok, hquiet, hby⟩ := invalidateHit_ok h hlive hsteps
  have hcard := Finset.card_le_card (Finset.erase_subset t L.live)
  refine ⟨hon, s₁, hrun, hok, hquiet, hby, ?_, ?_, ?_⟩
  · rw [afterHit_pages, TbLists.drop_pages, hpages, erase_append_right _ htA, erase_cons_head]
  · rw [afterHit_live]
    exact Finset.notMem_erase t L.live
  · rw [afterHit_live]
    omega

/-- **The walk along the links of one block** that is not hit twice goes on behind them, and if the block is hit it
does so in the lists that the block has left. -/
theorem invalidateWalk_block {s₁ : TbState} {steps : ℕ} {A B : List ℕ} (h : TbsOK s L)
    (hpages : L.pages i = A ++ t :: B)
    (hself : ¬ HitTwice s.tb start last i t) (hon : ∃ n, OnPage (s.tb t) n i)
    (hrun₁ : s.invalidateHit steps t = some s₁) (hby₁ : HitBy s s₁ t (t ∈ L.pages ·)) :
    ∃ k, k ≤ 2 ∧ (∀ fuel < k, invalidateWalk steps start last fuel s (pageLinks s.tb i (t :: B)).head? = none) ∧
      ∀ fuel, invalidateWalk steps start last (fuel + k) s (pageLinks s.tb i (t :: B)).head? =
        if hitTbs s.tb start last (entries s.tb i t) = [] then
          invalidateWalk steps start last fuel s (pageLinks s.tb i B).head?
        else (invalidateWalk steps start last fuel s₁ (pageLinks s.tb i B).head?).map fun r => (r.1, t :: r.2) := by
  obtain ⟨n, hn⟩ := hon
  have hlinks : pageLinks s.tb i (t :: B) = entries s.tb i t ++ pageLinks s.tb i B := rfl
  -- from the last link of the block on
  have hlast : ∀ (l : List PageLink) (n : Fin 2) (fuel : ℕ), entries s.tb i t = l ++ [(t, n)] →
      invalidateWalk steps start last (fuel + 1) s (some (t, n)) =
        if TbHit s.tb start last (t, n) then
          (invalidateWalk steps start last fuel s₁ (pageLinks s.tb i B).head?).map fun r => (r.1, t :: r.2)
        else invalidateWalk steps start last fuel s (pageLinks s.tb i B).head? := by
    intro l n fuel hentries
    have hnext : (s.tb t).pageNext n = (pageLinks s.tb i B).head? := h.next_link hpages hentries
    split_ifs with hhit
    · rw [invalidateWalk_hit hhit hrun₁, hnext]
    · rw [invalidateWalk_miss hhit, hnext]
  rcases entries_cases s.tb hn with ⟨n, hentries⟩ | ⟨hentries, h0, h1⟩
  · refine ⟨1, by omega, fun fuel hfuel => ?_, fun fuel => ?_⟩
    · rw [Nat.lt_one_iff.1 hfuel]
      rfl
    · rw [hlinks, hentries, singleton_append, List.head?_cons, hlast [] n fuel hentries]
      by_cases hhit : TbHit s.tb start last (t, n) <;> simp [hitTbs, hhit]
  · have hnext : (s.tb t).pageNext 1 = some (t, 0) := h.next_link hpages (l := []) hentries
    rw [hlinks, hentries, cons_append, List.head?_cons]
    by_cases hhit : TbHit s.tb start last (t, 1)
    · -- the second link is passed over in the lists that the block has left
      have hmiss : ¬ TbHit s.tb start last (t, 0) := fun hhit0 => hself ⟨⟨h0, hhit0⟩, h1, hhit⟩
      have hnext₁ : (s₁.tb t).pageNext 0 = (pageLinks s.tb i B).head? := by
        rw [hby₁.pageNext]
        exact h.next_link hpages (l := [(t, 1)]) hentries
      have hskip : ∀ fuel, invalidateWalk steps start last (fuel + 1) s₁ (some (t, 0)) =
          invalidateWalk steps start last fuel s₁ (pageLinks s.tb i B).head? := by
        intro fuel
        rw [invalidateWalk_miss fun hhit0 => hmiss ((tbHit_congr hby₁.code _).1 hhit0), hnext₁]
      refine ⟨2, le_rfl, fun fuel hfuel => ?_, fun fuel => ?_⟩
      · interval_cases fuel
        · rfl
        · rw [invalidateWalk_hit hhit hrun₁, hnext]
          rfl
      · rw [show fuel + 2 = fuel + 1 + 1 from rfl, invalidateWalk_hit hhit hrun₁, hnext, hskip]
        simp [hitTbs, hhit]
    · refine ⟨2, le_rfl, fun fuel hfuel => ?_, fun fuel => ?_⟩
      · interval_cases fuel
        · rfl
        · rw [invalidateWalk_miss hhit, hnext]
          rfl
      · rw [show fuel + 2 = fuel + 1 + 1 from rfl, invalidateWalk_miss hhit, hnext, hlast [(t, 1)] 0 fuel hentries]
        by_cases hhit0 : TbHit s.tb start last (t, 0) <;> simp [hitTbs, hhit, hhit0]

/-- **The walk.** By induction on the blocks that it still has to see, in any state with these blocks in the list. -/
theorem invalidateWalk_ok (start last : TargetUlong) (steps : ℕ) (B : List ℕ) :
    ∀ (A : List ℕ) (s : TbState) (L : TbLists) (fuel : ℕ), TbsOK s L → L.pages i = A ++ B →
    (∀ t ∈ B, ¬ HitTwice s.tb start last i t) → 2 * L.live.card < steps → 2 * B.length < fuel →
    ∃ s', invalidateWalk steps start last fuel s (pageLinks s.tb i B).head? =
        some (s', hitTbs s.tb start last (pageLinks s.tb i B)) ∧
      TbsOK s' (L.afterCalls s.interrupted (hitTbs s.tb start last (pageLinks s.tb i B))) ∧
      WalkedBy s s' L (hitTbs s.tb start last (pageLinks s.tb i B)) := by
  induction B with
  | nil =>
    intro A s L fuel h _ _ _ hfuel
    obtain ⟨m, rfl⟩ := Nat.exists_eq_succ_of_ne_zero (show fuel ≠ 0 by omega)
    exact ⟨s, rfl, h, .refl s L⟩
  | cons t B ih =>
    intro A s L fuel h hpages htwice hsteps hfuel
    obtain ⟨hon, s₁, hrun₁, hok₁, hquiet₁, hby₁, hpages₁, -, hcard⟩ := h.hit_front hpages hsteps
    have hself : ¬ HitTwice s.tb start last i t := htwice t mem_cons_self
    have hB : ∀ t ∈ B, ¬ HitTwice s.tb start last i t := fun u hu => htwice u (mem_cons_of_mem _ hu)
    obtain ⟨k, hk, -, hblock⟩ := invalidateWalk_block h hpages hself hon hrun₁ hby₁
    rw [length_cons] at hfuel
    obtain ⟨m, rfl⟩ : ∃ m, fuel = m + k := ⟨fuel - k, by omega⟩
    rw [hblock, show pageLinks s.tb i (t :: B) = entries s.tb i t ++ pageLinks s.tb i B from rfl, hitTbs_append]
    rcases hitTbs_entries hself with hmiss | hhit
    · rw [if_pos hmiss, hmiss, nil_append]
      exact ih (A ++ [t]) s L m h (by simp [hpages]) hB hsteps (by omega)
    · rw [if_neg (by simp [hhit]), hhit, singleton_append]
      have hB₁ : ∀ t ∈ B, ¬ HitTwice s₁.tb start last i t := by
        intro u hu
        rw [hitTwice_congr hby₁.code]
        exact hB u hu
      obtain ⟨s', hrun, hok, hwalk⟩ := ih A s₁ _ m hok₁ hpages₁ hB₁ hcard (by omega)
      rw [hquiet₁] at hok
      simp only [hitTbs_congr hby₁.code, pageLinks_congr hby₁.code] at hrun hok hwalk
      refine ⟨s', ?_, hok, hwalk.cons h hby₁⟩
      rw [hrun]
      rfl

/-- **A block that is hit twice.** The second call for it follows a null pointer. -/
theorem invalidateWalk_twice {steps : ℕ} (B : List ℕ) :
    ∀ (A : List ℕ) (s : TbState) (L : TbLists) (fuel : ℕ), TbsOK s L →
    L.pages i = A ++ B → (∃ t ∈ B, HitTwice s.tb start last i t) → 2 * L.live.card < steps →
    invalidateWalk steps start last fuel s (pageLinks s.tb i B).head? = none := by
  induction B with
  | nil =>
    rintro A s L fuel h hpages ⟨t, ht, -⟩
    exact absurd ht not_mem_nil
  | cons t B ih =>
    intro A s L fuel h hpages htwice hsteps
    obtain ⟨hon, s₁, hrun₁, hok₁, -, hby₁, hpages₁, hdead, hcard⟩ := h.hit_front hpages hsteps
    by_cases hself : HitTwice s.tb start last i t
    · -- the second link of the block is hit in the lists that it has left
      obtain ⟨⟨h0, hhit0⟩, h1, hhit1⟩ := hself
      have hentries : entries s.tb i t = [(t, 1), (t, 0)] := by simp [entries, h0, h1]
      have hnext : (s.tb t).pageNext 1 = some (t, 0) := h.next_link hpages (l := []) hentries
      have hsecond : ∀ f, invalidateWalk steps start last f s₁ (some (t, 0)) = none := by
        intro f
        cases f with
        | zero => rfl
        | succ f =>
          rw [invalidateWalk, if_pos ((tbHit_congr hby₁.code _).2 hhit0), invalidateHit_dead hok₁ hdead hcard]
          rfl
      rw [show pageLinks s.tb i (t :: B) = entries s.tb i t ++ pageLinks s.tb i B from rfl, hentries, cons_append,
        List.head?_cons]
      cases fuel with
      | zero => rfl
      | succ f =>
        rw [invalidateWalk_hit hhit1 hrun₁, hnext, hsecond]
        rfl
    · obtain ⟨u, hu, hu2⟩ : ∃ t ∈ B, HitTwice s.tb start last i t := by
        obtain ⟨u, hu, hu2⟩ := htwice
        rcases mem_cons.1 hu with rfl | hu
        · exact absurd hu2 hself
        · exact ⟨u, hu, hu2⟩
      obtain ⟨k, -, hshort, hblock⟩ := invalidateWalk_block h hpages hself hon hrun₁ hby₁
      rcases lt_or_ge fuel k with hlt | hge
      · exact hshort fuel hlt
      · obtain ⟨m, rfl⟩ := Nat.exists_eq_add_of_le' hge
        rw [hblock]
        split_ifs
        · exact ih (A ++ [t]) s L m h (by simp [hpages]) ⟨u, hu, hu2⟩ hsteps
        · have htail := ih A s₁ _ m hok₁ hpages₁ ⟨u, hu, (hitTwice_congr hby₁.code).2 hu2⟩ hcard
          rw [pageLinks_congr hby₁.code] at htail
          rw [htail]
          rfl

theorem mem_hitTbs {b : Blocks} {B : List ℕ} :
    t ∈ hitTbs b start last (pageLinks b i B) ↔ t ∈ B ∧ ∃ n, OnPage (b t) n i ∧ TbHit b start last (t, n) := by
  simp only [hitTbs, List.mem_map, mem_filter, decide_eq_true_eq, pageLinks, mem_flatMap, mem_entries]
  constructor
  · rintro ⟨⟨u, n⟩, ⟨⟨v, hv, rfl, hon⟩, hhit⟩, rfl⟩
    exact ⟨hv, n, hon, hhit⟩
  · rintro ⟨ht, n, hon, hhit⟩
    exact ⟨(t, n), ⟨⟨t, ht, rfl, hon⟩, hhit⟩, rfl⟩

/-- If no block is hit twice, each call is for another block. -/
theorem nodup_hitTbs {b : Blocks} {B : List ℕ} (hB : B.Nodup) (htwice : ∀ t ∈ B, ¬ HitTwice b start last i t) :
    (hitTbs b start last (pageLinks b i B)).Nodup := by
  induction B with
  | nil => exact nodup_nil
  | cons t B ih =>
    obtain ⟨htB, hB⟩ := nodup_cons.1 hB
    rw [show pageLinks b i (t :: B) = entries b i t ++ pageLinks b i B from rfl, hitTbs_append]
    refine List.Nodup.append ?_ (ih hB fun u hu => htwice u (mem_cons_of_mem _ hu)) fun u hu hu' => ?_
    · rcases hitTbs_entries (htwice t mem_cons_self) with hnil | hone
      · rw [hnil]
        exact nodup_nil
      · rw [hone]
        exact nodup_singleton t
    · obtain ⟨e, he, rfl⟩ := List.mem_map.1 hu
      rw [(mem_entries.1 (mem_filter.1 he).1).1] at hu'
      exact htB (mem_hitTbs.1 hu').1

/-- The blocks that a call for the range hits. -/
def hitsOf (s : TbState) (L : TbLists) (start last : TargetUlong) : List ℕ :=
  hitTbs s.tb start last (pageLinks s.tb (pageIndex start) (L.pages (pageIndex start)))

theorem mem_hitsOf (h : TbsOK s L) : t ∈ hitsOf s L start last ↔
    t ∈ L.live ∧ ∃ n, OnPage (s.tb t) n (pageIndex start) ∧ TbHit s.tb start last (t, n) := by
  rw [hitsOf, mem_hitTbs, h.mem_page]
  exact ⟨fun ⟨⟨hl, _⟩, hn⟩ => ⟨hl, hn⟩, fun ⟨hl, n, hon, hhit⟩ => ⟨⟨hl, n, hon⟩, n, hon, hhit⟩⟩

/-- The count of the writes, and the bitmap, which is built for a page that has none. -/
theorem countWrite_ok (h : TbsOK s L) {p : PageDesc} (hp : s.pageFind i = some p) (access : Bool) {fuel : ℕ}
    (hfuel : 2 * L.live.card < fuel) :
    ∃ s₁, s.countWrite fuel i p access = some s₁ ∧ TbsOK s₁ L ∧ SameRest s s₁ ∧ s₁.tb = s.tb ∧
      (∀ j, j ≠ i → s₁.bitmapOf j = s.bitmapOf j) ∧
      ∀ tab, s₁.bitmapOf i = some tab → s.bitmapOf i = some tab ∨
        tab = pageBitmap s.tb (pageLinks s.tb i (L.pages i)) fun _ => 0 := by
  have hlen := h.length_pages_le (i := i)
  have hlinks := length_pageLinks_le (b := s.tb) (i := i) (L.pages i)
  have hhere : (s.pageFind i).isSome := by simp [hp]
  have hfirst : p.firstTb = (pageLinks s.tb i (L.pages i)).head? := by
    have := h.page.read_head hhere
    simpa [pageRead, hp] using this
  have hold : s.bitmapOf i = p.codeBitmap := by simp [bitmapOf, hp]
  have hset : ∀ p' : PageDesc, (s.setPage i p').bitmapOf i = p'.codeBitmap := fun p' => by
    simp [bitmapOf, pageFind_setPage_self, hp]
  by_cases hbitmap : p.codeBitmap.isSome
  · exact ⟨s, by rw [countWrite, if_pos hbitmap], h, .refl s, rfl, fun _ _ => rfl, fun _ htab => .inl htab⟩
  by_cases hbuild : smcBitmapUseThreshold ≤ p.codeWriteCount + 1 ∧ access = true
  · have hrun : buildPageBitmap s.tb fuel p.firstTb (fun _ => 0) =
        some (pageBitmap s.tb (pageLinks s.tb i (L.pages i)) fun _ => 0) := by
      rw [hfirst]
      exact buildPageBitmap_ok h.page hhere (l := []) rfl (by omega)
    refine ⟨s.setPage i ⟨p.firstTb, p.codeWriteCount + 1,
      some (pageBitmap s.tb (pageLinks s.tb i (L.pages i)) fun _ => 0)⟩, ?_,
      h.setPage hp rfl, sameRest_setPage _ _, rfl, fun j hj => bitmapOf_setPage_ne _ hj, fun tab htab => ?_⟩
    · simp only [countWrite, if_neg hbitmap, if_pos hbuild, hrun, bind_eq_bind, bind_some]
      rfl
    · rw [hset] at htab
      exact .inr (Option.some.inj htab).symm
  · refine ⟨s.setPage i { p with codeWriteCount := p.codeWriteCount + 1 }, ?_, h.setPage hp rfl,
      sameRest_setPage _ _, rfl,
      fun j hj => bitmapOf_setPage_ne _ hj, fun tab htab => ?_⟩
    · simp only [countWrite, if_neg hbitmap, if_neg hbuild]
    · rw [hset] at htab
      exact .inl (hold.trans htab)

/-- A page without blocks loses its bitmap. -/
theorem endSlowWrites_ok (h : TbsOK s L) (start : TargetUlong) (hp : (s.pageFind (pageIndex start)).isSome)
    {access : Bool}
    (henv : access → s.cpuSingleEnv.isSome) :
    ∃ s', s.endSlowWrites start access = some s' ∧ TbsOK s' L ∧ s'.tb = s.tb ∧
      (∀ j, j ≠ pageIndex start → s'.bitmapOf j = s.bitmapOf j) ∧
      ∀ tab, s'.bitmapOf (pageIndex start) = some tab →
        s.bitmapOf (pageIndex start) = some tab ∧ L.pages (pageIndex start) ≠ [] := by
  have hhead := h.page.read_head hp
  obtain ⟨p, hp⟩ := isSome_iff_exists.1 hp
  have hfirst : p.firstTb = (pageLinks s.tb (pageIndex start) (L.pages (pageIndex start))).head? := by
    simpa [pageRead, hp] using hhead
  by_cases hsome : p.firstTb.isSome
  · refine ⟨s, ?_, h, rfl, fun _ _ => rfl, fun tab htab => ⟨htab, fun hnil => ?_⟩⟩
    · simp [endSlowWrites, hp, hsome]
    · rw [hfirst, hnil] at hsome
      cases hsome
  · have hok : TbsOK (s.setPage (pageIndex start) (invalidatePageBitmap p)) L := h.setPage hp rfl
    have hnone : (s.setPage (pageIndex start) (invalidatePageBitmap p)).bitmapOf (pageIndex start) = none := by
      simp [bitmapOf, pageFind_setPage_self, hp, invalidatePageBitmap]
    cases access with
    | false =>
      refine ⟨s.setPage (pageIndex start) (invalidatePageBitmap p), ?_, hok, rfl, fun j hj => bitmapOf_setPage_ne _ hj,
        fun tab htab => ?_⟩
      · simp [endSlowWrites, hp, hsome]
      · rw [hnone] at htab
        cases htab
    | true =>
      obtain ⟨env, henv⟩ := isSome_iff_exists.1 (henv rfl)
      refine ⟨(s.setPage (pageIndex start) (invalidatePageBitmap p)).tlbUnprotectCodePhys start, ?_, ?_, rfl,
        fun j hj => ?_, fun tab htab => ?_⟩
      · have henv' : (s.setPage (pageIndex start) (invalidatePageBitmap p)).cpuSingleEnv = some env := henv
        simp [endSlowWrites, hp, hsome, henv']
      · exact ⟨hok.jumps, hok.placed, hok.hash, hok.mem_hash, hok.page, hok.pageNodup, hok.mem_page,
          hok.present, hok.current⟩
      · exact bitmapOf_setPage_ne _ hj
      · exact absurd (hnone.symm.trans htab) (by simp)

/-- A page that is not there has no block. -/
theorem hitsOf_none (h : TbsOK s L) (hp : s.pageFind (pageIndex start) = none) : hitsOf s L start last = [] := by
  have hnil : L.pages (pageIndex start) = [] := by
    refine eq_nil_iff_forall_not_mem.2 fun t ht => ?_
    have := h.present _ t ht
    rw [hp] at this
    cases this
  rw [hitsOf, hnil]
  rfl

theorem afterCalls_pages (interrupted : Option ℕ) {calls : List ℕ} {j : ℕ} (hcalls : ∀ u ∈ calls, u ∉ L.pages j) :
    (L.afterCalls interrupted calls).pages j = L.pages j := by
  induction calls generalizing L interrupted with
  | nil => rfl
  | cons t calls ih =>
    have ht : (L.afterHit interrupted t).pages j = L.pages j := by
      rw [afterHit_pages, TbLists.drop_pages, erase_of_not_mem (hcalls t mem_cons_self)]
    rw [TbLists.afterCalls, ih, ht]
    intro u hu
    rw [ht]
    exact hcalls u (mem_cons_of_mem _ hu)

theorem afterCalls_live (interrupted : Option ℕ) {calls : List ℕ} :
    t ∈ (L.afterCalls interrupted calls).live ↔ t ∈ L.live ∧ t ∉ calls := by
  induction calls generalizing L interrupted with
  | nil => simp [TbLists.afterCalls]
  | cons u calls ih =>
    rw [TbLists.afterCalls, ih, afterHit_live, Finset.mem_erase, mem_cons]
    tauto

/-- **What a call does** if no block is hit twice. -/
theorem tbInvalidatePhysPageRange_ok (h : TbsOK s L)
    (htwice : ∀ t ∈ L.live, ¬ HitTwice s.tb start last (pageIndex start) t)
    {access : Bool} (henv : access → s.cpuSingleEnv.isSome) {fuel : ℕ} (hfuel : 2 * L.live.card < fuel) :
    ∃ s', s.tbInvalidatePhysPageRange fuel start last access = some (s', hitsOf s L start last) ∧
      TbsOK s' (L.afterCalls s.interrupted (hitsOf s L start last)) ∧ (∀ u, (s'.tb u).toTbCode = (s.tb u).toTbCode) ∧
      (BitmapsOK s L → BitmapsOK s' (L.afterCalls s.interrupted (hitsOf s L start last))) := by
  cases hp : s.pageFind (pageIndex start) with
  | none =>
    refine ⟨s, ?_, ?_, fun _ => rfl, ?_⟩
    · rw [tbInvalidatePhysPageRange, hp, hitsOf_none h hp]
    · rw [hitsOf_none h hp]
      exact h
    · rw [hitsOf_none h hp]
      exact id
  | some p =>
    obtain ⟨s₁, hrun₁, hok₁, hrest₁, htb₁, hother₁, hbitmap₁⟩ := countWrite_ok h hp access hfuel
    have hint₁ : s₁.interrupted = s.interrupted := by
      rw [interrupted, interrupted, hrest₁.env, hrest₁.cpus, hrest₁.icount]
    have hlen := h.length_pages_le (i := pageIndex start)
    have hhere : (s.pageFind (pageIndex start)).isSome := by simp [hp]
    obtain ⟨s₂, hrun₂, hok₂, hwalk₂⟩ :=
      invalidateWalk_ok start last fuel (L.pages (pageIndex start)) [] s₁ L fuel hok₁ rfl
      (fun t ht => by rw [htb₁]; exact htwice t ((h.mem_page _ t).1 ht).1) hfuel (by omega)
    rw [htb₁] at hrun₂ hok₂ hwalk₂
    rw [hint₁] at hok₂
    have hfirst : p.firstTb = (pageLinks s.tb (pageIndex start) (L.pages (pageIndex start))).head? := by
      have := h.page.read_head hhere
      simpa [pageRead, hp] using this
    obtain ⟨s₃, hrun₃, hok₃, htb₃, hother₃, hbitmap₃⟩ := endSlowWrites_ok hok₂ start
      (by rw [hwalk₂.pages, hrest₁.pages, hp]; rfl)
      (fun ha => by rw [hwalk₂.env, hrest₁.env]; exact henv ha)
    have hcode : ∀ u, (s₃.tb u).toTbCode = (s.tb u).toTbCode := by
      intro u
      rw [htb₃, hwalk₂.code u, htb₁]
    refine ⟨s₃, ?_, hok₃, hcode, fun hbitmaps j tab htab => ?_⟩
    · rw [tbInvalidatePhysPageRange, hp]
      simp only [hrun₁, hfirst, hrun₂, hrun₃, bind_eq_bind, bind_some]
      rfl
    · by_cases hj : j = pageIndex start
      · subst hj
        obtain ⟨htab₂, hne⟩ := hbitmap₃ tab htab
        obtain ⟨htab₁, hcalls⟩ := hwalk₂.bitmap _ tab htab₂
        have hpages : (L.afterCalls s.interrupted (hitsOf s L start last)).pages (pageIndex start) =
          L.pages (pageIndex start) := afterCalls_pages s.interrupted hcalls
        rw [hpages]
        refine ⟨hpages ▸ hne, BitmapCovers.congr ?_ hcode⟩
        rcases hbitmap₁ tab htab₁ with hold | rfl
        · exact (hbitmaps _ tab hold).2
        · exact bitmapCovers_pageBitmap (fun t ht => h.placed t ((h.mem_page _ t).1 ht).1) _
      · rw [hother₃ j hj] at htab
        obtain ⟨htab₁, hcalls⟩ := hwalk₂.bitmap j tab htab
        rw [hother₁ j hj] at htab₁
        obtain ⟨hne, hcovers⟩ := hbitmaps j tab htab₁
        have hpages : (L.afterCalls s.interrupted (hitsOf s L start last)).pages j = L.pages j :=
          afterCalls_pages s.interrupted hcalls
        rw [hpages]
        exact ⟨hne, hcovers.congr hcode⟩

/-- **A call that hits a block twice** follows a null pointer. -/
theorem tbInvalidatePhysPageRange_twice (h : TbsOK s L) (ht : t ∈ L.live)
    (htwice : HitTwice s.tb start last (pageIndex start) t) (access : Bool) {fuel : ℕ}
      (hfuel : 2 * L.live.card < fuel) :
    s.tbInvalidatePhysPageRange fuel start last access = none := by
  have hmem : t ∈ L.pages (pageIndex start) := (h.mem_page _ t).2 ⟨ht, 0, htwice.1.1⟩
  have hhere := h.present _ t hmem
  obtain ⟨p, hp⟩ := isSome_iff_exists.1 hhere
  obtain ⟨s₁, hrun₁, hok₁, -, htb₁, -, -⟩ := countWrite_ok h hp access hfuel
  have hfirst : p.firstTb = (pageLinks s.tb (pageIndex start) (L.pages (pageIndex start))).head? := by
    have := h.page.read_head hhere
    simpa [pageRead, hp] using this
  have hwalk := invalidateWalk_twice (L.pages (pageIndex start)) [] s₁ L fuel hok₁ rfl ⟨t, hmem, htb₁ ▸ htwice⟩ hfuel
  rw [htb₁] at hwalk
  rw [tbInvalidatePhysPageRange, hp]
  simp only [hrun₁, hfirst, hwalk, bind_eq_bind, bind_some, bind_none]

end Emulator.Exec
