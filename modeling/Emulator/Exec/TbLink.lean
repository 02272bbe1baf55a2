import Emulator.Exec.TbInvariant
import Emulator.Exec.CodeBitmap

/-!
# Putting a block in

* `TbState.tbAllocPage_ok`: the list of a page gets a link of the block.
* `TbState.tbLinkPhys_ok`: a block comes in, under its hash value and on its pages.
* `TbState.tbFlush_ok`: all blocks are gone.
-/

namespace Emulator.Exec

open Function Blocks List Option

variable {s s' : TbState} {L : TbLists} {i t : ℕ}

/-- What `tb_gen_code` links: the pages are those of the first and, if it needs one, of the last octet. -/
structure Linkable (t : TbCode) (physPc physPage2 : TargetUlong) : Prop where
  size_pos : 0 < t.size
  size_le : t.size ≤ 1024
  offset : pageOffset physPc = pageOffset t.pc
  single : (pageOffset t.pc).toNat + t.size ≤ 1024 → physPage2 = -1
  second : 1024 < (pageOffset t.pc).toNat + t.size → pageOffset physPage2 = 0

/-- The lists with the block `t`, whose code is in `b`. -/
def TbLists.insert (L : TbLists) (b : Blocks) (t h : ℕ) : TbLists where
  live := Insert.insert t L.live
  hashes := update L.hashes h (t :: L.hashes h)
  pages i := if ∃ n, OnPage (b t) n i then t :: L.pages i else L.pages i
  ring := update L.ring t []

def TbLists.empty : TbLists := ⟨∅, fun _ => [], fun _ => [], fun _ => []⟩

variable {b : Blocks}

theorem TbLists.insert_pages_on {h : ℕ} (hi : ∃ n, OnPage (b t) n i) :
    (L.insert b t h).pages i = t :: L.pages i := if_pos hi

theorem TbLists.insert_pages_off {h : ℕ} (hi : ¬ ∃ n, OnPage (b t) n i) :
    (L.insert b t h).pages i = L.pages i := if_neg hi

theorem TbLists.mem_insert_hashes {h j u : ℕ} :
    u ∈ (L.insert b t h).hashes j ↔ u ∈ L.hashes j ∨ u = t ∧ j = h := by
  by_cases hj : j = h
  · subst hj
    simp [TbLists.insert, or_comm]
  · simp [TbLists.insert, hj]

theorem TbLists.mem_insert_pages {h u : ℕ} :
    u ∈ (L.insert b t h).pages i ↔ u ∈ L.pages i ∨ u = t ∧ ∃ n, OnPage (b t) n i := by
  by_cases hi : ∃ n, OnPage (b t) n i
  · rw [TbLists.insert_pages_on hi, mem_cons, or_comm, and_iff_left hi]
  · rw [TbLists.insert_pages_off hi]
    exact ⟨.inl, fun hu => hu.resolve_right fun hu => hi hu.2⟩

theorem TbLists.nodup_insert_pages {h : ℕ} (hnd : (L.pages i).Nodup) (ht : t ∉ L.pages i) :
    ((L.insert b t h).pages i).Nodup := by
  by_cases hi : ∃ n, OnPage (b t) n i
  · rw [TbLists.insert_pages_on hi]
    exact nodup_cons.2 ⟨ht, hnd⟩
  · rw [TbLists.insert_pages_off hi]
    exact hnd

/-- The links of the block come in front. -/
theorem pageLinks_insert {h : ℕ} :
    pageLinks b i ((L.insert b t h).pages i) = entries b i t ++ pageLinks b i (L.pages i) := by
  by_cases hi : ∃ n, OnPage (b t) n i
  · rw [TbLists.insert_pages_on hi]
    rfl
  · have hnone : entries b i t = [] := by
      push Not at hi
      rw [entries, if_neg (hi 1), if_neg (hi 0)]
      rfl
    rw [TbLists.insert_pages_off hi, hnone, nil_append]

theorem onPage_iff {c : TranslationBlock} {n : Fin 2} {a : TargetUlong} (haddr : c.pageAddr n = a) (ha : a ≠ -1) :
    OnPage c n i ↔ pageIndex a = i := by
  rw [OnPage, haddr]
  exact and_iff_right ha

theorem and_not_add_and {w : ℕ} (a m : BitVec w) : (a &&& ~~~ m) + (a &&& m) = a := by
  have hdisjoint : (a &&& ~~~ m) &&& (a &&& m) = 0#w := by
    ext j hj
    simp only [BitVec.getElem_and, BitVec.getElem_not, BitVec.getElem_zero]
    cases a[j] <;> cases m[j] <;> rfl
  rw [BitVec.add_eq_or_of_and_eq_zero _ _ hdisjoint]
  ext j hj
  simp only [BitVec.getElem_or, BitVec.getElem_and, BitVec.getElem_not]
  cases a[j] <;> cases m[j] <;> rfl

namespace TbState

theorem pageFind_pageFindAlloc (i j : ℕ) : (s.pageFindAlloc i).pageFind j =
    if s.l1Map (i / 1024) = none ∧ j / 1024 = i / 1024 then some ⟨none, 0, none⟩ else s.pageFind j := by
  unfold pageFindAlloc
  cases hl1 : s.l1Map (i / 1024) with
  | some table => simp
  | none =>
    by_cases hj : j / 1024 = i / 1024
    · simp [pageFind, hj]
    · simp [pageFind, hj]

/-- A page that was there stays as it is. -/
theorem pageFindAlloc_kept {i j : ℕ} (hj : (s.pageFind j).isSome) : (s.pageFindAlloc i).pageFind j = s.pageFind j := by
  rw [pageFind_pageFindAlloc, if_neg]
  rintro ⟨hnone, hji⟩
  simp [pageFind, hji, hnone] at hj

/-- A page that was not there is empty. -/
theorem pageFindAlloc_new {i j : ℕ} (hj : ((s.pageFindAlloc i).pageFind j).isSome) (hnone : ¬ (s.pageFind j).isSome) :
    (s.pageFindAlloc i).pageFind j = some ⟨none, 0, none⟩ := by
  rw [pageFind_pageFindAlloc] at hj ⊢
  split_ifs at hj ⊢ with hcond
  · rfl
  · exact absurd hj hnone

theorem pageFindAlloc_here (s : TbState) (i : ℕ) : ((s.pageFindAlloc i).pageFind i).isSome := by
  rw [pageFind_pageFindAlloc]
  split_ifs with hcond
  · rfl
  · have hsome : s.l1Map (i / 1024) ≠ none := fun hnone => hcond ⟨hnone, rfl⟩
    obtain ⟨table, htable⟩ := ne_none_iff_exists'.1 hsome
    simp [pageFind, htable]

/-- What the link of a page leaves alone. The page has no bitmap. -/
structure AllocatedBy (s s' : TbState) (t : ℕ) (n : Fin 2) (pageAddr : TargetUlong) : Prop where
  code : (s'.tb t).toTbCode = { (s.tb t).toTbCode with pageAddr := update (s.tb t).pageAddr n pageAddr }
  others : ∀ u, u ≠ t → (s'.tb u).toTbCode = (s.tb u).toTbCode
  jumps : ∀ u, (s'.tb u).toTbJumps = (s.tb u).toTbJumps
  hash : s'.hashRead = s.hashRead
  cpus : s'.cpus = s.cpus
  here : (s'.pageFind (pageIndex pageAddr)).isSome
  pages : ∀ j, (s.pageFind j).isSome → (s'.pageFind j).isSome
  dropped : s'.bitmapOf (pageIndex pageAddr) = none
  bitmap : ∀ j, j ≠ pageIndex pageAddr → s'.bitmapOf j = s.bitmapOf j

/-- The list of the page gets the link. -/
theorem tbAllocPage_ok {lists : ℕ → List PageLink} (h : LinkedLists s.pageRead (fun i => (s.pageFind i).isSome) lists)
    (hpresent : ∀ i, s.pageFind i = none → lists i = []) {n : Fin 2} (hfresh : ∀ i, (t, n) ∉ lists i)
    (pageAddr : TargetUlong) :
    ∃ s', s.tbAllocPage t n pageAddr = some s' ∧
      LinkedLists s'.pageRead (fun i => (s'.pageFind i).isSome)
        (update lists (pageIndex pageAddr) ((t, n) :: lists (pageIndex pageAddr))) ∧
      AllocatedBy s s' t n pageAddr := by
  obtain ⟨i, hi⟩ : ∃ i, pageIndex pageAddr = i := ⟨_, rfl⟩
  obtain ⟨b, hb⟩ : ∃ b : Blocks, update s.tb t
      { s.tb t with pageAddr := update (s.tb t).pageAddr n pageAddr } = b := ⟨_, rfl⟩
  obtain ⟨s₁, hs₁⟩ : ∃ s₁, ({ s with tb := b } : TbState).pageFindAlloc i = s₁ := ⟨_, rfl⟩
  have hsame₁ : s₁.tb = b ∧ s₁.tbPhysHash = s.tbPhysHash ∧ s₁.cpus = s.cpus := by
    rw [← hs₁, pageFindAlloc]
    split <;> exact ⟨rfl, rfl, rfl⟩
  have hlinks : ∀ u, (b u).toTbPhysLinks = (s.tb u).toTbPhysLinks := by
    intro u
    rw [← hb]
    by_cases hu : u = t
    · subst hu
      simp
    · simp [hu]
  have hnode₁ : ∀ e, s₁.pageRead (.inr e) = s.pageRead (.inr e) := by
    intro e
    simp only [pageRead, hsame₁.1, congrArg TbPhysLinks.pageNext (hlinks e.1)]
  have hkept₁ : ∀ j, (s.pageFind j).isSome → s₁.pageFind j = s.pageFind j := by
    intro j hj
    rw [← hs₁]
    exact pageFindAlloc_kept (s := { s with tb := b }) hj
  have hnew₁ : ∀ j, (s₁.pageFind j).isSome → ¬ (s.pageFind j).isSome → s₁.pageFind j = some ⟨none, 0, none⟩ := by
    intro j hj hnone
    rw [← hs₁] at hj ⊢
    exact pageFindAlloc_new (s := { s with tb := b }) hj hnone
  have h₁ : LinkedLists s₁.pageRead (fun i => (s₁.pageFind i).isSome) lists := by
    refine h.grow hnode₁ (fun j hj => ?_) fun j hj hnone => ⟨?_, hpresent j (by simpa using hnone)⟩
    · simp only [pageRead, hkept₁ j hj]
    · simp only [pageRead, hnew₁ j hj hnone, map_some]
  have hhere : (s₁.pageFind i).isSome := hs₁ ▸ pageFindAlloc_here _ i
  obtain ⟨p, hp⟩ := isSome_iff_exists.1 hhere
  obtain ⟨s₂, hs₂⟩ : ∃ s₂, s₁.setPageLink (.inr (t, n)) p.firstTb = s₂ := ⟨_, rfl⟩
  have hp₂ : s₂.pageFind i = some p := by
    rw [← hs₂]
    exact hp
  obtain ⟨s₃, hs₃⟩ : ∃ s₃, s₂.setPage i (invalidatePageBitmap { p with firstTb := some (t, n) }) = s₃ := ⟨_, rfl⟩
  obtain ⟨s', hs'⟩ : ∃ s', (if p.firstTb.isNone then s₃.tlbProtectCode pageAddr else s₃) = s' := ⟨_, rfl⟩
  have hsame : s'.tb = s₃.tb ∧ s'.tbPhysHash = s₃.tbPhysHash ∧ s'.cpus = s₃.cpus ∧ s'.l1Map = s₃.l1Map := by
    rw [← hs']
    split_ifs <;> exact ⟨rfl, rfl, rfl, rfl⟩
  have hfind : ∀ j, s'.pageFind j = s₃.pageFind j := fun j => by rw [pageFind, hsame.2.2.2, pageFind]
  have hread : s'.pageRead = s₃.pageRead := pageRead_congr (fun u => by rw [hsame.1]) hsame.2.2.2
  have hread₂ : s₂.pageRead = update s₁.pageRead (.inr (t, n)) (s₁.pageRead (.inl i)) := by
    have hold : s₁.pageRead (.inr (t, n)) = some ((s₁.tb t).pageNext n) := rfl
    rw [← hs₂, pageRead_setPageLink hold]
    simp [pageRead, hp]
  have hread₃ : s₃.pageRead =
    update (update s₁.pageRead (.inr (t, n)) (s₁.pageRead (.inl i))) (.inl i)
      (some (some (t, n))) := by
    rw [← hs₃, pageRead_setPage_update hp₂, hread₂]
    rfl
  have hisSome : ∀ j, (s'.pageFind j).isSome = (s₁.pageFind j).isSome := by
    intro j
    rw [hfind, ← hs₃, pageFind_isSome_setPage, ← hs₂]
    rfl
  have htb : s'.tb = b.setPageNext (t, n) p.firstTb := by
    rw [hsame.1, ← hs₃, ← hs₂, ← hsame₁.1]
    rfl
  have hcode : ∀ u, (s'.tb u).toTbCode = (b u).toTbCode ∧ (s'.tb u).toTbJumps = (b u).toTbJumps := by
    intro u
    rw [htb, setPageNext]
    by_cases hu : u = t
    · subst hu
      simp
    · simp [hu]
  refine ⟨s', ?_, ?_, ⟨?_, fun u hu => ?_, fun u => ?_, ?_, ?_, ?_, fun j hj => ?_, ?_, fun j hj => ?_⟩⟩
  · simp only [tbAllocPage, hb, hi, hs₁, hp, bind_eq_bind, bind_some]
    rw [← hs', ← hs₃, ← hs₂]
    rfl
  · rw [hi, hread, hread₃]
    simp only [hisSome]
    exact h₁.push hfresh rfl
  · rw [(hcode t).1, ← hb]
    simp
  · rw [(hcode u).1, ← hb, update_of_ne hu]
  · rw [(hcode u).2, ← hb]
    by_cases hu : u = t
    · subst hu
      simp
    · simp [hu]
  · have hhash : s'.hashRead = s₂.hashRead := hashRead_congr (fun u => by rw [hsame.1, ← hs₃]; rfl)
      (by rw [hsame.2.1, ← hs₃]; rfl)
    rw [hhash, ← hs₂, hashRead_setPageLink]
    exact hashRead_congr (fun u => by rw [hsame₁.1]; exact hlinks u) hsame₁.2.1
  · rw [hsame.2.2.1, ← hs₃, ← hs₂, ← hsame₁.2.2]
    rfl
  · rw [hi, hisSome]
    exact hhere
  · rw [hisSome, hkept₁ j hj]
    exact hj
  · rw [hi, bitmapOf, hfind, ← hs₃, pageFind_setPage_self, hp₂]
    rfl
  · rw [hi] at hj
    have hbitmap : s'.bitmapOf j = s₁.bitmapOf j := by
      rw [bitmapOf, hfind, ← hs₃, pageFind_setPage_ne _ hj, ← hs₂]
      rfl
    rw [hbitmap, bitmapOf, bitmapOf]
    by_cases hold : (s.pageFind j).isSome
    · rw [hkept₁ j hold]
    · rw [not_isSome_iff_eq_none.1 hold]
      by_cases hnew : (s₁.pageFind j).isSome
      · rw [hnew₁ j hnew hold]
        rfl
      · rw [not_isSome_iff_eq_none.1 hnew]

/-- Both pages: what the two steps of `tb_link_phys` for them leave alone. -/
structure PagesLinked (s s' : TbState) (t : ℕ) : Prop where
  others : ∀ u, u ≠ t → (s'.tb u).toTbCode = (s.tb u).toTbCode
  jumps : ∀ u, (s'.tb u).toTbJumps = (s.tb u).toTbJumps
  hash : s'.hashRead = s.hashRead
  cpus : s'.cpus = s.cpus
  here : ∀ n i, OnPage (s'.tb t) n i → (s'.pageFind i).isSome
  pages : ∀ i, (s.pageFind i).isSome → (s'.pageFind i).isSome
  dropped : ∀ n i, OnPage (s'.tb t) n i → s'.bitmapOf i = none
  bitmap : ∀ i, (∀ n, ¬ OnPage (s'.tb t) n i) → s'.bitmapOf i = s.bitmapOf i

theorem linkPages_ok {lists : ℕ → List PageLink} (h : LinkedLists s.pageRead (fun i => (s.pageFind i).isSome) lists)
    (hpresent : ∀ i, s.pageFind i = none → lists i = []) (hfresh : ∀ i n, (t, n) ∉ lists i) {page0 : TargetUlong}
    (hzero : page0 ≠ -1) (page1 : TargetUlong) :
    ∃ s₁ s₂, s.tbAllocPage t 0 page0 = some s₁ ∧
      (if page1 ≠ -1 then s₁.tbAllocPage t 1 page1
        else some { s₁ with
          tb := update s₁.tb t
            { s₁.tb t with pageAddr := update (s₁.tb t).pageAddr 1 (-1) } }) = some s₂ ∧
      (s₂.tb t).toTbCode = { (s.tb t).toTbCode with
        pageAddr := update (update (s.tb t).pageAddr 0 page0) 1 page1 } ∧
      LinkedLists s₂.pageRead (fun i => (s₂.pageFind i).isSome) (fun i => entries s₂.tb i t ++ lists i) ∧
      PagesLinked s s₂ t := by
  obtain ⟨s₁, hrun₁, hlists₁, hby₁⟩ := tbAllocPage_ok h hpresent (fun i => hfresh i 0) page0
  by_cases hone : page1 = -1
  · -- the block is on one page
    obtain ⟨b, hb⟩ : ∃ b : Blocks, update s₁.tb t
        { s₁.tb t with pageAddr := update (s₁.tb t).pageAddr 1 (-1) } = b := ⟨_, rfl⟩
    have hcode : (b t).toTbCode = { (s.tb t).toTbCode with
        pageAddr := update (update (s.tb t).pageAddr 0 page0) 1 page1 } := by
      have hpage := congrArg TbCode.pageAddr hby₁.code
      rw [← hb, update_self, hone]
      simp only [hpage]
      rw [hby₁.code]
    have hkept : ∀ u, (b u).toTbPhysLinks = (s₁.tb u).toTbPhysLinks ∧ (b u).toTbJumps = (s₁.tb u).toTbJumps ∧
        (u ≠ t → (b u).toTbCode = (s₁.tb u).toTbCode) := by
      intro u
      rw [← hb]
      by_cases hu : u = t
      · subst hu
        simp
      · simp [hu]
    have haddr : (b t).pageAddr 0 = page0 ∧ (b t).pageAddr 1 = -1 := by
      rw [congrArg TbCode.pageAddr hcode, hone]
      exact ⟨by simp, by simp⟩
    have hon : ∀ n i, OnPage (b t) n i ↔ n = 0 ∧ pageIndex page0 = i := by
      intro n i
      fin_cases n
      · simp [onPage_iff haddr.1 hzero]
      · simp [OnPage, haddr.2]
    have hread : ({ s₁ with tb := b } : TbState).pageRead = s₁.pageRead := pageRead_congr (fun u => (hkept u).1) rfl
    have hhash : ({ s₁ with tb := b } : TbState).hashRead = s₁.hashRead := hashRead_congr (fun u => (hkept u).1) rfl
    refine ⟨s₁, { s₁ with tb := b }, hrun₁, ?_, hcode, ?_,
      ⟨fun u hu => ?_, fun u => ?_, hhash.trans hby₁.hash, hby₁.cpus,
      fun n i hi => ?_, hby₁.pages, fun n i hi => ?_, fun i hi => ?_⟩⟩
    · rw [if_neg (not_not.2 hone), hb]
    · have hfun : (fun i => entries b i t ++ lists i) =
          update lists (pageIndex page0) ((t, 0) :: lists (pageIndex page0)) := by
        funext i
        by_cases hi : i = pageIndex page0
        · subst hi
          simp [entries, hon]
        · simp [entries, hon, hi, Ne.symm hi]
      rw [hread]
      exact hfun ▸ hlists₁
    · rw [(hkept u).2.2 hu, hby₁.others u hu]
    · rw [(hkept u).2.1, hby₁.jumps u]
    · obtain ⟨-, rfl⟩ := (hon n i).1 hi
      exact hby₁.here
    · obtain ⟨-, rfl⟩ := (hon n i).1 hi
      exact hby₁.dropped
    · exact hby₁.bitmap i fun he => hi 0 ((hon 0 i).2 ⟨rfl, he.symm⟩)
  · have hfresh₁ : ∀ i, (t, (1 : Fin 2)) ∉
        update lists (pageIndex page0) ((t, 0) :: lists (pageIndex page0)) i := by
      intro i
      by_cases hi : i = pageIndex page0
      · subst hi
        simp [hfresh]
      · simp [hi, hfresh]
    have hpresent₁ : ∀ i, s₁.pageFind i = none →
        update lists (pageIndex page0) ((t, 0) :: lists (pageIndex page0)) i = [] := by
      intro i hnone
      have hi : i ≠ pageIndex page0 := by
        rintro rfl
        have := hby₁.here
        rw [hnone] at this
        cases this
      rw [update_of_ne hi]
      refine hpresent i (not_isSome_iff_eq_none.1 fun hsome => ?_)
      have := hby₁.pages i hsome
      rw [hnone] at this
      cases this
    obtain ⟨s₂, hrun₂, hlists₂, hby₂⟩ := tbAllocPage_ok hlists₁ hpresent₁ hfresh₁ page1
    have hcode : (s₂.tb t).toTbCode = { (s.tb t).toTbCode with
        pageAddr := update (update (s.tb t).pageAddr 0 page0) 1 page1 } := by
      rw [hby₂.code, congrArg TbCode.pageAddr hby₁.code, hby₁.code]
    have haddr : (s₂.tb t).pageAddr 0 = page0 ∧ (s₂.tb t).pageAddr 1 = page1 := by
      rw [congrArg TbCode.pageAddr hcode]
      exact ⟨by simp, by simp⟩
    have hon : ∀ n i, OnPage (s₂.tb t) n i ↔ n = 0 ∧ pageIndex page0 = i ∨ n = 1 ∧ pageIndex page1 = i := by
      intro n i
      fin_cases n
      · simp [onPage_iff haddr.1 hzero]
      · simp [onPage_iff haddr.2 hone]
    refine ⟨s₁, s₂, hrun₁, ?_, hcode, ?_,
      ⟨fun u hu => ?_, fun u => ?_, hby₂.hash.trans hby₁.hash, hby₂.cpus.trans hby₁.cpus,
      fun n i hi => ?_, fun i hi => hby₂.pages i (hby₁.pages i hi), fun n i hi => ?_, fun i hi => ?_⟩⟩
    · rw [if_pos hone, hrun₂]
    · have hfun : (fun i => entries s₂.tb i t ++ lists i) =
          update (update lists (pageIndex page0) ((t, 0) :: lists (pageIndex page0)))
            (pageIndex page1)
            ((t, 1) :: update lists (pageIndex page0) ((t, 0) :: lists (pageIndex page0))
              (pageIndex page1)) := by
        funext i
        by_cases hi1 : i = pageIndex page1
        · subst hi1
          by_cases hi0 : pageIndex page1 = pageIndex page0
          · simp [entries, hon, hi0]
          · simp [entries, hon, hi0, Ne.symm hi0]
        · by_cases hi0 : i = pageIndex page0
          · subst hi0
            simp [entries, hon, hi1, Ne.symm hi1]
          · simp [entries, hon, hi0, hi1, Ne.symm hi0, Ne.symm hi1]
      exact hfun ▸ hlists₂
    · rw [hby₂.others u hu, hby₁.others u hu]
    · rw [hby₂.jumps u, hby₁.jumps u]
    · rcases (hon n i).1 hi with ⟨-, rfl⟩ | ⟨-, rfl⟩
      · exact hby₂.pages _ hby₁.here
      · exact hby₂.here
    · rcases (hon n i).1 hi with ⟨-, rfl⟩ | ⟨-, rfl⟩
      · by_cases hsame : pageIndex page0 = pageIndex page1
        · rw [hsame]
          exact hby₂.dropped
        · rw [hby₂.bitmap _ hsame]
          exact hby₁.dropped
      · exact hby₂.dropped
    · rw [hby₂.bitmap i fun he => hi 1 ((hon 1 i).2 (.inr ⟨rfl, he.symm⟩)),
        hby₁.bitmap i fun he => hi 0 ((hon 0 i).2 (.inl ⟨rfl, he.symm⟩))]

/-- The tables of the CPUs and the blocks that are gone do not matter. -/
structure LinkedBy (s s' : TbState) (t : ℕ) (physPc physPage2 : TargetUlong) : Prop where
  code : (s'.tb t).toTbCode = { (s.tb t).toTbCode with
    pageAddr := update (update (s.tb t).pageAddr 0 (physPc &&& ~~~ 0x3ff#32)) 1 physPage2 }
  others : ∀ u, u ≠ t → (s'.tb u).toTbCode = (s.tb u).toTbCode
  cpus : s'.cpus = s.cpus
  dropped : ∀ n i, OnPage (s'.tb t) n i → s'.bitmapOf i = none
  bitmap : ∀ i, (∀ n, ¬ OnPage (s'.tb t) n i) → s'.bitmapOf i = s.bitmapOf i

/-- **A block comes in.** -/
theorem tbLinkPhys_ok (h : TbsOK s L) (ht : t ∉ L.live) {physPc physPage2 : TargetUlong}
    (hl : Linkable (s.tb t).toTbCode physPc physPage2) :
    ∃ s', s.tbLinkPhys t physPc physPage2 = some s' ∧ TbsOK s' (L.insert s'.tb t (tbPhysHashFunc physPc)) ∧
      LinkedBy s s' t physPc physPage2 := by
  obtain ⟨bucket, hbucket⟩ : ∃ bucket, tbPhysHashFunc physPc = bucket := ⟨_, rfl⟩
  obtain ⟨page0, hpage0⟩ : ∃ page0, physPc &&& ~~~ 0x3ff#32 = page0 := ⟨_, rfl⟩
  have hoffset0 : pageOffset page0 = 0 := by
    rw [← hpage0, pageOffset, BitVec.and_assoc]
    exact BitVec.and_zero
  have hzero : page0 ≠ -1 := by
    rintro rfl
    revert hoffset0
    decide
  have hphys : page0 + pageOffset (s.tb t).pc = physPc := by
    rw [← hl.offset, ← hpage0]
    exact and_not_add_and physPc 0x3ff#32
  -- the hash chain
  obtain ⟨s₁, hs₁⟩ : ∃ s₁, (s.setHashLink (.inr t) (s.tbPhysHash bucket)).setHashLink (.inl bucket) (some t) =
    s₁ := ⟨_, rfl⟩
  have hrest₁ : SameRest s s₁ := hs₁ ▸ (sameRest_setHashLink _ _).trans (sameRest_setHashLink _ _)
  have hread₁ : s₁.pageRead = s.pageRead := by rw [← hs₁, pageRead_setHashLink, pageRead_setHashLink]
  have hfind₁ : s₁.pageFind = s.pageFind := by rw [← hs₁]; rfl
  have hfreshHash : ∀ j, t ∉ L.hashes j := fun j hmem => ht ((h.mem_hash j t).1 hmem).1
  have hhash₁ : LinkedLists s₁.hashRead (fun _ => True) (update L.hashes bucket (t :: L.hashes bucket)) := by
    refine h.hash.push hfreshHash ?_
    rw [← hs₁, hashRead_setHashLink, hashRead_setHashLink]
    rfl
  -- the pages
  have hpage₁ : LinkedLists s₁.pageRead (fun i => (s₁.pageFind i).isSome) fun i => pageLinks s.tb i (L.pages i) := by
    rw [hread₁, hfind₁]
    exact h.page
  have hpresent₁ : ∀ i, s₁.pageFind i = none → pageLinks s.tb i (L.pages i) = [] := by
    intro i hnone
    have hnil : L.pages i = [] := by
      refine eq_nil_iff_forall_not_mem.2 fun u hu => ?_
      have := h.present i u hu
      rw [← hfind₁, hnone] at this
      cases this
    rw [hnil]
    rfl
  have hnot : ∀ i, t ∉ L.pages i := fun i hmem => ht ((h.mem_page i t).1 hmem).1
  have hfresh₁ : ∀ i n, (t, n) ∉ pageLinks s.tb i (L.pages i) := by
    intro i n hmem
    obtain ⟨u, hu, hu'⟩ := mem_flatMap.1 hmem
    have htu : t = u := (mem_entries.1 hu').1
    exact hnot i (htu ▸ hu)
  obtain ⟨s₂, s₃, hrun₂, hrun₃, hcode₃, hlists₃, hby₃⟩ := linkPages_ok hpage₁ hpresent₁ hfresh₁ hzero physPage2
  -- the jumps
  obtain ⟨s', hs'⟩ : ∃ s' : TbState, { s₃ with tb := s₃.tb.linkJumps t } = s' := ⟨_, rfl⟩
  have hsame : s₃.tb.SameCode s'.tb := hs' ▸ sameCode_linkJumps t
  have hothers : ∀ u, u ≠ t → (s'.tb u).toTbCode = (s.tb u).toTbCode := by
    intro u hu
    rw [hsame.code u, hby₃.others u hu, hrest₁.code u]
  have hcode : (s'.tb t).toTbCode = { (s.tb t).toTbCode with
      pageAddr := update (update (s.tb t).pageAddr 0 page0) 1 physPage2 } := by
    rw [hsame.code t, hcode₃, congrArg TbCode.pageAddr (hrest₁.code t), hrest₁.code t]
  have haddr : (s'.tb t).pageAddr 0 = page0 ∧ (s'.tb t).pageAddr 1 = physPage2 := by
    rw [congrArg TbCode.pageAddr hcode]
    exact ⟨by simp, by simp⟩
  have hpc : (s'.tb t).pc = (s.tb t).pc := by rw [congrArg TbCode.pc hcode]
  have hon : ∀ n i, OnPage (s'.tb t) n i ↔ OnPage (s₃.tb t) n i := fun n i => onPage_code (hsame.code t)
  have hread : s'.pageRead = s₃.pageRead := pageRead_congr hsame.physLinks (by rw [← hs'])
  have hfind : s'.pageFind = s₃.pageFind := by rw [← hs']; rfl
  have hhash : s'.hashRead = s₁.hashRead := (hashRead_congr hsame.physLinks (by rw [← hs'])).trans hby₃.hash
  have hbitmap : ∀ i, s'.bitmapOf i = s₃.bitmapOf i := fun i => by rw [bitmapOf, hfind, bitmapOf]
  have hbitmap₁ : ∀ i, s₁.bitmapOf i = s.bitmapOf i := fun i => by rw [bitmapOf, hfind₁, bitmapOf]
  have hlive : ∀ u ∈ L.live, u ≠ t := fun u hu he => ht (he ▸ hu)
  have hjumps₃ : JumpsOK s₃.tb L.live L.ring := by
    refine h.jumps.frame (fun u hu => ?_) fun u => ?_
    · rw [hby₃.others u (hlive u hu), hrest₁.code u]
    · rw [hby₃.jumps u, hrest₁.jumps u]
  have hold : ∀ i, pageLinks s'.tb i (L.pages i) = pageLinks s.tb i (L.pages i) := by
    intro i
    refine flatMap_congr fun u hu => ?_
    have hu' : u ≠ t := fun he => hnot i (he ▸ hu)
    simp only [entries, onPage_code (hothers u hu')]
  have hlinks : ∀ i, pageLinks s'.tb i ((L.insert s'.tb t bucket).pages i) =
      entries s₃.tb i t ++ pageLinks s.tb i (L.pages i) := by
    intro i
    have hentries : entries s'.tb i t = entries s₃.tb i t := by simp only [entries, hon]
    rw [pageLinks_insert, hold, hentries]
  refine ⟨s', ?_, ⟨?_, fun u hu => ?_, ?_, fun j u => ?_, ?_, fun i => ?_, fun i u => ?_, fun i u hu => ?_,
    fun env u hu => ?_⟩, ⟨hpage0 ▸ hcode, hothers, ?_, fun n i hi => ?_, fun i hi => ?_⟩⟩
  · simp only [tbLinkPhys, hbucket, hpage0]
    change ((((s.setHashLink (.inr t) (s.tbPhysHash bucket)).setHashLink (.inl bucket)
      (some t)).tbAllocPage t 0 page0).bind
      _) = _
    rw [hs₁, hrun₂, bind_some]
    by_cases hone : physPage2 = -1
    · rw [if_neg (not_not.2 hone)] at hrun₃ ⊢
      rw [← Option.some.inj hrun₃] at hs'
      exact congrArg some hs'
    · rw [if_pos hone] at hrun₃ ⊢
      rw [hrun₃]
      exact congrArg some hs'
  · rw [← hs']
    exact hjumps₃.link ht
  · rcases Finset.mem_insert.1 hu with rfl | hu
    · rw [hcode]
      refine ⟨hl.size_pos, hl.size_le, ?_, fun hle => ?_, fun hlt => ?_⟩
      · simpa using hoffset0
      · simpa using hl.single hle
      · simpa using hl.second hlt
    · rw [hothers u (hlive u hu)]
      exact h.placed u hu
  · rw [hhash, hbucket]
    exact hhash₁
  · have hphysPc : ∀ u, u ≠ t → s'.physPc u = s.physPc u := by
      intro u hu
      rw [TbState.physPc, TbState.physPc, congrArg TbCode.pageAddr (hothers u hu), congrArg TbCode.pc (hothers u hu)]
    have hself : s'.physPc t = physPc := by rw [TbState.physPc, haddr.1, hpc, hphys]
    rw [hbucket, TbLists.mem_insert_hashes]
    simp only [TbLists.insert, Finset.mem_insert]
    by_cases hut : u = t
    · subst hut
      rw [hself, hbucket]
      simp [hfreshHash j, eq_comm]
    · rw [hphysPc u hut]
      simp [hut, h.mem_hash]
  · rw [hread, hfind, hbucket]
    simp only [hlinks]
    exact hlists₃
  · exact TbLists.nodup_insert_pages (h.pageNodup i) (hnot i)
  · rw [hbucket, TbLists.mem_insert_pages]
    simp only [TbLists.insert, Finset.mem_insert]
    by_cases hut : u = t
    · subst hut
      simp [hnot i]
    · simp [hut, onPage_code (hothers u hut), h.mem_page]
  · rw [hbucket, TbLists.mem_insert_pages] at hu
    rw [hfind]
    rcases hu with hu | ⟨-, n, hn⟩
    · exact hby₃.pages i (hfind₁ ▸ h.present i u hu)
    · exact hby₃.here n i ((hon n i).1 hn)
  · simp only [TbLists.insert, Finset.mem_insert]
    by_cases hut : u = t
    · exact .inl (.inl hut)
    · have hcpus : s'.cpus = s.cpus := by rw [← hs', ← hrest₁.cpus, ← hby₃.cpus]
      rw [hcpus] at hu
      refine (h.current env u hu).imp .inr fun hnull n => ?_
      have hjmp : (s'.tb u).jmpNext n = (s₃.tb u).jmpNext n := by
        rw [← hs', jmpAt_next, jmpAt_linkJumps]
        simp [hut, jmpAt_next]
      rw [hjmp, congrArg TbJumps.jmpNext ((hby₃.jumps u).trans (hrest₁.jumps u))]
      exact hnull n
  · rw [← hs', ← hrest₁.cpus, ← hby₃.cpus]
  · rw [hbitmap]
    exact hby₃.dropped n i ((hon n i).1 hi)
  · rw [hbitmap, hby₃.bitmap i fun n hn => hi n ((hon n i).2 hn), hbitmap₁]

/-- A state without blocks. -/
theorem tbsOK_empty (hhash : ∀ h, s.tbPhysHash h = none) (hpage : ∀ i p, s.pageFind i = some p → p.firstTb = none)
    (hcurrent : ∀ env t, (s.cpus env).currentTb = some t → ∀ n, (s.tb t).jmpNext n = none) : TbsOK s TbLists.empty := by
  refine ⟨.empty _ _, fun t ht => by simp [TbLists.empty] at ht,
    ⟨fun j _ => ?_, fun _ => nodup_nil, fun _ _ _ => ?_⟩,
    fun j t => by simp [TbLists.empty], ⟨fun i hi => ?_, fun _ => nodup_nil, fun _ _ _ => ?_⟩, fun _ =>
      nodup_nil,
    fun i t => by simp [TbLists.empty], fun i t ht => by simp [TbLists.empty] at ht, fun env t ht =>
      .inr (hcurrent env t ht)⟩
  · exact congrArg some (hhash j)
  · exact disjoint_nil_left _
  · obtain ⟨p, hp⟩ := isSome_iff_exists.1 hi
    change (s.pageFind i).map (·.firstTb) = some none
    rw [hp, map_some, hpage i p hp]
  · exact disjoint_nil_left _

/-- Before any block is linked. The code of the blocks is given. -/
def unlinked (code : TbCode) : TbState where
  tb _ := ⟨code, ⟨none, fun _ => none⟩, ⟨fun _ => 0, fun _ => none, none⟩⟩
  tbPhysHash _ := none
  l1Map _ := none
  physRamDirty _ := 0xff
  cpus _ := ⟨fun _ => none, none, 0, 0, false⟩
  cpuSingleEnv := none
  useIcount := false
  tbInvalidatedFlag := false

theorem unlinked_ok (code : TbCode) : TbsOK (unlinked code) TbLists.empty :=
  tbsOK_empty (fun _ => rfl) (fun _ _ hp => by simp [pageFind, unlinked] at hp) fun _ _ ht => by simp [unlinked] at ht

theorem pageFind_tbFlush (i : ℕ) :
    s.tbFlush.pageFind i = (s.pageFind i).map fun p => invalidatePageBitmap { p with firstTb := none } := by
  simp [tbFlush, pageFlushTb, pageFind, comp_def]

/-- **All blocks are gone**, while no CPU is in a block whose jumps are chained. -/
theorem tbFlush_ok (hcurrent : ∀ env t, (s.cpus env).currentTb = some t → ∀ n, (s.tb t).jmpNext n = none) :
    TbsOK s.tbFlush TbLists.empty := by
  refine tbsOK_empty (fun _ => rfl) (fun i p hp => ?_) hcurrent
  rw [pageFind_tbFlush] at hp
  obtain ⟨q, -, rfl⟩ := map_eq_some_iff.1 hp
  rfl

end TbState
end Emulator.Exec
