import Emulator.Exec.PageList

/-!
# Well-formed sets of live blocks

`TbLists` names what the lists are: the live blocks, the hash chains, the pages and the jump lists. `TbsOK` says that a
state has these lists, that each live block is in the lists it belongs to, and that its code is where its pages are.

* `TbsOK.leavePages`: a block is taken out of the lists of its one or two pages.
* `TbState.tbPhysInvalidate_ok`: one block leaves all its lists.
-/

namespace Emulator.Exec

open Function List

/-- The block has code on the page `i`, its `n`-th one. -/
def OnPage (t : TranslationBlock) (n : Fin 2) (i : ℕ) : Prop := t.pageAddr n ≠ -1 ∧ pageIndex (t.pageAddr n) = i

instance (t : TranslationBlock) (n : Fin 2) (i : ℕ) : Decidable (OnPage t n i) := inferInstanceAs (Decidable (_ ∧ _))

theorem onPage_code {c c' : TranslationBlock} {n : Fin 2} {i : ℕ} (h : c'.toTbCode = c.toTbCode) :
    OnPage c' n i ↔ OnPage c n i := by
  rw [OnPage, OnPage, congrArg TbCode.pageAddr h]

/-- The links of a block in the list of a page. The link of the second page comes first. -/
def entries (b : Blocks) (i : ℕ) (t : ℕ) : List PageLink :=
  (if OnPage (b t) 1 i then [(t, 1)] else []) ++ if OnPage (b t) 0 i then [(t, 0)] else []

def pageLinks (b : Blocks) (i : ℕ) (l : List ℕ) : List PageLink := l.flatMap (entries b i)

/-- The code of a block: at most a page, and on a second page exactly if the first one does not hold it. -/
structure WellPlaced (t : TbCode) : Prop where
  size_pos : 0 < t.size
  size_le : t.size ≤ 1024
  first : pageOffset (t.pageAddr 0) = 0
  single : (pageOffset t.pc).toNat + t.size ≤ 1024 → t.pageAddr 1 = -1
  second : 1024 < (pageOffset t.pc).toNat + t.size → pageOffset (t.pageAddr 1) = 0

structure TbLists where
  live : Finset ℕ
  hashes : ℕ → List ℕ
  pages : ℕ → List ℕ
  ring : ℕ → List JmpField

/-- The lists without the block `t`. -/
def TbLists.drop (L : TbLists) (t : ℕ) : TbLists where
  live := L.live.erase t
  hashes h := (L.hashes h).erase t
  pages i := (L.pages i).erase t
  ring := ringsDrop L.ring t

theorem TbLists.drop_pages (L : TbLists) (t i : ℕ) : (L.drop t).pages i = (L.pages i).erase t := rfl

structure TbsOK (s : TbState) (L : TbLists) : Prop where
  jumps : JumpsOK s.tb L.live L.ring
  placed : ∀ t ∈ L.live, WellPlaced (s.tb t).toTbCode
  hash : LinkedLists s.hashRead (fun _ => True) L.hashes
  mem_hash : ∀ h t, t ∈ L.hashes h ↔ t ∈ L.live ∧ tbPhysHashFunc (s.physPc t) = h
  page : LinkedLists s.pageRead (fun i => (s.pageFind i).isSome) fun i => pageLinks s.tb i (L.pages i)
  pageNodup : ∀ i, (L.pages i).Nodup
  mem_page : ∀ i t, t ∈ L.pages i ↔ t ∈ L.live ∧ ∃ n, OnPage (s.tb t) n i
  present : ∀ i, ∀ t ∈ L.pages i, (s.pageFind i).isSome
  current : ∀ env t, (s.cpus env).currentTb = some t → t ∈ L.live ∨ ∀ n, (s.tb t).jmpNext n = none

variable {b b' : Blocks} {s s' : TbState} {L : TbLists} {i t : ℕ}

theorem mem_entries {e : PageLink} : e ∈ entries b i t ↔ e.1 = t ∧ OnPage (b t) e.2 i := by
  obtain ⟨u, n⟩ := e
  unfold entries
  fin_cases n <;> by_cases h0 : OnPage (b t) 0 i <;> by_cases h1 : OnPage (b t) 1 i <;> simp [h0, h1]

theorem entries_congr (h : ∀ t, (b' t).toTbCode = (b t).toTbCode) : entries b' i t = entries b i t := by
  simp only [entries, onPage_code (h t)]

theorem pageLinks_congr (h : ∀ t, (b' t).toTbCode = (b t).toTbCode) (l : List ℕ) : pageLinks b' i l = pageLinks b i l :=
  flatMap_congr fun _ _ => entries_congr h

theorem length_entries_le : (entries b i t).length ≤ 2 := by
  unfold entries
  split_ifs <;> simp

theorem length_pageLinks_le (l : List ℕ) : (pageLinks b i l).length ≤ 2 * l.length := by
  induction l with
  | nil => simp [pageLinks]
  | cons t l ih =>
    have := length_entries_le (b := b) (i := i) (t := t)
    simp only [pageLinks, flatMap_cons, length_append, length_cons] at ih ⊢
    omega

namespace TbsOK

open TbState

theorem length_pages_le (h : TbsOK s L) : (L.pages i).length ≤ L.live.card := by
  rw [← toFinset_card_of_nodup (h.pageNodup i)]
  exact Finset.card_le_card fun t ht => ((h.mem_page i t).1 (mem_toFinset.1 ht)).1

theorem length_hashes_le (h : TbsOK s L) : (L.hashes i).length ≤ L.live.card := by
  rw [← toFinset_card_of_nodup (h.hash.nodup i)]
  exact Finset.card_le_card fun t ht => ((h.mem_hash i t).1 (mem_toFinset.1 ht)).1

/-- A block in the list of a page, with what is in front of it and behind it. -/
theorem split_page (h : TbsOK s L) (ht : t ∈ L.pages i) :
    ∃ l r, pageLinks s.tb i (L.pages i) = l ++ (entries s.tb i t ++ r) ∧ (∀ x ∈ l, x.1 ≠ t) ∧
      pageLinks s.tb i ((L.pages i).erase t) = l ++ r := by
  obtain ⟨A, B, hpages⟩ := append_of_mem ht
  have hnd := h.pageNodup i
  rw [hpages] at hnd
  have htA : t ∉ A := fun hmem => disjoint_of_nodup_append hnd hmem mem_cons_self
  refine ⟨pageLinks s.tb i A, pageLinks s.tb i B, ?_, fun x hx => ?_, ?_⟩
  · rw [hpages, pageLinks, flatMap_append, flatMap_cons]
    rfl
  · obtain ⟨u, hu, hx⟩ := mem_flatMap.1 hx
    rw [(mem_entries.1 hx).1]
    rintro rfl
    exact htA hu
  · rw [hpages, erase_append_right _ htA, erase_cons_head, pageLinks, flatMap_append]
    rfl

theorem pageAddr_zero (h : TbsOK s L) (ht : t ∈ L.live) : (s.tb t).pageAddr 0 ≠ -1 := by
  intro he
  have hoff := (h.placed t ht).first
  rw [he] at hoff
  revert hoff
  decide

/-- The steps of `tb_phys_invalidate` for the two pages. -/
theorem leavePages (h : TbsOK s L) (ht : t ∈ L.live) {fuel : ℕ} (hfuel : 2 * L.live.card < fuel)
    (hrest : SameRest s s') (hread : s'.pageRead = s.pageRead) (hfind : s'.pageFind = s.pageFind) :
    ∃ s₂ s₃, s'.tbLeavePage fuel t 0 = some s₂ ∧
      (if (s₂.tb t).pageAddr 1 ≠ -1 then s₂.tbLeavePage fuel t 1 else some s₂) = some s₃ ∧
      LinkedLists s₃.pageRead (fun i => (s₃.pageFind i).isSome) (fun i => pageLinks s.tb i ((L.pages i).erase t)) ∧
      SameRest s' s₃ ∧ s₃.hashRead = s'.hashRead ∧ (s₃.tb t).pageNext = (s'.tb t).pageNext ∧
      ∀ i, s₃.bitmapOf i = if t ∈ L.pages i then none else s.bitmapOf i := by
  have haddr : ∀ n, (s'.tb t).pageAddr n = (s.tb t).pageAddr n :=
    fun n => congrFun (congrArg TbCode.pageAddr (hrest.code t)) n
  have hbitmap : ∀ j, s'.bitmapOf j = s.bitmapOf j := fun j => by rw [bitmapOf, bitmapOf, hfind]
  have hzero := h.pageAddr_zero ht
  obtain ⟨i₀, hi₀⟩ : ∃ i₀, pageIndex ((s.tb t).pageAddr 0) = i₀ := ⟨_, rfl⟩
  have ht₀ : t ∈ L.pages i₀ := (h.mem_page i₀ t).2 ⟨ht, 0, hzero, hi₀⟩
  have hpage : LinkedLists s'.pageRead (fun i => (s'.pageFind i).isSome) fun i => pageLinks s.tb i (L.pages i) := by
    rw [hread, hfind]
    exact h.page
  have hhere : ∀ i, t ∈ L.pages i → (s'.pageFind i).isSome := fun i hi => by
    rw [hfind]
    exact h.present i t hi
  have hlen : ∀ i, (pageLinks s.tb i (L.pages i)).length < fuel := by
    intro i
    have := length_pageLinks_le (b := s.tb) (i := i) (L.pages i)
    have := h.length_pages_le (i := i)
    omega
  have herase : ∀ i, t ∉ L.pages i → pageLinks s.tb i ((L.pages i).erase t) = pageLinks s.tb i (L.pages i) :=
    fun i hi => by rw [erase_of_not_mem hi]
  obtain ⟨l, r, hl, hfirst, hout⟩ := h.split_page ht₀
  have hon₀ : OnPage (s.tb t) 0 i₀ := ⟨hzero, hi₀⟩
  by_cases hone : (s.tb t).pageAddr 1 = -1
  · -- the block is on one page
    have hentries : entries s.tb i₀ t = [(t, 0)] := by
      rw [entries, if_neg fun hon => hon.1 hone, if_pos hon₀]
      rfl
    rw [hentries, singleton_append] at hl
    obtain ⟨s₂, hrun, hlists, hrest₂, hhash, hnext, hnone, hother⟩ := tbLeavePage_ok (s := s') (n := 0) hpage
      (by rw [haddr, hi₀]; exact hl) rfl hfirst (by rw [haddr, hi₀]; exact hhere i₀ ht₀) (hl ▸ hlen i₀)
    rw [haddr, hi₀] at hlists hnone hother
    have hmem : ∀ i, t ∈ L.pages i ↔ i = i₀ := by
      intro i
      rw [h.mem_page]
      constructor
      · rintro ⟨-, n, hn, hni⟩
        fin_cases n
        · exact hni.symm.trans hi₀
        · exact absurd hone hn
      · rintro rfl
        exact ⟨ht, 0, hon₀⟩
    have haddr₂ : (s₂.tb t).pageAddr 1 = -1 := by
      rw [congrFun (congrArg TbCode.pageAddr (hrest₂.code t)) 1, haddr, hone]
    refine ⟨s₂, s₂, hrun, if_neg (fun hne => hne haddr₂), ?_, hrest₂, hhash, hnext, fun i => ?_⟩
    · have hfun : update (fun i => pageLinks s.tb i (L.pages i)) i₀ (l ++ r) =
          fun i => pageLinks s.tb i ((L.pages i).erase t) := by
        funext i
        by_cases hi : i = i₀
        · subst hi
          rw [update_self, hout]
        · rw [update_of_ne hi, herase i fun hmem' => hi ((hmem i).1 hmem')]
      exact hfun ▸ hlists
    · by_cases hi : i = i₀
      · subst hi
        rw [if_pos ht₀, hnone]
      · rw [if_neg fun hmem' => hi ((hmem i).1 hmem'), hother i hi, hbitmap]
  · obtain ⟨i₁, hi₁⟩ : ∃ i₁, pageIndex ((s.tb t).pageAddr 1) = i₁ := ⟨_, rfl⟩
    have hon₁ : OnPage (s.tb t) 1 i₁ := ⟨hone, hi₁⟩
    have hmem : ∀ i, t ∈ L.pages i ↔ i = i₀ ∨ i = i₁ := by
      intro i
      rw [h.mem_page]
      constructor
      · rintro ⟨-, n, hn, hni⟩
        fin_cases n
        · exact .inl (hni.symm.trans hi₀)
        · exact .inr (hni.symm.trans hi₁)
      · rintro (rfl | rfl)
        · exact ⟨ht, 0, hon₀⟩
        · exact ⟨ht, 1, hon₁⟩
    by_cases hsame : i₁ = i₀
    · -- both links are in one list
      subst hsame
      have hentries : entries s.tb i₁ t = [(t, 1), (t, 0)] := by
        rw [entries, if_pos hon₁, if_pos hon₀]
        rfl
      rw [hentries, cons_append, singleton_append] at hl
      obtain ⟨s₂, hrun₂, hlists₂, hrest₂, hhash₂, hnext₂, hnone₂, hother₂⟩ := tbLeavePage_ok (s := s') (n := 0) hpage
        (by rw [haddr, hi₀]; exact hl) rfl hfirst (by rw [haddr, hi₀]; exact hhere i₁ ht₀) (hl ▸ hlen i₁)
      rw [haddr, hi₀] at hlists₂ hnone₂ hother₂
      have haddr₂ : (s₂.tb t).pageAddr 1 = (s.tb t).pageAddr 1 := by
        rw [congrFun (congrArg TbCode.pageAddr (hrest₂.code t)) 1, haddr]
      have hlen₂ : (l ++ (t, 0) :: r).length < fuel := by
        have := hlen i₁
        rw [hl] at this
        simp only [length_append, length_cons] at this ⊢
        omega
      obtain ⟨s₃, hrun₃, hlists₃, hrest₃, hhash₃, hnext₃, hnone₃, hother₃⟩ := tbLeavePage_ok (s := s₂) (n := 1) hlists₂
        (by rw [haddr₂, hi₁, update_self]) rfl hfirst
          (by rw [haddr₂, hi₁, hrest₂.pages]; exact hhere i₁ ht₀) hlen₂
      rw [haddr₂, hi₁] at hlists₃ hnone₃ hother₃
      refine ⟨s₂, s₃, hrun₂, ?_, ?_, hrest₂.trans hrest₃, hhash₃.trans hhash₂, hnext₃.trans hnext₂, fun i => ?_⟩
      · rw [if_pos (haddr₂ ▸ hone)]
        exact hrun₃
      · have hfun : update
          (update (fun i => pageLinks s.tb i (L.pages i)) i₁ (l ++ (t, 0) :: r)) i₁ (l ++ r) =
            fun i => pageLinks s.tb i ((L.pages i).erase t) := by
          funext i
          by_cases hi : i = i₁
          · subst hi
            rw [update_self, hout]
          · rw [update_of_ne hi, update_of_ne hi,
              herase i fun hmem' => ((hmem i).1 hmem').elim hi hi]
        exact hfun ▸ hlists₃
      · by_cases hi : i = i₁
        · subst hi
          rw [if_pos ht₀, hnone₃]
        · rw [if_neg fun hmem' => ((hmem i).1 hmem').elim hi hi, hother₃ i hi, hother₂ i hi, hbitmap]
    · -- one link in each list
      have ht₁ : t ∈ L.pages i₁ := (hmem i₁).2 (.inr rfl)
      obtain ⟨l₁, r₁, hl₁, hfirst₁, hout₁⟩ := h.split_page ht₁
      have hentries : entries s.tb i₀ t = [(t, 0)] := by
        rw [entries, if_neg fun hon => hsame (hi₁.symm.trans hon.2), if_pos hon₀]
        rfl
      have hentries₁ : entries s.tb i₁ t = [(t, 1)] := by
        rw [entries, if_pos hon₁, if_neg fun hon => hsame (hon.2.symm.trans hi₀), append_nil]
      rw [hentries, singleton_append] at hl
      rw [hentries₁, singleton_append] at hl₁
      obtain ⟨s₂, hrun₂, hlists₂, hrest₂, hhash₂, hnext₂, hnone₂, hother₂⟩ := tbLeavePage_ok (s := s') (n := 0) hpage
        (by rw [haddr, hi₀]; exact hl) rfl hfirst (by rw [haddr, hi₀]; exact hhere i₀ ht₀) (hl ▸ hlen i₀)
      rw [haddr, hi₀] at hlists₂ hnone₂ hother₂
      have haddr₂ : (s₂.tb t).pageAddr 1 = (s.tb t).pageAddr 1 := by
        rw [congrFun (congrArg TbCode.pageAddr (hrest₂.code t)) 1, haddr]
      obtain ⟨s₃, hrun₃, hlists₃, hrest₃, hhash₃, hnext₃, hnone₃, hother₃⟩ := tbLeavePage_ok (s := s₂) (n := 1) hlists₂
        (by rw [haddr₂, hi₁, update_of_ne hsame]; exact hl₁) rfl hfirst₁
        (by rw [haddr₂, hi₁, hrest₂.pages]; exact hhere i₁ ht₁) (hl₁ ▸ hlen i₁)
      rw [haddr₂, hi₁] at hlists₃ hnone₃ hother₃
      refine ⟨s₂, s₃, hrun₂, ?_, ?_, hrest₂.trans hrest₃, hhash₃.trans hhash₂, hnext₃.trans hnext₂, fun i => ?_⟩
      · rw [if_pos (haddr₂ ▸ hone)]
        exact hrun₃
      · have hfun : update (update (fun i => pageLinks s.tb i (L.pages i)) i₀ (l ++ r)) i₁
          (l₁ ++ r₁) =
            fun i => pageLinks s.tb i ((L.pages i).erase t) := by
          funext i
          by_cases hi : i = i₁
          · subst hi
            rw [update_self, hout₁]
          · rw [update_of_ne hi]
            by_cases hi' : i = i₀
            · subst hi'
              rw [update_self, hout]
            · rw [update_of_ne hi', herase i fun hmem' => ((hmem i).1 hmem').elim hi' hi]
        exact hfun ▸ hlists₃
      · by_cases hi : i = i₁
        · subst hi
          rw [if_pos ht₁, hnone₃]
        · rw [hother₃ i hi]
          by_cases hi' : i = i₀
          · subst hi'
            rw [if_pos ht₀, hnone₂]
          · rw [if_neg fun hmem' => ((hmem i).1 hmem').elim hi' hi, hother₂ i hi', hbitmap]

end TbsOK

namespace TbState

theorem pageRead_congr (hlinks : ∀ t, (s'.tb t).toTbPhysLinks = (s.tb t).toTbPhysLinks) (hmap : s'.l1Map = s.l1Map) :
    s'.pageRead = s.pageRead := by
  funext c
  cases c with
  | inl i => simp only [pageRead, pageFind, hmap]
  | inr e => simp only [pageRead, congrArg TbPhysLinks.pageNext (hlinks e.1)]

theorem hashRead_congr (hlinks : ∀ t, (s'.tb t).toTbPhysLinks = (s.tb t).toTbPhysLinks)
    (hhash : s'.tbPhysHash = s.tbPhysHash) : s'.hashRead = s.hashRead := by
  funext c
  cases c with
  | inl h => simp only [hashRead, hhash]
  | inr t => simp only [hashRead, congrArg TbPhysLinks.physHashNext (hlinks t)]

/-- What `tb_phys_invalidate` leaves alone: the code of all blocks, the links of the block itself in the page lists, the
CPUs but for their jump caches, and the bitmaps of the pages that the block is not on. -/
structure InvalidatedBy (s s' : TbState) (t : ℕ) (onPage : ℕ → Prop) : Prop where
  code : ∀ u, (s'.tb u).toTbCode = (s.tb u).toTbCode
  pageNext : (s'.tb t).pageNext = (s.tb t).pageNext
  pages : ∀ i, (s'.pageFind i).isSome = (s.pageFind i).isSome
  currentTb : ∀ env, (s'.cpus env).currentTb = (s.cpus env).currentTb
  interrupt : ∀ env, (s'.cpus env).interruptRequest = (s.cpus env).interruptRequest
  env : s'.cpuSingleEnv = s.cpuSingleEnv
  icount : s'.useIcount = s.useIcount
  dirty : s'.physRamDirty = s.physRamDirty
  dropped : ∀ i, onPage i → s'.bitmapOf i = none
  bitmap : ∀ i, ¬ onPage i → s'.bitmapOf i = s.bitmapOf i
  exits : ∀ n, (s'.tb t).jmpNext n = none
  nulls : ∀ u n, (s.tb u).jmpNext n = none → (s'.tb u).jmpNext n = none

/-- **One block leaves all its lists.** -/
theorem tbPhysInvalidate_ok (h : TbsOK s L) (ht : t ∈ L.live) {fuel : ℕ} (hfuel : 2 * L.live.card < fuel) :
    ∃ s', s.tbPhysInvalidate fuel t (-1) = some s' ∧ TbsOK s' (L.drop t) ∧ InvalidatedBy s s' t (t ∈ L.pages ·) := by
  have hmemh : t ∈ L.hashes (tbPhysHashFunc (s.physPc t)) := (h.mem_hash _ t).2 ⟨ht, rfl⟩
  have hlenh := h.length_hashes_le (i := tbPhysHashFunc (s.physPc t))
  obtain ⟨s₁, hrun₁, hhash₁, hrest₁, hread₁, hfind₁⟩ := tbRemove_ok h.hash hmemh (show _ < fuel by omega)
  obtain ⟨s₂, s₃, hrun₂, hrun₃, hpage₃, hrest₃, hread₃, hnext₃, hbitmap₃⟩ := h.leavePages ht hfuel hrest₁ hread₁ hfind₁
  have hrest := hrest₁.trans hrest₃
  have hjumps : JumpsOK s₃.tb L.live L.ring := h.jumps.frame (fun t _ => hrest.code t) hrest.jumps
  obtain ⟨b₁, b₂, b₃, hjmp₁, hjmp₂, hjmp₃, hjumps', hcode', hnull, hnulls⟩ := hjumps.drop hfuel ht
  obtain ⟨b', hb'⟩ : ∃ b', b₃.setJmp (t, .first) (some (t, .first)) = b' := ⟨_, rfl⟩
  rw [hb'] at hjumps' hcode' hnull hnulls
  obtain ⟨slot, hslot⟩ : ∃ slot, (tbJmpCacheHashFunc 10 (s₃.tb t).pc).toNat = slot := ⟨_, rfl⟩
  obtain ⟨s', hs'⟩ : ∃ s' : TbState, { s₃ with
    tb := b', tbInvalidatedFlag := true, cpus := fun env => (s₃.cpus env).forgetTb slot t } = s' := ⟨_, rfl⟩
  have hcode : ∀ u, (s'.tb u).toTbCode = (s.tb u).toTbCode := by
    intro u
    rw [← hs', hcode'.code u, hrest.code u]
  have hlinks : ∀ u, (s'.tb u).toTbPhysLinks = (s₃.tb u).toTbPhysLinks := by
    intro u
    rw [← hs']
    exact hcode'.physLinks u
  have hfind : ∀ i, s'.pageFind i = s₃.pageFind i := by
    intro i
    rw [← hs']
    rfl
  have hread : s'.pageRead = s₃.pageRead := pageRead_congr hlinks (by rw [← hs'])
  have hhash : s'.hashRead = s₁.hashRead := (hashRead_congr hlinks (by rw [← hs'])).trans hread₃
  have hcpu : ∀ env, (s'.cpus env).currentTb = (s.cpus env).currentTb ∧
      (s'.cpus env).interruptRequest = (s.cpus env).interruptRequest := by
    intro env
    have hforget : (s'.cpus env) = (s.cpus env).forgetTb slot t := by
      rw [← hs', ← hrest.cpus]
    rw [hforget, Cpu.forgetTb]
    split_ifs <;> exact ⟨rfl, rfl⟩
  have hnulls' : ∀ u n, (s.tb u).jmpNext n = none → (s'.tb u).jmpNext n = none := by
    intro u n hu
    rw [← hs']
    exact hnulls u n (by rw [congrArg TbJumps.jmpNext (hrest.jumps u)]; exact hu)
  refine ⟨s', ?_, ⟨?_, fun u hu => ?_, ?_, fun i u => ?_, ?_, fun i => ?_, fun i u => ?_, fun i u hu => ?_,
    fun env u hu => ?_⟩, ⟨hcode, ?_, fun i => ?_, fun env => (hcpu env).1, fun env => (hcpu env).2, ?_, ?_, ?_,
    fun i hi => ?_, fun i hi => ?_, ?_, hnulls'⟩⟩
  · have hzero : (s₁.tb t).pageAddr 0 ≠ -1 := by
      rw [congrFun (congrArg TbCode.pageAddr (hrest₁.code t)) 0]
      exact h.pageAddr_zero ht
    have hpages : s₁.tbLeavePages fuel t (-1) = some s₃ := by
      rw [tbLeavePages, if_pos hzero, hrun₂, Option.bind_some]
      simp only [and_self]
      exact hrun₃
    have hleave : s₃.tbLeaveJumps fuel t = some s' := by
      simp only [tbLeaveJumps, hslot, hjmp₁, hjmp₂, hjmp₃, Option.bind_eq_bind, Option.bind_some, hb']
      exact congrArg some hs'
    simp only [tbPhysInvalidate, hrun₁, hpages, hleave, Option.bind_eq_bind, Option.bind_some]
  · rw [← hs']
    exact hjumps'
  · rw [hcode u]
    exact h.placed u (Finset.mem_of_mem_erase hu)
  · have hfun : (L.drop t).hashes = update L.hashes (tbPhysHashFunc (s.physPc t))
        ((L.hashes (tbPhysHashFunc (s.physPc t))).erase t) := by
      funext i
      by_cases hi : i = tbPhysHashFunc (s.physPc t)
      · rw [hi, update_self]
        rfl
      · rw [update_of_ne hi]
        exact erase_of_not_mem fun hmem => hi ((h.mem_hash i t).1 hmem).2.symm
    rw [hfun, hhash]
    exact hhash₁
  · have hpc : s'.physPc u = s.physPc u := by
      rw [physPc, physPc, congrArg TbCode.pageAddr (hcode u), congrArg TbCode.pc (hcode u)]
    rw [hpc, TbLists.drop, (h.hash.nodup i).mem_erase_iff, h.mem_hash, Finset.mem_erase, and_assoc]
  · rw [hread]
    simp only [hfind, pageLinks_congr hcode]
    exact hpage₃
  · exact (h.pageNodup i).erase t
  · simp only [onPage_code (hcode u)]
    rw [TbLists.drop, (h.pageNodup i).mem_erase_iff, h.mem_page, Finset.mem_erase, and_assoc]
  · rw [hfind, hrest.pages]
    exact h.present i u (mem_of_mem_erase hu)
  · rw [(hcpu env).1] at hu
    by_cases hut : u = t
    · right
      rw [hut, ← hs']
      exact hnull
    · exact (h.current env u hu).imp (fun hlive => Finset.mem_erase.2 ⟨hut, hlive⟩) fun hnone n => hnulls' u n (hnone n)
  · rw [congrArg TbPhysLinks.pageNext (hlinks t), hnext₃]
    exact funext fun n => Option.some.inj (congrFun hread₁ (.inr (t, n)))
  · rw [hfind, hrest.pages]
  · rw [← hs', ← hrest.env]
  · rw [← hs', ← hrest.icount]
  · rw [← hs', ← hrest.dirty]
  · rw [bitmapOf, hfind, ← bitmapOf, hbitmap₃, if_pos hi]
  · rw [bitmapOf, hfind, ← bitmapOf, hbitmap₃, if_neg hi]
  · rw [← hs']
    exact hnull

end TbState

namespace TbsOK

open TbState

/-- The CPUs are changed. -/
theorem setCpus (h : TbsOK s L) {cpus : ℕ → Cpu} (hrest : s' = { s with cpus := cpus })
    (hcurrent : ∀ env t, (cpus env).currentTb = some t → t ∈ L.live ∨ ∀ n, (s.tb t).jmpNext n = none) : TbsOK s' L := by
  subst hrest
  exact ⟨h.jumps, h.placed, h.hash, h.mem_hash, h.page, h.pageNodup, h.mem_page, h.present, hcurrent⟩

/-- The jumps are changed. -/
theorem setJumps (h : TbsOK s L) {ring : ℕ → List JmpField} (hrest : s' = { s with tb := b' })
    (hcode : s.tb.SameCode b')
    (hjumps : JumpsOK b' L.live ring) (hnulls : ∀ u ∉ L.live, ∀ n, (s.tb u).jmpNext n = none →
      (b' u).jmpNext n = none) :
    TbsOK s' { L with ring := ring } := by
  have hread : s'.pageRead = s.pageRead := pageRead_congr (fun t => hrest ▸ hcode.physLinks t) (by rw [hrest])
  have hhash : s'.hashRead = s.hashRead := hashRead_congr (fun t => hrest ▸ hcode.physLinks t) (by rw [hrest])
  have hcode' : ∀ t, (s'.tb t).toTbCode = (s.tb t).toTbCode := fun t => hrest ▸ hcode.code t
  have hfind : s'.pageFind = s.pageFind := by rw [hrest]; rfl
  refine ⟨hrest ▸ hjumps, fun t ht => hcode' t ▸ h.placed t ht, hhash ▸ h.hash, fun i t => ?_, ?_, h.pageNodup,
    fun i t => ?_,
    fun i t ht => hfind ▸ h.present i t ht, fun env t ht => ?_⟩
  · rw [physPc, congrArg TbCode.pageAddr (hcode' t), congrArg TbCode.pc (hcode' t)]
    exact h.mem_hash i t
  · rw [hread, hfind]
    simp only [pageLinks_congr hcode']
    exact h.page
  · simp only [onPage_code (hcode' t)]
    exact h.mem_page i t
  · rw [hrest] at ht ⊢
    by_cases hlive : t ∈ L.live
    · exact .inl hlive
    · exact .inr fun n => hnulls t hlive n ((h.current env t ht).resolve_left hlive n)

/-- A page is written, with the same list. -/
theorem setPage (h : TbsOK s L) {p p' : PageDesc} (hp : s.pageFind i = some p) (hfirst : p'.firstTb = p.firstTb) :
    TbsOK (s.setPage i p') L := by
  refine ⟨h.jumps, h.placed, h.hash, h.mem_hash, ?_, h.pageNodup, h.mem_page, fun j t ht => ?_, h.current⟩
  · rw [pageRead_setPage hp hfirst]
    simp only [pageFind_isSome_setPage]
    exact h.page
  · rw [pageFind_isSome_setPage]
    exact h.present j t ht

theorem congr_ring (h : TbsOK s L) {ring : ℕ → List JmpField} (hring : ∀ t ∈ L.live, L.ring t = ring t) :
    TbsOK s { L with ring := ring } :=
  ⟨h.jumps.congr hring, h.placed, h.hash, h.mem_hash, h.page, h.pageNodup, h.mem_page, h.present, h.current⟩

end TbsOK
end Emulator.Exec
