import Emulator.Exec.TranslationBlock

/-!
# Well-formed jump lists

* `JumpLists`: each live block has its closed list of the jumps to it, and a jump that is chained is in one.
* `JumpsOK`: the jumps also go where the lists say.
* `JumpLists.unlink`: a jump taken out of its list, which the searches of `exec.c` find there.
-/

namespace Emulator.Exec

open Function Blocks List

/-- The jump lists of the live blocks. `ring t` are the jumps to `t`, in the order of the list. -/
structure JumpLists (next : JmpField → Option JmpField) (live : Finset ℕ) (ring : ℕ → List JmpField) : Prop where
  loop : ∀ t ∈ live, Loop next (t, .first) (ring t)
  source : ∀ t ∈ live, ∀ f ∈ ring t, f.1 ∈ live ∧ f.2 ≠ .first
  disjoint : ∀ t ∈ live, ∀ u ∈ live, t ≠ u → List.Disjoint (ring t) (ring u)
  free : ∀ a ∈ live, ∀ n, (∀ t ∈ live, (a, .next n) ∉ ring t) → next (a, .next n) = none

/-- The jump `f` is chained to the block `t`. -/
def Chained (live : Finset ℕ) (ring : ℕ → List JmpField) (f : JmpField) (t : ℕ) : Prop := t ∈ live ∧ f ∈ ring t

/-- A well-formed jump graph: a chained jump goes to the code of its target, another one with an exit back. -/
structure JumpsOK (b : Blocks) (live : Finset ℕ) (ring : ℕ → List JmpField) : Prop where
  lists : JumpLists b.jmpAt live ring
  target : ∀ a n t, Chained live ring (a, .next n) t → (b a).tbNext n = (b t).tcPtr
  own : ∀ a ∈ live, ∀ n, (∀ t, ¬ Chained live ring (a, .next n) t) → (b a).tbNextOffset n ≠ 0xffff →
    (b a).tbNext n = (b a).tcPtr + (b a).tbNextOffset n

namespace JumpLists

variable {next next' : JmpField → Option JmpField} {live : Finset ℕ} {ring : ℕ → List JmpField}
variable {t : ℕ} {f : JmpField} {l r : List JmpField}

theorem head_notMem (h : JumpLists next live ring) {u : ℕ} (hu : u ∈ live) : (t, JmpTag.first) ∉ ring u :=
  fun hmem => (h.source u hu _ hmem).2 rfl

/-- A jump has one target. -/
theorem chained_unique (h : JumpLists next live ring) {u : ℕ} (ht : Chained live ring f t)
    (hu : Chained live ring f u) :
    t = u := by
  by_contra hne
  exact h.disjoint t ht.1 u hu.1 hne ht.2 hu.2

/-- The field of a jump is null exactly if the jump is not chained. -/
theorem isNone_iff (h : JumpLists next live ring) {a : ℕ} (ha : a ∈ live) (n : Fin 2) :
    (next (a, .next n)).isNone ↔ ∀ t, ¬ Chained live ring (a, .next n) t := by
  constructor
  · rintro hnone t ⟨ht, hmem⟩
    obtain ⟨l, r, hring⟩ := append_of_mem hmem
    have hloop := h.loop t ht
    rw [hring] at hloop
    have hnext : ∃ f, next (a, .next n) = some f := by
      cases r with
      | nil => exact ⟨_, (path_append.1 hloop.path).2⟩
      | cons y r => exact ⟨_, (path_append.1 hloop.path).2.1⟩
    obtain ⟨f, hf⟩ := hnext
    rw [hf] at hnone
    cases hnone
  · intro hfree
    rw [h.free a ha n fun t ht hmem => hfree t ⟨ht, hmem⟩]
    rfl

theorem nodup_ring (h : JumpLists next live ring) (ht : t ∈ live) : (ring t).Nodup :=
  (nodup_cons.1 (h.loop t ht).nodup).2

/-- There are at most two jumps for each live block. -/
theorem sum_length_le (h : JumpLists next live ring) : ∑ t ∈ live, (ring t).length ≤ 2 * live.card := by
  have hsum : ∑ t ∈ live, (ring t).length = (live.biUnion fun t => (ring t).toFinset).card := by
    rw [Finset.card_biUnion]
    · refine Finset.sum_congr rfl fun t ht => ?_
      rw [toFinset_card_of_nodup (h.nodup_ring ht)]
    · intro t ht u hu hne
      rw [onFun, disjoint_toFinset_iff_disjoint]
      exact h.disjoint t ht u hu hne
  have hsub : (live.biUnion fun t => (ring t).toFinset) ⊆ live ×ˢ {JmpTag.next 0, JmpTag.next 1} := by
    rintro ⟨a, tag⟩ hf
    obtain ⟨t, ht, hf⟩ := Finset.mem_biUnion.1 hf
    obtain ⟨ha, htag⟩ := h.source t ht _ (mem_toFinset.1 hf)
    refine Finset.mem_product.2 ⟨ha, ?_⟩
    cases tag with
    | first => exact absurd rfl htag
    | next n => fin_cases n <;> simp
  rw [hsum]
  refine (Finset.card_le_card hsub).trans ?_
  rw [Finset.card_product, Nat.mul_comm]
  exact Nat.mul_le_mul_right _ Finset.card_le_two

theorem length_le (h : JumpLists next live ring) (ht : t ∈ live) : (ring t).length ≤ 2 * live.card :=
  (Finset.single_le_sum (fun _ _ => Nat.zero_le _) ht).trans h.sum_length_le

variable {steps : ℕ}

/-- Once round, from the field of the jump itself. -/
theorem findLink_round (h : JumpLists next live ring) (ht : t ∈ live) (hring : ring t = l ++ f :: r)
    (hsteps : 2 * live.card < steps) : findLink next (· = f) steps f = some (l.getLastD (t, .first)) := by
  have hloop := h.loop t ht
  have hlen := h.length_le ht
  have hnd := hloop.nodup
  rw [hring] at hloop hlen hnd
  rw [length_append, length_cons] at hlen
  have hnot : ∀ x ∈ r ++ (t, .first) :: l, x ≠ f := by
    rintro x hx rfl
    have hnd' := perm_middle.nodup_iff.1 (nodup_cons.1 hnd).2
    have hhead := (nodup_cons.1 hnd).1
    simp only [mem_append, mem_cons] at hx hhead
    have := (nodup_cons.1 hnd').1
    simp only [mem_append] at this
    tauto
  have hfind : findLink next (· = f) steps f = some ((r ++ (t, .first) :: l).getLastD f) :=
    findLink_path hloop.from_cell (fun x hx => decide_eq_false (hnot x hx)) (decide_eq_true rfl) (by simp; omega)
  rw [hfind]
  congr 1
  simp [getLastD_eq_getLast?, List.getLast?_cons]

/-- The head of the list is found from the jump on. -/
theorem findLink_head (h : JumpLists next live ring) (ht : t ∈ live) (hring : ring t = l ++ f :: r)
    (hsteps : 2 * live.card < steps) :
    ∃ last, findLink next (·.2 = .first) steps f = some last ∧ next last = some (t, .first) := by
  have hloop := h.loop t ht
  have hlen := h.length_le ht
  have hsource := h.source t ht
  rw [hring] at hloop hlen hsource
  rw [length_append, length_cons] at hlen
  have hpath := (path_append.1 hloop.path).2
  have hr : ∀ x ∈ r, decide (x.2 = JmpTag.first) = false := by
    intro x hx
    exact decide_eq_false (hsource x (mem_append_right _ (mem_cons_of_mem _ hx))).2
  exact ⟨_, findLink_path hpath hr (decide_eq_true rfl) (by omega), hpath.last⟩

/-- The jump is found from the head of the list on. -/
theorem findLink_jump (h : JumpLists next live ring) (ht : t ∈ live) (hring : ring t = l ++ f :: r)
    (hsteps : 2 * live.card < steps) :
    findLink next (· = f) steps (t, .first) = some (l.getLastD (t, .first)) := by
  have hloop := h.loop t ht
  have hlen := h.length_le ht
  have hnd := h.nodup_ring ht
  rw [hring] at hloop hlen hnd
  rw [length_append, length_cons] at hlen
  have hl : ∀ x ∈ l, decide (x = f) = false := by
    intro x hx
    refine decide_eq_false ?_
    rintro rfl
    exact disjoint_of_nodup_append hnd hx mem_cons_self
  exact findLink_path (path_append.1 hloop.path).1 hl (decide_eq_true rfl) (by omega)

/-- The lists without the jump `f`. -/
def ringsWithout (ring : ℕ → List JmpField) (f : JmpField) (t : ℕ) : List JmpField := (ring t).erase f

theorem mem_ringsWithout (h : JumpLists next live ring) {g : JmpField} {u : ℕ} (hu : u ∈ live) :
    g ∈ ringsWithout ring f u ↔ g ∈ ring u ∧ g ≠ f := by
  rw [ringsWithout, (h.nodup_ring hu).mem_erase_iff, and_comm]

/-- **Taking a jump out.** The field in front of `f` gets the pointer of `f`, whose own becomes null. -/
theorem unlink (h : JumpLists next live ring) (ht : t ∈ live) (hring : ring t = l ++ f :: r)
    (hnext' : next' = update (update next (l.getLastD (t, .first)) (next f)) f none) :
    JumpLists next' live (ringsWithout ring f) := by
  have hloop := h.loop t ht
  have hnd := h.nodup_ring ht
  rw [hring] at hloop hnd
  have hfl : f ∉ l := fun hmem => disjoint_of_nodup_append hnd hmem mem_cons_self
  have hfr : f ∉ r := (nodup_cons.1 hnd.of_append_right).1
  have hft : f ∈ ring t := by simp [hring]
  have hfhead : ∀ u, f ≠ (u, .first) := fun u he => (h.source t ht f hft).2 (by rw [he])
  obtain ⟨p, hp⟩ : ∃ p, p = l.getLastD (t, .first) := ⟨_, rfl⟩
  have hpmem : p ∈ (t, .first) :: l := hp ▸ getLastD_mem_cons
  rw [← hp] at hnext'
  have hpf : p ≠ f := by
    rintro rfl
    rcases mem_cons.1 hpmem with he | hmem
    · exact hfhead t he
    · exact hfl hmem
  have hother : ∀ x, x ≠ f → x ≠ p → next' x = next x := by
    intro x hxf hxp
    rw [hnext', update_of_ne hxf, update_of_ne hxp]
  constructor
  · intro u hu
    by_cases hut : u = t
    · subst hut
      have hwithout : ringsWithout ring f u = l ++ r := by
        rw [ringsWithout, hring, erase_append_right _ hfl, erase_cons_head]
      rw [hwithout]
      refine hloop.unlink ?_ fun x hx hxp => hother x ?_ (hp ▸ hxp)
      · rw [← hp, hnext', update_of_ne hpf, update_self]
      · rintro rfl
        simp only [mem_cons, mem_append] at hx
        rcases hx with he | hx | hx
        · exact hfhead u he
        · exact hfl hx
        · exact hfr hx
    · have hfu : f ∉ ring u := fun hmem => h.disjoint u hu t ht hut hmem hft
      rw [ringsWithout, erase_of_not_mem hfu]
      refine (h.loop u hu).frame fun x hx => hother x ?_ ?_
      · rintro rfl
        rcases mem_cons.1 hx with he | hx
        · exact hfhead u he
        · exact hfu hx
      · rintro rfl
        rcases mem_cons.1 hx with rfl | hx
        · rcases mem_cons.1 hpmem with he | hmem
          · exact hut (congrArg Prod.fst he)
          · exact h.head_notMem ht (by rw [hring]; exact mem_append_left _ hmem)
        · rcases mem_cons.1 hpmem with rfl | hmem
          · exact h.head_notMem hu hx
          · exact h.disjoint u hu t ht hut hx (by rw [hring]; exact mem_append_left _ hmem)
  · intro u hu g hg
    exact h.source u hu g ((h.mem_ringsWithout hu).1 hg).1
  · intro u hu v hv huv g hgu hgv
    exact h.disjoint u hu v hv huv ((h.mem_ringsWithout hu).1 hgu).1 ((h.mem_ringsWithout hv).1 hgv).1
  · intro a ha n hfree
    by_cases hf : (a, .next n) = f
    · rw [hnext', hf, update_self]
    · have hfree' : ∀ u ∈ live, (a, .next n) ∉ ring u :=
        fun u hu hmem => hfree u hu ((h.mem_ringsWithout hu).2 ⟨hmem, hf⟩)
      rw [hother _ hf]
      · exact h.free a ha n hfree'
      · rintro rfl
        rcases mem_cons.1 hpmem with he | hmem
        · cases he
        · exact hfree' t ht (by rw [hring]; exact mem_append_left _ hmem)

/-- A jump that is not chained stays so. -/
theorem unlink_null (h : JumpLists next live ring) (ht : t ∈ live) (hring : ring t = l ++ f :: r)
    (hnext' : next' = update (update next (l.getLastD (t, .first)) (next f)) f none) {a : ℕ}
      {n : Fin 2}
    (hnull : next (a, .next n) = none) : next' (a, .next n) = none := by
  by_cases hf : (a, .next n) = f
  · rw [hnext', hf, update_self]
  rw [hnext', update_of_ne hf, update_of_ne]
  · exact hnull
  · intro hp
    have hmem : (a, JmpTag.next n) ∈ (t, JmpTag.first) :: l := hp ▸ getLastD_mem_cons
    rcases mem_cons.1 hmem with he | hmem
    · cases he
    · have hchained : Chained live ring (a, .next n) t := ⟨ht, by rw [hring]; exact mem_append_left _ hmem⟩
      refine (h.isNone_iff (h.source t ht _ hchained.2).1 n).1 ?_ t hchained
      rw [hnull]
      rfl

/-- The jump `f`, which is not chained, is put in front of the jumps to `t`. -/
theorem push (h : JumpLists next live ring) (ht : t ∈ live) {a : ℕ} {n : Fin 2} (ha : a ∈ live)
    (hfree : ∀ u, ¬ Chained live ring (a, .next n) u)
    (hnext' : next' = update (update next (a, .next n) (next (t, .first))) (t, .first)
      (some (a, .next n))) :
    JumpLists next' live (update ring t ((a, .next n) :: ring t)) := by
  have hother : ∀ x, x ≠ (t, .first) → x ≠ (a, .next n) → next' x = next x := by
    intro x hx hxf
    rw [hnext', update_of_ne hx, update_of_ne hxf]
  have hne : (a, JmpTag.next n) ≠ (t, .first) := by simp
  have hring : ∀ u ∈ live, ∀ g, g ∈ update ring t ((a, .next n) :: ring t) u →
      g ∈ ring u ∨ g = (a, .next n) ∧ u = t := by
    intro u hu g hg
    by_cases hut : u = t
    · subst hut
      rw [update_self, mem_cons] at hg
      exact hg.symm.imp_right fun hg => ⟨hg, rfl⟩
    · rw [update_of_ne hut] at hg
      exact .inl hg
  constructor
  · intro u hu
    by_cases hut : u = t
    · subst hut
      rw [update_self]
      refine (h.loop u hu).push ?_ ?_ ?_ fun x hx => hother x ?_ ?_
      · rw [mem_cons, not_or]
        exact ⟨hne, fun hmem => hfree u ⟨hu, hmem⟩⟩
      · rw [hnext', update_self]
      · rw [hnext', update_of_ne hne, update_self]
      · rintro rfl
        exact h.head_notMem hu hx
      · rintro rfl
        exact hfree u ⟨hu, hx⟩
    · rw [update_of_ne hut]
      refine (h.loop u hu).frame fun x hx => hother x ?_ ?_
      · rintro rfl
        rcases mem_cons.1 hx with he | hx
        · exact hut (congrArg Prod.fst he).symm
        · exact h.head_notMem hu hx
      · rintro rfl
        rcases mem_cons.1 hx with he | hx
        · cases he
        · exact hfree u ⟨hu, hx⟩
  · intro u hu g hg
    rcases hring u hu g hg with hg | ⟨rfl, -⟩
    · exact h.source u hu g hg
    · exact ⟨ha, by simp⟩
  · intro u hu v hv huv g hgu hgv
    rcases hring u hu g hgu with hu' | ⟨rfl, rfl⟩
    · rcases hring v hv g hgv with hv' | ⟨rfl, rfl⟩
      · exact h.disjoint u hu v hv huv hu' hv'
      · exact hfree u ⟨hu, hu'⟩
    · rcases hring v hv _ hgv with hv' | ⟨-, rfl⟩
      · exact hfree v ⟨hv, hv'⟩
      · exact huv rfl
  · intro c hc m hcm
    have hf : (c, JmpTag.next m) ≠ (a, .next n) := by
      intro he
      refine hcm t ht ?_
      rw [he, update_self]
      exact mem_cons_self
    rw [hother _ (by simp) hf]
    refine h.free c hc m fun u hu hmem => hcm u hu ?_
    by_cases hut : u = t
    · subst hut
      rw [update_self]
      exact mem_cons_of_mem _ hmem
    · rw [update_of_ne hut]
      exact hmem

/-- A new block, without jumps and without jumps to it. -/
theorem insert (h : JumpLists next live ring) (ht : t ∉ live) (hfirst : next' (t, .first) = some (t, .first))
    (hnone : ∀ n, next' (t, .next n) = none) (hother : ∀ f, f.1 ≠ t → next' f = next f) :
    JumpLists next' (Insert.insert t live) (update ring t []) := by
  have hlive : ∀ u ∈ Insert.insert t live, u ≠ t → u ∈ live := by
    intro u hu hut
    exact (Finset.mem_insert.1 hu).resolve_left hut
  have hmem : ∀ u ∈ Insert.insert t live, ∀ g ∈ update ring t [] u, u ≠ t ∧ u ∈ live ∧ g ∈ ring u := by
    intro u hu g hg
    by_cases hut : u = t
    · subst hut
      simp at hg
    · rw [update_of_ne hut] at hg
      exact ⟨hut, hlive u hu hut, hg⟩
  constructor
  · intro u hu
    by_cases hut : u = t
    · subst hut
      rw [update_self]
      exact ⟨by simp, hfirst⟩
    · rw [update_of_ne hut]
      have hu' := hlive u hu hut
      refine (h.loop u hu').frame fun x hx => hother x ?_
      rcases mem_cons.1 hx with rfl | hx
      · exact hut
      · exact fun he => ht (he ▸ (h.source u hu' x hx).1)
  · intro u hu g hg
    obtain ⟨-, hu', hg⟩ := hmem u hu g hg
    exact ⟨Finset.mem_insert_of_mem (h.source u hu' g hg).1, (h.source u hu' g hg).2⟩
  · intro u hu v hv huv g hgu hgv
    obtain ⟨-, hu', hgu⟩ := hmem u hu g hgu
    obtain ⟨-, hv', hgv⟩ := hmem v hv g hgv
    exact h.disjoint u hu' v hv' huv hgu hgv
  · intro a ha n hfree
    by_cases hat : a = t
    · rw [hat]
      exact hnone n
    · rw [hother _ hat]
      refine h.free a (hlive a ha hat) n fun u hu hg => ?_
      have hut : u ≠ t := fun he => ht (he ▸ hu)
      refine hfree u (Finset.mem_insert_of_mem hu) ?_
      rw [update_of_ne hut]
      exact hg

end JumpLists

/-- Well-formedness is about the lists of live blocks. -/
theorem JumpLists.congr {next : JmpField → Option JmpField} {live : Finset ℕ} {ring ring' : ℕ → List JmpField}
    (h : JumpLists next live ring) (hring : ∀ t ∈ live, ring t = ring' t) : JumpLists next live ring' := by
  refine ⟨fun t ht => ?_, fun t ht => ?_, fun t ht u hu => ?_, fun a ha n hfree => ?_⟩
  · exact hring t ht ▸ h.loop t ht
  · exact hring t ht ▸ h.source t ht
  · exact hring t ht ▸ hring u hu ▸ h.disjoint t ht u hu
  · exact h.free a ha n fun t ht => hring t ht ▸ hfree t ht

theorem JumpsOK.congr {b : Blocks} {live : Finset ℕ} {ring ring' : ℕ → List JmpField} (h : JumpsOK b live ring)
    (hring : ∀ t ∈ live, ring t = ring' t) : JumpsOK b live ring' := by
  have hchained : ∀ f t, Chained live ring' f t ↔ Chained live ring f t := by
    intro f t
    refine and_congr_right fun ht => ?_
    rw [hring t ht]
  refine ⟨h.lists.congr hring, fun a n t ht => ?_, fun a ha n hfree => ?_⟩
  · exact h.target a n t ((hchained _ t).1 ht)
  · exact h.own a ha n fun t ht => hfree t ((hchained _ t).2 ht)

namespace JumpsOK

variable {b b' : Blocks} {live : Finset ℕ} {ring : ℕ → List JmpField}

/-- The jump graph depends on the jumps of the blocks, and on where their code is. -/
theorem frame (h : JumpsOK b live ring) (hcode : ∀ t ∈ live, (b' t).toTbCode = (b t).toTbCode)
    (hjumps : ∀ t, (b' t).toTbJumps = (b t).toTbJumps) : JumpsOK b' live ring := by
  have hjmp : b'.jmpAt = b.jmpAt := by
    funext f
    obtain ⟨a, tag⟩ := f
    cases tag with
    | next n => exact congrFun (congrArg TbJumps.jmpNext (hjumps a)) n
    | first => exact congrArg TbJumps.jmpFirst (hjumps a)
  refine ⟨hjmp ▸ h.lists, fun a n t ht => ?_, fun a ha n hfree hoff => ?_⟩
  · rw [congrArg TbJumps.tbNext (hjumps a), congrArg TbCode.tcPtr (hcode t ht.1)]
    exact h.target a n t ht
  · rw [congrArg TbCode.tbNextOffset (hcode a ha)] at hoff
    rw [congrArg TbJumps.tbNext (hjumps a), congrArg TbCode.tcPtr (hcode a ha),
      congrArg TbCode.tbNextOffset (hcode a ha)]
    exact h.own a ha n hfree hoff

theorem empty (b : Blocks) (ring : ℕ → List JmpField) : JumpsOK b ∅ ring where
  lists := ⟨fun _ ht => by simp at ht, fun _ ht => by simp at ht, fun _ ht => by simp at ht, fun _ ha => by simp at ha⟩
  target _ _ _ ht := by simp [Chained] at ht
  own _ ha := by simp at ha

/-- `tb_link_phys` makes a live block without chained jumps. -/
theorem link (h : JumpsOK b live ring) {tb : ℕ} (htb : tb ∉ live) :
    JumpsOK (b.linkJumps tb) (insert tb live) (update ring tb []) := by
  have hcode := sameCode_linkJumps (b := b) tb
  have hptr : ∀ a, (b.linkJumps tb a).tcPtr = (b a).tcPtr := fun a => congrArg TbCode.tcPtr (hcode.code a)
  have hoff : ∀ a, (b.linkJumps tb a).tbNextOffset = (b a).tbNextOffset :=
    fun a => congrArg TbCode.tbNextOffset (hcode.code a)
  have hchained : ∀ f t, Chained (insert tb live) (update ring tb []) f t ↔ Chained live ring f t := by
    intro f t
    by_cases ht : t = tb
    · subst ht
      simp [Chained, htb]
    · simp [Chained, ht]
  refine ⟨h.lists.insert htb ?_ (fun n => ?_) fun f hf => ?_, fun a n t ht => ?_, fun a ha n hfree hn => ?_⟩
  · simp
  · fin_cases n <;> simp
  · obtain ⟨a, tag⟩ := f
    have ha : a ≠ tb := hf
    simp [ha]
  · rw [hchained] at ht
    have ha : a ≠ tb := fun he => htb (he ▸ (h.lists.source t ht.1 _ ht.2).1)
    rw [tbNext_linkJumps, if_neg (fun he => ha he.1), hptr]
    exact h.target a n t ht
  · rw [hoff] at hn
    rw [tbNext_linkJumps, hptr, hoff]
    by_cases hat : a = tb
    · subst hat
      rw [if_pos ⟨rfl, hn⟩]
    · rw [if_neg (fun he => hat he.1)]
      exact h.own a ((Finset.mem_insert.1 ha).resolve_left hat) n (fun t ht => hfree t ((hchained _ t).2 ht)) hn

/-- `tb_add_jump` chains a jump that is not chained yet. -/
theorem addJump (h : JumpsOK b live ring) {tb tbNext : ℕ} {n : Fin 2} (htb : tb ∈ live) (hnext : tbNext ∈ live) :
    JumpsOK (b.tbAddJump tb n tbNext) live
      (if ((b tb).jmpNext n).isNone then update ring tbNext ((tb, .next n) :: ring tbNext) else ring) := by
  by_cases hnone : ((b tb).jmpNext n).isNone
  · rw [if_pos hnone, tbAddJump, if_pos hnone]
    have hfree := (h.lists.isNone_iff htb n).1 hnone
    have hcode : b.SameCode (((b.tbSetJmpTarget tb n (b tbNext).tcPtr).setJmp (tb, .next n)
        ((b.tbSetJmpTarget tb n (b tbNext).tcPtr) tbNext).jmpFirst).setJmp (tbNext, .first) (some (tb, .next n))) :=
      ((sameCode_tbSetJmpTarget _ _ _).trans (sameCode_setJmp _ _)).trans (sameCode_setJmp _ _)
    have hchained : ∀ f t, Chained live (update ring tbNext ((tb, .next n) :: ring tbNext)) f t ↔
        Chained live ring f t ∨ f = (tb, .next n) ∧ t = tbNext := by
      intro f t
      by_cases ht : t = tbNext
      · subst ht
        simp [Chained, hnext, or_comm]
      · simp [Chained, ht]
    refine ⟨h.lists.push hnext htb hfree ?_, fun a m t ht => ?_, fun a ha m hm hoff => ?_⟩
    · have hfirst : ((b.tbSetJmpTarget tb n (b tbNext).tcPtr) tbNext).jmpFirst = b.jmpAt (tbNext, .first) :=
        congrFun (jmpAt_tbSetJmpTarget tb n _) (tbNext, .first)
      simp only [jmpAt_setJmp, jmpAt_tbSetJmpTarget, hfirst]
    · rw [tbNext_setJmp, tbNext_setJmp, tbNext_tbSetJmpTarget, congrArg TbCode.tcPtr (hcode.code t)]
      rcases (hchained _ t).1 ht with hold | ⟨he, rfl⟩
      · rw [if_neg]
        · exact h.target a m t hold
        · rintro ⟨rfl, rfl⟩
          exact hfree t hold
      · simp only [Prod.mk.injEq, JmpTag.next.injEq] at he
        rw [if_pos he]
    · rw [congrArg TbCode.tbNextOffset (hcode.code a)] at hoff
      rw [tbNext_setJmp, tbNext_setJmp, tbNext_tbSetJmpTarget, congrArg TbCode.tcPtr (hcode.code a),
        congrArg TbCode.tbNextOffset (hcode.code a), if_neg]
      · exact h.own a ha m (fun t ht => hm t ((hchained _ t).2 (.inl ht))) hoff
      · rintro ⟨rfl, rfl⟩
        exact hm tbNext ((hchained _ tbNext).2 (.inr ⟨rfl, rfl⟩))
  · rw [if_neg hnone, tbAddJump, if_neg hnone]
    exact h

end JumpsOK

end Emulator.Exec
