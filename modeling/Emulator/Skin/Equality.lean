import Emulator.Skin.RegionOps

/-!
# Region equality

`skin_region_equals` compares the bounds and the cells of the runs, so it tells whether two regions have the same
pixels only if every region has one form.

* `Built.merged`: touching bands of a region differ, and a region of one span is a rectangle;
* `bands_unique`: bands of one span each are determined by what they cover;
* `skinRegionEquals_iff`: equality is pixel equality, and the forms are canonical, exactly for regions whose bands
  have one span.
-/

namespace Emulator.Skin

open List

/-- `skin_rect_equals`, whose last comparison is that of the second height with itself. -/
def skinRectEquals (r1 r2 : SkinRect) : Bool := r1.x = r2.x ∧ r1.y = r2.y ∧ r1.w = r2.w ∧ r2.h = r2.h

/-- The cells of a scanline, with its sentinel. -/
def spanCells : List Span → List ℤ
  | [] => [SKIN_REGION_SENTINEL]
  | s :: spans => s.1 :: s.2 :: spanCells spans

/-- The cells of a run list. -/
def runsCells : List Band → List ℤ
  | [] => [SKIN_REGION_SENTINEL]
  | b :: bands => b.ytop :: b.ybot :: (spanCells b.spans ++ runsCells bands)

/-- `skin_region_equals`. Two regions at one address, or with one store, take the shortcuts of the source and are
equal here too. -/
def skinRegionEquals (r1 r2 : SkinRegion) : ℤ :=
  if ¬ skinRectEquals r1.bounds r2.bounds then 0
  else
    match r1.runs, r2.runs with
    | .empty, .empty => 1
    | .rect, .rect => 1
    | .complex runs1, .complex runs2 =>
      if runsCount runs1 = runsCount runs2 ∧ runsCells runs1 = runsCells runs2 then 1 else 0
    | _, _ => 0

theorem skinRectEquals_iff {r1 r2 : SkinRect} :
    skinRectEquals r1 r2 = true ↔ r1.x = r2.x ∧ r1.y = r2.y ∧ r1.w = r2.w := by
  simp [skinRectEquals]

/-- A scanline is read off its cells. -/
theorem spanCells_inj {spans spans' : List Span} {rest rest' : List ℤ} (h : ∀ s ∈ spans, SpanOk s)
    (h' : ∀ s ∈ spans', SpanOk s) (he : spanCells spans ++ rest = spanCells spans' ++ rest') :
    spans = spans' ∧ rest = rest' := by
  have hne : ∀ s : Span, SpanOk s → s.1 ≠ SKIN_REGION_SENTINEL := by
    rintro s ⟨-, h1, h2⟩
    unfold RUN_MAX at h2
    unfold SKIN_REGION_SENTINEL
    omega
  induction spans generalizing spans' with
  | nil =>
    cases spans' with
    | nil => exact ⟨rfl, append_cancel_left he⟩
    | cons s' spans' => exact absurd (List.cons.inj he).1.symm (hne s' (h' s' mem_cons_self))
  | cons s spans ih =>
    cases spans' with
    | nil => exact absurd (List.cons.inj he).1 (hne s (h s mem_cons_self))
    | cons s' spans' =>
      obtain ⟨h1, he⟩ := List.cons.inj he
      obtain ⟨h2, he⟩ := List.cons.inj he
      rw [forall_mem_cons] at h h'
      obtain ⟨hs, hr⟩ := ih h.2 h'.2 he
      exact ⟨by rw [hs, Prod.ext h1 h2], hr⟩

/-- A run list is read off its cells. -/
theorem runsCells_inj {bands bands' : List Band} (h : ∀ b ∈ bands, BandOk b) (h' : ∀ b ∈ bands', BandOk b)
    (he : runsCells bands = runsCells bands') : bands = bands' := by
  have hne : ∀ b : Band, BandOk b → b.ytop ≠ SKIN_REGION_SENTINEL := by
    intro b hb
    have h1 := hb.lt
    have h2 := hb.bot
    unfold RUN_MAX at h2
    unfold SKIN_REGION_SENTINEL
    omega
  induction bands generalizing bands' with
  | nil =>
    cases bands' with
    | nil => rfl
    | cons b' bands' => exact absurd (List.cons.inj he).1.symm (hne b' (h' b' mem_cons_self))
  | cons b bands ih =>
    cases bands' with
    | nil => exact absurd (List.cons.inj he).1 (hne b (h b mem_cons_self))
    | cons b' bands' =>
      obtain ⟨h1, he⟩ := List.cons.inj he
      obtain ⟨h2, he⟩ := List.cons.inj he
      rw [forall_mem_cons] at h h'
      obtain ⟨hs, hr⟩ := spanCells_inj h.1.spans h'.1.spans he
      obtain ⟨ytop, ybot, spans⟩ := b
      obtain ⟨ytop', ybot', spans'⟩ := b'
      simp only at h1 h2 hs
      rw [h1, h2, hs, ih h.2 h'.2 hr]

/-- Two rectangles that only their heights tell apart. -/
def OnlyHeightDiffers (r1 r2 : SkinRegion) : Prop :=
  r1.runs = .rect ∧ r2.runs = .rect ∧ r1.bounds.x = r2.bounds.x ∧ r1.bounds.y = r2.bounds.y ∧
    r1.bounds.w = r2.bounds.w ∧ r1.bounds.h ≠ r2.bounds.h

/-- Regions with the same pixels that are not marked empty have the same bounds. -/
theorem IsBox.unique {r1 r2 : SkinRect} {P : ℤ → ℤ → Prop} (h1 : IsBox r1 P) (h2 : IsBox r2 P) : r1 = r2 := by
  obtain ⟨hw1, ⟨y1, hl1⟩, ⟨y1', hr1⟩, ⟨x1, ht1⟩, ⟨x1', hb1⟩⟩ := h1
  obtain ⟨hw2, ⟨y2, hl2⟩, ⟨y2', hr2⟩, ⟨x2, ht2⟩, ⟨x2', hb2⟩⟩ := h2
  have := hw1 _ _ hl2
  have := hw1 _ _ hr2
  have := hw1 _ _ ht2
  have := hw1 _ _ hb2
  have := hw2 _ _ hl1
  have := hw2 _ _ hr1
  have := hw2 _ _ ht1
  have := hw2 _ _ hb1
  obtain ⟨x, y, w, h⟩ := r1
  obtain ⟨x', y', w', h'⟩ := r2
  simp only [SkinRect.mk.injEq] at *
  omega

variable {r1 r2 : SkinRegion}

/-- On regions with well-formed runs the function compares all there is, but for the height of a rectangle. -/
theorem skinRegionEquals_iff_eq (h1 : RegionOk r1) (h2 : RegionOk r2) :
    skinRegionEquals r1 r2 ≠ 0 ↔ r1 = r2 ∨ OnlyHeightDiffers r1 r2 := by
  obtain ⟨bounds1, runs1⟩ := r1
  obtain ⟨bounds2, runs2⟩ := r2
  unfold skinRegionEquals OnlyHeightDiffers
  by_cases hb : bounds1.x = bounds2.x ∧ bounds1.y = bounds2.y ∧ bounds1.w = bounds2.w
  · rw [if_neg (not_not.2 (skinRectEquals_iff.2 hb))]
    cases runs1 <;> cases runs2
    case complex.complex bands1 bands2 =>
      simp only [SkinRegion.mk.injEq, Runs.complex.injEq, reduceCtorEq, false_and, or_false]
      constructor
      · intro h
        have hbands : bands1 = bands2 := by
          refine runsCells_inj h1.1.band h2.1.band ?_
          by_contra hne
          exact h (if_neg fun h => hne h.2)
        subst hbands
        exact ⟨h1.2.unique h2.2, rfl⟩
      · rintro ⟨-, rfl⟩
        simp
    case empty.empty => simp [show bounds1 = _ from h1, show bounds2 = _ from h2]
    case rect.rect =>
      obtain ⟨x, y, w, h⟩ := bounds1
      obtain ⟨x', y', w', h'⟩ := bounds2
      obtain ⟨rfl, rfl, rfl⟩ := hb
      simp [em]
    all_goals simp
  · rw [if_pos fun h => hb (skinRectEquals_iff.1 h)]
    simp only [ne_eq, not_true_eq_false, false_iff, SkinRegion.mk.injEq, not_or]
    refine ⟨?_, fun h => hb ⟨h.2.2.1, h.2.2.2.1, h.2.2.2.2.1⟩⟩
    rintro ⟨rfl, -⟩
    exact hb ⟨rfl, rfl, rfl⟩

/-- Two bands that touch have different spans. -/
def Apart (a b : Band) : Prop := a.ybot = b.ytop → a.spans ≠ b.spans

/-- The run list of a region: no band can be merged with the next one, and there is more than one span. -/
structure Merged (bands : List Band) : Prop where
  apart : bands.IsChain Apart
  notRect : runsCount bands ≠ RUNS_RECT_COUNT

/-- **`runs_coalesce`** merges the bands that it can. -/
theorem runsCoalesce_apart {src : List Band} (hsrc : ∀ b ∈ src, BandOk b) (prev : Option Band) (minmax : SkinBox) :
    (runsCoalesce prev minmax src).1.IsChain Apart ∧
      ∀ p ∈ prev, ∃ ybot rest, (runsCoalesce prev minmax src).1 = { p with ybot := ybot } :: rest := by
  induction src generalizing prev minmax with
  | nil =>
    cases prev with
    | none => exact ⟨isChain_nil, nofun⟩
    | some p =>
      refine ⟨isChain_singleton p, ?_⟩
      rintro _ ⟨rfl⟩
      exact ⟨p.ybot, [], rfl⟩
  | cons b src ih =>
    rw [forall_mem_cons] at hsrc
    obtain ⟨-, -, htop, -⟩ := coalesceBand_ok hsrc.1
    rw [runsCoalesce_cons hsrc.1]
    cases prev with
    | none => exact ⟨(ih hsrc.2 _ _).1, nofun⟩
    | some p =>
      simp only
      split_ifs with hm
      · obtain ⟨h1, h2⟩ := ih hsrc.2 (some { p with ybot := b.ybot }) (extend minmax b)
        refine ⟨h1, ?_⟩
        rintro _ ⟨rfl⟩
        exact h2 { p with ybot := b.ybot } rfl
      · obtain ⟨h1, h2⟩ := ih hsrc.2 (some (coalesceBand b)) (extend minmax b)
        obtain ⟨ybot, rest, hlist⟩ := h2 _ rfl
        rw [hlist] at h1 ⊢
        refine ⟨isChain_cons_cons.2 ⟨fun hadj hs => hm ⟨hadj.trans htop, hs⟩, h1⟩, ?_⟩
        rintro _ ⟨rfl⟩
        exact ⟨p.ybot, _, rfl⟩

theorem regionOperatorDone_merged {src : List Band} (hsrc : BandsOk src) :
    ∀ bands, (regionOperatorDone src).runs = .complex bands → Merged bands := by
  unfold regionOperatorDone
  split_ifs with hne
  · nofun
  have hapart := (runsCoalesce_apart hsrc.band none ⟨2147483647, 2147483647, -2147483648, -2147483648⟩).1
  generalize runsCoalesce none ⟨2147483647, 2147483647, -2147483648, -2147483648⟩ src = r at hapart
  obtain ⟨bands, minmax⟩ := r
  simp only
  split_ifs with h1 h6
  · nofun
  · nofun
  · rintro _ ⟨rfl⟩
    exact ⟨hapart, h6⟩

variable {bands : List Band}

theorem shiftBands_merged (dx dy : ℤ) (h : Merged bands) : Merged (shiftBands bands dx dy) := by
  obtain ⟨hapart, hcount⟩ := h
  constructor
  · rw [shiftBands, isChain_map]
    refine hapart.imp fun a b hab hadj hspans => hab ?_ ?_
    · simp only at hadj
      omega
    · have hinj : Function.Injective fun s : Span => (s.1 + dx, s.2 + dx) := by
        intro s t hst
        simp only [Prod.mk.injEq, add_left_inj] at hst
        exact Prod.ext hst.1 hst.2
      exact map_injective_iff.2 hinj hspans
  · have hsame : runsCount (shiftBands bands dx dy) = runsCount bands := by
      simp [shiftBands, runsCount, Function.comp_def]
    rwa [hsame]

/-- **Every region built through the API is merged.** -/
theorem Built.merged {r : SkinRegion} (h : Built r) : ∀ bands, r.runs = .complex bands → Merged bands :=
  h.complexKept (fun _ hsrc => regionOperatorDone_merged hsrc) fun _ dx dy _ hm => shiftBands_merged dx dy hm

/-- The pixels of a run list. -/
def RunsCover (bands : List Band) (x y : ℤ) : Prop := ∃ b ∈ bands, Covers b x y

/-- A run list with one span in each band, and no band that can be merged with the next one. -/
structure SingleBands (bands : List Band) : Prop extends BandsOk bands where
  single : ∀ b ∈ bands, ∃ left right, b.spans = [(left, right)]
  apart : bands.IsChain Apart

variable {b : Band}

theorem SingleBands.tail (h : SingleBands (b :: bands)) : SingleBands bands :=
  ⟨h.toBandsOk.tail, fun c hc => h.single c (mem_cons_of_mem _ hc), h.apart.tail⟩

theorem SingleBands.below {b c : Band} (h : SingleBands (b :: bands)) (hc : c ∈ bands) :
    b.ybot ≤ c.ytop := (pairwise_cons.1 h.sorted).1 c hc

variable {left right : ℤ}

theorem SingleBands.ends (h : SingleBands (b :: bands))
    (hs : b.spans = [(left, right)]) : left < right ∧ b.ytop < b.ybot := by
  have hb := h.band b mem_cons_self
  exact ⟨(hb.spans (left, right) (by simp [hs])).2.1, hb.lt⟩

/-- On the lines of the first band its span is all there is. -/
theorem SingleBands.cover_head (h : SingleBands (b :: bands))
    (hs : b.spans = [(left, right)]) {x y : ℤ} (hy : b.ytop ≤ y ∧ y < b.ybot) :
    RunsCover (b :: bands) x y ↔ left ≤ x ∧ x < right := by
  unfold RunsCover
  simp only [mem_cons, exists_eq_or_imp]
  constructor
  · rintro (⟨-, -, s, hmem, hx⟩ | ⟨c, hc, hcov⟩)
    · rw [hs, mem_singleton] at hmem
      subst hmem
      exact hx
    · have := h.below hc
      have := hcov.1
      omega
  · exact fun hx => .inl ⟨hy.1, hy.2, _, by rw [hs, mem_singleton], hx⟩

/-- Nothing is covered above the first band. -/
theorem SingleBands.cover_ge (h : SingleBands (b :: bands)) {x y : ℤ}
    (hc : RunsCover (b :: bands) x y) : b.ytop ≤ y := by
  obtain ⟨c, hmem, hcov⟩ := hc
  have h1 := hcov.1
  rcases mem_cons.1 hmem with rfl | hmem
  · exact h1
  · have := h.below hmem
    have := (h.band b mem_cons_self).lt
    omega

/-- Below the first band the others are all there is. -/
theorem SingleBands.cover_tail (h : SingleBands (b :: bands)) {x y : ℤ} :
    RunsCover bands x y ↔ RunsCover (b :: bands) x y ∧ b.ybot ≤ y := by
  constructor
  · rintro ⟨c, hc, hcov⟩
    have := h.below hc
    have := hcov.1
    exact ⟨⟨c, mem_cons_of_mem _ hc, hcov⟩, by omega⟩
  · rintro ⟨⟨c, hc, hcov⟩, hy⟩
    rcases mem_cons.1 hc with rfl | hc
    · have := hcov.2.1
      omega
    · exact ⟨c, hc, hcov⟩

/-- The line behind the first band has not the pixels of its last line. -/
theorem SingleBands.not_again (h : SingleBands (b :: bands))
    (hs : b.spans = [(left, right)]) : ¬ ∀ x, RunsCover (b :: bands) x b.ybot ↔ left ≤ x ∧ x < right := by
  intro hagain
  obtain ⟨hlt, hb⟩ := h.ends hs
  have hleft : RunsCover bands left b.ybot := h.cover_tail.2 ⟨(hagain left).2 ⟨le_rfl, hlt⟩, le_rfl⟩
  cases bands with
  | nil =>
    obtain ⟨c, hc, -⟩ := hleft
    exact absurd hc not_mem_nil
  | cons c bands =>
    -- the next band starts there, with the same span
    have hadj : b.ybot = c.ytop := le_antisymm (h.below mem_cons_self) (h.tail.cover_ge hleft)
    obtain ⟨left', right', hs'⟩ := h.tail.single c mem_cons_self
    obtain ⟨hlt', hc⟩ := h.tail.ends hs'
    have hsame : ∀ x, left' ≤ x ∧ x < right' ↔ left ≤ x ∧ x < right := by
      intro x
      rw [← hagain, ← h.tail.cover_head hs' (x := x) (y := b.ybot) (by omega), h.cover_tail]
      exact and_iff_left le_rfl
    have h1 := (hsame left').1 ⟨le_rfl, hlt'⟩
    have h2 := (hsame (right' - 1)).1 (by omega)
    have h3 := (hsame left).2 ⟨le_rfl, hlt⟩
    have h4 := (hsame (right - 1)).2 (by omega)
    refine (isChain_cons_cons.1 h.apart).1 hadj ?_
    rw [hs, hs', show left = left' by omega, show right = right' by omega]

/-- The first bands of two lists that cover the same: the second one does not end behind the first one. -/
theorem SingleBands.ybot_le {b b' : Band} {bands bands' : List Band} (h : SingleBands (b :: bands))
    (h' : SingleBands (b' :: bands')) (hcov : ∀ x y, RunsCover (b :: bands) x y ↔ RunsCover (b' :: bands') x y)
    (htop : b.ytop = b'.ytop) (hs : b.spans = [(left, right)]) (hs' : b'.spans = [(left, right)]) :
    b'.ybot ≤ b.ybot := by
  by_contra hlt
  refine h.not_again hs fun x => ?_
  have hb := (h.ends hs).2
  rw [hcov, h'.cover_head hs' (by omega)]

/-- **Bands of one span are determined by what they cover.** -/
theorem bands_unique {bands bands' : List Band} (h : SingleBands bands) (h' : SingleBands bands')
    (hcov : ∀ x y, RunsCover bands x y ↔ RunsCover bands' x y) : bands = bands' := by
  have hfirst : ∀ {b : Band} {bands : List Band}, SingleBands (b :: bands) →
      ∃ x, RunsCover (b :: bands) x b.ytop := by
    intro b bands h
    obtain ⟨left, right, hs⟩ := h.single b mem_cons_self
    obtain ⟨hlt, hb⟩ := h.ends hs
    exact ⟨left, (h.cover_head hs ⟨le_rfl, hb⟩).2 ⟨le_rfl, hlt⟩⟩
  induction bands generalizing bands' with
  | nil =>
    cases bands' with
    | nil => rfl
    | cons b' bands' =>
      obtain ⟨x, hx⟩ := hfirst h'
      obtain ⟨c, hc, -⟩ := (hcov _ _).2 hx
      exact absurd hc not_mem_nil
  | cons b bands ih =>
    cases bands' with
    | nil =>
      obtain ⟨x, hx⟩ := hfirst h
      obtain ⟨c, hc, -⟩ := (hcov _ _).1 hx
      exact absurd hc not_mem_nil
    | cons b' bands' =>
      obtain ⟨x, hx⟩ := hfirst h
      obtain ⟨x', hx'⟩ := hfirst h'
      have htop : b.ytop = b'.ytop := le_antisymm (h.cover_ge ((hcov _ _).2 hx')) (h'.cover_ge ((hcov _ _).1 hx))
      obtain ⟨left, right, hs⟩ := h.single b mem_cons_self
      obtain ⟨left', right', hs'⟩ := h'.single b' mem_cons_self
      obtain ⟨hlt, hb⟩ := h.ends hs
      obtain ⟨hlt', hb'⟩ := h'.ends hs'
      have hsame : ∀ x, left ≤ x ∧ x < right ↔ left' ≤ x ∧ x < right' := by
        intro x
        rw [← h.cover_head hs (x := x) ⟨le_rfl, hb⟩, ← h'.cover_head hs' (x := x) ⟨le_rfl, hb'⟩, hcov, htop]
      have h1 := (hsame left).1 ⟨le_rfl, hlt⟩
      have h2 := (hsame (right - 1)).1 (by omega)
      have h3 := (hsame left').2 ⟨le_rfl, hlt'⟩
      have h4 := (hsame (right' - 1)).2 (by omega)
      obtain rfl : left = left' := by omega
      obtain rfl : right = right' := by omega
      have hbot : b.ybot = b'.ybot :=
        le_antisymm (h'.ybot_le h (fun x y => (hcov x y).symm) htop.symm hs' hs) (h.ybot_le h' hcov htop hs hs')
      have htail : bands = bands' := ih h.tail h'.tail fun x y => by
        rw [h.cover_tail, h'.cover_tail, hcov, hbot]
      obtain ⟨ytop, ybot, spans⟩ := b
      obtain ⟨ytop', ybot', spans'⟩ := b'
      simp only at htop hbot hs hs'
      rw [htop, hbot, hs, hs', htail]

/-- `skin_region_contains` agrees on the two regions. -/
def PixelEqual (r1 r2 : SkinRegion) : Prop :=
  ∀ x y, IsInt x → IsInt y → skinRegionContains r1 x y = skinRegionContains r2 x y

/-- The one form of a region. -/
structure Canonical (r : SkinRegion) : Prop where
  /-- the empty form when the region is empty -/
  empty : (∀ x y, ¬ PixelSet r x y) → r.runs = .empty
  /-- the rectangle form when the region is a rectangle -/
  rect : ∀ l t w h : ℤ, 0 < w → 0 < h →
    (∀ x y, PixelSet r x y ↔ l ≤ x ∧ x < l + w ∧ t ≤ y ∧ y < t + h) → r.runs = .rect
  /-- maximal spans -/
  spans : ∀ bands, r.runs = .complex bands → ∀ b ∈ bands, b.spans.Pairwise fun s t => s.2 < t.1
  /-- maximal bands -/
  bands : ∀ bands, r.runs = .complex bands → bands.IsChain Apart

/-- **Equality is pixel equality**, and both regions have their one form. -/
structure EqualityExact (r1 r2 : SkinRegion) : Prop where
  equals : skinRegionEquals r1 r2 ≠ 0 ↔ PixelEqual r1 r2
  canonical : Canonical r1
  canonical2 : Canonical r2

/-- No band of the region has more than one span. -/
def SingleSpans (r : SkinRegion) : Prop := ∀ bands, r.runs = .complex bands → ∀ b ∈ bands, b.spans.length = 1

theorem pixelEqual_iff (h1 : RegionOk r1) (h2 : RegionOk r2) :
    PixelEqual r1 r2 ↔ ∀ x y, PixelSet r1 x y ↔ PixelSet r2 x y := by
  have hint : ∀ r, RegionOk r → ∀ x y, PixelSet r x y → IsInt x ∧ IsInt y := by
    intro r h x y hxy
    refine (h.isBox fun he => ?_).2 x y hxy
    unfold PixelSet at hxy
    rw [he] at hxy
    exact hxy
  have hagree : ∀ x y, IsInt x → IsInt y → (skinRegionContains r1 x y = skinRegionContains r2 x y ↔
      (PixelSet r1 x y ↔ PixelSet r2 x y)) := by
    intro x y hx hy
    rw [← contains_iff h1 hx hy, ← contains_iff h2 hx hy]
    exact Bool.eq_iff_iff
  constructor
  · intro h x y
    by_cases hxy : IsInt x ∧ IsInt y
    · exact (hagree x y hxy.1 hxy.2).1 (h x y hxy.1 hxy.2)
    · exact iff_of_false (fun hp => hxy (hint r1 h1 x y hp)) fun hp => hxy (hint r2 h2 x y hp)
  · exact fun h x y hx hy => (hagree x y hx hy).2 (h x y)

theorem Built.singleBands {bounds : SkinRect} (h : Built ⟨bounds, .complex bands⟩)
    (hs : SingleSpans ⟨bounds, .complex bands⟩) : SingleBands bands := by
  refine ⟨h.ok.1.toBandsOk, fun b hb => ?_, (h.merged bands rfl).apart⟩
  obtain ⟨s, hs⟩ := length_eq_one_iff.1 (hs bands rfl b hb)
  exact ⟨s.1, s.2, hs⟩

/-- Bands of one span that are apart do not make a rectangle, unless there is one of them. -/
theorem SingleBands.not_rect (h : SingleBands bands) (hcount : runsCount bands ≠ RUNS_RECT_COUNT)
    {l t w k : ℤ} (hw : 0 < w) (hk : 0 < k)
    (hcov : ∀ x y, RunsCover bands x y ↔ l ≤ x ∧ x < l + w ∧ t ≤ y ∧ y < t + k) : False := by
  cases bands with
  | nil =>
    obtain ⟨c, hc, -⟩ := (hcov l t).2 (by omega)
    exact absurd hc not_mem_nil
  | cons b bands =>
    obtain ⟨left, right, hs⟩ := h.single b mem_cons_self
    obtain ⟨hlt, hb⟩ := h.ends hs
    have hrow : ∀ x, RunsCover (b :: bands) x b.ytop ↔ left ≤ x ∧ x < right :=
      fun x => h.cover_head hs ⟨le_rfl, hb⟩
    have htop := (hcov left b.ytop).1 ((hrow left).2 ⟨le_rfl, hlt⟩)
    by_cases hend : t + k ≤ b.ybot
    · -- one band: the run list is that of a rectangle
      have hnil : bands = [] := by
        cases bands with
        | nil => rfl
        | cons c bands =>
          obtain ⟨left', right', hs'⟩ := h.tail.single c mem_cons_self
          obtain ⟨hlt', hc⟩ := h.tail.ends hs'
          have hcov' := (h.cover_tail.1 ((h.tail.cover_head hs' (x := left') ⟨le_rfl, hc⟩).2 ⟨le_rfl, hlt'⟩)).1
          have := (hcov _ _).1 hcov'
          have := h.below mem_cons_self
          omega
      refine hcount ?_
      rw [hnil]
      simp [runsCount, hs, RUNS_RECT_COUNT]
    · -- the line behind the band has the same pixels
      refine h.not_again hs fun x => ?_
      rw [← hrow, hcov, hcov]
      omega

theorem canonical_of_single {r : SkinRegion} (h : Built r) (hs : SingleSpans r) : Canonical r := by
  refine ⟨fun hno => ?_, fun l t w k hw hk hp => ?_, fun bands hb b hmem => ?_, fun bands hb =>
    (h.merged bands hb).apart⟩
  · by_contra hne
    obtain ⟨x, y, -, -, hxy⟩ := h.ok.hasPixel hne
    exact hno x y hxy
  · obtain ⟨bounds, runs⟩ := r
    cases runs with
    | empty => exact ((hp l t).2 (by omega)).elim
    | rect => rfl
    | complex bands => exact ((h.singleBands hs).not_rect (h.merged bands rfl).notRect hw hk hp).elim
  · obtain ⟨s, hspan⟩ := length_eq_one_iff.1 (hs bands hb b hmem)
    rw [hspan]
    exact pairwise_singleton _ _

/-- Two regions with bands of one span and the same pixels are the same. -/
theorem eq_of_pixelSet (h1 : Built r1) (h2 : Built r2) (hs1 : SingleSpans r1)
    (hs2 : SingleSpans r2) (hp : ∀ x y, PixelSet r1 x y ↔ PixelSet r2 x y) : r1 = r2 := by
  have hc1 := canonical_of_single h1 hs1
  have hc2 := canonical_of_single h2 hs2
  have hempty : r1.runs = .empty ↔ r2.runs = .empty := by
    constructor
    · intro he
      refine hc2.empty fun x y hxy => ?_
      have := (hp x y).2 hxy
      unfold PixelSet at this
      rw [he] at this
      exact this
    · intro he
      refine hc1.empty fun x y hxy => ?_
      have := (hp x y).1 hxy
      unfold PixelSet at this
      rw [he] at this
      exact this
  by_cases hne : r1.runs = .empty
  · have hok1 := h1.ok
    have hok2 := h2.ok
    obtain ⟨bounds1, runs1⟩ := r1
    obtain ⟨bounds2, runs2⟩ := r2
    obtain rfl : runs1 = .empty := hne
    obtain rfl : runs2 = .empty := hempty.1 rfl
    rw [show bounds1 = _ from hok1, show bounds2 = _ from hok2]
  · have hpset : PixelSet r1 = PixelSet r2 := by
      funext x y
      exact propext (hp x y)
    have hbox1 := (h1.ok.isBox hne).1
    rw [hpset] at hbox1
    have hbounds := hbox1.unique (h2.ok.isBox fun he => hne (hempty.2 he)).1
    -- a region in the rectangle form has a rectangle of pixels
    have hrect : ∀ r r', Built r → r.runs = .rect → Canonical r' → (∀ x y, PixelSet r' x y ↔ PixelSet r x y) →
        r'.runs = .rect := by
      intro r r' h hr hc hp
      have hok := h.ok
      unfold RegionOk at hok
      rw [hr] at hok
      obtain ⟨⟨-, hw, -⟩, ⟨-, hk, -⟩⟩ := hok
      simp only at hw hk
      refine hc.rect r.bounds.x r.bounds.y r.bounds.w r.bounds.h (by omega) (by omega) fun x y => ?_
      rw [hp]
      unfold PixelSet
      rw [hr]
    obtain ⟨bounds1, runs1⟩ := r1
    obtain ⟨bounds2, runs2⟩ := r2
    obtain rfl : bounds1 = bounds2 := hbounds
    cases runs1 with
    | empty => exact absurd rfl hne
    | rect =>
      obtain rfl : runs2 = .rect := hrect _ _ h1 rfl hc2 fun x y => (hp x y).symm
      rfl
    | complex bands1 =>
      cases runs2 with
      | empty => exact absurd (hempty.2 rfl) hne
      | rect => exact nomatch hrect _ _ h2 rfl hc1 hp
      | complex bands2 => rw [bands_unique (h1.singleBands hs1) (h2.singleBands hs2) hp]

/-- Spans that start in one column are not apart. -/
theorem single_of_canonical {r : SkinRegion} (h : RegionOk r) (hc : Canonical r) : SingleSpans r := by
  intro bands hb b hmem
  unfold RegionOk at h
  rw [hb] at h
  obtain ⟨left, right, hst⟩ := h.1.stacked b hmem
  have hpair := hc.spans bands hb b hmem
  have hne := (h.1.band b hmem).ne
  rcases hspans : b.spans with _ | ⟨s, _ | ⟨t, spans⟩⟩
  · exact absurd hspans hne
  · rfl
  · rw [hspans] at hst hpair
    have hs := hst.all s (by simp)
    have ht := hst.all t (by simp)
    have := (pairwise_cons.1 hpair).1 t (by simp)
    omega

/-- **When equality is pixel equality.** Two regions built through the API have their one form, in which equality is
pixel equality, exactly if no band of them has more than one span and they are not two rectangles of different heights
that agree otherwise. -/
theorem skinRegionEquals_iff {r1 r2 : SkinRegion} (h1 : Built r1) (h2 : Built r2) :
    EqualityExact r1 r2 ↔ (SingleSpans r1 ∧ SingleSpans r2) ∧ ¬ OnlyHeightDiffers r1 r2 := by
  constructor
  · rintro ⟨heq, hc1, hc2⟩
    have hs1 := single_of_canonical h1.ok hc1
    have hs2 := single_of_canonical h2.ok hc2
    refine ⟨⟨hs1, hs2⟩, fun hh => ?_⟩
    -- rectangles of different heights have different pixels
    have hp := heq.1 ((skinRegionEquals_iff_eq h1.ok h2.ok).2 (.inr hh))
    have hsame := eq_of_pixelSet h1 h2 hs1 hs2 ((pixelEqual_iff h1.ok h2.ok).1 hp)
    exact hh.2.2.2.2.2 (by rw [hsame])
  · rintro ⟨⟨hs1, hs2⟩, hh⟩
    refine ⟨?_, canonical_of_single h1 hs1, canonical_of_single h2 hs2⟩
    rw [skinRegionEquals_iff_eq h1.ok h2.ok, or_iff_left hh, pixelEqual_iff h1.ok h2.ok]
    constructor
    · rintro rfl
      exact fun x y => Iff.rfl
    · exact eq_of_pixelSet h1 h2 hs1 hs2

/-- Two rectangles side by side with a gap between them. -/
def besideGap : SkinRegion := skinRegionUnion (skinRegionInit 0 0 1 1) (skinRegionInit 2 0 3 1)

theorem besideGap_eq : besideGap = ⟨⟨0, 0, 1, 1⟩, .complex [⟨0, 1, [(0, 1), (0, 1)]⟩]⟩ := by decide +kernel

theorem besideGap_built : Built besideGap :=
  .union (.init (by simp [InRun, RUN_MIN, RUN_MAX])) (.init (by simp [InRun, RUN_MIN, RUN_MAX]))

/-- The first rectangle has the pixels of this region, but is not equal to it. -/
theorem skinRegionEquals_besideGap : Built besideGap ∧ Built (skinRegionInit 0 0 1 1) ∧
    PixelEqual besideGap (skinRegionInit 0 0 1 1) ∧ skinRegionEquals besideGap (skinRegionInit 0 0 1 1) = 0 := by
  have hrect : Built (skinRegionInit 0 0 1 1) := .init (by simp [InRun, RUN_MIN, RUN_MAX])
  refine ⟨besideGap_built, hrect, (pixelEqual_iff besideGap_built.ok hrect.ok).2 fun x y => ?_, ?_⟩
  · rw [besideGap_eq]
    simp [PixelSet, Covers, skinRegionInit]
    omega
  · rw [besideGap_eq]
    decide

/-- One rectangle on another, and the same region made the other way round. -/
def stacked : SkinRegion := skinRegionUnion (skinRegionInit 0 0 10 10) (skinRegionInit 0 10 20 20)

def stackedSwapped : SkinRegion := skinRegionUnion (skinRegionInit 0 10 20 20) (skinRegionInit 0 0 10 10)

theorem skinRegionEquals_iff_stacked : EqualityExact stacked stackedSwapped := by
  have heq : stacked.runs = .complex [⟨0, 10, [(0, 10)]⟩, ⟨10, 20, [(0, 20)]⟩] := by decide +kernel
  have heq' : stackedSwapped.runs = .complex [⟨0, 10, [(0, 10)]⟩, ⟨10, 20, [(0, 20)]⟩] := by decide +kernel
  have hs : ∀ r : SkinRegion, r.runs = .complex [⟨0, 10, [(0, 10)]⟩, ⟨10, 20, [(0, 20)]⟩] → SingleSpans r := by
    intro r hr bands hb
    obtain rfl := Runs.complex.inj (hr.symm.trans hb)
    simp
  exact (skinRegionEquals_iff (.union (.init (by simp [InRun, RUN_MIN, RUN_MAX]))
    (.init (by simp [InRun, RUN_MIN, RUN_MAX]))) (.union (.init (by simp [InRun, RUN_MIN, RUN_MAX]))
    (.init (by simp [InRun, RUN_MIN, RUN_MAX])))).2 ⟨⟨hs _ heq, hs _ heq'⟩, fun h => nomatch heq.symm.trans h.1⟩

end Emulator.Skin
