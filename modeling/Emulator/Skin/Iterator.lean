import Emulator.Skin.Equality
import Emulator.Skin.Sweep

/-!
# Iterating over a region

`skin_region_iterator_next` keeps two pointers into the cells of the runs. A pointer is what is read from it on, and
reading behind the end of the cells is `none`.

* `yields_bands`: from inside of a band the calls walk over what is left of the runs;
* `iterator_exact`: the rectangles are the pixels of the region, in order, each once.
-/

namespace Emulator.Skin

open List

/-- The two pointers may be `NULL`. -/
structure SkinRegionIterator where
  region : SkinRegion
  band : Option (List ℤ)
  span : Option (List ℤ)

/-- `skin_region_iterator_init`. -/
def skinRegionIteratorInit (region : SkinRegion) : SkinRegionIterator := ⟨region, none, none⟩

/-- The array `dummy`. -/
def dummyRuns : List ℤ := [SKIN_REGION_SENTINEL, SKIN_REGION_SENTINEL]

/-- The loop of `skin_region_iterator_next` and what follows it: the rectangle if there is one, and the iterator. -/
def iteratorNextIn (region : SkinRegion) (band : List ℤ) :
    List ℤ → Option (Option SkinRect × SkinRegionIterator)
  | xleft :: cells =>
    if xleft = SKIN_REGION_SENTINEL then
      match cells with
      | ytop :: cells' =>
        if ytop = SKIN_REGION_SENTINEL then some (none, ⟨region, some band, some (xleft :: cells)⟩)
        else
          match cells' with
          | ybot :: span =>
            if ybot = SKIN_REGION_SENTINEL then some (none, ⟨region, some band, some (xleft :: cells)⟩)
            else iteratorNextIn region cells span
          | [] => none
      | [] => none
    else
      match cells with
      | xright :: span =>
        if xright = SKIN_REGION_SENTINEL then some (none, ⟨region, some band, some (xleft :: cells)⟩)
        else
          match band with
          | ytop :: ybot :: _ =>
            some (some ⟨xleft, ytop, xright - xleft, ybot - ytop⟩, ⟨region, some band, some span⟩)
          | _ => none
      | [] => none
  | [] => none

/-- `skin_region_iterator_next`: the rectangle, if the function returns 1. -/
def skinRegionIteratorNext (iter : SkinRegionIterator) : Option (Option SkinRect × SkinRegionIterator) :=
  match iter.span with
  | none =>
    match iter.region.runs with
    | .empty => some (none, iter)
    | .rect => some (some iter.region.bounds, { iter with span := some dummyRuns })
    | .complex bands => iteratorNextIn iter.region (runsCells bands) ((runsCells bands).drop 2)
  | some span =>
    match iter.band with
    | none => some (none, iter)
    | some band => iteratorNextIn iter.region band span

/-- Calls of `skin_region_iterator_next` until one returns 0: the rectangles of those before. -/
inductive Yields : SkinRegionIterator → List SkinRect → Prop
  | stop {iter iter' : SkinRegionIterator} (h : skinRegionIteratorNext iter = some (none, iter')) : Yields iter []
  | step {iter iter' : SkinRegionIterator} {rect : SkinRect} {rects : List SkinRect}
      (h : skinRegionIteratorNext iter = some (some rect, iter')) (hrest : Yields iter' rects) :
      Yields iter (rect :: rects)

/-- The rectangle of a span. -/
def spanRect (ytop ybot : ℤ) (s : Span) : SkinRect := ⟨s.1, ytop, s.2 - s.1, ybot - ytop⟩

def bandRects (b : Band) : List SkinRect := b.spans.map (spanRect b.ytop b.ybot)

theorem SpanOk.ne_sentinel {s : Span} (h : SpanOk s) :
    s.1 ≠ SKIN_REGION_SENTINEL ∧ s.2 ≠ SKIN_REGION_SENTINEL := by
  obtain ⟨-, h1, h2⟩ := h
  unfold RUN_MAX at h2
  unfold SKIN_REGION_SENTINEL
  omega

theorem BandOk.ne_sentinel {b : Band} (h : BandOk b) :
    b.ytop ≠ SKIN_REGION_SENTINEL ∧ b.ybot ≠ SKIN_REGION_SENTINEL := by
  have h1 := h.lt
  have h2 := h.bot
  unfold RUN_MAX at h2
  unfold SKIN_REGION_SENTINEL
  omega

theorem Yields.of_eq {iter iter' : SkinRegionIterator} {rects : List SkinRect}
    (h : skinRegionIteratorNext iter = skinRegionIteratorNext iter') (hy : Yields iter' rects) : Yields iter rects := by
  cases hy with
  | stop hn => exact .stop (h.trans hn)
  | step hn hrest => exact .step (h.trans hn) hrest

/-- A call at a span. -/
theorem next_span (region : SkinRegion) {s : Span} (hs : SpanOk s) (spans : List Span) (ytop ybot : ℤ)
    (cells rest : List ℤ) :
    skinRegionIteratorNext ⟨region, some (ytop :: ybot :: cells), some (spanCells (s :: spans) ++ rest)⟩ =
      some (some (spanRect ytop ybot s), ⟨region, some (ytop :: ybot :: cells), some (spanCells spans ++ rest)⟩) := by
  obtain ⟨h1, h2⟩ := hs.ne_sentinel
  simp only [skinRegionIteratorNext, spanCells, cons_append]
  rw [iteratorNextIn.eq_def]
  simp only [if_neg h1, if_neg h2]
  rfl

/-- A call at the sentinel of a scanline with a band behind it goes on in that band. -/
theorem next_band (region : SkinRegion) {b : Band} (hb : BandOk b) (bands : List Band) (band : List ℤ) :
    skinRegionIteratorNext ⟨region, some band, some (spanCells [] ++ runsCells (b :: bands))⟩ =
      skinRegionIteratorNext ⟨region, some (runsCells (b :: bands)), some (spanCells b.spans ++ runsCells bands)⟩ := by
  obtain ⟨h1, h2⟩ := hb.ne_sentinel
  simp only [skinRegionIteratorNext, spanCells, runsCells, cons_append, nil_append]
  conv_lhs => rw [iteratorNextIn.eq_def]
  simp only [if_neg h1, if_neg h2]
  rfl

variable {bands : List Band}

/-- **The walk from inside of a band**: what is left of its spans, then the bands behind it. -/
theorem yields_bands (region : SkinRegion) (hb : ∀ b ∈ bands, BandOk b) {spans : List Span}
    (hs : ∀ s ∈ spans, SpanOk s) (ytop ybot : ℤ) (cells : List ℤ) :
    Yields ⟨region, some (ytop :: ybot :: cells), some (spanCells spans ++ runsCells bands)⟩
      (spans.map (spanRect ytop ybot) ++ bands.flatMap bandRects) := by
  induction bands generalizing spans ytop ybot cells with
  | nil =>
    induction spans with
    | nil => exact .stop rfl
    | cons s spans ih =>
      rw [forall_mem_cons] at hs
      exact .step (next_span region hs.1 spans ytop ybot cells _) (ih hs.2)
  | cons b bands ih =>
    rw [forall_mem_cons] at hb
    induction spans with
    | nil => exact .of_eq (next_band region hb.1 bands _) (ih hb.2 hb.1.spans b.ytop b.ybot _)
    | cons s spans ih' =>
      rw [forall_mem_cons] at hs
      exact .step (next_span region hs.1 spans ytop ybot cells _) (ih' hs.2)

theorem spansContain_iff_inSpans {spans : List Span} (hs : ∀ s ∈ spans, SpanOk s) (h : Increasing spans) (x : ℤ) :
    spansContain spans x = true ↔ InSpans spans x := by
  induction spans with
  | nil => simp [spansContain, InSpans]
  | cons s spans ih =>
    rw [forall_mem_cons] at hs
    have hne := hs.1.ne_sentinel.2
    have hlt := hs.1.2.1
    have hafter := h.after (x := x)
    obtain ⟨xleft, xright⟩ := s
    simp only at hne hlt hafter
    rw [inSpans_cons]
    unfold spansContain
    rw [if_neg hne]
    split_ifs with h1 h2
    · refine iff_of_false (by simp) ?_
      rintro (h3 | h3)
      · omega
      · have := hafter h3
        omega
    · exact iff_of_true rfl (.inl ⟨by omega, h2⟩)
    · rw [ih hs.2 h.tail]
      constructor
      · exact .inr
      · rintro (h3 | h3)
        · omega
        · exact h3

/-- **`skin_region_contains`** on a run list of the grammar. -/
theorem contains_iff_inBands {bounds : SkinRect} (h : SweptBands bands) (x y : ℤ) :
    skinRegionContains ⟨bounds, .complex bands⟩ x y = true ↔ InBands bands x y := by
  unfold skinRegionContains InBands
  simp only
  induction bands with
  | nil => simp [runsFindY]
  | cons b bands ih =>
    have hb := h.band b mem_cons_self
    have hbelow := (pairwise_cons.1 h.sorted).1
    have hlt := hb.lt
    have htail : SweptBands bands := ⟨h.toBandsOk.tail, fun c hc => h.spans c (mem_cons_of_mem _ hc)⟩
    unfold runsFindY
    rw [exists_mem_cons_iff]
    split_ifs with h1 h2
    · refine iff_of_false (by simp) ?_
      rintro (hc | ⟨c, hc, hcov⟩)
      · have := hc.1
        omega
      · have := hbelow c hc
        have := hcov.1
        omega
    · simp only
      rw [spansContain_iff_inSpans hb.spans (h.spans b mem_cons_self)]
      constructor
      · exact fun hs => .inl ⟨by omega, h2, hs⟩
      · rintro (hc | ⟨c, hc, hcov⟩)
        · exact hc.2.2
        · have := hbelow c hc
          have := hcov.1
          omega
    · rw [ih htail]
      constructor
      · exact .inr
      · rintro (hc | hc)
        · have := hc.2.1
          omega
        · exact hc

/-- The pixels of a rectangle. -/
def InRect (r : SkinRect) (x y : ℤ) : Prop := r.x ≤ x ∧ x < r.x + r.w ∧ r.y ≤ y ∧ y < r.y + r.h

/-- The order of the rectangles: band by band, and in a band from left to right. -/
def Precedes (r r' : SkinRect) : Prop := r.y + r.h ≤ r'.y ∨ (r.y = r'.y ∧ r.h = r'.h ∧ r.x + r.w < r'.x)

/-- The rectangle form may have any coordinates of C `int`s, a run list follows the grammar. -/
def IterOk (r : SkinRegion) : Prop :=
  match r.runs with
  | .empty => True
  | .rect => 0 < r.bounds.w ∧ 0 < r.bounds.h ∧ IsInt r.bounds.x ∧ IsInt (r.bounds.x + r.bounds.w) ∧
      IsInt r.bounds.y ∧ IsInt (r.bounds.y + r.bounds.h)
  | .complex bands => RunList bands

/-- The rectangles are a partition of the region: none is empty, no two of them have a pixel in common, they are in
order, and they cover what the region contains. -/
structure CoversOnce (r : SkinRegion) (rects : List SkinRect) : Prop where
  nonempty : ∀ rect ∈ rects, 0 < rect.w ∧ 0 < rect.h
  disjoint : rects.Pairwise fun a b => ∀ x y, ¬ (InRect a x y ∧ InRect b x y)
  ordered : rects.Pairwise Precedes
  covers : ∀ x y, IsInt x → IsInt y → ((∃ rect ∈ rects, InRect rect x y) ↔ skinRegionContains r x y = true)

theorem rects_ordered (h : RunList bands) : (bands.flatMap bandRects).Pairwise Precedes := by
  have hband := h.toBandsOk
  have hapart := h.apart
  clear h
  induction bands with
  | nil => exact List.Pairwise.nil
  | cons b bands ih =>
    rw [flatMap_cons, pairwise_append]
    refine ⟨?_, ih hband.tail fun c hc => hapart c (mem_cons_of_mem _ hc), ?_⟩
    · refine pairwise_map.2 ((hapart b mem_cons_self).imp fun {s t} hst => .inr ⟨rfl, rfl, ?_⟩)
      simp only [spanRect]
      omega
    · intro r hr r' hr'
      obtain ⟨s, -, rfl⟩ := mem_map.1 hr
      obtain ⟨c, hc, hr'⟩ := mem_flatMap.1 hr'
      obtain ⟨t, -, rfl⟩ := mem_map.1 hr'
      have := (pairwise_cons.1 hband.sorted).1 c hc
      refine .inl ?_
      simp only [spanRect]
      omega

theorem Precedes.disjoint {a b : SkinRect} (h : Precedes a b) (x y : ℤ) : ¬ (InRect a x y ∧ InRect b x y) := by
  rintro ⟨⟨h1, h2, h3, h4⟩, h5, h6, h7, h8⟩
  rcases h with h | ⟨h, h', h''⟩ <;> omega

theorem mem_rects_iff {x y : ℤ} :
    (∃ rect ∈ bands.flatMap bandRects, InRect rect x y) ↔ InBands bands x y := by
  unfold InBands
  constructor
  · rintro ⟨rect, hr, h1, h2, h3, h4⟩
    obtain ⟨b, hb, hr⟩ := mem_flatMap.1 hr
    obtain ⟨s, hs, rfl⟩ := mem_map.1 hr
    simp only [spanRect] at h1 h2 h3 h4
    exact ⟨b, hb, h3, by omega, s, hs, h1, by omega⟩
  · rintro ⟨b, hb, h1, h2, s, hs, h3, h4⟩
    refine ⟨_, mem_flatMap.2 ⟨b, hb, mem_map.2 ⟨s, hs, rfl⟩⟩, ?_⟩
    simp only [InRect, spanRect]
    omega

theorem runList_coversOnce {bounds : SkinRect} (h : RunList bands) :
    CoversOnce ⟨bounds, .complex bands⟩ (bands.flatMap bandRects) := by
  have hord := rects_ordered h
  refine ⟨fun rect hr => ?_, hord.imp fun hp => hp.disjoint, hord, fun x y _ _ => ?_⟩
  · obtain ⟨b, hb, hr⟩ := mem_flatMap.1 hr
    obtain ⟨s, hs, rfl⟩ := mem_map.1 hr
    have h1 := ((h.band b hb).spans s hs).2.1
    have h2 := (h.band b hb).lt
    simp only [spanRect]
    omega
  · rw [mem_rects_iff, contains_iff_inBands h.swept]

/-- **Iteration covers a region exactly once.** The calls of `skin_region_iterator_next` end, and read only cells of the
runs. -/
theorem iterator_exact {r : SkinRegion} (h : IterOk r) :
    ∃ rects, Yields (skinRegionIteratorInit r) rects ∧ CoversOnce r rects := by
  obtain ⟨bounds, runs⟩ := r
  cases runs with
  | empty =>
    refine ⟨[], .stop rfl, nofun, List.Pairwise.nil, List.Pairwise.nil, fun x y _ _ => ?_⟩
    simp [skinRegionContains]
  | rect =>
    obtain ⟨hw, hh, hx1, hx2, hy1, hy2⟩ := h
    simp only at hw hh hx1 hx2 hy1 hy2
    refine ⟨[bounds], .step rfl (.stop rfl), by simp [hw, hh], pairwise_singleton _ _,
      pairwise_singleton _ _, fun x y hx hy => ?_⟩
    simp only [mem_singleton, exists_eq_left, skinRegionContains, skinRectContains, decide_eq_true_eq, InRect]
    unfold IsInt at *
    unfold toUnsigned
    omega
  | complex bands =>
    refine ⟨bands.flatMap bandRects, ?_, runList_coversOnce h⟩
    have hrun : RunList bands := h
    rcases bands with _ | ⟨b, bands⟩
    · exact absurd rfl hrun.ne
    · have hb := forall_mem_cons.1 hrun.band
      have hwalk := yields_bands ⟨bounds, .complex (b :: bands)⟩ hb.2 hb.1.spans b.ytop b.ybot
        (spanCells b.spans ++ runsCells bands)
      rw [flatMap_cons]
      refine .of_eq ?_ hwalk
      rfl

/-- A run list of two bands, the first one with two spans. -/
def twoBands : SkinRegion := ⟨⟨0, 0, 5, 4⟩, .complex [⟨0, 2, [(0, 1), (3, 5)]⟩, ⟨3, 4, [(1, 2)]⟩]⟩

theorem iterator_exact_twoBands :
    ∃ rects, Yields (skinRegionIteratorInit twoBands) rects ∧ CoversOnce twoBands rects := by
  refine iterator_exact (r := twoBands) ⟨⟨?_, by simp⟩, by simp, by simp⟩
  simp only [forall_mem_cons, not_mem_nil, false_imp_iff, implies_true, and_true]
  exact ⟨⟨by decide, by decide, by decide, by simp, by simp [SpanOk, RUN_MIN, RUN_MAX]⟩,
    ⟨by decide, by decide, by decide, by simp, by simp [SpanOk, RUN_MIN, RUN_MAX]⟩⟩

end Emulator.Skin
