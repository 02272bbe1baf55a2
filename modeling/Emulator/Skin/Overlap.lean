import Emulator.Skin.RegionOps
import Emulator.Skin.Sweep

/-!
# How two regions overlap

`skin_region_test_intersect` walks both run lists. It compares whole bands and whole spans: what is left of a
band or a span after a step is still taken to start at its old top or left end.

* `testSpans_region2`, `testBands_region2`: when the walk finds something of the second region only;
* `Built.rising`: the right ends of the spans of a band, as `runs_coalesce` leaves them, do not decrease;
* `skinRegionTestIntersect_iff`: when the classification is right.
-/

namespace Emulator.Skin

open List

/-- `skin_rect_intersect`: the result and whether there is one. -/
def skinRectIntersect (r1 r2 : SkinRect) : SkinRect × Bool :=
  let a := skinBoxFromRect r1
  let b := skinBoxFromRect r2
  if a.x2 ≤ b.x1 ∨ b.x2 ≤ a.x1 ∨ a.y2 ≤ b.y1 ∨ b.y2 ≤ a.y1 then (⟨0, 0, 0, 0⟩, false)
  else
    (skinBoxToRect ⟨if a.x1 > b.x1 then a.x1 else b.x1, if a.y1 > b.y1 then a.y1 else b.y1,
      if a.x2 < b.x2 then a.x2 else b.x2, if a.y2 < b.y2 then a.y2 else b.y2⟩, true)

/-- The loop over the spans of two bands, with the flags after it. -/
def testSpans (spans1 spans2 : List Span) (flags : Wanted) : Wanted :=
  match spans1, spans2 with
  | [], [] => flags
  | _ :: _, [] => { flags with region1 := true }
  | [], _ :: _ => { flags with region2 := true }
  | (xleft1, xright1) :: xs, (xleft2, xright2) :: ys =>
    if xright1 ≤ xleft2 then testSpans xs ((xleft2, xright2) :: ys) { flags with region1 := true }
    else if xright2 ≤ xleft1 then testSpans ((xleft1, xright1) :: xs) ys { flags with region2 := true }
    else
      let flags :=
        if xleft1 < xleft2 then { flags with region1 := true }
        else if xleft2 < xleft1 then { flags with region2 := true }
        else flags
      let flags := { flags with both := true }
      if xright1 = xright2 then testSpans xs ys flags
      else if xright1 < xright2 then testSpans xs ((xleft2, xright2) :: ys) flags
      else testSpans ((xleft1, xright1) :: xs) ys flags
termination_by spans1.length + spans2.length

/-- The loop over the bands of two regions, with the flags after it. -/
def testBands (runs1 runs2 : List Band) (flags : Wanted) : Wanted :=
  match runs1, runs2 with
  | [], [] => flags
  | _ :: _, [] => { flags with region1 := true }
  | [], _ :: _ => { flags with region2 := true }
  | b1 :: bs1, b2 :: bs2 =>
    if b1.ybot ≤ b2.ytop then testBands bs1 (b2 :: bs2) { flags with region1 := true }
    else if b2.ybot ≤ b1.ytop then testBands (b1 :: bs1) bs2 { flags with region2 := true }
    else
      let flags :=
        if b1.ytop < b2.ytop then { flags with region1 := true }
        else if b2.ytop < b1.ytop then { flags with region2 := true }
        else flags
      let flags := testSpans b1.spans b2.spans flags
      if b1.ybot = b2.ybot then testBands bs1 bs2 flags
      else if b1.ybot < b2.ybot then testBands bs1 (b2 :: bs2) flags
      else testBands (b1 :: bs1) bs2 flags
termination_by runs1.length + runs2.length

/-- What the flags say after the walk. -/
def flagsOverlap (flags : Wanted) : SkinOverlap :=
  if !flags.both then .outside
  else if flags.region2 then .overlap
  else .inside

/-- `skin_region_test_intersect`. -/
def skinRegionTestIntersect (r1 r2 : SkinRegion) : SkinOverlap :=
  if r1.runs = .empty ∨ r2.runs = .empty then .outside
  else if (skinRectIntersect r1.bounds r2.bounds).2 = false then .outside
  else
    match r1.runs, r2.runs with
    | .rect, .rect => skinRectContainsRect r1.bounds r2.bounds
    -- the operands are swapped, but not the answer
    | .rect, _ => flagsOverlap (testBands (operandRuns r2) (operandRuns r1) ⟨false, false, false⟩)
    | _, _ => flagsOverlap (testBands (operandRuns r1) (operandRuns r2) ⟨false, false, false⟩)

/-! ## Spans -/

section Spans

/-- A scanline as coalescing leaves it: spans with one left end, and right ends that do not decrease. -/
structure RisingFrom (left : ℤ) (spans : List Span) : Prop where
  all : ∀ s ∈ spans, s.1 = left ∧ left < s.2
  rising : spans.Pairwise fun s t => s.2 ≤ t.2

variable {spans : List Span}

theorem RisingFrom.tail {left : ℤ} {s : Span} (h : RisingFrom left (s :: spans)) :
    RisingFrom left spans :=
  ⟨fun t ht => h.all t (mem_cons_of_mem _ ht), (pairwise_cons.1 h.rising).2⟩

/-- No span of the second scanline outlasts the first one: as many spans of the first reach `right`, or one reaches
further. -/
def SpansLast (spans1 spans2 : List Span) (right : ℤ) : Prop :=
  spans2.countP (fun s => s.2 = right) ≤ spans1.countP (fun s => s.2 = right) ∨ ∃ s ∈ spans1, right < s.2

theorem testSpans_both_mono (spans1 spans2 : List Span) (flags : Wanted) (h : flags.both = true) :
    (testSpans spans1 spans2 flags).both = true := by
  fun_induction testSpans spans1 spans2 flags with
  | case1 => exact h
  | case2 => exact h
  | case3 => exact h
  | case4 flags l1 r1 xs l2 r2 ys hle ih => exact ih h
  | case5 flags l1 r1 xs l2 r2 ys h1 hle ih => exact ih h
  | case6 flags l1 xs l2 r ys h1 f f' h2 ih => exact ih rfl
  | case7 flags l1 r1 xs l2 r2 ys h1 h2 f f' hne hlt ih => exact ih rfl
  | case8 flags l1 r1 xs l2 r2 ys h1 h2 f f' hne hlt ih => exact ih rfl

theorem testSpans_region2_mono (spans1 spans2 : List Span) (flags : Wanted) (h : flags.region2 = true) :
    (testSpans spans1 spans2 flags).region2 = true := by
  fun_induction testSpans spans1 spans2 flags with
  | case1 => exact h
  | case2 => exact h
  | case3 => rfl
  | case4 flags l1 r1 xs l2 r2 ys hle ih => exact ih h
  | case5 flags l1 r1 xs l2 r2 ys h1 hle ih => exact ih rfl
  | case6 flags l1 xs l2 r ys h1 f f' h2 ih => exact ih (by simp only [f', f]; split_ifs <;> simp [h])
  | case7 flags l1 r1 xs l2 r2 ys h1 h2 f f' hne hlt ih => exact ih (by simp only [f', f]; split_ifs <;> simp [h])
  | case8 flags l1 r1 xs l2 r2 ys h1 h2 f f' hne hlt ih => exact ih (by simp only [f', f]; split_ifs <;> simp [h])

variable {spans1 spans2 : List Span}

/-- **Both scanlines have a column** when the walk says so. -/
theorem testSpans_both {left1 left2 : ℤ} (h1 : RisingFrom left1 spans1)
    (h2 : RisingFrom left2 spans2) (flags : Wanted) : (testSpans spans1 spans2 flags).both = true ↔
      flags.both = true ∨ ∃ s ∈ spans1, ∃ t ∈ spans2, s.1 < t.2 ∧ t.1 < s.2 := by
  fun_induction testSpans spans1 spans2 flags with
  | case1 => simp
  | case2 => simp
  | case3 => simp
  | case4 flags l1 r1 xs l2 r2 ys hle ih =>
    have hl : ∀ t ∈ (l2, r2) :: ys, r1 ≤ t.1 := fun t ht => by
      rw [(h2.all t ht).1, ← (h2.all _ mem_cons_self).1]
      exact hle
    rw [ih h1.tail h2, exists_mem_cons_iff]
    refine or_congr_right ⟨.inr, ?_⟩
    rintro (⟨t, ht, -, hlt⟩ | hin)
    · exact absurd (hl t ht) (not_le.2 hlt)
    · exact hin
  | case5 flags l1 r1 xs l2 r2 ys hle' hle ih =>
    have hl : ∀ s ∈ (l1, r1) :: xs, r2 ≤ s.1 := fun s hs => by
      rw [(h1.all s hs).1, ← (h1.all _ mem_cons_self).1]
      exact hle
    rw [ih h1 h2.tail]
    refine or_congr_right (exists_congr fun s => and_congr_right fun hs => ?_)
    rw [exists_mem_cons_iff]
    refine ⟨.inr, ?_⟩
    rintro (⟨hlt, -⟩ | hin)
    · exact absurd (hl s hs) (not_le.2 hlt)
    · exact hin
  | case6 flags l1 xs l2 r ys hle' f f' hle ih =>
    simp only [testSpans_both_mono _ _ f' rfl, true_iff]
    exact .inr ⟨_, mem_cons_self, _, mem_cons_self, not_le.1 hle', not_le.1 hle⟩
  | case7 flags l1 r1 xs l2 r2 ys hle' hle f f' hne hlt ih =>
    simp only [testSpans_both_mono _ _ f' rfl, true_iff]
    exact .inr ⟨_, mem_cons_self, _, mem_cons_self, not_le.1 hle, not_le.1 hle'⟩
  | case8 flags l1 r1 xs l2 r2 ys hle' hle f f' hne hlt ih =>
    simp only [testSpans_both_mono _ _ f' rfl, true_iff]
    exact .inr ⟨_, mem_cons_self, _, mem_cons_self, not_le.1 hle, not_le.1 hle'⟩

/-- A second scanline that starts first is not within the first one. -/
theorem testSpans_region2_left {left1 left2 : ℤ} (h1 : RisingFrom left1 spans1)
    (h2 : RisingFrom left2 spans2) (hlt : left2 < left1) (hne : spans2 ≠ []) (flags : Wanted) :
    (testSpans spans1 spans2 flags).region2 = true := by
  fun_induction testSpans spans1 spans2 flags with
  | case1 => exact absurd rfl hne
  | case2 => exact absurd rfl hne
  | case3 => rfl
  | case4 flags l1 r1 xs l2 r2 ys hle ih => exact ih h1.tail h2 hne
  | case5 flags l1 r1 xs l2 r2 ys hle' hle ih => exact testSpans_region2_mono _ _ _ rfl
  | case6 flags l1 xs l2 r ys hle' f f' hle ih =>
    obtain ⟨rfl, -⟩ := h1.all _ mem_cons_self
    obtain ⟨rfl, -⟩ := h2.all _ mem_cons_self
    refine testSpans_region2_mono _ _ _ ?_
    simp only [f', f, dif_neg hlt.not_gt, dif_pos hlt]
  | case7 flags l1 r1 xs l2 r2 ys hle' hle f f' hne' hlt' ih =>
    obtain ⟨rfl, -⟩ := h1.all _ mem_cons_self
    obtain ⟨rfl, -⟩ := h2.all _ mem_cons_self
    refine testSpans_region2_mono _ _ _ ?_
    simp only [f', f, dif_neg hlt.not_gt, dif_pos hlt]
  | case8 flags l1 r1 xs l2 r2 ys hle' hle f f' hne' hlt' ih =>
    obtain ⟨rfl, -⟩ := h1.all _ mem_cons_self
    obtain ⟨rfl, -⟩ := h2.all _ mem_cons_self
    refine testSpans_region2_mono _ _ _ ?_
    simp only [f', f, dif_neg hlt.not_gt, dif_pos hlt]

variable {xs ys : List Span} {right : ℤ}

theorem spansLast_drop1 {s : Span} (h : s.2 < right) :
    SpansLast (s :: xs) ys right ↔ SpansLast xs ys right := by
  simp [SpansLast, h.ne, h.not_gt]

theorem spansLast_drop2 {t : Span} (h : t.2 < right) :
    SpansLast xs (t :: ys) right ↔ SpansLast xs ys right := by
  simp [SpansLast, h.ne]

theorem spansLast_drop {s t : Span} (hs : s.2 = right) (ht : t.2 = right) :
    SpansLast (s :: xs) (t :: ys) right ↔ SpansLast xs ys right := by
  simp [SpansLast, hs, ht]

theorem spansLast_further {s : Span} (h : right < s.2) :
    SpansLast (s :: xs) ys right :=
  .inr ⟨s, mem_cons_self, h⟩

/-- **A second scanline that does not start first** is within the first one as long as none of its spans outlasts it. -/
theorem testSpans_region2 {left1 left2 right : ℤ} (h1 : RisingFrom left1 spans1)
    (h2 : RisingFrom left2 spans2) (hle : left1 ≤ left2) (hright : ∀ t ∈ spans2, t.2 ≤ right)
    (hlast : spans2 ≠ [] → ∃ t ∈ spans2, t.2 = right) (flags : Wanted) :
    (testSpans spans1 spans2 flags).region2 = true ↔ flags.region2 = true ∨ ¬ SpansLast spans1 spans2 right := by
  have hcut : ∀ {t : Span} {ys : List Span}, RisingFrom left2 (t :: ys) → (∀ u ∈ t :: ys, u.2 ≤ right) →
      (t :: ys ≠ [] → ∃ u ∈ t :: ys, u.2 = right) → ys ≠ [] → ∃ u ∈ ys, u.2 = right := by
    intro t ys h hle hin hne
    obtain ⟨u, hu, he⟩ := hin (cons_ne_nil _ _)
    rcases mem_cons.1 hu with rfl | hu
    · -- the spans behind one that ends at `right` end there too
      obtain ⟨v, hv⟩ := exists_mem_of_ne_nil ys hne
      have hge := (pairwise_cons.1 h.rising).1 v hv
      have hle' := hle v (mem_cons_of_mem _ hv)
      exact ⟨v, hv, by omega⟩
    · exact ⟨u, hu, he⟩
  fun_induction testSpans spans1 spans2 flags with
  | case1 => simp [SpansLast]
  | case2 => simp [SpansLast]
  | case3 flags t ys =>
    obtain ⟨u, hu, he⟩ := hlast (cons_ne_nil _ _)
    have hpos : 0 < (t :: ys).countP fun s => s.2 = right := countP_pos_iff.2 ⟨u, hu, by simpa using he⟩
    simp only [true_iff, SpansLast, countP_nil, not_mem_nil, false_and, exists_false, or_false]
    exact .inr (by omega)
  | case4 flags l1 r1 xs l2 r2 ys hle1 ih =>
    have hlt := (h2.all _ mem_cons_self).2
    have hl2 := (h2.all _ mem_cons_self).1
    have hr2 := hright _ mem_cons_self
    refine (ih h1.tail h2 hright hlast).trans ?_
    rw [spansLast_drop1 (by simp only at *; omega)]
  | case5 flags l1 r1 xs l2 r2 ys hle1 hle2 ih =>
    obtain ⟨hl1, -⟩ := h1.all _ mem_cons_self
    obtain ⟨hl2, hlt⟩ := h2.all _ mem_cons_self
    simp only at hl1 hl2 hlt
    omega
  | case6 flags l1 xs l2 r ys hle1 f f' hle2 ih =>
    obtain ⟨hl1, -⟩ := h1.all _ mem_cons_self
    obtain ⟨hl2, -⟩ := h2.all _ mem_cons_self
    have hr : r ≤ right := hright _ mem_cons_self
    have hf : f'.region2 = flags.region2 := by
      simp only [f', f]
      split_ifs with h
      · rfl
      · simp only at hl1 hl2; omega
      · rfl
    refine (ih h1.tail h2.tail (fun t ht => hright t (mem_cons_of_mem _ ht)) (hcut h2 hright hlast)).trans ?_
    rw [hf]
    refine or_congr_right (not_congr ?_)
    rcases hr.lt_or_eq with hlt | he
    · rw [spansLast_drop1 hlt, spansLast_drop2 hlt]
    · rw [spansLast_drop he he]
  | case7 flags l1 r1 xs l2 r2 ys hle1 hle2 f f' hne hlt ih =>
    obtain ⟨hl1, -⟩ := h1.all _ mem_cons_self
    obtain ⟨hl2, -⟩ := h2.all _ mem_cons_self
    have hr : r2 ≤ right := hright _ mem_cons_self
    have hf : f'.region2 = flags.region2 := by
      simp only [f', f]
      split_ifs with h
      · rfl
      · simp only at hl1 hl2; omega
      · rfl
    refine (ih h1.tail h2 hright hlast).trans ?_
    rw [hf, spansLast_drop1 (hlt.trans_le hr)]
  | case8 flags l1 r1 xs l2 r2 ys hle1 hle2 f f' hne hlt ih =>
    obtain ⟨hl1, -⟩ := h1.all _ mem_cons_self
    obtain ⟨hl2, -⟩ := h2.all _ mem_cons_self
    have hr : r2 ≤ right := hright _ mem_cons_self
    have hf : f'.region2 = flags.region2 := by
      simp only [f', f]
      split_ifs with h
      · rfl
      · simp only at hl1 hl2; omega
      · rfl
    refine (ih h1 h2.tail (fun t ht => hright t (mem_cons_of_mem _ ht)) (hcut h2 hright hlast)).trans ?_
    rw [hf]
    refine or_congr_right (not_congr ?_)
    rcases hr.lt_or_eq with hlt' | he
    · rw [spansLast_drop2 hlt']
    · -- the first scanline reaches further
      have hfar : right < r1 := by omega
      exact iff_of_true (spansLast_further hfar) (spansLast_further hfar)

/-- The right end of a scanline, and the number of spans that end there. -/
def rightEnd (spans : List Span) : ℤ := (spans.getLast?.map Prod.snd).getD 0

def rightCount (spans : List Span) : ℕ := spans.countP fun s => s.2 = rightEnd spans

theorem RisingFrom.le_rightEnd {left : ℤ} (h : RisingFrom left spans) (hne : spans ≠ []) :
    (∀ s ∈ spans, s.2 ≤ rightEnd spans) ∧ ∃ s ∈ spans, s.2 = rightEnd spans := by
  have hlast : rightEnd spans = (spans.getLast hne).2 := by
    simp [rightEnd, List.getLast?_eq_some_getLast hne]
  rw [hlast]
  refine ⟨fun s hs => ?_, _, getLast_mem hne, rfl⟩
  have hsplit := dropLast_append_getLast hne
  rw [← hsplit] at hs
  rcases mem_append.1 hs with hs | hs
  · have hp := h.rising
    rw [← hsplit, pairwise_append] at hp
    exact hp.2.2 s hs _ (mem_singleton_self _)
  · rw [mem_singleton.1 hs]

/-- The columns of a scanline. -/
theorem RisingFrom.inSpans_iff {left : ℤ} (h : RisingFrom left spans) (hne : spans ≠ []) (x : ℤ) :
    InSpans spans x ↔ left ≤ x ∧ x < rightEnd spans := by
  obtain ⟨hle, s, hs, he⟩ := h.le_rightEnd hne
  constructor
  · rintro ⟨t, ht, h1, h2⟩
    have hl := (h.all t ht).1
    have hr := hle t ht
    exact ⟨by omega, by omega⟩
  · rintro ⟨h1, h2⟩
    have hl := (h.all s hs).1
    exact ⟨s, hs, by omega, by omega⟩

theorem RisingFrom.left_lt {left : ℤ} (h : RisingFrom left spans) (hne : spans ≠ []) :
    left < rightEnd spans := by
  obtain ⟨-, s, hs, he⟩ := h.le_rightEnd hne
  exact he ▸ (h.all s hs).2

/-- The second scanline lies in the first one, and its right end is not written more often if they end together. -/
def SpansFit (spans1 spans2 : List Span) : Prop :=
  (∀ x, InSpans spans2 x → InSpans spans1 x) ∧
    (rightEnd spans2 = rightEnd spans1 → rightCount spans2 ≤ rightCount spans1)

/-- **The walk over two scanlines** finds something of the second one only, unless it fits. -/
theorem testSpans_region2_iff {left1 left2 : ℤ} (h1 : RisingFrom left1 spans1)
    (h2 : RisingFrom left2 spans2) (hne1 : spans1 ≠ []) (hne2 : spans2 ≠ []) (flags : Wanted) :
    (testSpans spans1 spans2 flags).region2 = true ↔ flags.region2 = true ∨ ¬ SpansFit spans1 spans2 := by
  have hlt2 := h2.left_lt hne2
  obtain ⟨hle1, s1, hs1, he1⟩ := h1.le_rightEnd hne1
  obtain ⟨hle2, s2, hs2, he2⟩ := h2.le_rightEnd hne2
  have hin : (∀ x, InSpans spans2 x → InSpans spans1 x) ↔ left1 ≤ left2 ∧ rightEnd spans2 ≤ rightEnd spans1 := by
    simp only [h1.inSpans_iff hne1, h2.inSpans_iff hne2]
    constructor
    · intro h
      have hfirst := h left2 ⟨le_rfl, hlt2⟩
      have hlast := h (rightEnd spans2 - 1) ⟨by omega, by omega⟩
      omega
    · rintro ⟨hl, hr⟩ x ⟨hx, hx'⟩
      omega
  rcases lt_or_ge left2 left1 with hlt | hle
  · refine iff_of_true (testSpans_region2_left h1 h2 hlt hne2 flags) (.inr fun hfit => ?_)
    exact absurd (hin.1 hfit.1).1 (not_le.2 hlt)
  · rw [testSpans_region2 h1 h2 hle hle2 (fun _ => ⟨s2, hs2, he2⟩)]
    refine or_congr_right (not_congr ?_)
    rw [SpansFit, hin]
    have hpos : 0 < rightCount spans2 := countP_pos_iff.2 ⟨s2, hs2, by simpa using he2⟩
    rcases lt_trichotomy (rightEnd spans1) (rightEnd spans2) with hr | hr | hr
    · -- no span of the first scanline reaches the right end of the second one
      have hzero : spans1.countP (fun s => s.2 = rightEnd spans2) = 0 := by
        rw [countP_eq_zero]
        intro s hs he
        have hle' := hle1 s hs
        simp only [decide_eq_true_eq] at he
        omega
      refine iff_of_false ?_ (fun h => by omega)
      rintro (hcount | ⟨s, hs, hlt⟩)
      · rw [hzero] at hcount
        exact absurd hcount (not_le.2 hpos)
      · exact absurd (hle1 s hs) (by omega)
    · have hnot : ¬ ∃ s ∈ spans1, rightEnd spans2 < s.2 := by
        rintro ⟨s, hs, hlt⟩
        exact absurd (hle1 s hs) (by omega)
      rw [SpansLast, or_iff_left hnot, rightCount, rightCount, hr]
      exact ⟨fun hcount => ⟨⟨hle, le_rfl⟩, fun _ => hcount⟩, fun h => h.2 rfl⟩
    · refine iff_of_true (.inr ⟨s1, hs1, by omega⟩) ⟨⟨hle, hr.le⟩, fun he => by omega⟩

end Spans

/-! ## Bands -/

/-- Bands in order, with the scanlines that coalescing leaves. -/
structure RisingBands (bands : List Band) : Prop extends BandsOk bands where
  rising : ∀ b ∈ bands, ∃ left, RisingFrom left b.spans

theorem RisingBands.tail {b : Band} {bands : List Band} (h : RisingBands (b :: bands)) : RisingBands bands :=
  ⟨h.toBandsOk.tail, fun c hc => h.rising c (mem_cons_of_mem _ hc)⟩

/-- The bands have a pixel in common. -/
def Meet (b c : Band) : Prop := ∃ x y, Covers b x y ∧ Covers c x y

theorem not_meet_of_above {b c : Band} (h : b.ybot ≤ c.ytop ∨ c.ybot ≤ b.ytop) : ¬ Meet b c := by
  rintro ⟨x, y, ⟨h1, h2, -⟩, h3, h4, -⟩
  omega

/-- Bands that have a line in common. -/
theorem meet_iff {b c : Band} (h1 : b.ytop < b.ybot) (h2 : c.ytop < c.ybot) (h3 : ¬ b.ybot ≤ c.ytop)
    (h4 : ¬ c.ybot ≤ b.ytop) (hb : ∀ s ∈ b.spans, SpanOk s) (hc : ∀ s ∈ c.spans, SpanOk s) :
    Meet b c ↔ ∃ s ∈ b.spans, ∃ t ∈ c.spans, s.1 < t.2 ∧ t.1 < s.2 := by
  constructor
  · rintro ⟨x, y, ⟨-, -, s, hs, hs1, hs2⟩, -, -, t, ht, ht1, ht2⟩
    exact ⟨s, hs, t, ht, by omega, by omega⟩
  · rintro ⟨s, hs, t, ht, hlt1, hlt2⟩
    have hs' := (hb s hs).2.1
    have ht' := (hc t ht).2.1
    refine ⟨max s.1 t.1, max b.ytop c.ytop, ⟨by omega, by omega, s, hs, by omega, by omega⟩, by omega, by omega, t, ht,
      by omega, by omega⟩

/-- The second band lies in the lines of the first one, and its scanline fits. -/
def BandFits (b c : Band) : Prop := b.ytop ≤ c.ytop ∧ c.ybot ≤ b.ybot ∧ SpansFit b.spans c.spans

/-- Each band of the second run list fits in one band of the first one. -/
def RunsFit (runs1 runs2 : List Band) : Prop := ∀ c ∈ runs2, ∃ b ∈ runs1, BandFits b c

/-- The lines of the bands behind the first one. -/
theorem BandsOk.below {b : Band} {bands : List Band} (h : BandsOk (b :: bands)) {c : Band} (hc : c ∈ bands) :
    b.ybot ≤ c.ytop ∧ c.ytop < c.ybot :=
  ⟨(pairwise_cons.1 h.sorted).1 c hc, (h.tail.band c hc).lt⟩

variable {bs1 bs2 : List Band}

/-- The flags after the spans of a common band, with the flag of the tops before. -/
theorem testSpans_flags_both {b1 b2 : Band} (h1 : RisingBands (b1 :: bs1))
    (h2 : RisingBands (b2 :: bs2)) (hle : ¬ b1.ybot ≤ b2.ytop) (hle2 : ¬ b2.ybot ≤ b1.ytop) {flags : Wanted} :
    (testSpans b1.spans b2.spans
      (if b1.ytop < b2.ytop then { flags with region1 := true }
      else if b2.ytop < b1.ytop then { flags with region2 := true } else flags)).both = true ↔
      flags.both = true ∨ Meet b1 b2 := by
  have hb1 := h1.band b1 mem_cons_self
  have hb2 := h2.band b2 mem_cons_self
  obtain ⟨left1, hr1⟩ := h1.rising b1 mem_cons_self
  obtain ⟨left2, hr2⟩ := h2.rising b2 mem_cons_self
  rw [testSpans_both hr1 hr2, meet_iff hb1.lt hb2.lt hle hle2 hb1.spans hb2.spans]
  split_ifs <;> rfl

theorem testSpans_flags_region2 {b1 b2 : Band} (h1 : RisingBands (b1 :: bs1))
    (h2 : RisingBands (b2 :: bs2)) {flags : Wanted} :
    (testSpans b1.spans b2.spans
      (if b1.ytop < b2.ytop then { flags with region1 := true }
      else if b2.ytop < b1.ytop then { flags with region2 := true } else flags)).region2 = true ↔
      flags.region2 = true ∨ ¬ (b1.ytop ≤ b2.ytop ∧ SpansFit b1.spans b2.spans) := by
  have hb1 := h1.band b1 mem_cons_self
  have hb2 := h2.band b2 mem_cons_self
  obtain ⟨left1, hr1⟩ := h1.rising b1 mem_cons_self
  obtain ⟨left2, hr2⟩ := h2.rising b2 mem_cons_self
  rw [testSpans_region2_iff hr1 hr2 hb1.ne hb2.ne]
  split_ifs with hlt hlt'
  · simp [hlt.le]
  · simp [not_le.2 hlt']
  · simp [not_lt.1 hlt']

variable {runs1 runs2 : List Band}

/-- **Both run lists have a pixel** when the walk says so. -/
theorem testBands_both (h1 : RisingBands runs1) (h2 : RisingBands runs2) (flags : Wanted) :
    (testBands runs1 runs2 flags).both = true ↔ flags.both = true ∨ ∃ b ∈ runs1, ∃ c ∈ runs2, Meet b c := by
  fun_induction testBands runs1 runs2 flags with
  | case1 => simp
  | case2 => simp
  | case3 => simp
  | case4 flags b1 bs1 b2 bs2 hle ih =>
    refine (ih h1.tail h2).trans (or_congr_right ?_)
    rw [exists_mem_cons_iff]
    refine ⟨.inr, ?_⟩
    rintro (⟨c, hc, hmeet⟩ | hin)
    · refine absurd hmeet (not_meet_of_above (.inl ?_))
      rcases mem_cons.1 hc with rfl | hc
      · exact hle
      · have hbelow := h2.toBandsOk.below hc
        have hlt := (h2.band b2 mem_cons_self).lt
        omega
    · exact hin
  | case5 flags b1 bs1 b2 bs2 hle' hle ih =>
    refine (ih h1 h2.tail).trans (or_congr_right (exists_congr fun b => and_congr_right fun hb => ?_))
    rw [exists_mem_cons_iff]
    refine ⟨.inr, ?_⟩
    rintro (hmeet | hin)
    · refine absurd hmeet (not_meet_of_above (.inr ?_))
      rcases mem_cons.1 hb with rfl | hb
      · exact hle
      · have hbelow := h1.toBandsOk.below hb
        have hlt := (h1.band b1 mem_cons_self).lt
        omega
    · exact hin
  | case6 flags b1 bs1 b2 bs2 hle' hle f f' he ih =>
    refine (ih h1.tail h2.tail).trans ?_
    have hf : f'.both = true ↔ flags.both = true ∨ Meet b1 b2 := testSpans_flags_both h1 h2 hle' hle
    rw [hf, or_assoc]
    refine or_congr_right ?_
    simp only [exists_mem_cons_iff]
    constructor
    · rintro (hmeet | ⟨b, hb, c, hc, hmeet⟩)
      · exact .inl (.inl hmeet)
      · exact .inr ⟨b, hb, .inr ⟨c, hc, hmeet⟩⟩
    · rintro ((hmeet | ⟨c, hc, hmeet⟩) | ⟨b, hb, hmeet | ⟨c, hc, hmeet⟩⟩)
      · exact .inl hmeet
      · exact absurd hmeet (not_meet_of_above (.inl (he ▸ (h2.toBandsOk.below hc).1)))
      · exact absurd hmeet (not_meet_of_above (.inr (he ▸ (h1.toBandsOk.below hb).1)))
      · exact .inr ⟨b, hb, c, hc, hmeet⟩
  | case7 flags b1 bs1 b2 bs2 hle' hle f f' hne hlt ih =>
    refine (ih h1.tail h2).trans ?_
    have hf : f'.both = true ↔ flags.both = true ∨ Meet b1 b2 := testSpans_flags_both h1 h2 hle' hle
    rw [hf, or_assoc]
    refine or_congr_right ?_
    simp only [exists_mem_cons_iff]
    constructor
    · rintro (hmeet | ⟨b, hb, hin⟩)
      · exact .inl (.inl hmeet)
      · exact .inr ⟨b, hb, hin⟩
    · rintro ((hmeet | ⟨c, hc, hmeet⟩) | ⟨b, hb, hin⟩)
      · exact .inl hmeet
      · exact absurd hmeet (not_meet_of_above (.inl (hlt.le.trans (h2.toBandsOk.below hc).1)))
      · exact .inr ⟨b, hb, hin⟩
  | case8 flags b1 bs1 b2 bs2 hle' hle f f' hne hlt ih =>
    have hlt' : b2.ybot < b1.ybot := by omega
    refine (ih h1 h2.tail).trans ?_
    have hf : f'.both = true ↔ flags.both = true ∨ Meet b1 b2 := testSpans_flags_both h1 h2 hle' hle
    rw [hf, or_assoc]
    refine or_congr_right ?_
    simp only [exists_mem_cons_iff]
    constructor
    · rintro (hmeet | ⟨c, hc, hmeet⟩ | ⟨b, hb, c, hc, hmeet⟩)
      · exact .inl (.inl hmeet)
      · exact .inl (.inr ⟨c, hc, hmeet⟩)
      · exact .inr ⟨b, hb, .inr ⟨c, hc, hmeet⟩⟩
    · rintro ((hmeet | hin) | ⟨b, hb, hmeet | ⟨c, hc, hmeet⟩⟩)
      · exact .inl hmeet
      · exact .inr (.inl hin)
      · exact absurd hmeet (not_meet_of_above (.inr (hlt'.le.trans (h1.toBandsOk.below hb).1)))
      · exact .inr (.inr ⟨b, hb, c, hc, hmeet⟩)

theorem testBands_region2_mono (runs1 runs2 : List Band) (flags : Wanted) (h : flags.region2 = true) :
    (testBands runs1 runs2 flags).region2 = true := by
  fun_induction testBands runs1 runs2 flags with
  | case1 => exact h
  | case2 => exact h
  | case3 => rfl
  | case4 flags b1 bs1 b2 bs2 hle ih => exact ih h
  | case5 flags b1 bs1 b2 bs2 h1 hle ih => exact ih rfl
  | case6 flags b1 bs1 b2 bs2 h1 h2 f f' he ih =>
    exact ih (testSpans_region2_mono _ _ _ (by simp only [f]; split_ifs <;> simp [h]))
  | case7 flags b1 bs1 b2 bs2 h1 h2 f f' hne hlt ih =>
    exact ih (testSpans_region2_mono _ _ _ (by simp only [f]; split_ifs <;> simp [h]))
  | case8 flags b1 bs1 b2 bs2 h1 h2 f f' hne hlt ih =>
    exact ih (testSpans_region2_mono _ _ _ (by simp only [f]; split_ifs <;> simp [h]))

/-- The first band of the second run list starts above the bottom of the first band of the first one: only that one
may hold it. -/
theorem runsFit_cons {b1 b2 : Band} (h1 : RisingBands (b1 :: bs1)) (hle : ¬ b1.ybot ≤ b2.ytop) :
    RunsFit (b1 :: bs1) (b2 :: bs2) ↔ BandFits b1 b2 ∧ RunsFit (b1 :: bs1) bs2 := by
  unfold RunsFit
  rw [forall_mem_cons, exists_mem_cons_iff, or_iff_left]
  rintro ⟨b, hb, htop, -⟩
  have hbelow := h1.toBandsOk.below hb
  omega

/-- A first band that ends above the second run list holds none of its bands. -/
theorem runsFit_drop {b1 : Band} (habove : ∀ c ∈ bs2, b1.ybot ≤ c.ytop ∧ c.ytop < c.ybot) :
    RunsFit (b1 :: bs1) bs2 ↔ RunsFit bs1 bs2 := by
  refine forall₂_congr fun c hc => ?_
  rw [exists_mem_cons_iff, or_iff_right]
  rintro ⟨-, hbot, -⟩
  have hc' := habove c hc
  omega

/-- **The walk over two run lists** finds something of the second one only, unless each of its bands fits in one band
of the first. -/
theorem testBands_region2 (h1 : RisingBands runs1) (h2 : RisingBands runs2) (flags : Wanted) :
    (testBands runs1 runs2 flags).region2 = true ↔ flags.region2 = true ∨ ¬ RunsFit runs1 runs2 := by
  fun_induction testBands runs1 runs2 flags with
  | case1 => simp [RunsFit]
  | case2 => simp [RunsFit]
  | case3 flags c bs2 =>
    refine iff_of_true rfl (.inr fun hfit => ?_)
    obtain ⟨b, hb, -⟩ := hfit c mem_cons_self
    exact not_mem_nil hb
  | case4 flags b1 bs1 b2 bs2 hle ih =>
    refine (ih h1.tail h2).trans (or_congr_right (not_congr (runsFit_drop fun c hc => ?_).symm))
    have hlt2 := (h2.band b2 mem_cons_self).lt
    rcases mem_cons.1 hc with rfl | hc
    · exact ⟨hle, hlt2⟩
    · have hbelow := h2.toBandsOk.below hc
      exact ⟨by omega, hbelow.2⟩
  | case5 flags b1 bs1 b2 bs2 hle' hle ih =>
    refine iff_of_true (testBands_region2_mono _ _ _ rfl) (.inr fun hfit => ?_)
    obtain ⟨b, hb, htop, -⟩ := hfit b2 mem_cons_self
    have hlt2 := (h2.band b2 mem_cons_self).lt
    rcases mem_cons.1 hb with rfl | hb
    · omega
    · have hbelow := h1.toBandsOk.below hb
      have hlt := (h1.band b1 mem_cons_self).lt
      omega
  | case6 flags b1 bs1 b2 bs2 hle' hle f f' he ih =>
    have hf : f'.region2 = true ↔ flags.region2 = true ∨ ¬ (b1.ytop ≤ b2.ytop ∧ SpansFit b1.spans b2.spans) :=
      testSpans_flags_region2 h1 h2
    refine (ih h1.tail h2.tail).trans ?_
    rw [hf, or_assoc, ← not_and_or, runsFit_cons h1 hle', runsFit_drop fun c hc => he ▸ h2.toBandsOk.below hc]
    refine or_congr_right (not_congr ?_)
    exact ⟨fun ⟨⟨htop, hfit⟩, hrest⟩ => ⟨⟨htop, he.ge, hfit⟩, hrest⟩, fun ⟨⟨htop, _, hfit⟩, hrest⟩ =>
      ⟨⟨htop, hfit⟩, hrest⟩⟩
  | case7 flags b1 bs1 b2 bs2 hle' hle f f' hne hlt ih =>
    -- no band of the first run list reaches from the top of the second band to its bottom
    have hno : ¬ RunsFit bs1 (b2 :: bs2) := by
      intro hfit
      obtain ⟨b, hb, htop, -⟩ := hfit b2 mem_cons_self
      have hbelow := h1.toBandsOk.below hb
      omega
    have hno' : ¬ RunsFit (b1 :: bs1) (b2 :: bs2) := by
      rw [runsFit_cons h1 hle']
      rintro ⟨⟨-, hbot, -⟩, -⟩
      omega
    exact (ih h1.tail h2).trans (iff_of_true (.inr hno) (.inr hno'))
  | case8 flags b1 bs1 b2 bs2 hle' hle f f' hne hlt ih =>
    have hf : f'.region2 = true ↔ flags.region2 = true ∨ ¬ (b1.ytop ≤ b2.ytop ∧ SpansFit b1.spans b2.spans) :=
      testSpans_flags_region2 h1 h2
    have hbot : b2.ybot ≤ b1.ybot := by omega
    refine (ih h1 h2.tail).trans ?_
    rw [hf, or_assoc, ← not_and_or, runsFit_cons h1 hle']
    refine or_congr_right (not_congr ?_)
    exact ⟨fun ⟨⟨htop, hfit⟩, hrest⟩ => ⟨⟨htop, hbot, hfit⟩, hrest⟩, fun ⟨⟨htop, _, hfit⟩, hrest⟩ =>
      ⟨⟨htop, hfit⟩, hrest⟩⟩

/-! ## Built regions -/

/-- Right ends that do not decrease. -/
def Rising (spans : List Span) : Prop := spans.Pairwise fun s t => s.2 ≤ t.2

/-- The loop of `runs_coalesce_band` only moves the right end forward. -/
theorem coalesceSpans_rising (pleft : ℤ) {pright : ℤ} {spans : List Span} (hs : ∀ s ∈ spans, s.1 < s.2) :
    Rising (coalesceSpans pleft pright spans).1 ∧ ∀ s ∈ (coalesceSpans pleft pright spans).1, pright ≤ s.2 := by
  induction spans generalizing pright with
  | nil => simp [coalesceSpans, Rising]
  | cons s spans ih =>
    obtain ⟨xleft, xright⟩ := s
    rw [forall_mem_cons] at hs
    have hlt : xleft < xright := hs.1
    unfold coalesceSpans
    split_ifs with h
    · obtain ⟨h1, h2⟩ := @ih xright hs.2
      exact ⟨h1, fun s hs => by have := h2 s hs; omega⟩
    · obtain ⟨h1, h2⟩ := @ih pright hs.2
      exact ⟨pairwise_cons.2 ⟨h2, h1⟩, forall_mem_cons.2 ⟨le_rfl, h2⟩⟩

theorem coalesceBand_rising {b : Band} (h : BandOk b) : Rising (coalesceBand b).spans := by
  obtain ⟨ytop, ybot, spans⟩ := b
  cases spans with
  | nil => exact absurd rfl h.ne
  | cons s spans =>
    exact (coalesceSpans_rising s.1 fun t ht => (h.spans t (mem_cons_of_mem _ ht)).2.1).1

/-- What holds of every coalesced scanline holds of what `runs_coalesce` leaves. -/
theorem runsCoalesce_spans {P : List Span → Prop} {src : List Band} (hsrc : BandsOk src)
    (hband : ∀ b ∈ src, P (coalesceBand b).spans) (prev : Option Band) (minmax : SkinBox)
    (hprev : ∀ p ∈ prev, P p.spans) : ∀ b ∈ (runsCoalesce prev minmax src).1, P b.spans := by
  induction src generalizing prev minmax with
  | nil =>
    cases prev with
    | none => simp [runsCoalesce]
    | some p => simpa [runsCoalesce] using hprev
  | cons b src ih =>
    have hnext : ∀ p ∈ some (coalesceBand b), P p.spans := by
      intro p hp
      obtain rfl := Option.some.inj hp
      exact hband b mem_cons_self
    have ih := ih hsrc.tail fun c hc => hband c (mem_cons_of_mem _ hc)
    rw [runsCoalesce_cons (hsrc.band b mem_cons_self)]
    cases prev with
    | none => exact ih _ _ hnext
    | some p =>
      simp only
      split_ifs
      · refine ih _ _ fun q hq => ?_
        obtain rfl := Option.some.inj hq
        exact hprev p rfl
      · exact forall_mem_cons.2 ⟨hprev p rfl, ih _ _ hnext⟩

theorem regionOperatorDone_spans {P : List Span → Prop} {src : List Band} (hsrc : BandsOk src)
    (hband : ∀ b ∈ src, P (coalesceBand b).spans) :
    ∀ bands, (regionOperatorDone src).runs = .complex bands → ∀ b ∈ bands, P b.spans := by
  intro bands hbands
  unfold regionOperatorDone at hbands
  simp only at hbands
  split_ifs at hbands
  · exact nomatch hbands
  · exact nomatch hbands
  · obtain rfl := Runs.complex.inj hbands
    exact runsCoalesce_spans hsrc hband none _ (by simp)

/-- The scanlines of a region. -/
def RegionRising (r : SkinRegion) : Prop := ∀ bands, r.runs = .complex bands → ∀ b ∈ bands, Rising b.spans

/-- **The scanlines of a built region** have right ends that do not decrease. -/
theorem Built.rising {r : SkinRegion} (h : Built r) : RegionRising r := by
  refine h.complexKept (fun _ hsrc => regionOperatorDone_spans hsrc fun b hb => coalesceBand_rising (hsrc.band b hb))
    fun bands dx dy _ hr => ?_
  simp only [shiftBands, forall_mem_map]
  intro b hb
  rw [Rising, pairwise_map]
  exact (hr b hb).imp fun hle => by simp only; omega

/-- The run lists that the walk reads. -/
theorem operandRuns_rising {r : SkinRegion} (h : Built r) (hne : r.runs ≠ .empty) : RisingBands (operandRuns r) := by
  have hok := operandRuns_ok h.ok hne
  refine ⟨hok, fun b hb => ?_⟩
  have hspans := (hok.band b hb).spans
  obtain ⟨bounds, runs⟩ := r
  cases runs with
  | empty => exact absurd rfl hne
  | rect =>
    obtain rfl := mem_singleton.1 hb
    exact ⟨toRun bounds.x, by simpa using (hspans _ (mem_singleton_self _)).2.1, pairwise_singleton _ _⟩
  | complex bands =>
    obtain ⟨left, right, hst⟩ := h.ok.1.stacked b hb
    exact ⟨left, fun s hs => ⟨(hst.all s hs).1, (hst.all s hs).2.1⟩, h.rising bands rfl b hb⟩

/-- The run list that stands for a rectangle. -/
theorem rect_runs {bounds : SkinRect} (h : RegionOk ⟨bounds, .rect⟩) :
    operandRuns ⟨bounds, .rect⟩ =
      [⟨bounds.y, bounds.y + bounds.h, [(bounds.x, bounds.x + bounds.w)]⟩] := by
  obtain ⟨⟨h1, h2, h3⟩, ⟨h4, h5, h6⟩⟩ := h
  simp only at h1 h2 h3 h4 h5 h6
  simp only [operandRuns, runsSetRect]
  rw [toRun_eq ⟨h1, by omega⟩, toRun_eq ⟨by omega, h3⟩, toRun_eq ⟨h4, by omega⟩, toRun_eq ⟨by omega, h6⟩]

theorem inBands_operandRuns {r : SkinRegion} (h : RegionOk r) (hne : r.runs ≠ .empty) (x y : ℤ) :
    InBands (operandRuns r) x y ↔ PixelSet r x y := by
  obtain ⟨bounds, runs⟩ := r
  cases runs with
  | empty => exact absurd rfl hne
  | rect =>
    rw [rect_runs h]
    simp [InBands, Covers, PixelSet]
    omega
  | complex bands => rfl

/-- No pixel is in both regions. -/
def NoCommonPixel (r1 r2 : SkinRegion) : Prop :=
  ∀ x y, IsInt x → IsInt y → ¬ (skinRegionContains r1 x y = true ∧ skinRegionContains r2 x y = true)

/-- Every pixel of `r2` is in `r1`. -/
def PixelsWithin (r1 r2 : SkinRegion) : Prop :=
  ∀ x y, IsInt x → IsInt y → skinRegionContains r2 x y = true → skinRegionContains r1 x y = true

variable {r1 r2 : SkinRegion}

theorem noCommonPixel_iff (h1 : RegionOk r1) (h2 : RegionOk r2) (hne1 : r1.runs ≠ .empty)
    : NoCommonPixel r1 r2 ↔ ∀ x y, ¬ (PixelSet r1 x y ∧ PixelSet r2 x y) := by
  have hint := (h1.isBox hne1).2
  constructor
  · rintro h x y ⟨hp1, hp2⟩
    obtain ⟨hx, hy⟩ := hint x y hp1
    exact h x y hx hy ⟨(contains_iff h1 hx hy).2 hp1, (contains_iff h2 hx hy).2 hp2⟩
  · rintro h x y hx hy ⟨hp1, hp2⟩
    exact h x y ⟨(contains_iff h1 hx hy).1 hp1, (contains_iff h2 hx hy).1 hp2⟩

theorem pixelsWithin_iff (h1 : RegionOk r1) (h2 : RegionOk r2) (hne2 : r2.runs ≠ .empty) :
    PixelsWithin r1 r2 ↔ ∀ x y, PixelSet r2 x y → PixelSet r1 x y := by
  have hint := (h2.isBox hne2).2
  constructor
  · intro h x y hp
    obtain ⟨hx, hy⟩ := hint x y hp
    exact (contains_iff h1 hx hy).1 (h x y hx hy ((contains_iff h2 hx hy).2 hp))
  · intro h x y hx hy hc
    exact (contains_iff h1 hx hy).2 (h x y ((contains_iff h2 hx hy).1 hc))

/-- What the walk says of two run lists. -/
theorem flagsOverlap_iff (h1 : RisingBands runs1) (h2 : RisingBands runs2)
    (hne2 : runs2 ≠ []) :
    (flagsOverlap (testBands runs1 runs2 ⟨false, false, false⟩) = .outside ↔
        ∀ x y, ¬ (InBands runs1 x y ∧ InBands runs2 x y)) ∧
      (flagsOverlap (testBands runs1 runs2 ⟨false, false, false⟩) = .inside ↔ RunsFit runs1 runs2) := by
  have hboth := testBands_both h1 h2 ⟨false, false, false⟩
  have hregion2 := testBands_region2 h1 h2 ⟨false, false, false⟩
  simp only [Bool.false_eq_true, false_or] at hboth hregion2
  have hmeet : (∃ b ∈ runs1, ∃ c ∈ runs2, Meet b c) ↔ ¬ ∀ x y, ¬ (InBands runs1 x y ∧ InBands runs2 x y) := by
    push Not
    constructor
    · rintro ⟨b, hb, c, hc, x, y, h, h'⟩
      exact ⟨x, y, ⟨b, hb, h⟩, c, hc, h'⟩
    · rintro ⟨x, y, ⟨b, hb, h⟩, c, hc, h'⟩
      exact ⟨b, hb, c, hc, x, y, h, h'⟩
  -- run lists that fit have a pixel in common
  have hfit : RunsFit runs1 runs2 → ∃ b ∈ runs1, ∃ c ∈ runs2, Meet b c := by
    intro hfit
    obtain ⟨c, hc⟩ := exists_mem_of_ne_nil _ hne2
    obtain ⟨b, hb, htop, hbot, hin, -⟩ := hfit c hc
    obtain ⟨-, hlt, -, hnil, hspans⟩ := h2.band c hc
    obtain ⟨s, hs⟩ := exists_mem_of_ne_nil _ hnil
    have hs' := (hspans s hs).2.1
    exact ⟨b, hb, c, hc, s.1, c.ytop, ⟨htop, by omega, hin s.1 ⟨s, hs, le_rfl, hs'⟩⟩, le_rfl, hlt, s, hs, le_rfl, hs'⟩
  rw [hmeet] at hboth hfit
  generalize testBands runs1 runs2 ⟨false, false, false⟩ = flags at hboth hregion2 ⊢
  generalize (∀ x y, ¬ (InBands runs1 x y ∧ InBands runs2 x y)) = outside at hboth hfit ⊢
  unfold flagsOverlap
  by_cases hnone : outside
  · have hb : flags.both = false := by simpa [hnone] using hboth
    have hnot : ¬ RunsFit runs1 runs2 := fun h => hfit h hnone
    simp [hb, hnone, hnot]
  · have hb : flags.both = true := hboth.2 hnone
    by_cases hf : RunsFit runs1 runs2
    · have hr : flags.region2 = false := by simpa [hf] using hregion2
      simp [hb, hr, hnone, hf]
    · have hr : flags.region2 = true := hregion2.2 hf
      simp [hb, hr, hnone, hf]

/-- A line is in one band only. -/
theorem BandsOk.eq_of_line {bands : List Band} (h : BandsOk bands) {b c : Band} (hb : b ∈ bands)
    (hc : c ∈ bands) {y : ℤ}
    (h1 : b.ytop ≤ y) (h2 : y < b.ybot) (h3 : c.ytop ≤ y) (h4 : y < c.ybot) : b = c := by
  induction bands with
  | nil => exact absurd hb not_mem_nil
  | cons a bands ih =>
    rcases mem_cons.1 hb with rfl | hb'
    · rcases mem_cons.1 hc with rfl | hc'
      · rfl
      · have hbelow := h.below hc'
        omega
    · rcases mem_cons.1 hc with rfl | hc'
      · have hbelow := h.below hb'
        omega
      · exact ih h.tail hb' hc'

/-- Each band of the second run list lies in the lines of one band of the first one, and its right end is not written
more often if both end in one column. -/
def OneBandEach (runs1 runs2 : List Band) : Prop :=
  ∀ c ∈ runs2, ∃ b ∈ runs1, b.ytop ≤ c.ytop ∧ c.ybot ≤ b.ybot ∧
    (rightEnd c.spans = rightEnd b.spans → rightCount c.spans ≤ rightCount b.spans)

theorem runsFit_iff (h1 : RisingBands runs1) (h2 : RisingBands runs2) :
    RunsFit runs1 runs2 ↔ (∀ x y, InBands runs2 x y → InBands runs1 x y) ∧ OneBandEach runs1 runs2 := by
  constructor
  · intro hfit
    constructor
    · rintro x y ⟨c, hc, hy, hy', hin⟩
      obtain ⟨b, hb, htop, hbot, hcols, -⟩ := hfit c hc
      exact ⟨b, hb, by omega, by omega, hcols x hin⟩
    · intro c hc
      obtain ⟨b, hb, htop, hbot, -, hcount⟩ := hfit c hc
      exact ⟨b, hb, htop, hbot, hcount⟩
  · rintro ⟨hin, hone⟩ c hc
    obtain ⟨b, hb, htop, hbot, hcount⟩ := hone c hc
    refine ⟨b, hb, htop, hbot, fun x hx => ?_, hcount⟩
    have hlt := (h2.band c hc).lt
    obtain ⟨b', hb', hy, hy', hx'⟩ := hin x c.ytop ⟨c, hc, le_rfl, hlt, hx⟩
    -- the line is in one band only
    obtain rfl := h1.toBandsOk.eq_of_line hb' hb hy hy' htop (by omega)
    exact hx'

/-- **When the classification is right.** -/
def OverlapExact (r1 r2 : SkinRegion) : Prop :=
  match r1.runs, r2.runs with
  | .rect, .rect => True
  | .rect, _ => (∃ b ∈ operandRuns r2, ∀ x y, PixelSet r1 x y → Covers b x y) ↔ PixelsWithin r1 r2
  | _, _ => PixelsWithin r1 r2 → OneBandEach (operandRuns r1) (operandRuns r2)

/-- What the classification of two regions should be. -/
def Classifies (o : SkinOverlap) (r1 r2 : SkinRegion) : Prop :=
  (o = .outside ↔ NoCommonPixel r1 r2) ∧ (o = .inside ↔ PixelsWithin r1 r2) ∧
    (o = .overlap ↔ ¬ NoCommonPixel r1 r2 ∧ ¬ PixelsWithin r1 r2)

theorem classifies_iff {o : SkinOverlap} :
    Classifies o r1 r2 ↔ (o = .outside ↔ NoCommonPixel r1 r2) ∧ (o = .inside ↔ PixelsWithin r1 r2) := by
  refine ⟨fun h => ⟨h.1, h.2.1⟩, fun ⟨h1, h2⟩ => ⟨h1, h2, ?_⟩⟩
  rw [← h1, ← h2]
  cases o <;> simp

/-- A rectangle fits when it lies in one band. -/
theorem runsFit_rect {runs : List Band} (h : RisingBands runs) {bounds : SkinRect} (hr : RegionOk ⟨bounds, .rect⟩) :
    RunsFit runs (operandRuns ⟨bounds, .rect⟩) ↔ ∃ b ∈ runs, ∀ x y, PixelSet ⟨bounds, .rect⟩ x y → Covers b x y := by
  rw [rect_runs hr, RunsFit, forall_mem_singleton]
  obtain ⟨⟨-, hw, -⟩, ⟨-, hh, -⟩⟩ := hr
  simp only at hw hh
  refine exists_congr fun b => and_congr_right fun hb => ?_
  simp only [PixelSet]
  constructor
  · rintro ⟨htop, hbot, hcols, -⟩ x y ⟨hx, hx', hy, hy'⟩
    simp only at htop hbot
    exact ⟨by omega, by omega, hcols x ⟨_, mem_singleton_self _, hx, hx'⟩⟩
  · intro hin
    have hfirst := hin bounds.x bounds.y ⟨le_rfl, hw, le_rfl, hh⟩
    have hlast := hin bounds.x (bounds.y + bounds.h - 1) ⟨le_rfl, hw, by omega, by omega⟩
    refine ⟨hfirst.1, by have := hlast.2.1; simp only; omega, ?_, fun _ => ?_⟩
    · rintro x ⟨s, hs, hx, hx'⟩
      obtain rfl := mem_singleton.1 hs
      exact (hin x bounds.y ⟨hx, hx', le_rfl, hh⟩).2.2
    · obtain ⟨left, hrise⟩ := h.rising b hb
      obtain ⟨-, s, hs, he⟩ := hrise.le_rightEnd (h.band b hb).ne
      have hpos : 0 < rightCount b.spans := countP_pos_iff.2 ⟨s, hs, by simpa using he⟩
      simpa [rightCount, rightEnd] using hpos

/-- **`skin_rect_contains_rect`** classifies two rectangles. -/
theorem containsRect_classifies {a b : SkinRect} (ha : RegionOk ⟨a, .rect⟩) (hb : RegionOk ⟨b, .rect⟩) :
    Classifies (skinRectContainsRect a b) ⟨a, .rect⟩ ⟨b, .rect⟩ := by
  have hne : ∀ r : SkinRect, (⟨r, .rect⟩ : SkinRegion).runs ≠ .empty := by
    intro r h
    cases h
  rw [classifies_iff, noCommonPixel_iff ha hb (hne a), pixelsWithin_iff ha hb (hne b)]
  obtain ⟨⟨-, hw, -⟩, ⟨-, hh, -⟩⟩ := ha
  obtain ⟨⟨-, hw', -⟩, ⟨-, hh', -⟩⟩ := hb
  simp only at hw hh hw' hh'
  simp only [PixelSet]
  by_cases hout : a.w + a.x ≤ b.x ∨ b.w + b.x ≤ a.x ∨ a.h + a.y ≤ b.y ∨ b.h + b.y ≤ a.y
  · rw [show skinRectContainsRect a b = .outside from if_pos hout]
    refine ⟨iff_of_true rfl fun x y h => by omega, iff_of_false (by decide) fun h => ?_⟩
    have hcorner := h b.x b.y ⟨le_rfl, by omega, le_rfl, by omega⟩
    omega
  · have hcommon : ¬ ∀ x y, ¬ ((a.x ≤ x ∧ x < a.x + a.w ∧ a.y ≤ y ∧ y < a.y + a.h) ∧
        b.x ≤ x ∧ x < b.x + b.w ∧ b.y ≤ y ∧ y < b.y + b.h) := by
      intro h
      exact h (max a.x b.x) (max a.y b.y) (by omega)
    by_cases hin : a.x ≤ b.x ∧ b.w + b.x ≤ a.w + a.x ∧ a.y ≤ b.y ∧ b.h + b.y ≤ a.h + a.y
    · rw [show skinRectContainsRect a b = .inside from (if_neg hout).trans (if_pos hin)]
      exact ⟨iff_of_false (by decide) hcommon, iff_of_true rfl fun x y h => by omega⟩
    · rw [show skinRectContainsRect a b = .overlap from (if_neg hout).trans (if_neg hin)]
      refine ⟨iff_of_false (by decide) hcommon, iff_of_false (by decide) fun h => hin ?_⟩
      have hfirst := h b.x b.y ⟨le_rfl, by omega, le_rfl, by omega⟩
      have hlast := h (b.x + b.w - 1) (b.y + b.h - 1) ⟨by omega, by omega, by omega, by omega⟩
      omega

/-- Regions with bounds beside each other have no common pixel. -/
theorem noCommonPixel_of_bounds (h1 : RegionOk r1) (h2 : RegionOk r2) (hne1 : r1.runs ≠ .empty)
    (hne2 : r2.runs ≠ .empty) (h : (skinRectIntersect r1.bounds r2.bounds).2 = false) :
    ∀ x y, ¬ (PixelSet r1 x y ∧ PixelSet r2 x y) := by
  rintro x y ⟨hp1, hp2⟩
  have hw1 := (h1.isBox hne1).1.within x y hp1
  have hw2 := (h2.isBox hne2).1.within x y hp2
  have hout : r1.bounds.w + r1.bounds.x ≤ r2.bounds.x ∨ r2.bounds.w + r2.bounds.x ≤ r1.bounds.x ∨
      r1.bounds.h + r1.bounds.y ≤ r2.bounds.y ∨ r2.bounds.h + r2.bounds.y ≤ r1.bounds.y := by
    by_contra hout
    rw [show skinRectIntersect r1.bounds r2.bounds = (_, true) from if_neg hout] at h
    exact nomatch h
  omega

/-- **Region overlap classification**: it is right for two rectangles, for a first region that is no rectangle unless
the second one lies in it and is not `OneBandEach`, and for a rectangle and a region that is none if that region lies
in the rectangle exactly when the rectangle lies in one of its bands. -/
theorem skinRegionTestIntersect_iff {r1 r2 : SkinRegion} (h1 : Built r1) (h2 : Built r2) (hne1 : r1.runs ≠ .empty)
    (hne2 : r2.runs ≠ .empty) : Classifies (skinRegionTestIntersect r1 r2) r1 r2 ↔ OverlapExact r1 r2 := by
  have hok1 := h1.ok
  have hok2 := h2.ok
  have hr1 := operandRuns_rising h1 hne1
  have hr2 := operandRuns_rising h2 hne2
  have hb1 := inBands_operandRuns hok1 hne1
  have hb2 := inBands_operandRuns hok2 hne2
  -- a region within another one has a pixel in common with it
  have hpix : PixelsWithin r1 r2 → ¬ NoCommonPixel r1 r2 := by
    intro hin hno
    obtain ⟨x, y, hx, hy, hp⟩ := hok2.hasPixel hne2
    have hc := (contains_iff hok2 hx hy).2 hp
    exact hno x y hx hy ⟨hin x y hx hy hc, hc⟩
  have hrunsne : ∀ {r : SkinRegion}, RegionOk r → r.runs ≠ .empty → operandRuns r ≠ [] := by
    intro r hok hne hnil
    obtain ⟨x, y, -, -, hp⟩ := hok.hasPixel hne
    rw [← inBands_operandRuns hok hne, hnil] at hp
    exact not_inBands_nil x y hp
  have hwalk := flagsOverlap_iff hr1 hr2 (hrunsne hok2 hne2)
  have hwalk' := flagsOverlap_iff hr2 hr1 (hrunsne hok1 hne1)
  rw [runsFit_iff hr1 hr2] at hwalk
  simp only [hb1, hb2, ← pixelsWithin_iff hok1 hok2 hne2, ← noCommonPixel_iff hok1 hok2 hne1] at hwalk
  have hcomm : (∀ x y, ¬ (InBands (operandRuns r2) x y ∧ InBands (operandRuns r1) x y)) ↔ NoCommonPixel r1 r2 := by
    rw [noCommonPixel_iff hok1 hok2 hne1]
    exact forall₂_congr fun x y => by rw [hb1, hb2, and_comm]
  rw [hcomm] at hwalk'
  have hempty : ¬ (r1.runs = .empty ∨ r2.runs = .empty) := not_or.2 ⟨hne1, hne2⟩
  by_cases hbounds : (skinRectIntersect r1.bounds r2.bounds).2 = false
  · have hno : NoCommonPixel r1 r2 :=
      (noCommonPixel_iff hok1 hok2 hne1).2 (noCommonPixel_of_bounds hok1 hok2 hne1 hne2 hbounds)
    have hnot : ¬ PixelsWithin r1 r2 := fun hin => hpix hin hno
    have hres : skinRegionTestIntersect r1 r2 = .outside := by
      unfold skinRegionTestIntersect
      rw [if_neg hempty, if_pos hbounds]
    refine iff_of_true (classifies_iff.2 ⟨iff_of_true hres hno, iff_of_false (by rw [hres]; nofun) hnot⟩) ?_
    have hswap : ¬ ∃ b ∈ operandRuns r2, ∀ x y, PixelSet r1 x y → Covers b x y := by
      rintro ⟨b, hb, hin⟩
      obtain ⟨x, y, -, -, hp⟩ := hok1.hasPixel hne1
      exact (noCommonPixel_iff hok1 hok2 hne1).1 hno x y ⟨hp, (hb2 x y).1 ⟨b, hb, hin x y hp⟩⟩
    unfold OverlapExact
    split
    · trivial
    · exact iff_of_false hswap hnot
    · exact fun hin => absurd hin hnot
  · unfold OverlapExact skinRegionTestIntersect
    rw [if_neg hempty, if_neg hbounds]
    obtain ⟨bounds1, runs1⟩ := r1
    obtain ⟨bounds2, runs2⟩ := r2
    cases runs1 with
    | empty => exact absurd rfl hne1
    | complex bands1 =>
      simp only
      rw [classifies_iff, hwalk.1, hwalk.2]
      exact ⟨fun h hin => (h.2.2 hin).2, fun h => ⟨Iff.rfl, fun h' => h'.1, fun hin => ⟨hin, h hin⟩⟩⟩
    | rect =>
      cases runs2 with
      | empty => exact absurd rfl hne2
      | rect => exact iff_of_true (containsRect_classifies hok1 hok2) trivial
      | complex bands2 =>
        simp only
        rw [classifies_iff, hwalk'.1, hwalk'.2, runsFit_rect hr2 hok1]
        exact and_iff_right Iff.rfl

/-- Two rectangles one on the other, and one that lies across both. -/
def abutting : SkinRegion := skinRegionUnion (skinRegionInit 0 0 10 10) (skinRegionInit 0 10 20 20)

def across : SkinRegion := skinRegionInit 2 5 6 15

theorem abutting_eq : abutting = ⟨⟨0, 0, 20, 20⟩, .complex [⟨0, 10, [(0, 10)]⟩, ⟨10, 20, [(0, 20)]⟩]⟩ := by
  decide +kernel

theorem abutting_built : Built abutting :=
  .union (.init (by simp [InRun, RUN_MIN, RUN_MAX])) (.init (by simp [InRun, RUN_MIN, RUN_MAX]))

theorem across_built : Built across := .init (by simp [InRun, RUN_MIN, RUN_MAX])

/-- The rectangle lies in the region, and the answer is `SKIN_OVERLAP`. -/
theorem skinRegionTestIntersect_across : (Built abutting ∧ abutting.runs ≠ .empty) ∧
    (Built across ∧ across.runs ≠ .empty) ∧ PixelsWithin abutting across ∧
      skinRegionTestIntersect abutting across = .overlap := by
  have hne1 : abutting.runs ≠ .empty := by rw [abutting_eq]; nofun
  have hne2 : across.runs ≠ .empty := by decide
  refine ⟨⟨abutting_built, hne1⟩, ⟨across_built, hne2⟩, ?_, by decide +kernel⟩
  rw [pixelsWithin_iff abutting_built.ok across_built.ok hne2, abutting_eq]
  intro x y hp
  have hacross : across = ⟨⟨2, 5, 4, 10⟩, .rect⟩ := by decide
  rw [hacross] at hp
  simp only [PixelSet] at hp
  simp [PixelSet, Covers]
  omega

theorem skinRegionTestIntersect_iff_across :
    Classifies (skinRegionTestIntersect abutting across) abutting across ↔ OverlapExact abutting across :=
  skinRegionTestIntersect_iff abutting_built across_built (by rw [abutting_eq]; nofun) (by decide)

end Emulator.Skin
