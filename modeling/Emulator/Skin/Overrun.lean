import Emulator.Skin.Sweep

/-!
# The buffer of the region operator

`region_operator_init` takes a buffer of `3 * max(count1, count2)` cells for the runs
that `region_operator_do` writes.

* `regionOperatorDo_cut`: the result is cut only where an operand has an end;
* `regionOperatorCells_eq`: so the cells are counted by lines and columns of the operands;
* `regionOperatorDo_fits_iff`: when the buffer is large enough.

It is not when many bands of one operand cut a band of the other one with several spans.
-/

namespace Emulator.Skin

open Emulator.Lib
open List hiding sum_append

/-- `run1_count`: the cells of the runs of an operand. -/
def runCount (r : SkinRegion) : ℕ :=
  match r.runs with
  | .complex bands => runsCount bands
  | _ => RUNS_RECT_COUNT

/-- `region_operator_init`: the cells of the buffer. -/
def regionOperatorInit (r1 r2 : SkinRegion) : ℕ :=
  let maxruns := if runCount r1 < runCount r2 then runCount r2 else runCount r1
  3 * maxruns

/-- The cells of a band that is copied: `YTOP YBOTTOM span+ XSENTINEL`. -/
def Band.cells (b : Band) : ℕ := 2 * b.spans.length + 3

/-- The cells that what is left of `region_operator_do` writes from `runs` on. Of a common band without
spans, the first two cells are written although `runs` stays. -/
def regionOperatorCells (wanted : Wanted) (runs1 runs2 : List Band) : ℕ :=
  match runs1, runs2 with
  | [], [] => 1
  | [], bs2 => if wanted.region2 then (bs2.map Band.cells).sum + 1 else 1
  | bs1, [] => if wanted.region1 then (bs1.map Band.cells).sum + 1 else 1
  | b1 :: bs1, b2 :: bs2 =>
    if b1.ybot ≤ b2.ytop then
      (if wanted.region1 then b1.cells else 0) + regionOperatorCells wanted bs1 (b2 :: bs2)
    else if b2.ybot ≤ b1.ytop then
      (if wanted.region2 then b2.cells else 0) + regionOperatorCells wanted (b1 :: bs1) bs2
    else
      let before :=
        if b1.ytop < b2.ytop then if wanted.region1 then b1.cells else 0
        else if b2.ytop < b1.ytop then if wanted.region2 then b2.cells else 0
        else 0
      let ybot := if b1.ybot ≤ b2.ybot then b1.ybot else b2.ybot
      let spans := sweepSpans wanted b1.spans b2.spans
      let rest :=
        if b1.ybot = b2.ybot then regionOperatorCells wanted bs1 bs2
        else if b1.ybot < b2.ybot then regionOperatorCells wanted bs1 ({ b2 with ytop := ybot } :: bs2)
        else regionOperatorCells wanted ({ b1 with ytop := ybot } :: bs1) bs2
      before + if spans = [] then max 2 rest else 2 + (2 * spans.length + 1) + rest
termination_by runs1.length + runs2.length

/-- A region that is not empty, with runs of the documented grammar. -/
def WellFormed (r : SkinRegion) : Prop := r.runs ≠ .empty ∧ RunList (operandRuns r)

/-! ## Lines and columns of the operands -/

instance (spans : List Span) : DecidablePred (InSpans spans) :=
  fun x => inferInstanceAs (Decidable (∃ s ∈ spans, s.1 ≤ x ∧ x < s.2))

instance (wanted : Wanted) (in1 in2 : Prop) [Decidable in1] [Decidable in2] : Decidable (wanted.Selects in1 in2) :=
  inferInstanceAs (Decidable (_ ∨ _ ∨ _))

/-- The tops and bottoms of bands. -/
def bandEnds (bands : List Band) : Finset ℤ := (bands.flatMap fun b => [b.ytop, b.ybot]).toFinset

/-- The spans of the line `y`. -/
def lineSpans (bands : List Band) (y : ℤ) : List Span := ((runsFindY bands y).map Band.spans).getD []

/-- The columns where the line `y` of the operands has an end and a wanted pixel. -/
def linePieces (wanted : Wanted) (runs1 runs2 : List Band) (y : ℤ) : Finset ℤ :=
  (spanEnds (lineSpans runs1 y) ∪ spanEnds (lineSpans runs2 y)).filter fun x =>
    wanted.Selects (InSpans (lineSpans runs1 y) x) (InSpans (lineSpans runs2 y) x)

/-- The lines where a band of the operands starts or ends, with a wanted pixel. -/
def wantedLines (wanted : Wanted) (runs1 runs2 : List Band) : Finset ℤ :=
  (bandEnds runs1 ∪ bandEnds runs2).filter fun y => (linePieces wanted runs1 runs2 y).Nonempty

/-- The line `y` is in a band. -/
def InLine (bands : List Band) (y : ℤ) : Prop := ∃ b ∈ bands, b.ytop ≤ y ∧ y < b.ybot

/-- Some line is in a band of both operands, and there is no wanted pixel from it on. -/
def EndsUnwanted (wanted : Wanted) (runs1 runs2 : List Band) : Prop :=
  ∃ y, InLine runs1 y ∧ InLine runs2 y ∧
    ∀ x y', y ≤ y' → ¬ wanted.Selects (InBands runs1 x y') (InBands runs2 x y')

open Classical in
/-- The cells of the result, counted by lines and columns. -/
noncomputable def wantedCells (wanted : Wanted) (runs1 runs2 : List Band) : ℕ :=
  ∑ y ∈ wantedLines wanted runs1 runs2, (2 * (linePieces wanted runs1 runs2 y).card + 3) + 1 +
    if EndsUnwanted wanted runs1 runs2 then 1 else 0

/-! ## Spans -/

/-- **The spans of the merge**, counted by the columns where an operand has an end. -/
theorem sweepSpans_length (wanted : Wanted) {xs ys : List Span} (hx : Increasing xs) (hy : Increasing ys) :
    (sweepSpans wanted xs ys).length =
      ((spanEnds xs ∪ spanEnds ys).filter fun x => wanted.Selects (InSpans xs x) (InSpans ys x)).card := by
  obtain ⟨t, hcut⟩ := exists_sweepSpans_cut wanted hx hy
  have hsum := hcut.sum (fun x => wanted.Selects (InSpans xs x) (InSpans ys x))
    (fun x _ => (sweepSpans_covers wanted hx hy x).symm) fun _ => 1
  simpa using hsum

/-! ## Lines -/

variable {bands : List Band} {b : Band} {y : ℤ}

theorem lineSpans_above (h : y < b.ytop) : lineSpans (b :: bands) y = [] := by
  simp [lineSpans, runsFindY, h]

theorem lineSpans_first (h : b.ytop ≤ y) (h2 : y < b.ybot) :
    lineSpans (b :: bands) y = b.spans := by
  simp [lineSpans, runsFindY, not_lt.2 h, h2]

theorem lineSpans_below {b : Band} {bands : List Band} {y : ℤ} (h : b.ytop ≤ y) (h2 : b.ybot ≤ y) :
    lineSpans (b :: bands) y = lineSpans bands y := by
  simp [lineSpans, runsFindY, not_lt.2 h, not_lt.2 h2]

theorem lineSpans_mem (h : BandsOk bands) (hb : b ∈ bands) (hy : b.ytop ≤ y)
    (hy2 : y < b.ybot) : lineSpans bands y = b.spans := by
  induction bands with
  | nil => exact absurd hb not_mem_nil
  | cons c bands ih =>
    rcases mem_cons.1 hb with rfl | hb
    · exact lineSpans_first hy hy2
    · have hle := (pairwise_cons.1 h.sorted).1 b hb
      have hlt := (h.band c mem_cons_self).lt
      rw [lineSpans_below (by omega) (by omega)]
      exact ih h.tail hb

theorem runsFindY_some (h : runsFindY bands y = some b) :
    b ∈ bands ∧ b.ytop ≤ y ∧ y < b.ybot := by
  induction bands with
  | nil => exact nomatch h
  | cons c bands ih =>
    unfold runsFindY at h
    split_ifs at h with h1 h2
    · obtain rfl := Option.some.inj h
      exact ⟨mem_cons_self, not_lt.1 h1, h2⟩
    · obtain ⟨hb, hy⟩ := ih h
      exact ⟨mem_cons_of_mem _ hb, hy⟩

/-- The pixels of a line are those of its spans. -/
theorem inSpans_lineSpans (h : BandsOk bands) (x y : ℤ) :
    InSpans (lineSpans bands y) x ↔ InBands bands x y := by
  constructor
  · intro hin
    cases hfind : runsFindY bands y with
    | none =>
      rw [lineSpans, hfind] at hin
      exact absurd hin (not_inSpans_nil x)
    | some b =>
      obtain ⟨hb, hy, hy2⟩ := runsFindY_some hfind
      rw [lineSpans, hfind] at hin
      exact ⟨b, hb, hy, hy2, hin⟩
  · rintro ⟨b, hb, hy, hy2, hin⟩
    rw [lineSpans_mem h hb hy hy2]
    exact hin

theorem lineSpans_increasing (h : SweptBands bands) (y : ℤ) : Increasing (lineSpans bands y) := by
  cases hfind : runsFindY bands y with
  | none =>
    rw [lineSpans, hfind]
    exact ⟨by simp, List.Pairwise.nil⟩
  | some b =>
    rw [lineSpans, hfind]
    exact h.spans b (runsFindY_some hfind).1

theorem lineSpans_nil (y : ℤ) : lineSpans [] y = [] := rfl

theorem sweepSpans_nil_left (wanted : Wanted) (spans : List Span) :
    sweepSpans wanted [] spans = if wanted.region2 then spans else [] := by
  cases spans <;> simp [sweepSpans]

theorem sweepSpans_nil_right (wanted : Wanted) (spans : List Span) :
    sweepSpans wanted spans [] = if wanted.region1 then spans else [] := by
  cases spans <;> simp [sweepSpans]

variable {xs ys : List Band}

/-- **The spans of a band of the result** are the merge of the spans on its first line. -/
theorem regionOperatorDo_line (wanted : Wanted) (hx : SweptBands xs) (hy : SweptBands ys) :
    ∀ b ∈ regionOperatorDo wanted xs ys,
      b.spans = sweepSpans wanted (lineSpans xs b.ytop) (lineSpans ys b.ytop) := by
  fun_induction regionOperatorDo wanted xs ys with
  | case1 => simp
  | case2 ys hne hw =>
    intro b hb
    rw [lineSpans_mem hy.toBandsOk hb le_rfl (hy.band b hb).lt, lineSpans_nil, sweepSpans_nil_left, if_pos hw]
  | case3 ys hne hw => simp
  | case4 xs hne hw =>
    intro b hb
    rw [lineSpans_mem hx.toBandsOk hb le_rfl (hx.band b hb).lt, lineSpans_nil, sweepSpans_nil_right, if_pos hw]
  | case5 xs hne hw => simp
  | case6 b1 xs b2 ys h ih =>
    have hlt := (hx.band b1 mem_cons_self).lt
    have hys : ∀ b ∈ b2 :: ys, b1.ybot ≤ b.ytop := by
      refine forall_mem_cons.2 ⟨h, fun b hb => ?_⟩
      have hle := (pairwise_cons.1 hy.sorted).1 b hb
      have hlt2 := (hy.band b2 mem_cons_self).lt
      omega
    have hlow := (regionOperatorDo_ok wanted _ _ hx.toBandsOk.tail hy.toBandsOk
      (pairwise_cons.1 hx.sorted).1 hys).2
    rw [forall_mem_append]
    constructor
    · split_ifs with hw
      · rw [forall_mem_singleton, lineSpans_first le_rfl hlt, lineSpans_above (by omega), sweepSpans_nil_right,
          if_pos hw]
      · simp
    · intro b hb
      have hle := hlow b hb
      rw [ih hx.tail hy b hb, lineSpans_below (by omega) hle]
  | case7 b1 xs b2 ys h1 h2 ih =>
    have hlt := (hy.band b2 mem_cons_self).lt
    have hxs : ∀ b ∈ b1 :: xs, b2.ybot ≤ b.ytop := by
      refine forall_mem_cons.2 ⟨h2, fun b hb => ?_⟩
      have hle := (pairwise_cons.1 hx.sorted).1 b hb
      have hlt1 := (hx.band b1 mem_cons_self).lt
      omega
    have hlow := (regionOperatorDo_ok wanted _ _ hx.toBandsOk hy.toBandsOk.tail hxs
      (pairwise_cons.1 hy.sorted).1).2
    rw [forall_mem_append]
    constructor
    · split_ifs with hw
      · rw [forall_mem_singleton, lineSpans_first le_rfl hlt, lineSpans_above (by omega), sweepSpans_nil_left,
          if_pos hw]
      · simp
    · intro b hb
      have hle := hlow b hb
      rw [ih hx hy.tail b hb, @lineSpans_below _ ys _ (by omega) hle]
  | case8 b1 xs b2 ys h1 h2 before ytop ybot spans ih1 ih2 ih3 =>
    have hlt1 := (hx.band b1 mem_cons_self).lt
    have hlt2 := (hy.band b2 mem_cons_self).lt
    have hytop : ytop = max b1.ytop b2.ytop := rfl
    have hybot : ybot = min b1.ybot b2.ybot := by
      simp only [ybot]
      split_ifs <;> omega
    have hspans : spans = sweepSpans wanted b1.spans b2.spans := rfl
    have hbefore : before = if b1.ytop < b2.ytop then if wanted.region1 then [{ b1 with ybot := b2.ytop }] else []
        else if b2.ytop < b1.ytop then if wanted.region2 then [{ b2 with ybot := b1.ytop }] else [] else [] := rfl
    clear_value before ytop ybot spans
    have hle1 : ∀ b ∈ xs, ybot ≤ b.ytop := fun b hb => by
      have hle := (pairwise_cons.1 hx.sorted).1 b hb
      omega
    have hle2 : ∀ b ∈ ys, ybot ≤ b.ytop := fun b hb => by
      have hle := (pairwise_cons.1 hy.sorted).1 b hb
      omega
    rw [forall_mem_append, forall_mem_append]
    refine ⟨⟨?_, ?_⟩, ?_⟩
    · rw [hbefore]
      split_ifs with hcmp hw hcmp' hw'
      · rw [forall_mem_singleton, lineSpans_first le_rfl hlt1, lineSpans_above hcmp, sweepSpans_nil_right,
          if_pos hw]
      · simp
      · rw [forall_mem_singleton, lineSpans_first (b := b2) le_rfl hlt2, lineSpans_above hcmp',
          sweepSpans_nil_left, if_pos hw']
      · simp
      · simp
    · split_ifs
      · simp
      · rw [forall_mem_singleton, lineSpans_first (by simp only; omega) (by simp only; omega),
          lineSpans_first (by simp only; omega) (by simp only; omega), hspans]
    · -- from `ybot` on, what is left of an operand has the lines of the operand
      have hline : ∀ {b : Band} {bands : List Band} {y : ℤ}, b.ytop ≤ ybot → ybot ≤ y →
          lineSpans ({ b with ytop := ybot } :: bands) y = lineSpans (b :: bands) y := by
        intro b bands y hle hle'
        simp only [lineSpans, runsFindY, not_lt.2 hle', not_lt.2 (hle.trans hle'), if_false]
        split_ifs <;> rfl
      split_ifs with he hlt
      · intro b hb
        have hle := (regionOperatorDo_ok wanted _ _ hx.toBandsOk.tail hy.toBandsOk.tail hle1 hle2).2 b hb
        rw [ih1 hx.tail hy.tail b hb, lineSpans_below (by omega) (by omega), lineSpans_below (by omega) (by omega)]
      · have hcut := hy.cut (show b2.ytop ≤ ybot by omega) (by omega)
        intro b hb
        have hle : ybot ≤ b.ytop := (regionOperatorDo_ok wanted _ _ hx.toBandsOk.tail hcut.toBandsOk hle1
          (forall_mem_cons.2 ⟨le_rfl, hle2⟩)).2 b hb
        rw [ih2 hx.tail hcut b hb, hline (by omega) hle, lineSpans_below (b := b1) (by omega) (by omega)]
      · have hcut := hx.cut (show b1.ytop ≤ ybot by omega) (by omega)
        intro b hb
        have hle : ybot ≤ b.ytop := (regionOperatorDo_ok wanted _ _ hcut.toBandsOk hy.toBandsOk.tail
          (forall_mem_cons.2 ⟨le_rfl, hle1⟩) hle2).2 b hb
        rw [ih3 hcut hy.tail b hb, hline (b := b1) (by omega) hle, lineSpans_below (b := b2) (by omega) (by omega)]

/-! ## Bands -/

theorem mem_bandEnds_cons :
    y ∈ bandEnds (b :: bands) ↔ y = b.ytop ∨ y = b.ybot ∨ y ∈ bandEnds bands := by
  simp [bandEnds]

/-- The ends of the bands after the first one. -/
theorem BandsOk.ends_after (h : BandsOk (b :: bands)) (hy : y ∈ bandEnds bands) : b.ybot ≤ y := by
  simp only [bandEnds, mem_toFinset, mem_flatMap, mem_cons, not_mem_nil, or_false] at hy
  obtain ⟨c, hc, hy⟩ := hy
  have hle := (pairwise_cons.1 h.sorted).1 c hc
  have hlt := (h.tail.band c hc).lt
  omega

/-- Bands are cut at their own ends. -/
theorem BandsOk.cutFrom (h : BandsOk bands) {t : ℤ} (ht : ∀ b ∈ bands, t ≤ b.ytop) :
    CutFrom Band.ytop Band.ybot (bandEnds bands) t bands := by
  induction bands generalizing t with
  | nil => exact .nil t
  | cons b bands ih =>
    have hlt := (h.band b mem_cons_self).lt
    refine .cons (ht b mem_cons_self) (mem_bandEnds_cons.2 (.inl rfl)) hlt ?_ ?_
    · rintro y hy ⟨h1, h2⟩
      rcases mem_bandEnds_cons.1 hy with rfl | rfl | hy
      · exact lt_irrefl _ h1
      · exact lt_irrefl _ h2
      · exact absurd (h.ends_after hy) (not_le.2 h2)
    · refine (ih h.tail (pairwise_cons.1 h.sorted).1).weaken ?_ ?_
      · exact fun y hy => mem_bandEnds_cons.2 (.inr (.inr hy))
      · intro y hy
        rcases mem_bandEnds_cons.1 hy with rfl | rfl | hy
        · exact .inr hlt.le
        · exact .inr le_rfl
        · exact .inl hy

/-- **The merge of two run lists** is cut at the ends of their bands only. -/
theorem regionOperatorDo_cut (wanted : Wanted) (hx : SweptBands xs) (hy : SweptBands ys) {t : ℤ}
    (htx : ∀ b ∈ xs, t ≤ b.ytop) (hty : ∀ b ∈ ys, t ≤ b.ytop) :
    CutFrom Band.ytop Band.ybot (bandEnds xs ∪ bandEnds ys) t (regionOperatorDo wanted xs ys) := by
  fun_induction regionOperatorDo wanted xs ys generalizing t with
  | case1 => exact .nil t
  | case2 ys hne hw => simpa [bandEnds] using hy.toBandsOk.cutFrom hty
  | case3 ys hne hw => exact .nil t
  | case4 xs hne hw => simpa [bandEnds] using hx.toBandsOk.cutFrom htx
  | case5 xs hne hw => exact .nil t
  | case6 b1 xs b2 ys h ih =>
    have hlt := (hx.band b1 mem_cons_self).lt
    have hlt2 := (hy.band b2 mem_cons_self).lt
    have ht := htx b1 mem_cons_self
    have hys : ∀ b ∈ b2 :: ys, b1.ybot ≤ b.ytop := by
      refine forall_mem_cons.2 ⟨h, fun b hb => ?_⟩
      have hle := (pairwise_cons.1 hy.sorted).1 b hb
      omega
    have hrest := ih hx.tail hy (pairwise_cons.1 hx.sorted).1 hys
    have hends : ∀ y ∈ bandEnds (b1 :: xs) ∪ bandEnds (b2 :: ys),
        y = b1.ytop ∨ b1.ybot ≤ y ∧ (y = b1.ybot ∨ y ∈ bandEnds xs ∪ bandEnds (b2 :: ys)) := by
      intro y hmem
      simp only [Finset.mem_union, mem_bandEnds_cons] at hmem ⊢
      have hafter := fun h => hx.toBandsOk.ends_after (y := y) h
      have hafter2 := fun h => hy.toBandsOk.ends_after (y := y) h
      grind
    refine hrest.skip ht hlt ?_ (Finset.union_subset_union_left fun y hmem => ?_) hends
    · simp [mem_bandEnds_cons]
    · exact mem_bandEnds_cons.2 (.inr (.inr hmem))
  | case7 b1 xs b2 ys h1 h2 ih =>
    have hlt := (hy.band b2 mem_cons_self).lt
    have hlt1 := (hx.band b1 mem_cons_self).lt
    have ht := hty b2 mem_cons_self
    have hxs : ∀ b ∈ b1 :: xs, b2.ybot ≤ b.ytop := by
      refine forall_mem_cons.2 ⟨h2, fun b hb => ?_⟩
      have hle := (pairwise_cons.1 hx.sorted).1 b hb
      omega
    have hrest := ih hx hy.tail hxs (pairwise_cons.1 hy.sorted).1
    have hends : ∀ y ∈ bandEnds (b1 :: xs) ∪ bandEnds (b2 :: ys),
        y = b2.ytop ∨ b2.ybot ≤ y ∧ (y = b2.ybot ∨ y ∈ bandEnds (b1 :: xs) ∪ bandEnds ys) := by
      intro y hmem
      simp only [Finset.mem_union, mem_bandEnds_cons] at hmem ⊢
      have hafter := fun h => hx.toBandsOk.ends_after (y := y) h
      have hafter2 := fun h => hy.toBandsOk.ends_after (y := y) h
      grind
    refine hrest.skip ht hlt ?_ (Finset.union_subset_union_right fun y hmem => ?_) hends
    · simp [mem_bandEnds_cons]
    · exact mem_bandEnds_cons.2 (.inr (.inr hmem))
  | case8 b1 xs b2 ys h1 h2 before ytop ybot spans ih1 ih2 =>
    rename_i ih3
    have hlt1 := (hx.band b1 mem_cons_self).lt
    have hlt2 := (hy.band b2 mem_cons_self).lt
    have ht1 := htx b1 mem_cons_self
    have ht2 := hty b2 mem_cons_self
    have hytop : ytop = max b1.ytop b2.ytop := rfl
    have hybot : ybot = min b1.ybot b2.ybot := by
      simp only [ybot]
      split_ifs <;> omega
    have hbefore : before = if b1.ytop < b2.ytop then if wanted.region1 then [{ b1 with ybot := b2.ytop }] else []
        else if b2.ytop < b1.ytop then if wanted.region2 then [{ b2 with ybot := b1.ytop }] else [] else [] := rfl
    clear_value before ytop ybot spans
    have hxs : ∀ b ∈ xs, ybot ≤ b.ytop := fun b hb => by
      have hle := (pairwise_cons.1 hx.sorted).1 b hb
      omega
    have hys : ∀ b ∈ ys, ybot ≤ b.ytop := fun b hb => by
      have hle := (pairwise_cons.1 hy.sorted).1 b hb
      omega
    -- an end of the operands is a top of the two bands, or it is at `ybot` or behind it
    have hends : ∀ y ∈ bandEnds (b1 :: xs) ∪ bandEnds (b2 :: ys), y = b1.ytop ∨ y = b2.ytop ∨ ybot ≤ y := by
      intro y hmem
      simp only [Finset.mem_union, mem_bandEnds_cons] at hmem
      have hafter := fun h => hx.toBandsOk.ends_after (y := y) h
      have hafter2 := fun h => hy.toBandsOk.ends_after (y := y) h
      grind
    have hrest : CutFrom Band.ytop Band.ybot (bandEnds (b1 :: xs) ∪ bandEnds (b2 :: ys)) ybot
        (if b1.ybot = b2.ybot then regionOperatorDo wanted xs ys
        else if b1.ybot < b2.ybot then regionOperatorDo wanted xs ({ b2 with ytop := ybot } :: ys)
        else regionOperatorDo wanted ({ b1 with ytop := ybot } :: xs) ys) := by
      split_ifs with he hlt
      · refine (ih1 hx.tail hy.tail hxs hys).weaken ?_ ?_
        · intro y hmem
          simp only [Finset.mem_union, mem_bandEnds_cons] at hmem ⊢
          grind
        · intro y hmem
          simp only [Finset.mem_union, mem_bandEnds_cons] at hmem ⊢
          grind
      · refine (ih2 hx.tail (hy.cut (by omega) (by omega)) hxs (forall_mem_cons.2 ⟨le_rfl, hys⟩)).weaken ?_ ?_
        · intro y hmem
          simp only [Finset.mem_union, mem_bandEnds_cons] at hmem ⊢
          grind
        · intro y hmem
          simp only [Finset.mem_union, mem_bandEnds_cons] at hmem ⊢
          grind
      · refine (ih3 (hx.cut (by omega) (by omega)) hy.tail (forall_mem_cons.2 ⟨le_rfl, hxs⟩) hys).weaken ?_ ?_
        · intro y hmem
          simp only [Finset.mem_union, mem_bandEnds_cons] at hmem ⊢
          grind
        · intro y hmem
          simp only [Finset.mem_union, mem_bandEnds_cons] at hmem ⊢
          grind
    have hcommon := CutFrom.before (c := ¬ spans = []) (i := ⟨ytop, ybot, spans⟩) hrest (by omega : ytop ≤ ybot)
      ⟨le_rfl, by simp only; omega, le_rfl⟩ (by simp only [Finset.mem_union, mem_bandEnds_cons]; grind)
      fun y hmem => by grind
    rw [append_assoc, hbefore]
    rw [ite_not] at hcommon
    generalize (if spans = [] then [] else [(⟨ytop, ybot, spans⟩ : Band)]) ++ _ = common at hcommon ⊢
    rcases lt_trichotomy b1.ytop b2.ytop with hcmp | hcmp | hcmp
    · rw [if_pos hcmp]
      exact CutFrom.before hcommon (by omega) ⟨ht1, hcmp, by simp only; omega⟩ (by simp [mem_bandEnds_cons])
        fun y hmem => by grind
    · rw [if_neg (by omega), if_neg (by omega)]
      exact hcommon.mono (by omega)
    · rw [if_neg (by omega), if_pos hcmp]
      exact CutFrom.before hcommon (by omega) ⟨ht2, hcmp, by simp only; omega⟩ (by simp [mem_bandEnds_cons])
        fun y hmem => by grind

/-! ## Cells -/

/-- A line of both operands, from the end of the bands `out` on. -/
def EndsBefore (out runs1 runs2 : List Band) (y : ℤ) : Prop :=
  InLine runs1 y ∧ InLine runs2 y ∧ ∀ b ∈ out, b.ybot ≤ y

theorem not_inLine_nil (y : ℤ) : ¬ InLine [] y := by
  rintro ⟨b, hb, -⟩
  exact not_mem_nil hb

theorem inLine_cons :
    InLine (b :: bands) y ↔ (b.ytop ≤ y ∧ y < b.ybot) ∨ InLine bands y := by
  unfold InLine
  rw [exists_mem_cons_iff]

theorem BandsOk.inLine_after (h : BandsOk (b :: bands)) (hin : InLine bands y) :
    b.ybot ≤ y := by
  obtain ⟨c, hc, hle, -⟩ := hin
  exact ((pairwise_cons.1 h.sorted).1 c hc).trans hle

theorem sum_map_ite {c : Prop} [Decidable c] (b : Band) :
    ((if c then [b] else []).map Band.cells).sum = if c then b.cells else 0 := by
  split_ifs <;> simp

theorem BandsOk.inLine_first (h : BandsOk (b :: bands)) (hin : InLine (b :: bands) y) : b.ytop ≤ y := by
  rcases inLine_cons.1 hin with hin | hin
  · exact hin.1
  · exact (h.band b mem_cons_self).lt.le.trans (h.inLine_after hin)

/-- The first band of an operand is above the other operand. -/
theorem endsBefore_skip (out : List Band) (hx : BandsOk (b :: xs)) (hys : ∀ y, InLine ys y → b.ybot ≤ y)
    (c : Prop) [Decidable c] (y : ℤ) :
    EndsBefore ((if c then [b] else []) ++ out) (b :: xs) ys y ↔ EndsBefore out xs ys y := by
  unfold EndsBefore
  rw [forall_mem_append, inLine_cons]
  constructor
  · rintro ⟨hin | hin, hin2, -, hout⟩
    · exact absurd (hys y hin2) (by omega)
    · exact ⟨hin, hin2, hout⟩
  · rintro ⟨hin, hin2, hout⟩
    refine ⟨.inr hin, hin2, ?_, hout⟩
    exact forall_mem_ite (hx.inLine_after hin)

theorem endsBefore_swap (xs ys out : List Band) (y : ℤ) : EndsBefore out xs ys y ↔ EndsBefore out ys xs y := by
  unfold EndsBefore
  exact ⟨fun ⟨h1, h2, h3⟩ => ⟨h2, h1, h3⟩, fun ⟨h1, h2, h3⟩ => ⟨h2, h1, h3⟩⟩

/-- What is left of an operand has its lines from `ytop` on. -/
theorem inLine_cut {ytop y : ℤ} (hle : b.ytop ≤ ytop) (h : BandsOk ({ b with ytop := ytop } :: bands)) :
    InLine ({ b with ytop := ytop } :: bands) y ↔ ytop ≤ y ∧ InLine (b :: bands) y := by
  have hfirst := h.inLine_first (y := y)
  rw [inLine_cons] at hfirst ⊢
  rw [inLine_cons]
  simp only at hfirst ⊢
  constructor
  · intro hin
    exact ⟨hfirst hin, hin.imp_left fun h => ⟨hle.trans h.1, h.2⟩⟩
  · rintro ⟨hle', hin⟩
    exact hin.imp_left fun h => ⟨hle', h.2⟩

/-- What is left of an operand after its first band has the lines from its bottom on. -/
theorem inLine_drop (h : BandsOk (b :: bands)) :
    InLine bands y ↔ b.ybot ≤ y ∧ InLine (b :: bands) y := by
  rw [inLine_cons]
  constructor
  · intro hin
    exact ⟨h.inLine_after hin, .inr hin⟩
  · rintro ⟨hle, hin | hin⟩
    · exact absurd hin.2 (not_lt.2 hle)
    · exact hin

theorem endsBefore_rest {xs xs' ys ys' : List Band} {ytop : ℤ} (hx : ∀ y, InLine xs' y ↔ ytop ≤ y ∧ InLine xs y)
    (hy : ∀ y, InLine ys' y ↔ ytop ≤ y ∧ InLine ys y) (out : List Band) (y : ℤ) :
    EndsBefore out xs' ys' y ↔ ytop ≤ y ∧ EndsBefore out xs ys y := by
  unfold EndsBefore
  rw [hx, hy]
  tauto

/-- With a common band, the cells of what comes before it, of the band, and of the rest. -/
theorem cells_common {before rest out1 out2 : List Band} {ytop ybot : ℤ} {cells n : ℕ}
    (hlt : ytop < ybot) (hin1 : InLine out1 ytop) (hin2 : InLine out2 ytop)
    (hbefore : (before.map Band.cells).sum = n ∧ ∀ b ∈ before, b.ybot ≤ ytop)
    (hlow : ∀ b ∈ rest, ybot < b.ybot) (p q : Prop) [Decidable p] [Decidable q]
    (hp : p ↔ ∃ y, ybot ≤ y ∧ EndsBefore rest out1 out2 y)
    (hq : q ↔ ∃ y, EndsBefore (before ++ (if spans = [] then [] else [⟨ytop, ybot, spans⟩]) ++ rest) out1 out2 y)
    (hcells : cells = (rest.map Band.cells).sum + 1 + if p then 1 else 0) :
    (n + if spans = [] then max 2 cells else 2 + (2 * spans.length + 1) + cells) =
      ((before ++ (if spans = [] then [] else [(⟨ytop, ybot, spans⟩ : Band)]) ++ rest).map Band.cells).sum + 1 +
        if q then 1 else 0 := by
  obtain ⟨hn, hbot⟩ := hbefore
  have hq' : q ↔ p ∨ (spans = [] ∧ rest = []) := by
    rw [hq, hp]
    simp only [EndsBefore, forall_mem_append]
    constructor
    · rintro ⟨y, h1, h2, ⟨-, hc⟩, hr⟩
      by_cases hnil : spans = []
      · cases rest with
        | nil => exact .inr ⟨hnil, rfl⟩
        | cons b rest =>
          have hb := hr b mem_cons_self
          have hb2 := hlow b mem_cons_self
          exact .inl ⟨y, by omega, h1, h2, hr⟩
      · rw [if_neg hnil, forall_mem_singleton] at hc
        exact .inl ⟨y, hc, h1, h2, hr⟩
    · rintro (⟨y, hle, h1, h2, hr⟩ | ⟨hnil, rfl⟩)
      · refine ⟨y, h1, h2, ⟨fun b hb => (hbot b hb).trans (by omega), ?_⟩, hr⟩
        split_ifs
        · simp
        · simpa using hle
      · exact ⟨ytop, hin1, hin2, ⟨hbot, by simp [hnil]⟩, by simp⟩
  simp only [hq', map_append, List.sum_append, hn]
  by_cases hnil : spans = []
  · rw [if_pos hnil, if_pos hnil]
    cases rest with
    | nil =>
      simp only [hnil, and_self, or_true, if_true]
      rw [hcells]
      split_ifs <;> simp
    | cons b rest =>
      have hpos : 3 ≤ ((b :: rest).map Band.cells).sum := by
        simp only [map_cons, sum_cons, Band.cells]
        omega
      simp only [reduceCtorEq, and_false, or_false, map_nil, sum_nil]
      omega
  · rw [if_neg hnil, if_neg hnil, hcells]
    simp only [hnil, false_and, or_false, map_cons, map_nil, sum_singleton, Band.cells]
    omega

open Classical in
/-- **The cells that the sweep writes**: those of the bands it emits and the last sentinel, and one more if the
last common bands leave nothing. -/
theorem regionOperatorCells_eq (wanted : Wanted) (hx : SweptBands xs) (hy : SweptBands ys) :
    regionOperatorCells wanted xs ys = ((regionOperatorDo wanted xs ys).map Band.cells).sum + 1 +
      if ∃ y, EndsBefore (regionOperatorDo wanted xs ys) xs ys y then 1 else 0 := by
  have hnil : ∀ out ys, ¬ ∃ y, EndsBefore out [] ys y := fun out ys ⟨y, h, _⟩ => not_inLine_nil y h
  have hnil2 : ∀ out xs, ¬ ∃ y, EndsBefore out xs [] y := fun out xs ⟨y, _, h, _⟩ => not_inLine_nil y h
  fun_induction regionOperatorDo wanted xs ys with
  | case1 => simp [regionOperatorCells, hnil]
  | case2 ys hne hw => simp [regionOperatorCells, hnil, hw]
  | case3 ys hne hw => simp [regionOperatorCells, hnil, hw]
  | case4 xs hne hw => simp [regionOperatorCells, hnil2, hw]
  | case5 xs hne hw => simp [regionOperatorCells, hnil2, hw]
  | case6 b1 xs b2 ys h ih =>
    have hskip := endsBefore_skip (regionOperatorDo wanted xs (b2 :: ys)) hx.toBandsOk
      (fun y hin => h.trans (hy.toBandsOk.inLine_first hin)) (wanted.region1 = true)
    rw [regionOperatorCells, if_pos h, ih hx.tail hy, map_append, List.sum_append, sum_map_ite]
    simp only [hskip]
    omega
  | case7 b1 xs b2 ys h1 h2 ih =>
    have hskip := endsBefore_skip (regionOperatorDo wanted (b1 :: xs) ys) hy.toBandsOk
      (fun y hin => h2.trans (hx.toBandsOk.inLine_first hin)) (wanted.region2 = true)
    rw [regionOperatorCells, if_neg h1, if_pos h2, ih hx hy.tail, map_append, List.sum_append, sum_map_ite]
    simp only [endsBefore_swap (b1 :: xs), hskip]
    omega
  | case8 b1 xs b2 ys h1 h2 before ytop ybot spans ih1 ih2 =>
    rename_i ih3
    have hb1 := hx.band b1 mem_cons_self
    have hb2 := hy.band b2 mem_cons_self
    have hlt1 := hb1.lt
    have hlt2 := hb2.lt
    have hytop : ytop = max b1.ytop b2.ytop := rfl
    have hybot : ybot = min b1.ybot b2.ybot := by
      simp only [ybot]
      split_ifs <;> omega
    have hbot : ybot = if b1.ybot ≤ b2.ybot then b1.ybot else b2.ybot := rfl
    have hspans : spans = sweepSpans wanted b1.spans b2.spans := rfl
    have hbefore : before = if b1.ytop < b2.ytop then if wanted.region1 then [{ b1 with ybot := b2.ytop }] else []
        else if b2.ytop < b1.ytop then if wanted.region2 then [{ b2 with ybot := b1.ytop }] else [] else [] := rfl
    clear_value before ytop ybot spans
    have hxs : ∀ b ∈ xs, ybot ≤ b.ytop := fun b hb => by
      have hle := (pairwise_cons.1 hx.sorted).1 b hb
      omega
    have hys : ∀ b ∈ ys, ybot ≤ b.ytop := fun b hb => by
      have hle := (pairwise_cons.1 hy.sorted).1 b hb
      omega
    -- the rest of the sweep works on the lines of the operands from `ybot` on
    obtain ⟨rest, hrest⟩ : ∃ rest, rest = if b1.ybot = b2.ybot then regionOperatorDo wanted xs ys
      else if b1.ybot < b2.ybot then regionOperatorDo wanted xs ({ b2 with ytop := ybot } :: ys)
      else regionOperatorDo wanted ({ b1 with ytop := ybot } :: xs) ys := ⟨_, rfl⟩
    have hafter : ∀ {xs' ys' : List Band}, SweptBands xs' → SweptBands ys' → (∀ b ∈ xs', ybot ≤ b.ytop) →
        (∀ b ∈ ys', ybot ≤ b.ytop) → ∀ b ∈ regionOperatorDo wanted xs' ys', ybot < b.ybot := by
      intro xs' ys' hx' hy' hlx hly b hb
      obtain ⟨hok, hlow⟩ := regionOperatorDo_ok wanted xs' ys' hx'.toBandsOk hy'.toBandsOk hlx hly
      exact (hlow b hb).trans_lt (hok.band b hb).lt
    obtain ⟨hcells, hlow⟩ : (if b1.ybot = b2.ybot then regionOperatorCells wanted xs ys
        else if b1.ybot < b2.ybot then regionOperatorCells wanted xs ({ b2 with ytop := ybot } :: ys)
        else regionOperatorCells wanted ({ b1 with ytop := ybot } :: xs) ys) = (rest.map Band.cells).sum + 1 +
          (if ∃ y, ybot ≤ y ∧ EndsBefore rest (b1 :: xs) (b2 :: ys) y then 1 else 0) ∧ ∀ b ∈ rest, ybot < b.ybot := by
      rcases lt_trichotomy b1.ybot b2.ybot with hcmp | hcmp | hcmp
      · obtain rfl : ybot = b1.ybot := by omega
        have hcut := hy.cut (show b2.ytop ≤ b1.ybot by omega) hcmp
        rw [if_neg hcmp.ne, if_pos hcmp] at hrest ⊢
        subst hrest
        refine ⟨?_, hafter hx.tail hcut hxs (forall_mem_cons.2 ⟨le_rfl, hys⟩)⟩
        rw [ih2 hx.tail hcut]
        simp only [endsBefore_rest (fun y => inLine_drop hx.toBandsOk)
          fun y => inLine_cut (show b2.ytop ≤ b1.ybot by omega) hcut.toBandsOk]
      · obtain rfl : ybot = b1.ybot := by omega
        rw [if_pos hcmp] at hrest ⊢
        subst hrest
        refine ⟨?_, hafter hx.tail hy.tail hxs hys⟩
        rw [ih1 hx.tail hy.tail]
        simp only [endsBefore_rest (fun y => inLine_drop hx.toBandsOk) fun y => hcmp ▸ inLine_drop hy.toBandsOk]
      · obtain rfl : ybot = b2.ybot := by omega
        have hcut := hx.cut (show b1.ytop ≤ b2.ybot by omega) hcmp
        rw [if_neg hcmp.ne', if_neg hcmp.not_gt] at hrest ⊢
        subst hrest
        refine ⟨?_, hafter hcut hy.tail (forall_mem_cons.2 ⟨le_rfl, hxs⟩) hys⟩
        rw [ih3 hcut hy.tail]
        simp only [endsBefore_rest (fun y => inLine_cut (show b1.ytop ≤ b2.ybot by omega) hcut.toBandsOk)
          fun y => inLine_drop hy.toBandsOk]
    have hn : (before.map Band.cells).sum = (if b1.ytop < b2.ytop then if wanted.region1 then b1.cells else 0
        else if b2.ytop < b1.ytop then if wanted.region2 then b2.cells else 0 else 0) ∧
        ∀ b ∈ before, b.ybot ≤ ytop := by
      rw [hbefore]
      split_ifs with hcmp hw hcmp' hw'
      · simp only [map_singleton, sum_singleton, forall_mem_singleton]
        exact ⟨rfl, by omega⟩
      · simp
      · simp only [map_singleton, sum_singleton, forall_mem_singleton]
        exact ⟨rfl, by omega⟩
      · simp
      · simp
    rw [regionOperatorCells, if_neg h1, if_neg h2]
    simp only [← hbot, ← hspans]
    rw [← hrest]
    refine cells_common (by omega) ?_ ?_ hn hlow _ _ Iff.rfl Iff.rfl hcells
    · exact inLine_cons.2 (.inl ⟨by omega, by omega⟩)
    · exact inLine_cons.2 (.inl ⟨by omega, by omega⟩)

/-- A band of the result that reaches beyond the line `y` is a wanted pixel there or below. -/
theorem endsBefore_iff (wanted : Wanted) (hx : SweptBands xs) (hy : SweptBands ys) :
    (∃ y, EndsBefore (regionOperatorDo wanted xs ys) xs ys y) ↔ EndsUnwanted wanted xs ys := by
  have hbands : ∀ b ∈ regionOperatorDo wanted xs ys, BandOk b := by
    exact (regionOperatorDo_ok wanted xs ys hx.toBandsOk hy.toBandsOk (fun b hb => (hx.band b hb).top)
      fun b hb => (hy.band b hb).top).1.band
  refine exists_congr fun y => and_congr_right fun _ => and_congr_right fun _ => ?_
  constructor
  · intro hout x y' hle hsel
    obtain ⟨b, hb, -, hlt, -⟩ := (regionOperatorDo_covers wanted hx hy x y').2 hsel
    have hbot := hout b hb
    omega
  · intro hsel b hb
    by_contra hlt
    obtain ⟨-, htop, -, hne, hspans⟩ := hbands b hb
    obtain ⟨s, hs⟩ := exists_mem_of_ne_nil _ hne
    refine hsel s.1 (b.ybot - 1) (by omega) ((regionOperatorDo_covers wanted hx hy _ _).1 ?_)
    exact ⟨b, hb, by omega, by omega, s, hs, le_rfl, (hspans s hs).2.1⟩

/-- **The cells are counted** by lines and columns of the operands. -/
theorem regionOperatorCells_wanted (wanted : Wanted) (hx : SweptBands xs) (hy : SweptBands ys) :
    regionOperatorCells wanted xs ys = wantedCells wanted xs ys := by
  classical
  have hok := (regionOperatorDo_ok wanted xs ys hx.toBandsOk hy.toBandsOk (fun b hb => (hx.band b hb).top)
    fun b hb => (hy.band b hb).top).1
  have hcut := regionOperatorDo_cut wanted hx hy (fun b hb => (hx.band b hb).top) fun b hb => (hy.band b hb).top
  have hpieces : ∀ b ∈ regionOperatorDo wanted xs ys, b.spans.length = (linePieces wanted xs ys b.ytop).card := by
    intro b hb
    rw [regionOperatorDo_line wanted hx hy b hb,
      sweepSpans_length wanted (lineSpans_increasing hx _) (lineSpans_increasing hy _), linePieces]
  have hcov : ∀ y ∈ bandEnds xs ∪ bandEnds ys, (linePieces wanted xs ys y).Nonempty ↔
      ∃ b ∈ regionOperatorDo wanted xs ys, b.ytop ≤ y ∧ y < b.ybot := by
    intro y hmem
    constructor
    · rintro ⟨x, hx'⟩
      have hsel := (Finset.mem_filter.1 hx').2
      rw [inSpans_lineSpans hx.toBandsOk, inSpans_lineSpans hy.toBandsOk] at hsel
      obtain ⟨b, hb, h1, h2, -⟩ := (regionOperatorDo_covers wanted hx hy x y).2 hsel
      exact ⟨b, hb, h1, h2⟩
    · intro hin
      -- the band starts on this line, and it has a span
      obtain ⟨b, hb, rfl⟩ := (hcut.mem_iff hmem).1 hin
      rw [← Finset.card_pos, ← hpieces b hb]
      exact length_pos_of_ne_nil (hok.band b hb).ne
  have hsum : ((regionOperatorDo wanted xs ys).map Band.cells).sum =
      ∑ y ∈ wantedLines wanted xs ys, (2 * (linePieces wanted xs ys y).card + 3) := by
    rw [wantedLines, ← hcut.sum (fun y => (linePieces wanted xs ys y).Nonempty) hcov
      fun y => 2 * (linePieces wanted xs ys y).card + 3]
    congr 1
    refine map_congr_left fun b hb => ?_
    rw [Band.cells, hpieces b hb]
  rw [regionOperatorCells_eq wanted hx hy, hsum, wantedCells]
  exact congrArg _ (if_congr (endsBefore_iff wanted hx hy) rfl rfl)

/-- **When the buffer is large enough**: the result of `region_operator_do` has a band on each line where a band of an
operand starts or ends, and a span in each column where one starts or ends on that line, as far as there are wanted
pixels. -/
theorem regionOperatorDo_fits_iff (wanted : Wanted) {r1 r2 : SkinRegion} (h1 : WellFormed r1) (h2 : WellFormed r2) :
    regionOperatorCells wanted (operandRuns r1) (operandRuns r2) ≤ regionOperatorInit r1 r2 ↔
      wantedCells wanted (operandRuns r1) (operandRuns r2) ≤ 3 * max (runCount r1) (runCount r2) := by
  have hmax : regionOperatorInit r1 r2 = 3 * max (runCount r1) (runCount r2) := by
    unfold regionOperatorInit
    dsimp only
    split_ifs <;> omega
  rw [regionOperatorCells_wanted wanted h1.2.swept h2.2.swept, hmax]

/-- One band with two spans, and two bands that cut it in five. -/
def comb : SkinRegion := ⟨⟨0, 0, 3, 5⟩, .complex [⟨0, 5, [(0, 1), (2, 3)]⟩]⟩

def rungs : SkinRegion := ⟨⟨10, 1, 1, 3⟩, .complex [⟨1, 2, [(10, 11)]⟩, ⟨3, 4, [(10, 11)]⟩]⟩

theorem comb_wellFormed : WellFormed comb :=
  ⟨by decide, ⟨⟨by
    simp only [comb, operandRuns, forall_mem_singleton]
    exact ⟨by decide, by decide, by decide, by simp, by simp [SpanOk, RUN_MIN, RUN_MAX]⟩, by simp [comb, operandRuns]⟩,
    by simp [comb, operandRuns], by simp [comb, operandRuns]⟩⟩

theorem rungs_wellFormed : WellFormed rungs :=
  ⟨by decide, ⟨⟨by
    simp only [rungs, operandRuns, forall_mem_cons, not_mem_nil, false_imp_iff, implies_true, and_true]
    exact ⟨⟨by decide, by decide, by decide, by simp, by simp [SpanOk, RUN_MIN, RUN_MAX]⟩,
      ⟨by decide, by decide, by decide, by simp, by simp [SpanOk, RUN_MIN, RUN_MAX]⟩⟩, by simp [rungs, operandRuns]⟩,
    by simp [rungs, operandRuns], by simp [rungs, operandRuns]⟩⟩

/-- The union of the two takes 40 cells of 33. -/
theorem regionOperatorDo_overruns : WellFormed comb ∧ WellFormed rungs ∧
    regionOperatorInit comb rungs < regionOperatorCells ⟨true, true, true⟩ (operandRuns comb) (operandRuns rungs) :=
  ⟨comb_wellFormed, rungs_wellFormed, by decide +kernel⟩

theorem regionOperatorDo_fits_iff_comb :
    regionOperatorCells ⟨false, false, true⟩ (operandRuns comb) (operandRuns rungs) ≤ regionOperatorInit comb rungs ↔
      wantedCells ⟨false, false, true⟩ (operandRuns comb) (operandRuns rungs) ≤
        3 * max (runCount comb) (runCount rungs) :=
  regionOperatorDo_fits_iff _ comb_wellFormed rungs_wellFormed

end Emulator.Skin
