import Emulator.Skin.RegionInv
import Emulator.Lib.Cuts

/-!
# What the sweep computes

`region_operator_do` merges two run lists band by band and, where bands overlap, span by span.

* `sweepSpans_covers`: the merge of two scanlines, as a set of columns;
* `sweepSpans_cut`: it is cut only where a scanline has an end;
* `regionOperatorDo_exact`: the bands that are emitted are the wanted pixels.
-/

namespace Emulator.Skin

open Emulator.Lib List

/-- The spans of a scanline have the column `x`. -/
def InSpans (spans : List Span) (x : ℤ) : Prop := ∃ s ∈ spans, s.1 ≤ x ∧ x < s.2

/-- The bands have the pixel. -/
def InBands (bands : List Band) (x y : ℤ) : Prop := ∃ b ∈ bands, Covers b x y

/-- What the flags select of two sets. -/
def Wanted.Selects (wanted : Wanted) (in1 in2 : Prop) : Prop :=
  (wanted.region1 = true ∧ in1 ∧ ¬ in2) ∨ (wanted.region2 = true ∧ ¬ in1 ∧ in2) ∨ (wanted.both = true ∧ in1 ∧ in2)

/-- Spans one after the other, which may touch. -/
structure Increasing (spans : List Span) : Prop where
  lt : ∀ s ∈ spans, s.1 < s.2
  sorted : spans.Pairwise fun s t => s.2 ≤ t.1

/-- A run list of the documented grammar: `XRIGHT1 < XLEFT2` and `YBOTTOM1 <= YTOP2`. -/
structure RunList (bands : List Band) : Prop extends BandsOk bands where
  ne : bands ≠ []
  apart : ∀ b ∈ bands, b.spans.Pairwise fun s t => s.2 < t.1

/-- Increasing bands that are not empty, each with increasing spans. -/
structure SweptBands (bands : List Band) : Prop extends BandsOk bands where
  spans : ∀ b ∈ bands, Increasing b.spans

variable {bands : List Band}

theorem RunList.swept (h : RunList bands) : SweptBands bands :=
  ⟨h.toBandsOk, fun b hb => ⟨fun s hs => ((h.band b hb).spans s hs).2.1, (h.apart b hb).imp fun hlt => hlt.le⟩⟩

theorem not_inSpans_nil (x : ℤ) : ¬ InSpans [] x := by
  rintro ⟨s, hs, -⟩
  exact not_mem_nil hs

variable {spans : List Span} {s : Span}

theorem inSpans_cons {x : ℤ} :
    InSpans (s :: spans) x ↔ (s.1 ≤ x ∧ x < s.2) ∨ InSpans spans x := by
  unfold InSpans
  rw [exists_mem_cons_iff]

theorem inSpans_append {xs ys : List Span} {x : ℤ} : InSpans (xs ++ ys) x ↔ InSpans xs x ∨ InSpans ys x := by
  unfold InSpans
  constructor
  · rintro ⟨s, hs, hx⟩
    rcases mem_append.1 hs with hs | hs
    · exact .inl ⟨s, hs, hx⟩
    · exact .inr ⟨s, hs, hx⟩
  · rintro (⟨s, hs, hx⟩ | ⟨s, hs, hx⟩)
    · exact ⟨s, mem_append_left _ hs, hx⟩
    · exact ⟨s, mem_append_right _ hs, hx⟩

theorem inSpans_ite {c : Prop} [Decidable c] {x : ℤ} :
    InSpans (if c then [s] else []) x ↔ c ∧ s.1 ≤ x ∧ x < s.2 := by
  split_ifs with hc
  · simp [InSpans, hc]
  · simp [InSpans, hc]

theorem Increasing.tail (h : Increasing (s :: spans)) : Increasing spans :=
  ⟨fun t ht => h.lt t (mem_cons_of_mem _ ht), (pairwise_cons.1 h.sorted).2⟩

/-- The columns of the spans after the first one. -/
theorem Increasing.after (h : Increasing (s :: spans)) {x : ℤ} (hx : InSpans spans x) :
    s.2 ≤ x := by
  obtain ⟨t, ht, hle, -⟩ := hx
  exact ((pairwise_cons.1 h.sorted).1 t ht).trans hle

/-- Where the spans start. -/
theorem Increasing.exists_le (h : Increasing spans) : ∃ t, ∀ s ∈ spans, t ≤ s.1 := by
  cases spans with
  | nil => exact ⟨0, by simp⟩
  | cons s spans =>
    refine ⟨s.1, forall_mem_cons.2 ⟨le_rfl, fun u hu => ?_⟩⟩
    have hlt := h.lt s mem_cons_self
    have hsorted := (pairwise_cons.1 h.sorted).1 u hu
    omega

/-- The first span is cut on the left. -/
theorem Increasing.cut {l l' r : ℤ} (h : Increasing ((l, r) :: spans)) (hlt : l' < r) :
    Increasing ((l', r) :: spans) :=
  ⟨forall_mem_cons.2 ⟨hlt, h.tail.lt⟩, pairwise_cons.2 ⟨(pairwise_cons.1 h.sorted).1, h.tail.sorted⟩⟩

/-- **The merge of two scanlines** has the wanted columns. -/
theorem sweepSpans_covers (wanted : Wanted) {xs ys : List Span} (hx : Increasing xs) (hy : Increasing ys) (x : ℤ) :
    InSpans (sweepSpans wanted xs ys) x ↔ wanted.Selects (InSpans xs x) (InSpans ys x) := by
  unfold Wanted.Selects
  fun_induction sweepSpans wanted xs ys with
  | case1 => simp [not_inSpans_nil]
  | case2 ys hne hw => simp [not_inSpans_nil, hw]
  | case3 ys hne hw => simp [not_inSpans_nil, hw]
  | case4 xs hne hw => simp [not_inSpans_nil, hw]
  | case5 xs hne hw => simp [not_inSpans_nil, hw]
  | case6 l1 r1 xs l2 r2 ys h ih =>
    have hafter := hx.after (x := x)
    have hafter2 := hy.after (x := x)
    have hlt := hy.lt _ mem_cons_self
    rw [inSpans_append, inSpans_ite, ih hx.tail hy, inSpans_cons, inSpans_cons]
    dsimp only at *
    grind
  | case7 l1 r1 xs l2 r2 ys h1 h2 ih =>
    have hafter := hx.after (x := x)
    have hafter2 := hy.after (x := x)
    have hlt := hx.lt _ mem_cons_self
    rw [inSpans_append, inSpans_ite, ih hx hy.tail, inSpans_cons, inSpans_cons]
    dsimp only at *
    grind
  | case8 l1 r1 xs l2 r2 ys h1 h2 before l r ih1 ih2 ih3 =>
    have hlt1 : l1 < r1 := hx.lt _ mem_cons_self
    have hlt2 : l2 < r2 := hy.lt _ mem_cons_self
    have hl : l = max l1 l2 := rfl
    have hr : r = min r1 r2 := by
      simp only [r]
      split_ifs <;> omega
    have hbefore : InSpans before x ↔ (wanted.region1 = true ∧ l1 ≤ x ∧ x < l) ∨
      (wanted.region2 = true ∧ l2 ≤ x ∧ x < l) := by
      simp only [before]
      split_ifs with hcmp hw hcmp' hw' <;> simp [inSpans_cons, not_inSpans_nil] <;> grind
    clear_value before l r
    -- what is left of an operand are its columns from `r` on
    have hrest : InSpans (if r1 = r2 then sweepSpans wanted xs ys
        else if r1 < r2 then sweepSpans wanted xs ((r, r2) :: ys) else sweepSpans wanted ((r, r1) :: xs) ys) x ↔
        wanted.Selects ((r ≤ x ∧ x < r1) ∨ InSpans xs x) ((r ≤ x ∧ x < r2) ∨ InSpans ys x) := by
      unfold Wanted.Selects
      split_ifs with he hlt
      · have hnone1 : ¬ (r ≤ x ∧ x < r1) := by omega
        have hnone2 : ¬ (r ≤ x ∧ x < r2) := by omega
        rw [ih1 hx.tail hy.tail]
        simp only [hnone1, hnone2, false_or]
      · have hnone1 : ¬ (r ≤ x ∧ x < r1) := by omega
        rw [ih2 hx.tail (hy.cut (by omega)), inSpans_cons]
        simp only [hnone1, false_or]
      · have hnone2 : ¬ (r ≤ x ∧ x < r2) := by omega
        rw [ih3 (hx.cut (by omega)) hy.tail, inSpans_cons]
        simp only [hnone2, false_or]
    have hafter1 := hx.after (x := x)
    have hafter2 := hy.after (x := x)
    dsimp only at hafter1 hafter2
    unfold Wanted.Selects at hrest
    rw [inSpans_append, inSpans_append, hbefore, inSpans_ite, hrest, inSpans_cons, inSpans_cons]
    dsimp only
    clear ih1 ih2 ih3 hrest hbefore
    rcases lt_or_ge x r with hxr | hxr
    · -- in front of `r` there is the first span of an operand only
      have hno1 : ¬ InSpans xs x := fun hin => absurd (hafter1 hin) (by omega)
      have hno2 : ¬ InSpans ys x := fun hin => absurd (hafter2 hin) (by omega)
      have hin1 : x < r1 := by omega
      have hin2 : x < r2 := by omega
      have hbehind : ¬ r ≤ x := by omega
      simp only [hno1, hno2, hin1, hin2, hbehind, or_false, false_and, and_false, and_true, hxr]
      grind
    · have hle1 : l1 ≤ x := by omega
      have hle2 : l2 ≤ x := by omega
      have hnot : ¬ x < l := by omega
      have hnotr : ¬ x < r := by omega
      simp only [hle1, hle2, hnot, hnotr, hxr, and_false, false_or, true_and]

/-- The left and right ends of spans. -/
def spanEnds (spans : List Span) : Finset ℤ := (spans.flatMap fun s => [s.1, s.2]).toFinset

theorem mem_spanEnds_cons {s : Span} {x : ℤ} :
    x ∈ spanEnds (s :: spans) ↔ x = s.1 ∨ x = s.2 ∨ x ∈ spanEnds spans := by
  simp [spanEnds]

/-- The ends of the spans after the first one. -/
theorem Increasing.ends_after {s : Span} (h : Increasing (s :: spans)) {x : ℤ}
    (hx : x ∈ spanEnds spans) : s.2 ≤ x := by
  simp only [spanEnds, mem_toFinset, mem_flatMap, mem_cons, not_mem_nil, or_false] at hx
  obtain ⟨u, hu, hx⟩ := hx
  have hle := (pairwise_cons.1 h.sorted).1 u hu
  have hlt := h.tail.lt u hu
  omega

/-- Spans are cut at their own ends. -/
theorem Increasing.cutFrom (h : Increasing spans) {t : ℤ} (ht : ∀ s ∈ spans, t ≤ s.1) :
    CutFrom Prod.fst Prod.snd (spanEnds spans) t spans := by
  induction spans generalizing t with
  | nil => exact .nil t
  | cons s spans ih =>
    have hlt := h.lt s mem_cons_self
    refine .cons (ht s mem_cons_self) (mem_spanEnds_cons.2 (.inl rfl)) hlt ?_ ?_
    · rintro x hx ⟨h1, h2⟩
      rcases mem_spanEnds_cons.1 hx with rfl | rfl | hx
      · exact lt_irrefl _ h1
      · exact lt_irrefl _ h2
      · exact absurd (h.ends_after hx) (not_le.2 h2)
    · refine (ih h.tail (pairwise_cons.1 h.sorted).1).weaken ?_ ?_
      · exact fun x hx => mem_spanEnds_cons.2 (.inr (.inr hx))
      · intro x hx
        rcases mem_spanEnds_cons.1 hx with rfl | rfl | hx
        · exact .inr hlt.le
        · exact .inr le_rfl
        · exact .inl hx

/-- **The merge of two scanlines** is cut at the ends of their spans only. -/
theorem sweepSpans_cut (wanted : Wanted) {xs ys : List Span} (hx : Increasing xs) (hy : Increasing ys) {t : ℤ}
    (htx : ∀ s ∈ xs, t ≤ s.1) (hty : ∀ s ∈ ys, t ≤ s.1) :
    CutFrom Prod.fst Prod.snd (spanEnds xs ∪ spanEnds ys) t (sweepSpans wanted xs ys) := by
  fun_induction sweepSpans wanted xs ys generalizing t with
  | case1 => exact .nil t
  | case2 ys hne hw => simpa [spanEnds] using hy.cutFrom hty
  | case3 ys hne hw => exact .nil t
  | case4 xs hne hw => simpa [spanEnds] using hx.cutFrom htx
  | case5 xs hne hw => exact .nil t
  | case6 l1 r1 xs l2 r2 ys h ih =>
    have hlt : l1 < r1 := hx.lt _ mem_cons_self
    have hlt2 : l2 < r2 := hy.lt _ mem_cons_self
    have hl : t ≤ l1 := htx _ mem_cons_self
    have hys : ∀ s ∈ (l2, r2) :: ys, r1 ≤ s.1 := by
      refine forall_mem_cons.2 ⟨h, fun s hs => ?_⟩
      have hsorted : r2 ≤ s.1 := (pairwise_cons.1 hy.sorted).1 s hs
      omega
    have hrest := ih hx.tail hy (pairwise_cons.1 hx.sorted).1 hys
    have hends : ∀ x ∈ spanEnds ((l1, r1) :: xs) ∪ spanEnds ((l2, r2) :: ys),
        x = l1 ∨ r1 ≤ x ∧ (x = r1 ∨ x ∈ spanEnds xs ∪ spanEnds ((l2, r2) :: ys)) := by
      intro x hmem
      simp only [Finset.mem_union, mem_spanEnds_cons] at hmem ⊢
      have hafter := fun h => hx.ends_after (x := x) h
      have hafter2 := fun h => hy.ends_after (x := x) h
      grind
    refine hrest.skip hl hlt ?_ (Finset.union_subset_union_left fun x hmem => ?_) hends
    · simp [mem_spanEnds_cons]
    · exact mem_spanEnds_cons.2 (.inr (.inr hmem))
  | case7 l1 r1 xs l2 r2 ys h1 h2 ih =>
    have hlt : l2 < r2 := hy.lt _ mem_cons_self
    have hlt1 : l1 < r1 := hx.lt _ mem_cons_self
    have hl : t ≤ l2 := hty _ mem_cons_self
    have hxs : ∀ s ∈ (l1, r1) :: xs, r2 ≤ s.1 := by
      refine forall_mem_cons.2 ⟨h2, fun s hs => ?_⟩
      have hsorted : r1 ≤ s.1 := (pairwise_cons.1 hx.sorted).1 s hs
      omega
    have hrest := ih hx hy.tail hxs (pairwise_cons.1 hy.sorted).1
    have hends : ∀ x ∈ spanEnds ((l1, r1) :: xs) ∪ spanEnds ((l2, r2) :: ys),
        x = l2 ∨ r2 ≤ x ∧ (x = r2 ∨ x ∈ spanEnds ((l1, r1) :: xs) ∪ spanEnds ys) := by
      intro x hmem
      simp only [Finset.mem_union, mem_spanEnds_cons] at hmem ⊢
      have hafter := fun h => hx.ends_after (x := x) h
      have hafter2 := fun h => hy.ends_after (x := x) h
      grind
    refine hrest.skip hl hlt ?_ (Finset.union_subset_union_right fun x hmem => ?_) hends
    · simp [mem_spanEnds_cons]
    · exact mem_spanEnds_cons.2 (.inr (.inr hmem))
  | case8 l1 r1 xs l2 r2 ys h1 h2 before l r ih1 ih2 =>
    rename_i ih3
    have hlt1 : l1 < r1 := hx.lt _ mem_cons_self
    have hlt2 : l2 < r2 := hy.lt _ mem_cons_self
    have ht1 : t ≤ l1 := htx _ mem_cons_self
    have ht2 : t ≤ l2 := hty _ mem_cons_self
    have hl : l = max l1 l2 := rfl
    have hr : r = min r1 r2 := by
      simp only [r]
      split_ifs <;> omega
    have hbefore : before = if l1 < l2 then if wanted.region1 then [(l1, l2)] else []
        else if l2 < l1 then if wanted.region2 then [(l2, l1)] else [] else [] := rfl
    clear_value before l r
    have hxs : ∀ s ∈ xs, r ≤ s.1 := fun s hs => by
      have hsorted : r1 ≤ s.1 := (pairwise_cons.1 hx.sorted).1 s hs
      omega
    have hys : ∀ s ∈ ys, r ≤ s.1 := fun s hs => by
      have hsorted : r2 ≤ s.1 := (pairwise_cons.1 hy.sorted).1 s hs
      omega
    -- an end of the operands is a left end of the two spans, or it is at `r` or behind it
    have hends : ∀ x ∈ spanEnds ((l1, r1) :: xs) ∪ spanEnds ((l2, r2) :: ys), x = l1 ∨ x = l2 ∨ r ≤ x := by
      intro x hmem
      simp only [Finset.mem_union, mem_spanEnds_cons] at hmem
      have hafter := fun h => hx.ends_after (x := x) h
      have hafter2 := fun h => hy.ends_after (x := x) h
      grind
    have hrest : CutFrom Prod.fst Prod.snd (spanEnds ((l1, r1) :: xs) ∪ spanEnds ((l2, r2) :: ys)) r
        (if r1 = r2 then sweepSpans wanted xs ys
        else if r1 < r2 then sweepSpans wanted xs ((r, r2) :: ys) else sweepSpans wanted ((r, r1) :: xs) ys) := by
      split_ifs with he hlt
      · refine (ih1 hx.tail hy.tail hxs hys).weaken ?_ ?_
        · intro x hmem
          simp only [Finset.mem_union, mem_spanEnds_cons] at hmem ⊢
          grind
        · intro x hmem
          simp only [Finset.mem_union, mem_spanEnds_cons] at hmem ⊢
          grind
      · refine (ih2 hx.tail (hy.cut (by omega)) hxs (forall_mem_cons.2 ⟨le_rfl, hys⟩)).weaken ?_ ?_
        · intro x hmem
          simp only [Finset.mem_union, mem_spanEnds_cons] at hmem ⊢
          grind
        · intro x hmem
          simp only [Finset.mem_union, mem_spanEnds_cons] at hmem ⊢
          grind
      · refine (ih3 (hx.cut (by omega)) hy.tail (forall_mem_cons.2 ⟨le_rfl, hxs⟩) hys).weaken ?_ ?_
        · intro x hmem
          simp only [Finset.mem_union, mem_spanEnds_cons] at hmem ⊢
          grind
        · intro x hmem
          simp only [Finset.mem_union, mem_spanEnds_cons] at hmem ⊢
          grind
    have hcommon := CutFrom.before (c := wanted.both = true) (i := (l, r)) hrest (by omega : l ≤ r)
      ⟨le_rfl, by simp only; omega, le_rfl⟩
      (by simp only [Finset.mem_union, mem_spanEnds_cons]; grind) fun x hmem => by grind
    rw [append_assoc, hbefore]
    generalize (if wanted.both = true then [(l, r)] else []) ++ _ = common at hcommon ⊢
    rcases lt_trichotomy l1 l2 with hcmp | hcmp | hcmp
    · rw [if_pos hcmp]
      exact CutFrom.before hcommon (by omega) ⟨ht1, hcmp, by simp only; omega⟩ (by simp [mem_spanEnds_cons])
        fun x hmem => by grind
    · rw [if_neg (by omega), if_neg (by omega)]
      exact hcommon.mono (by omega)
    · rw [if_neg (by omega), if_pos hcmp]
      exact CutFrom.before hcommon (by omega) ⟨ht2, hcmp, by simp only; omega⟩ (by simp [mem_spanEnds_cons])
        fun x hmem => by grind

theorem exists_sweepSpans_cut (wanted : Wanted) {xs ys : List Span} (hx : Increasing xs) (hy : Increasing ys) :
    ∃ t, CutFrom Prod.fst Prod.snd (spanEnds xs ∪ spanEnds ys) t (sweepSpans wanted xs ys) := by
  obtain ⟨t1, ht1⟩ := hx.exists_le
  obtain ⟨t2, ht2⟩ := hy.exists_le
  exact ⟨_, sweepSpans_cut wanted hx hy (fun s hs => (min_le_left t1 t2).trans (ht1 s hs))
    fun s hs => (min_le_right t1 t2).trans (ht2 s hs)⟩

/-- The merge keeps the order. -/
theorem sweepSpans_increasing (wanted : Wanted) {xs ys : List Span} (hx : Increasing xs) (hy : Increasing ys) :
    Increasing (sweepSpans wanted xs ys) := by
  obtain ⟨t, hcut⟩ := exists_sweepSpans_cut wanted hx hy
  exact ⟨hcut.ordered.1, hcut.ordered.2⟩

/-- Each band emitted has the spans of an operand or the merge of two scanlines. -/
theorem regionOperatorDo_spans (wanted : Wanted) {xs ys : List Band} (hx : ∀ b ∈ xs, Increasing b.spans)
    (hy : ∀ b ∈ ys, Increasing b.spans) : ∀ b ∈ regionOperatorDo wanted xs ys, Increasing b.spans := by
  fun_induction regionOperatorDo wanted xs ys with
  | case1 => simp
  | case2 ys hne hw => exact hy
  | case3 ys hne hw => simp
  | case4 xs hne hw => exact hx
  | case5 xs hne hw => simp
  | case6 b1 xs b2 ys h ih =>
    rw [forall_mem_cons] at hx
    rw [forall_mem_append]
    exact ⟨forall_mem_ite hx.1, ih hx.2 hy⟩
  | case7 b1 xs b2 ys h1 h2 ih =>
    rw [forall_mem_cons] at hy
    rw [forall_mem_append]
    exact ⟨forall_mem_ite hy.1, ih hx hy.2⟩
  | case8 b1 xs b2 ys h1 h2 before ytop ybot spans ih1 ih2 =>
    rename_i ih3
    rw [forall_mem_cons] at hx hy
    have hswept : Increasing spans := sweepSpans_increasing wanted hx.1 hy.1
    rw [forall_mem_append, forall_mem_append]
    refine ⟨⟨?_, ?_⟩, ?_⟩
    · simp only [before, dite_eq_ite]
      split_ifs
      · simpa using hx.1
      · simp
      · simpa using hy.1
      · simp
      · simp
    · split_ifs
      · simp
      · simpa using hswept
    · split_ifs
      · exact ih1 hx.2 hy.2
      · exact ih2 hx.2 (forall_mem_cons.2 hy)
      · exact ih3 (forall_mem_cons.2 hx) hy.2

theorem not_inBands_nil (x y : ℤ) : ¬ InBands [] x y := by
  rintro ⟨b, hb, -⟩
  exact not_mem_nil hb

variable {b : Band}

theorem inBands_cons {x y : ℤ} :
    InBands (b :: bands) x y ↔ (b.ytop ≤ y ∧ y < b.ybot ∧ InSpans b.spans x) ∨ InBands bands x y := by
  unfold InBands
  rw [exists_mem_cons_iff]
  rfl

theorem inBands_append {xs ys : List Band} {x y : ℤ} : InBands (xs ++ ys) x y ↔ InBands xs x y ∨ InBands ys x y := by
  unfold InBands
  constructor
  · rintro ⟨b, hb, hc⟩
    rcases mem_append.1 hb with hb | hb
    · exact .inl ⟨b, hb, hc⟩
    · exact .inr ⟨b, hb, hc⟩
  · rintro (⟨b, hb, hc⟩ | ⟨b, hb, hc⟩)
    · exact ⟨b, mem_append_left _ hb, hc⟩
    · exact ⟨b, mem_append_right _ hb, hc⟩

theorem inBands_ite {c : Prop} [Decidable c] {x y : ℤ} :
    InBands (if c then [b] else []) x y ↔ c ∧ b.ytop ≤ y ∧ y < b.ybot ∧ InSpans b.spans x := by
  split_ifs with hc
  · rw [inBands_cons]
    simp [not_inBands_nil, hc]
  · simp [not_inBands_nil, hc]

theorem BandsOk.after (h : BandsOk (b :: bands)) {x y : ℤ} (hin : InBands bands x y) :
    b.ybot ≤ y := by
  obtain ⟨c, hc, htop, -⟩ := hin
  exact ((pairwise_cons.1 h.sorted).1 c hc).trans htop

theorem SweptBands.tail (h : SweptBands (b :: bands)) : SweptBands bands :=
  ⟨h.toBandsOk.tail, fun c hc => h.spans c (mem_cons_of_mem _ hc)⟩

/-- The first band is cut at the top. -/
theorem SweptBands.cut (h : SweptBands (b :: bands)) {ytop : ℤ} (hle : b.ytop ≤ ytop)
    (hlt : ytop < b.ybot) : SweptBands ({ b with ytop := ytop } :: bands) := by
  obtain ⟨htop, -, hbot, hne, hspans⟩ := h.band b mem_cons_self
  have hb : BandOk { b with ytop := ytop } := ⟨htop.trans hle, hlt, hbot, hne, hspans⟩
  exact ⟨h.toBandsOk.tail.cons hb (pairwise_cons.1 h.sorted).1,
    forall_mem_cons.2 ⟨h.spans b mem_cons_self, h.tail.spans⟩⟩

/-- **The merge of two run lists** has the wanted pixels. -/
theorem regionOperatorDo_covers (wanted : Wanted) {xs ys : List Band} (hx : SweptBands xs) (hy : SweptBands ys)
    (x y : ℤ) : InBands (regionOperatorDo wanted xs ys) x y ↔ wanted.Selects (InBands xs x y) (InBands ys x y) := by
  fun_induction regionOperatorDo wanted xs ys with
  | case1 => simp [Wanted.Selects, not_inBands_nil]
  | case2 ys hne hw => simp [Wanted.Selects, not_inBands_nil, hw]
  | case3 ys hne hw => simp [Wanted.Selects, not_inBands_nil, hw]
  | case4 xs hne hw => simp [Wanted.Selects, not_inBands_nil, hw]
  | case5 xs hne hw => simp [Wanted.Selects, not_inBands_nil, hw]
  | case6 b1 xs b2 ys h ih =>
    have hafter := hx.toBandsOk.after (x := x) (y := y)
    have hafter2 := hy.toBandsOk.after (x := x) (y := y)
    have hlt := (hy.band _ mem_cons_self).lt
    rw [inBands_append, inBands_ite, ih hx.tail hy, inBands_cons, inBands_cons]
    unfold Wanted.Selects
    clear ih
    grind
  | case7 b1 xs b2 ys h1 h2 ih =>
    have hafter := hx.toBandsOk.after (x := x) (y := y)
    have hafter2 := hy.toBandsOk.after (x := x) (y := y)
    have hlt := (hx.band _ mem_cons_self).lt
    rw [inBands_append, inBands_ite, ih hx hy.tail, inBands_cons, inBands_cons]
    unfold Wanted.Selects
    clear ih
    grind
  | case8 b1 xs b2 ys h1 h2 before ytop ybot spans ih1 ih2 ih3 =>
    have hlt1 := (hx.band _ mem_cons_self).lt
    have hlt2 := (hy.band _ mem_cons_self).lt
    have hytop : ytop = max b1.ytop b2.ytop := rfl
    have hybot : ybot = min b1.ybot b2.ybot := by
      simp only [ybot]
      split_ifs <;> omega
    have hspans : InSpans spans x ↔ wanted.Selects (InSpans b1.spans x) (InSpans b2.spans x) :=
      sweepSpans_covers wanted (hx.spans b1 mem_cons_self) (hy.spans b2 mem_cons_self) x
    have hbefore : InBands before x y ↔
        (wanted.region1 = true ∧ b1.ytop ≤ y ∧ y < ytop ∧ InSpans b1.spans x) ∨
          (wanted.region2 = true ∧ b2.ytop ≤ y ∧ y < ytop ∧ InSpans b2.spans x) := by
      simp only [before]
      split_ifs with hcmp hw hcmp' hw' <;> simp [inBands_cons, not_inBands_nil] <;> grind
    have hcommon : InBands (if spans = [] then [] else [(⟨ytop, ybot, spans⟩ : Band)]) x y ↔
        ytop ≤ y ∧ y < ybot ∧ InSpans spans x := by
      split_ifs with hnil
      · rw [hnil]
        simp [not_inBands_nil, not_inSpans_nil]
      · rw [inBands_cons]
        simp [not_inBands_nil]
    clear_value before ytop ybot spans
    -- what is left of an operand are its lines from `ybot` on
    have hrest : InBands (if b1.ybot = b2.ybot then regionOperatorDo wanted xs ys
        else if b1.ybot < b2.ybot then regionOperatorDo wanted xs ({ b2 with ytop := ybot } :: ys)
        else regionOperatorDo wanted ({ b1 with ytop := ybot } :: xs) ys) x y ↔
        wanted.Selects ((ybot ≤ y ∧ y < b1.ybot ∧ InSpans b1.spans x) ∨ InBands xs x y)
          ((ybot ≤ y ∧ y < b2.ybot ∧ InSpans b2.spans x) ∨ InBands ys x y) := by
      split_ifs with he hlt
      · have hnone1 : ¬ (ybot ≤ y ∧ y < b1.ybot ∧ InSpans b1.spans x) := fun hin => absurd hin.2.1 (by omega)
        have hnone2 : ¬ (ybot ≤ y ∧ y < b2.ybot ∧ InSpans b2.spans x) := fun hin => absurd hin.2.1 (by omega)
        rw [ih1 hx.tail hy.tail]
        simp only [hnone1, hnone2, false_or]
      · have hnone1 : ¬ (ybot ≤ y ∧ y < b1.ybot ∧ InSpans b1.spans x) := fun hin => absurd hin.2.1 (by omega)
        rw [ih2 hx.tail (hy.cut (by omega) (by omega)), inBands_cons]
        simp only [hnone1, false_or]
      · have hnone2 : ¬ (ybot ≤ y ∧ y < b2.ybot ∧ InSpans b2.spans x) := fun hin => absurd hin.2.1 (by omega)
        rw [ih3 (hx.cut (by omega) (by omega)) hy.tail, inBands_cons]
        simp only [hnone2, false_or]
    have hafter1 := hx.toBandsOk.after (x := x) (y := y)
    have hafter2 := hy.toBandsOk.after (x := x) (y := y)
    rw [inBands_append, inBands_append, hbefore, hcommon, hspans, hrest, inBands_cons, inBands_cons]
    clear ih1 ih2 ih3 hrest hbefore hcommon hspans
    unfold Wanted.Selects
    rcases lt_or_ge y ybot with hy' | hy'
    · -- above `ybot` there is the first band of an operand only
      have hno1 : ¬ InBands xs x y := fun hin => absurd (hafter1 hin) (by omega)
      have hno2 : ¬ InBands ys x y := fun hin => absurd (hafter2 hin) (by omega)
      have hin1 : y < b1.ybot := by omega
      have hin2 : y < b2.ybot := by omega
      have hbelow : ¬ ybot ≤ y := by omega
      simp only [hno1, hno2, hin1, hin2, hbelow, or_false, false_and, and_false, true_and, hy']
      grind
    · have hle1 : b1.ytop ≤ y := by omega
      have hle2 : b2.ytop ≤ y := by omega
      have hnot : ¬ y < ytop := by omega
      have hnoty : ¬ y < ybot := by omega
      simp only [hle1, hle2, hnot, hnoty, hy', and_false, false_and, false_or, true_and]

/-- **The region sweep computes exactly the wanted pixels**: it emits increasing bands that are not empty, each with
increasing spans, and their pixels are those that the flags select. -/
theorem regionOperatorDo_exact (wanted : Wanted) {runs1 runs2 : List Band} (h1 : RunList runs1) (h2 : RunList runs2) :
    SweptBands (regionOperatorDo wanted runs1 runs2) ∧
      ∀ x y, InBands (regionOperatorDo wanted runs1 runs2) x y ↔
        wanted.Selects (InBands runs1 x y) (InBands runs2 x y) := by
  have htop : ∀ {runs : List Band}, RunList runs → ∀ b ∈ runs, RUN_MIN ≤ b.ytop := fun h b hb => (h.band b hb).top
  refine ⟨⟨(regionOperatorDo_ok wanted runs1 runs2 h1.toBandsOk h2.toBandsOk (htop h1) (htop h2)).1, ?_⟩, ?_⟩
  · exact regionOperatorDo_spans wanted h1.swept.spans h2.swept.spans
  · exact regionOperatorDo_covers wanted h1.swept h2.swept

/-- Two rectangles that straddle. -/
theorem regionOperatorDo_exact_straddle :
    SweptBands (regionOperatorDo ⟨true, false, false⟩ [⟨0, 4, [(0, 4)]⟩] [⟨2, 6, [(1, 6)]⟩]) ∧
      ∀ x y, InBands (regionOperatorDo ⟨true, false, false⟩ [⟨0, 4, [(0, 4)]⟩] [⟨2, 6, [(1, 6)]⟩]) x y ↔
        Wanted.Selects ⟨true, false, false⟩ (InBands [⟨0, 4, [(0, 4)]⟩] x y) (InBands [⟨2, 6, [(1, 6)]⟩] x y) := by
  have hrect : ∀ {ytop ybot xleft xright : ℤ}, RUN_MIN ≤ ytop → ytop < ybot → ybot ≤ RUN_MAX → RUN_MIN ≤ xleft →
      xleft < xright → xright ≤ RUN_MAX → RunList [⟨ytop, ybot, [(xleft, xright)]⟩] := by
    intro ytop ybot xleft xright htop hlt hbot hleft hlt' hright
    exact ⟨⟨by simp only [forall_mem_singleton]; exact ⟨htop, hlt, hbot, by simp,
      by simpa using ⟨hleft, hlt', hright⟩⟩,
      pairwise_singleton _ _⟩, by simp, by simp⟩
  exact regionOperatorDo_exact _ (hrect (by decide) (by decide) (by decide) (by decide) (by decide) (by decide))
    (hrect (by decide) (by decide) (by decide) (by decide) (by decide) (by decide))

end Emulator.Skin
