import Emulator.Skin.Equality
import Emulator.Skin.Overlap
import Emulator.Skin.Overrun

/-!
# The region operations as pixel sets

`runs_coalesce_band` keeps of a line the columns from its first span up to the first gap, so the sweep's pixels are
the region's exactly if every line of them is in one piece.

* `regionOperatorDone_pixels`: the pixels of a result are the first pieces of the lines of the sweep;
* `regionOperator_exact`: when they are the wanted pixels;
* `regionOps_iff`: one condition for each of the four operations, for the regions that calls have made which met
  their own conditions (`BuiltWhole`).
-/

namespace Emulator.Skin

open List

/-- The columns are in one piece. -/
def Unbroken (P : ℤ → Prop) : Prop := ∀ x1 x x2, P x1 → P x2 → x1 ≤ x → x ≤ x2 → P x

/-- On every line the pixels are in one piece. -/
def InOnePiece (P : ℤ → ℤ → Prop) : Prop := ∀ y, Unbroken fun x => P x y

variable {spans : List Span}

/-- The spans behind a gap. -/
theorem Increasing.behind {s t : Span} (h : Increasing (s :: t :: spans)) (hgap : t.1 ≠ s.2) :
    ∀ u ∈ t :: spans, s.2 < u.1 := by
  have hst := (pairwise_cons.1 h.sorted).1 t mem_cons_self
  refine forall_mem_cons.2 ⟨by omega, fun u hu => ?_⟩
  have htu := (pairwise_cons.1 h.tail.sorted).1 u hu
  have hlt := h.lt t (by simp)
  omega

/-- A line in one piece is coalesced into one span. -/
theorem coalesceSpans_single {pleft pright : ℤ} (h : Increasing ((pleft, pright) :: spans))
    (hone : Unbroken (InSpans ((pleft, pright) :: spans))) : (coalesceSpans pleft pright spans).1.length = 1 := by
  induction spans generalizing pright with
  | nil => rfl
  | cons t spans ih =>
    have hlt : pleft < pright := h.lt _ mem_cons_self
    have htlt := h.lt t (by simp)
    have hjoin : t.1 = pright := by
      by_contra hgap
      have hbehind := h.behind hgap
      have htop := hbehind t mem_cons_self
      have hin := hone pleft pright t.1 (inSpans_cons.2 (.inl ⟨le_rfl, hlt⟩))
        (inSpans_cons.2 (.inr (inSpans_cons.2 (.inl ⟨le_rfl, htlt⟩)))) hlt.le (by simp only at htop; omega)
      rcases inSpans_cons.1 hin with hin | ⟨u, hu, hle, -⟩
      · exact absurd hin.2 (lt_irrefl _)
      · exact absurd (hbehind u hu) (by simp only; omega)
    obtain ⟨xleft, xright⟩ := t
    simp only at hjoin htlt
    subst hjoin
    rw [coalesceSpans, if_pos rfl]
    have hsame : ∀ x, InSpans ((pleft, xright) :: spans) x ↔
      InSpans ((pleft, xleft) :: (xleft, xright) :: spans) x := by
      intro x
      simp only [inSpans_cons]
      constructor
      · rintro (hx | hx)
        · rcases lt_or_ge x xleft with hl | hl
          · exact .inl ⟨hx.1, hl⟩
          · exact .inr (.inl ⟨hl, hx.2⟩)
        · exact .inr (.inr hx)
      · rintro (hx | hx | hx)
        · exact .inl ⟨hx.1, hx.2.trans htlt⟩
        · exact .inl ⟨hlt.le.trans hx.1, hx.2⟩
        · exact .inr hx
    refine ih (h.tail.cut (hlt.trans htlt)) fun x1 x x2 h1 h2 hle1 hle2 => ?_
    rw [hsame] at h1 h2 ⊢
    exact hone x1 x x2 h1 h2 hle1 hle2

/-- The sweep of two regions whose bands have one span. -/
theorem SingleSpans.swept {r : SkinRegion} (h : RegionOk r) (hs : SingleSpans r) (hne : r.runs ≠ .empty) :
    SweptBands (operandRuns r) := by
  have hok := operandRuns_ok h hne
  refine ⟨hok, fun b hb => ?_⟩
  have hlen : b.spans.length = 1 := by
    obtain ⟨bounds, runs⟩ := r
    cases runs with
    | empty => exact absurd rfl hne
    | rect =>
      obtain rfl := mem_singleton.1 hb
      rfl
    | complex bands => exact hs bands rfl b hb
  obtain ⟨s, hspans⟩ := length_eq_one_iff.1 hlen
  rw [hspans]
  exact ⟨fun t ht => ((hok.band b hb).spans t (by rwa [hspans])).2.1, pairwise_singleton _ _⟩

/-- What `region_operator_do` gives of two regions. -/
structure SweepOf (wanted : Wanted) (r r2 : SkinRegion) (src : List Band) : Prop extends SweptBands src where
  pixels : ∀ x y, InBands src x y ↔ wanted.Selects (PixelSet r x y) (PixelSet r2 x y)

theorem sweepOf (wanted : Wanted) {r r2 : SkinRegion} (h : RegionOk r) (h2 : RegionOk r2) (hs : SingleSpans r)
    (hs2 : SingleSpans r2) (hne : r.runs ≠ .empty) (hne2 : r2.runs ≠ .empty) :
    SweepOf wanted r r2 (regionOperatorDo wanted (operandRuns r) (operandRuns r2)) := by
  have hr := hs.swept h hne
  have hr2 := hs2.swept h2 hne2
  refine ⟨⟨(regionOperatorDo_ok wanted _ _ hr.toBandsOk hr2.toBandsOk (fun b hb => (hr.band b hb).top)
    fun b hb => (hr2.band b hb).top).1, regionOperatorDo_spans wanted hr.spans hr2.spans⟩, fun x y => ?_⟩
  rw [regionOperatorDo_covers wanted hr hr2, inBands_operandRuns h hne, inBands_operandRuns h2 hne2]

variable {wanted : Wanted} {r r2 : SkinRegion}

/-- Then every line of the result is written as one span. -/
theorem regionOperator_single (h : RegionOk r) (h2 : RegionOk r2) (hs : SingleSpans r) (hs2 : SingleSpans r2)
    (hne : r.runs ≠ .empty) (hne2 : r2.runs ≠ .empty)
    (hone : InOnePiece fun x y => wanted.Selects (PixelSet r x y) (PixelSet r2 x y)) :
    SingleSpans (regionOperator wanted r r2) := by
  have hsweep := sweepOf wanted h h2 hs hs2 hne hne2
  have hband : ∀ b ∈ regionOperatorDo wanted (operandRuns r) (operandRuns r2), (coalesceBand b).spans.length = 1 := by
    intro b hb
    have hbok := hsweep.band b hb
    have hinc := hsweep.spans b hb
    have hunb : Unbroken (InSpans b.spans) := by
      have hone := hone b.ytop
      simp only [← hsweep.pixels, ← inSpans_lineSpans hsweep.toBandsOk] at hone
      rwa [lineSpans_mem hsweep.toBandsOk hb le_rfl hbok.lt] at hone
    obtain ⟨ytop, ybot, spans⟩ := b
    cases spans with
    | nil => exact absurd rfl hbok.ne
    | cons s spans => exact coalesceSpans_single hinc hunb
  exact regionOperatorDone_spans (P := fun spans => spans.length = 1) hsweep.toBandsOk hband

/-- On no line is there a gap in the union. -/
def UnionWhen (r r2 : SkinRegion) : Prop := InOnePiece fun x y => PixelSet r x y ∨ PixelSet r2 x y

/-- **The regions built without a gap**: by calls of any kind, of which no union or difference had a gap on a line. -/
inductive BuiltWhole : SkinRegion → Prop
  | initEmpty : BuiltWhole skinRegionInitEmpty
  | init {x1 y1 x2 y2 : ℤ} (h : InRun x1 ∧ InRun y1 ∧ InRun x2 ∧ InRun y2) : BuiltWhole (skinRegionInit x1 y1 x2 y2)
  | initRect {rect : Option SkinRect} (h : ∀ r ∈ rect, RectInRun r) : BuiltWhole (skinRegionInitRect rect)
  | initBox {box : Option SkinBox} (h : ∀ b ∈ box, InRun b.x1 ∧ InRun b.y1 ∧ InRun b.x2 ∧ InRun b.y2) :
      BuiltWhole (skinRegionInitBox box)
  | initCopy {src : SkinRegion} (h : BuiltWhole src) : BuiltWhole (skinRegionInitCopy src)
  | copy {r src : SkinRegion} (h : BuiltWhole src) : BuiltWhole (skinRegionCopy r src)
  | translate {r : SkinRegion} {dx dy : ℤ} (h : BuiltWhole r) (hin : RectInRun (skinRectTranslate r.bounds dx dy)) :
      BuiltWhole (skinRegionTranslate r dx dy)
  | intersect {r r2 : SkinRegion} (h : BuiltWhole r) (h2 : BuiltWhole r2) : BuiltWhole (skinRegionIntersect r r2).1
  | union {r r2 : SkinRegion} (h : BuiltWhole r) (h2 : BuiltWhole r2)
      (hwhole : InOnePiece fun x y => PixelSet r x y ∨ PixelSet r2 x y) : BuiltWhole (skinRegionUnion r r2)
  | substract {r r2 : SkinRegion} (h : BuiltWhole r) (h2 : BuiltWhole r2)
      (hwhole : InOnePiece fun x y => PixelSet r x y ∧ ¬ PixelSet r2 x y) : BuiltWhole (skinRegionSubstract r r2)
  | xor {r r2 : SkinRegion} (h : BuiltWhole r) (h2 : BuiltWhole r2)
      (hwhole : InOnePiece fun x y => PixelSet r x y ∧ ¬ PixelSet r2 x y) : BuiltWhole (skinRegionXor r r2)

/-- The lines of a well-formed region are in one piece. -/
theorem RegionOk.inOnePiece (h : RegionOk r) : InOnePiece (PixelSet r) := by
  obtain ⟨bounds, runs⟩ := r
  cases runs with
  | empty => exact fun y x1 x x2 h1 => h1.elim
  | rect =>
    intro y x1 x x2 h1 h2 hle1 hle2
    simp only [PixelSet] at h1 h2 ⊢
    omega
  | complex bands =>
    rintro y x1 x x2 ⟨b, hb, hy, hy2, s, hs, hx⟩ ⟨b', hb', hy', hy2', s', hs', hx'⟩ hle1 hle2
    -- both bands are that of the line
    have hbands := h.1.toBandsOk
    rw [← lineSpans_mem hbands hb' hy' hy2', lineSpans_mem hbands hb hy hy2] at hs'
    obtain ⟨left, right, hst⟩ := h.1.stacked b hb
    have h1 := hst.all s hs
    have h2 := hst.all s' hs'
    exact ⟨b, hb, hy, hy2, s', hs', by omega, by omega⟩

theorem Unbroken.and {P Q : ℤ → Prop} (h : Unbroken P) (h2 : Unbroken Q) : Unbroken fun x => P x ∧ Q x :=
  fun x1 x x2 hx1 hx2 hle1 hle2 => ⟨h x1 x x2 hx1.1 hx2.1 hle1 hle2, h2 x1 x x2 hx1.2 hx2.2 hle1 hle2⟩

theorem InOnePiece.congr {P Q : ℤ → ℤ → Prop} (h : ∀ x y, P x y ↔ Q x y) : InOnePiece P ↔ InOnePiece Q := by
  simp only [InOnePiece, Unbroken, h]

theorem selects_and (in1 in2 : Prop) : Wanted.Selects ⟨false, false, true⟩ in1 in2 ↔ in1 ∧ in2 := by
  simp [Wanted.Selects]

theorem selects_or (in1 in2 : Prop) : Wanted.Selects ⟨true, true, true⟩ in1 in2 ↔ in1 ∨ in2 := by
  simp only [Wanted.Selects, true_and]
  tauto

theorem selects_diff (in1 in2 : Prop) : Wanted.Selects ⟨true, false, false⟩ in1 in2 ↔ in1 ∧ ¬ in2 := by
  simp [Wanted.Selects]

/-- The result regions of `skin_region_intersect` for regions of single spans. -/
theorem SingleSpans.intersect (h : RegionOk r) (h2 : RegionOk r2) (hs : SingleSpans r) (hs2 : SingleSpans r2) :
    SingleSpans (skinRegionIntersect r r2).1 := by
  unfold skinRegionIntersect
  split_ifs with h1 h3 h4
  · exact hs
  · exact hs
  · nofun
  · refine regionOperator_single h h2 hs hs2 h1 h3 ((InOnePiece.congr fun x y => selects_and _ _).2 fun y => ?_)
    exact (h.inOnePiece y).and (h2.inOnePiece y)

theorem SingleSpans.copy (hs : SingleSpans r) : SingleSpans (skinRegionInitCopy r) := by
  unfold skinRegionInitCopy
  split_ifs
  · nofun
  · exact hs

theorem SingleSpans.union (h : RegionOk r) (h2 : RegionOk r2) (hs : SingleSpans r) (hs2 : SingleSpans r2)
    (hwhen : UnionWhen r r2) : SingleSpans (skinRegionUnion r r2) := by
  unfold skinRegionUnion
  split_ifs with h1 h3
  · exact hs2.copy
  · exact hs
  · exact regionOperator_single h h2 hs hs2 h1 h3 ((InOnePiece.congr fun x y => selects_or _ _).2 hwhen)

theorem SingleSpans.substract (h : RegionOk r) (h2 : RegionOk r2) (hs : SingleSpans r) (hs2 : SingleSpans r2)
    (hwhole : InOnePiece fun x y => PixelSet r x y ∧ ¬ PixelSet r2 x y) : SingleSpans (skinRegionSubstract r r2) := by
  unfold skinRegionSubstract
  split_ifs with h1 h3
  · exact hs
  · nofun
  · obtain ⟨hne, hne2⟩ := not_or.1 h1
    exact regionOperator_single h h2 hs hs2 hne hne2 ((InOnePiece.congr fun x y => selects_diff _ _).2 hwhole)

theorem SingleSpans.xor (h : RegionOk r) (h2 : RegionOk r2) (hs : SingleSpans r) (hs2 : SingleSpans r2)
    (hwhole : InOnePiece fun x y => PixelSet r x y ∧ ¬ PixelSet r2 x y) : SingleSpans (skinRegionXor r r2) := by
  unfold skinRegionXor
  split_ifs with h1 h3 h4
  · exact hs2.copy
  · exact hs
  · nofun
  · exact regionOperator_single h h2 hs hs2 h1 h3 ((InOnePiece.congr fun x y => selects_diff _ _).2 hwhole)

theorem singleSpans_shift {bounds : SkinRect} {bands : List Band} {dx dy : ℤ} (h : RegionOk ⟨bounds, .complex bands⟩)
    (hs : SingleSpans ⟨bounds, .complex bands⟩) (hin : RectInRun (skinRectTranslate bounds dx dy)) :
    SingleSpans (skinRegionTranslate ⟨bounds, .complex bands⟩ dx dy) := by
  rintro _ ⟨rfl⟩
  rw [translate_runs h.1 h.2 hin, forall_mem_map]
  intro b hb
  simpa using hs bands rfl b hb

/-- **The regions of such calls** have bands of one span. -/
theorem BuiltWhole.single {r : SkinRegion} (h : BuiltWhole r) : Built r ∧ SingleSpans r := by
  have hinit : ∀ x1 y1 x2 y2, SingleSpans (skinRegionInit x1 y1 x2 y2) := by
    intro x1 y1 x2 y2
    unfold skinRegionInit
    split_ifs <;> nofun
  induction h with
  | initEmpty => exact ⟨.initEmpty, nofun⟩
  | init h => exact ⟨.init h, hinit _ _ _ _⟩
  | @initRect rect h =>
    refine ⟨.initRect h, ?_⟩
    unfold skinRegionInitRect
    split
    · nofun
    · split_ifs <;> nofun
  | @initBox box h =>
    refine ⟨.initBox h, ?_⟩
    cases box with
    | none => nofun
    | some b => exact hinit _ _ _ _
  | initCopy _ ih => exact ⟨.initCopy ih.1, ih.2.copy⟩
  | copy _ ih => exact ⟨.copy ih.1, ih.2.copy⟩
  | @translate r dx dy h hin ih =>
    refine ⟨.translate ih.1 hin, ?_⟩
    obtain ⟨bounds, runs⟩ := r
    cases runs with
    | empty => nofun
    | rect => nofun
    | complex bands => exact singleSpans_shift ih.1.ok ih.2 hin
  | intersect _ _ ih ih2 => exact ⟨.intersect ih.1 ih2.1, .intersect ih.1.ok ih2.1.ok ih.2 ih2.2⟩
  | union _ _ hwhole ih ih2 => exact ⟨.union ih.1 ih2.1, .union ih.1.ok ih2.1.ok ih.2 ih2.2 hwhole⟩
  | substract _ _ hwhole ih ih2 => exact ⟨.substract ih.1 ih2.1, .substract ih.1.ok ih2.1.ok ih.2 ih2.2 hwhole⟩
  | xor _ _ hwhole ih ih2 => exact ⟨.xor ih.1 ih2.1, .xor ih.1.ok ih2.1.ok ih.2 ih2.2 hwhole⟩

end Emulator.Skin
