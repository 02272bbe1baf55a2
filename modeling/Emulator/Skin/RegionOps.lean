import Emulator.Skin.RegionInv

/-!
# Regions built through the API

`Built` regions are those the functions of `android/skin/region.c` make.

* `Built.ok`: they are all `RegionOk`, so their bounds are exact and one that is not marked empty has a pixel;
* `Built.complexKept`: what the operator and a translation keep of a run list, all of them have.
-/

namespace Emulator.Skin

open List

/-- A coordinate of a run, below the sentinel. -/
def InRun (z : ℤ) : Prop := RUN_MIN ≤ z ∧ z ≤ RUN_MAX

/-- The corners of a rectangle are run coordinates. -/
def RectInRun (r : SkinRect) : Prop := InRun r.x ∧ InRun (r.x + r.w) ∧ InRun r.y ∧ InRun (r.y + r.h)

/-- **The regions built through the API.** -/
inductive Built : SkinRegion → Prop
  | initEmpty : Built skinRegionInitEmpty
  | init {x1 y1 x2 y2 : ℤ} (h : InRun x1 ∧ InRun y1 ∧ InRun x2 ∧ InRun y2) : Built (skinRegionInit x1 y1 x2 y2)
  | initRect {rect : Option SkinRect} (h : ∀ r ∈ rect, RectInRun r) : Built (skinRegionInitRect rect)
  | initBox {box : Option SkinBox} (h : ∀ b ∈ box, InRun b.x1 ∧ InRun b.y1 ∧ InRun b.x2 ∧ InRun b.y2) :
      Built (skinRegionInitBox box)
  | initCopy {src : SkinRegion} (h : Built src) : Built (skinRegionInitCopy src)
  | copy {r src : SkinRegion} (h : Built src) : Built (skinRegionCopy r src)
  | translate {r : SkinRegion} {dx dy : ℤ} (h : Built r) (hin : RectInRun (skinRectTranslate r.bounds dx dy)) :
      Built (skinRegionTranslate r dx dy)
  | intersect {r r2 : SkinRegion} (h : Built r) (h2 : Built r2) : Built (skinRegionIntersect r r2).1
  | union {r r2 : SkinRegion} (h : Built r) (h2 : Built r2) : Built (skinRegionUnion r r2)
  | substract {r r2 : SkinRegion} (h : Built r) (h2 : Built r2) : Built (skinRegionSubstract r r2)
  | xor {r r2 : SkinRegion} (h : Built r) (h2 : Built r2) : Built (skinRegionXor r r2)

theorem init_ok {x1 y1 x2 y2 : ℤ} (h : InRun x1 ∧ InRun y1 ∧ InRun x2 ∧ InRun y2) :
    RegionOk (skinRegionInit x1 y1 x2 y2) := by
  obtain ⟨⟨h1, -⟩, ⟨h2, -⟩, ⟨-, h3⟩, ⟨-, h4⟩⟩ := h
  unfold skinRegionInit
  split_ifs with he
  · exact rfl
  · exact ⟨⟨h1, by simp only; omega, by simp only; omega⟩, ⟨h2, by simp only; omega, by simp only; omega⟩⟩

theorem initCopy_ok {src : SkinRegion} (h : RegionOk src) : RegionOk (skinRegionInitCopy src) := by
  unfold skinRegionInitCopy
  split_ifs
  · exact rfl
  · exact h

theorem toRun_eq {z : ℤ} (h : InRun z) : toRun z = z := by
  unfold InRun RUN_MIN RUN_MAX at h
  unfold toRun
  rw [Int.bmod_eq_of_le] <;> omega

theorem shift_covers (b : Band) (dx dy x y : ℤ) :
    Covers ⟨b.ytop + dy, b.ybot + dy, b.spans.map fun s => (s.1 + dx, s.2 + dx)⟩ x y ↔ Covers b (x - dx) (y - dy) := by
  simp only [Covers, mem_map, exists_exists_and_eq_and]
  constructor
  · rintro ⟨h1, h2, s, hs, h3, h4⟩
    exact ⟨by omega, by omega, s, hs, by omega, by omega⟩
  · rintro ⟨h1, h2, s, hs, h3, h4⟩
    exact ⟨by omega, by omega, s, hs, by omega, by omega⟩

/-- The coordinates of a band lie within the bounding box of its region. -/
theorem IsBox.band {r : SkinRect} {bands : List Band} (hco : Coalesced bands)
    (h : IsBox r fun x y => ∃ b ∈ bands, Covers b x y) {b : Band} (hb : b ∈ bands) :
    r.y ≤ b.ytop ∧ b.ybot ≤ r.y + r.h ∧ ∀ s ∈ b.spans, r.x ≤ s.1 ∧ s.2 ≤ r.x + r.w := by
  obtain ⟨htop, hlt, hbot, hne, hs⟩ := hco.band b hb
  have hspan : ∀ s ∈ b.spans, r.x ≤ s.1 ∧ s.2 ≤ r.x + r.w ∧ r.y ≤ b.ytop ∧ b.ybot ≤ r.y + r.h := by
    intro s hsm
    have hlr := (hs s hsm).2.1
    have h1 := h.within s.1 b.ytop ⟨b, hb, le_rfl, hlt, s, hsm, le_rfl, hlr⟩
    have h2 := h.within (s.2 - 1) (b.ybot - 1) ⟨b, hb, by omega, by omega, s, hsm, by omega, by omega⟩
    omega
  obtain ⟨s, hsm⟩ := exists_mem_of_ne_nil b.spans hne
  obtain ⟨-, -, h3, h4⟩ := hspan s hsm
  exact ⟨h3, h4, fun s hsm => ⟨(hspan s hsm).1, (hspan s hsm).2.1⟩⟩

/-- A translation that keeps the bounds in range does not wrap a coordinate. -/
theorem translate_runs {bounds : SkinRect} {bands : List Band} {dx dy : ℤ} (hco : Coalesced bands)
    (hbox : IsBox bounds fun x y => ∃ b ∈ bands, Covers b x y) (hin : RectInRun (skinRectTranslate bounds dx dy)) :
    (bands.map fun b => (⟨toRun (b.ytop + dy), toRun (b.ybot + dy),
      b.spans.map fun s => (toRun (s.1 + dx), toRun (s.2 + dx))⟩ : Band)) =
      bands.map fun b => ⟨b.ytop + dy, b.ybot + dy, b.spans.map fun s => (s.1 + dx, s.2 + dx)⟩ := by
  obtain ⟨⟨hx1, hx2⟩, ⟨hx3, hx4⟩, ⟨hy1, hy2⟩, ⟨hy3, hy4⟩⟩ := hin
  simp only [skinRectTranslate] at hx1 hx2 hx3 hx4 hy1 hy2 hy3 hy4
  refine map_congr_left fun b hb => ?_
  obtain ⟨h1, h2, h3⟩ := hbox.band hco hb
  have hlt := (hco.band b hb).lt
  have hspans : (b.spans.map fun s => (toRun (s.1 + dx), toRun (s.2 + dx))) =
      b.spans.map fun s => (s.1 + dx, s.2 + dx) := by
    refine map_congr_left fun s hs => ?_
    obtain ⟨h4, h5⟩ := h3 s hs
    have hlr := ((hco.band b hb).spans s hs).2.1
    rw [toRun_eq ⟨by omega, by omega⟩, toRun_eq ⟨by omega, by omega⟩]
  rw [toRun_eq ⟨by omega, by omega⟩, toRun_eq ⟨by omega, by omega⟩, hspans]

variable {r : SkinRegion}

theorem translate_ok {dx dy : ℤ} (h : RegionOk r)
    (hin : RectInRun (skinRectTranslate r.bounds dx dy)) : RegionOk (skinRegionTranslate r dx dy) := by
  obtain ⟨⟨bx, bY, bw, bh⟩, runs⟩ := r
  have hin' := hin
  obtain ⟨⟨hx1, hx2⟩, ⟨hx3, hx4⟩, ⟨hy1, hy2⟩, ⟨hy3, hy4⟩⟩ := hin
  simp only [skinRectTranslate] at hx1 hx2 hx3 hx4 hy1 hy2 hy3 hy4
  cases runs with
  | empty => exact h
  | rect =>
    obtain ⟨⟨-, h2, -⟩, ⟨-, h4, -⟩⟩ := h
    simp only at h2 h4
    exact ⟨⟨hx1, by simp only [skinRegionTranslate, skinRectTranslate]; omega, hx4⟩,
      ⟨hy1, by simp only [skinRegionTranslate, skinRectTranslate]; omega, hy4⟩⟩
  | complex bands =>
    obtain ⟨hco, hbox⟩ := h
    have hband := fun b (hb : b ∈ bands) => hbox.band hco hb
    simp only at hband
    have hmap := translate_runs hco hbox hin'
    simp only [skinRegionTranslate, hmap, RegionOk]
    have hmem : ∀ x y, (∃ b ∈ bands.map fun b => (⟨b.ytop + dy, b.ybot + dy,
        b.spans.map fun s => (s.1 + dx, s.2 + dx)⟩ : Band), Covers b x y) ↔
      ∃ b ∈ bands, Covers b (x - dx) (y - dy) := by
      intro x y
      simp only [mem_map, exists_exists_and_eq_and, shift_covers]
    refine ⟨⟨⟨?_, ?_⟩, ?_⟩, ⟨?_, ?_, ?_, ?_, ?_⟩⟩
    · simp only [forall_mem_map]
      intro b hb
      obtain ⟨h1, h2, h3⟩ := hband b hb
      have hlt := (hco.band b hb).lt
      refine ⟨by simp only; omega, by simp only; omega, by simp only; omega, by simpa using (hco.band b hb).ne, ?_⟩
      simp only [forall_mem_map]
      intro s hs
      obtain ⟨h4, h5⟩ := h3 s hs
      have hlr := ((hco.band b hb).spans s hs).2.1
      exact ⟨by simp only; omega, by simp only; omega, by simp only; omega⟩
    · rw [pairwise_map]
      exact hco.sorted.imp fun hab => by simp only; omega
    · simp only [forall_mem_map]
      intro b hb
      obtain ⟨left, right, hst⟩ := hco.stacked b hb
      refine ⟨left + dx, right + dx, ?_, mem_map.2 ⟨_, hst.longest, rfl⟩⟩
      simp only [forall_mem_map]
      intro s hs
      obtain ⟨h1, h2, h3⟩ := hst.all s hs
      exact ⟨by omega, by omega, by omega⟩
    · intro x y hxy
      have := hbox.within _ _ ((hmem x y).1 hxy)
      simp only [skinRectTranslate] at this ⊢
      omega
    · obtain ⟨y, hy⟩ := hbox.left
      exact ⟨y + dy, (hmem _ _).2 (by simpa [skinRectTranslate] using hy)⟩
    · obtain ⟨y, hy⟩ := hbox.right
      refine ⟨y + dy, (hmem _ _).2 ?_⟩
      simp only [skinRectTranslate]
      rw [show bx + dx + bw - 1 - dx = bx + bw - 1 by ring, show y + dy - dy = y by ring]
      exact hy
    · obtain ⟨x, hx⟩ := hbox.top
      exact ⟨x + dx, (hmem _ _).2 (by simpa [skinRectTranslate] using hx)⟩
    · obtain ⟨x, hx⟩ := hbox.bot
      refine ⟨x + dx, (hmem _ _).2 ?_⟩
      simp only [skinRectTranslate]
      rw [show bY + dy + bh - 1 - dy = bY + bh - 1 by ring, show x + dx - dx = x by ring]
      exact hx

theorem operandRuns_ok (h : RegionOk r) (hne : r.runs ≠ .empty) : BandsOk (operandRuns r) := by
  obtain ⟨⟨bx, bY, bw, bh⟩, runs⟩ := r
  cases runs with
  | empty => exact absurd rfl hne
  | complex bands => exact h.1.toBandsOk
  | rect =>
    obtain ⟨⟨h1, h2, h3⟩, ⟨h4, h5, h6⟩⟩ := h
    simp only at h1 h2 h3 h4 h5 h6
    have e1 : toRun bx = bx := toRun_eq ⟨h1, by omega⟩
    have e2 : toRun (bx + bw) = bx + bw := toRun_eq ⟨by omega, h3⟩
    have e3 : toRun bY = bY := toRun_eq ⟨h4, by omega⟩
    have e4 : toRun (bY + bh) = bY + bh := toRun_eq ⟨by omega, h6⟩
    simp only [operandRuns, runsSetRect, e1, e2, e3, e4]
    refine ⟨?_, pairwise_singleton _ _⟩
    intro b hb
    obtain rfl := mem_singleton.1 hb
    refine ⟨h4, h5, h6, by simp, ?_⟩
    intro s hs
    obtain rfl := mem_singleton.1 hs
    exact ⟨h1, h2, h3⟩

/-- **The region operator** makes a well-formed region. -/
theorem regionOperator_ok (wanted : Wanted) {r r2 : SkinRegion} (h : RegionOk r) (h2 : RegionOk r2)
    (hne : r.runs ≠ .empty) (hne2 : r2.runs ≠ .empty) : RegionOk (regionOperator wanted r r2) := by
  have hr := operandRuns_ok h hne
  have hr2 := operandRuns_ok h2 hne2
  exact regionOperatorDone_ok (regionOperatorDo_ok wanted _ _ hr hr2 (fun b hb => (hr.band b hb).top)
    fun b hb => (hr2.band b hb).top).1

/-- **Every region built through the API is well formed.** -/
theorem Built.ok (h : Built r) : RegionOk r := by
  induction h with
  | initEmpty => exact rfl
  | init h => exact init_ok h
  | @initRect rect h =>
    cases rect with
    | none => exact rfl
    | some r =>
      obtain ⟨⟨h1, -⟩, ⟨-, h2⟩, ⟨h3, -⟩, ⟨-, h4⟩⟩ := h r rfl
      simp only [skinRegionInitRect]
      split_ifs with he
      · exact rfl
      · exact ⟨⟨h1, by simp only; omega, h2⟩, ⟨h3, by simp only; omega, h4⟩⟩
  | @initBox box h =>
    cases box with
    | none => exact rfl
    | some b => exact init_ok (h b rfl)
  | initCopy _ ih => exact initCopy_ok ih
  | copy _ ih => exact initCopy_ok ih
  | translate _ hin ih => exact translate_ok ih hin
  | intersect _ _ ih ih2 =>
    unfold skinRegionIntersect
    split_ifs with h1 h2 h3
    · exact ih
    · exact ih
    · exact rfl
    · exact regionOperator_ok _ ih ih2 h1 h2
  | union _ _ ih ih2 =>
    unfold skinRegionUnion
    split_ifs with h1 h2
    · exact initCopy_ok ih2
    · exact ih
    · exact regionOperator_ok _ ih ih2 h1 h2
  | substract _ _ ih ih2 =>
    unfold skinRegionSubstract
    split_ifs with h1 h3
    · exact ih
    · exact rfl
    · rw [not_or] at h1
      exact regionOperator_ok _ ih ih2 h1.1 h1.2
  | xor _ _ ih ih2 =>
    unfold skinRegionXor
    split_ifs with h1 h2 h3
    · exact initCopy_ok ih2
    · exact ih
    · exact rfl
    · exact regionOperator_ok _ ih ih2 h1 h2

/-- The bands of a translation. -/
def shiftBands (bands : List Band) (dx dy : ℤ) : List Band :=
  bands.map fun b => ⟨b.ytop + dy, b.ybot + dy, b.spans.map fun s => (s.1 + dx, s.2 + dx)⟩

/-- **What every run list of a built region has**: a property of what the operator leaves that a translation keeps. -/
theorem Built.complexKept {P : List Band → Prop}
    (operator : ∀ src, BandsOk src → ∀ bands, (regionOperatorDone src).runs = .complex bands → P bands)
    (shift : ∀ bands dx dy, BandsOk bands → P bands → P (shiftBands bands dx dy)) (h : Built r) :
    ∀ bands, r.runs = .complex bands → P bands := by
  have hop : ∀ wanted (r r2 : SkinRegion), RegionOk r → RegionOk r2 → r.runs ≠ .empty → r2.runs ≠ .empty →
      ∀ bands, (regionOperator wanted r r2).runs = .complex bands → P bands := by
    intro wanted r r2 h h2 hne hne2
    have hr := operandRuns_ok h hne
    have hr2 := operandRuns_ok h2 hne2
    exact operator _ (regionOperatorDo_ok wanted _ _ hr hr2 (fun b hb => (hr.band b hb).top)
      fun b hb => (hr2.band b hb).top).1
  have hinit : ∀ x1 y1 x2 y2 bands, (skinRegionInit x1 y1 x2 y2).runs = .complex bands → P bands := by
    intro x1 y1 x2 y2 bands
    unfold skinRegionInit
    split_ifs <;> nofun
  have hcopy : ∀ src : SkinRegion, (∀ bands, src.runs = .complex bands → P bands) →
      ∀ bands, (skinRegionInitCopy src).runs = .complex bands → P bands := by
    intro src h
    unfold skinRegionInitCopy
    split_ifs
    · nofun
    · exact h
  induction h with
  | initEmpty => nofun
  | init => exact hinit _ _ _ _
  | @initRect rect =>
    unfold skinRegionInitRect
    split
    · nofun
    · split_ifs <;> nofun
  | @initBox box =>
    cases box with
    | none => nofun
    | some b => exact hinit _ _ _ _
  | initCopy _ ih => exact hcopy _ ih
  | copy _ ih => exact hcopy _ ih
  | @translate r dx dy h hin ih =>
    obtain ⟨bounds, runs⟩ := r
    cases runs with
    | empty => nofun
    | rect => nofun
    | complex bands =>
      rintro _ ⟨rfl⟩
      rw [translate_runs h.ok.1 h.ok.2 hin]
      exact shift bands dx dy h.ok.1.toBandsOk (ih bands rfl)
  | intersect h h2 ih ih2 =>
    unfold skinRegionIntersect
    split_ifs with h1 h3
    · exact ih
    · exact ih
    · nofun
    · exact hop _ _ _ h.ok h2.ok h1 h3
  | union h h2 ih ih2 =>
    unfold skinRegionUnion
    split_ifs with h1 h3
    · exact hcopy _ ih2
    · exact ih
    · exact hop _ _ _ h.ok h2.ok h1 h3
  | substract h h2 ih ih2 =>
    unfold skinRegionSubstract
    split_ifs with h1 h3
    · exact ih
    · nofun
    · exact hop _ _ _ h.ok h2.ok (not_or.1 h1).1 (not_or.1 h1).2
  | xor h h2 ih ih2 =>
    unfold skinRegionXor
    split_ifs with h1 h3
    · exact hcopy _ ih2
    · exact ih
    · nofun
    · exact hop _ _ _ h.ok h2.ok h1 h3

/-- The pixels of a region that is not marked empty, and its bounds. -/
theorem RegionOk.isBox (h : RegionOk r) (hne : r.runs ≠ .empty) :
    IsBox r.bounds (PixelSet r) ∧ ∀ x y, PixelSet r x y → IsInt x ∧ IsInt y := by
  obtain ⟨⟨bx, bY, bw, bh⟩, runs⟩ := r
  cases runs with
  | empty => exact absurd rfl hne
  | rect =>
    obtain ⟨⟨h1, h2, h3⟩, ⟨h4, h5, h6⟩⟩ := h
    simp only [RUN_MIN, RUN_MAX] at h1 h2 h3 h4 h5 h6
    refine ⟨⟨fun x y hxy => hxy, ⟨bY, ?_⟩, ⟨bY, ?_⟩, ⟨bx, ?_⟩, ⟨bx, ?_⟩⟩, fun x y hxy => ?_⟩
    all_goals simp only [PixelSet, IsInt] at *
    all_goals omega
  | complex bands =>
    refine ⟨h.2, ?_⟩
    rintro x y ⟨b, hb, hy1, hy2, s, hs, hx1, hx2⟩
    obtain ⟨htop, hlt, hbot, -, hspans⟩ := h.1.band b hb
    obtain ⟨h1, h2, h3⟩ := hspans s hs
    unfold RUN_MIN RUN_MAX at *
    unfold IsInt
    omega

/-- A region that is not marked empty has a pixel, within its bounds. -/
theorem RegionOk.hasPixel (h : RegionOk r) (hne : r.runs ≠ .empty) :
    ∃ x y, IsInt x ∧ IsInt y ∧ PixelSet r x y := by
  obtain ⟨hbox, hint⟩ := h.isBox hne
  obtain ⟨y, hy⟩ := hbox.left
  exact ⟨_, y, (hint _ _ hy).1, (hint _ _ hy).2, hy⟩

end Emulator.Skin
