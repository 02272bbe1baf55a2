import Mathlib.Tactic

/-!
# Skin rectangles and boxes

`android/skin/rect.c`: the functions the regions use. Coordinates are C `int`s;
the unsigned comparisons of `skin_rect_contains` are taken modulo `2 ^ 32`.
-/

namespace Emulator.Skin

structure SkinRect where
  x : ℤ
  y : ℤ
  w : ℤ
  h : ℤ
  deriving DecidableEq, Repr

structure SkinBox where
  x1 : ℤ
  y1 : ℤ
  x2 : ℤ
  y2 : ℤ
  deriving DecidableEq, Repr

inductive SkinOverlap
  | outside
  | inside
  | overlap
  deriving DecidableEq, Repr

/-- The value of a C `int`. -/
def IsInt (z : ℤ) : Prop := -2147483648 ≤ z ∧ z ≤ 2147483647

/-- The cast `(unsigned)`. -/
def toUnsigned (z : ℤ) : ℤ := z % 4294967296

/-- `skin_rect_translate`. -/
def skinRectTranslate (r : SkinRect) (dx dy : ℤ) : SkinRect := { r with x := r.x + dx, y := r.y + dy }

/-- `skin_rect_contains`. -/
def skinRectContains (r : SkinRect) (x y : ℤ) : Bool :=
  decide (toUnsigned (x - r.x) < toUnsigned r.w ∧ toUnsigned (y - r.y) < toUnsigned r.h)

/-- `skin_box_from_rect`. -/
def skinBoxFromRect (r : SkinRect) : SkinBox := ⟨r.x, r.y, r.w + r.x, r.h + r.y⟩

/-- `skin_box_to_rect`. -/
def skinBoxToRect (b : SkinBox) : SkinRect := ⟨b.x1, b.y1, b.x2 - b.x1, b.y2 - b.y1⟩

/-- `skin_rect_contains_rect`. -/
def skinRectContainsRect (r1 r2 : SkinRect) : SkinOverlap :=
  let a := skinBoxFromRect r1
  let b := skinBoxFromRect r2
  if a.x2 ≤ b.x1 ∨ b.x2 ≤ a.x1 ∨ a.y2 ≤ b.y1 ∨ b.y2 ≤ a.y1 then .outside
  else if a.x1 ≤ b.x1 ∧ b.x2 ≤ a.x2 ∧ a.y1 ≤ b.y1 ∧ b.y2 ≤ a.y2 then .inside
  else .overlap

/-- For small coordinates the unsigned comparison is membership in an interval. -/
theorem toUnsigned_lt_iff {x l w : ℤ} (hx : IsInt x) (hl : -32768 ≤ l ∧ l ≤ 32767) (hw : 0 ≤ w ∧ w ≤ 65535) :
    toUnsigned (x - l) < toUnsigned w ↔ l ≤ x ∧ x < l + w := by
  unfold toUnsigned IsInt at *
  omega

end Emulator.Skin
