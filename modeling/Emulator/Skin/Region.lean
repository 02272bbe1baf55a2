import Emulator.Skin.Rect

/-!
# Skin regions

`android/skin/region.c`. The runs of a region are read as the source's grammar
says,

    region ::= yband+ YSENTINEL    yband ::= YTOP YBOTTOM span+ XSENTINEL

so a run list is a list of bands, each with its list of spans, and a pointer into
the runs is what is left of a list. Run stores are shared between copies and
edited after a copy (`runstore_edit`), so a region is modelled by its value. The
temporary store of `region_operator_do` is taken to be large enough, and
`runs_coalesce`, which works in place, never writes ahead of what it reads.
-/

namespace Emulator.Skin

def SKIN_REGION_SENTINEL : ℤ := 0x7fff

/-- YTOP YBOT XLEFT XRIGHT XSENTINEL YSENTINEL -/
def RUNS_RECT_COUNT : ℕ := 6

/-- A span `XLEFT XRIGHT`. -/
abbrev Span := ℤ × ℤ

structure Band where
  ytop : ℤ
  ybot : ℤ
  spans : List Span
  deriving DecidableEq, Repr

/-- The field `runs`: `RUNS_EMPTY`, `RUNS_RECT` or a run list. -/
inductive Runs
  | empty
  | rect
  | complex (bands : List Band)
  deriving DecidableEq, Repr

structure SkinRegion where
  bounds : SkinRect
  runs : Runs
  deriving DecidableEq, Repr

/-- The cast to `SkinRegionRun`, a `signed short`. -/
def toRun (z : ℤ) : ℤ := z.bmod 65536

/-- The number of cells of a run list with its sentinels. -/
def runsCount (bands : List Band) : ℕ := (bands.map fun b => 2 * b.spans.length + 3).sum + 1

/-- `runs_set_rect`. -/
def runsSetRect (r : SkinRect) : List Band := [⟨toRun r.y, toRun (r.y + r.h), [(toRun r.x, toRun (r.x + r.w))]⟩]

/-- The loop of `runs_coalesce_band`. A span that does not start at `pright` only
makes the loop emit the current one again: `pleft` and `pright` stay. -/
def coalesceSpans (pleft : ℤ) : ℤ → List Span → List Span × ℤ
  | pright, [] => ([(pleft, pright)], pright)
  | pright, (xleft, xright) :: spans =>
    if xleft = pright then coalesceSpans pleft xright spans
    else ((pleft, pright) :: (coalesceSpans pleft pright spans).1, (coalesceSpans pleft pright spans).2)

/-- `runs_coalesce_band`: the spans written and the new `minmax`. -/
def runsCoalesceBand (spans : List Span) (minmax : SkinBox) : List Span × SkinBox :=
  match spans with
  | [] => ([], minmax)
  | (pleft, pright) :: spans =>
    let (out, pright) := coalesceSpans pleft pright spans
    (out, { minmax with x1 := min minmax.x1 pleft, x2 := max minmax.x2 pright })

/-- The loop of `runs_coalesce`, with the band `prev` that is not final yet. -/
def runsCoalesce : Option Band → SkinBox → List Band → List Band × SkinBox
  | prev, minmax, [] => (prev.toList, minmax)
  | prev, minmax, src :: rest =>
    let (spans, minmax) := runsCoalesceBand src.spans
      { minmax with y1 := min minmax.y1 src.ytop, y2 := max minmax.y2 src.ybot }
    let dst : Band := ⟨src.ytop, src.ybot, spans⟩
    match prev with
    | none => runsCoalesce (some dst) minmax rest
    | some p =>
      if p.ybot = dst.ytop ∧ p.spans = dst.spans then
        runsCoalesce (some { p with ybot := dst.ybot }) minmax rest
      else
        let r := runsCoalesce (some dst) minmax rest
        (p :: r.1, r.2)

/-- `skin_region_init_empty`. -/
def skinRegionInitEmpty : SkinRegion := ⟨⟨0, 0, 0, 0⟩, .empty⟩

/-- `skin_region_init`. -/
def skinRegionInit (x1 y1 x2 y2 : ℤ) : SkinRegion :=
  if x2 ≤ x1 ∨ y2 ≤ y1 then skinRegionInitEmpty else ⟨⟨x1, y1, x2 - x1, y2 - y1⟩, .rect⟩

/-- `skin_region_init_rect`; `none` is a null pointer. -/
def skinRegionInitRect : Option SkinRect → SkinRegion
  | none => skinRegionInitEmpty
  | some r => if r.w ≤ 0 ∨ r.h ≤ 0 then skinRegionInitEmpty else ⟨r, .rect⟩

/-- `skin_region_init_box`; `none` is a null pointer. -/
def skinRegionInitBox : Option SkinBox → SkinRegion
  | none => skinRegionInitEmpty
  | some b => skinRegionInit b.x1 b.y1 b.x2 b.y2

/-- `skin_region_init_copy`. -/
def skinRegionInitCopy (src : SkinRegion) : SkinRegion :=
  if src.runs = .empty then skinRegionInitEmpty else src

/-- `skin_region_copy`: what `r` was does not matter. -/
def skinRegionCopy (_r src : SkinRegion) : SkinRegion := skinRegionInitCopy src

/-- `skin_region_translate`. -/
def skinRegionTranslate (r : SkinRegion) (dx dy : ℤ) : SkinRegion :=
  match r.runs with
  | .empty => r
  | .rect => { r with bounds := skinRectTranslate r.bounds dx dy }
  | .complex bands =>
    { bounds := skinRectTranslate r.bounds dx dy
      runs := .complex (bands.map fun b =>
        ⟨toRun (b.ytop + dy), toRun (b.ybot + dy), b.spans.map fun s => (toRun (s.1 + dx), toRun (s.2 + dx))⟩) }

/-- `runs_find_y`: the band of the line `y`. -/
def runsFindY : List Band → ℤ → Option Band
  | [], _ => none
  | b :: bands, y => if y < b.ytop then none else if y < b.ybot then some b else runsFindY bands y

/-- The loop of `skin_region_contains` over the spans of a band. -/
def spansContain : List Span → ℤ → Bool
  | [], _ => false
  | (xleft, xright) :: spans, x =>
    if x < xleft then false
    else if xright = SKIN_REGION_SENTINEL then false
    else if x < xright then true
    else spansContain spans x

/-- `skin_region_contains`, as whether it is `SKIN_INSIDE`. -/
def skinRegionContains (r : SkinRegion) (x y : ℤ) : Bool :=
  match r.runs with
  | .empty => false
  | .rect => skinRectContains r.bounds x y
  | .complex bands =>
    match runsFindY bands y with
    | none => false
    | some b => spansContain b.spans x

/-- The flags `FLAG_REGION_1`, `FLAG_REGION_2` and `FLAG_REGION_BOTH`. -/
structure Wanted where
  region1 : Bool
  region2 : Bool
  both : Bool
  deriving DecidableEq, Repr

/-- The span merge of the common band. The left end of the first span of each list
is the source's `xleft`. -/
def sweepSpans (wanted : Wanted) (spans1 spans2 : List Span) : List Span :=
  match spans1, spans2 with
  | [], [] => []
  | [], ys => if wanted.region2 then ys else []
  | xs, [] => if wanted.region1 then xs else []
  | (xleft1, xright1) :: xs, (xleft2, xright2) :: ys =>
    if xright1 ≤ xleft2 then
      (if wanted.region1 then [(xleft1, xright1)] else []) ++ sweepSpans wanted xs ((xleft2, xright2) :: ys)
    else if xright2 ≤ xleft1 then
      (if wanted.region2 then [(xleft2, xright2)] else []) ++ sweepSpans wanted ((xleft1, xright1) :: xs) ys
    else
      let before :=
        if xleft1 < xleft2 then if wanted.region1 then [(xleft1, xleft2)] else []
        else if xleft2 < xleft1 then if wanted.region2 then [(xleft2, xleft1)] else []
        else []
      let xleft := max xleft1 xleft2
      let xright := if xright1 ≤ xright2 then xright1 else xright2
      before ++ (if wanted.both then [(xleft, xright)] else []) ++
        (if xright1 = xright2 then sweepSpans wanted xs ys
        else if xright1 < xright2 then sweepSpans wanted xs ((xright, xright2) :: ys)
        else sweepSpans wanted ((xright, xright1) :: xs) ys)
termination_by spans1.length + spans2.length

/-- The band merge of `region_operator_do`. The top of the first band of each list is
the source's `ytop`. -/
def regionOperatorDo (wanted : Wanted) (runs1 runs2 : List Band) : List Band :=
  match runs1, runs2 with
  | [], [] => []
  | [], bs2 => if wanted.region2 then bs2 else []
  | bs1, [] => if wanted.region1 then bs1 else []
  | b1 :: bs1, b2 :: bs2 =>
    if b1.ybot ≤ b2.ytop then
      (if wanted.region1 then [b1] else []) ++ regionOperatorDo wanted bs1 (b2 :: bs2)
    else if b2.ybot ≤ b1.ytop then
      (if wanted.region2 then [b2] else []) ++ regionOperatorDo wanted (b1 :: bs1) bs2
    else
      let before :=
        if b1.ytop < b2.ytop then if wanted.region1 then [{ b1 with ybot := b2.ytop }] else []
        else if b2.ytop < b1.ytop then if wanted.region2 then [{ b2 with ybot := b1.ytop }] else []
        else []
      let ytop := max b1.ytop b2.ytop
      let ybot := if b1.ybot ≤ b2.ybot then b1.ybot else b2.ybot
      let spans := sweepSpans wanted b1.spans b2.spans
      before ++ (if spans = [] then [] else [⟨ytop, ybot, spans⟩]) ++
        (if b1.ybot = b2.ybot then regionOperatorDo wanted bs1 bs2
        else if b1.ybot < b2.ybot then regionOperatorDo wanted bs1 ({ b2 with ytop := ybot } :: bs2)
        else regionOperatorDo wanted ({ b1 with ytop := ybot } :: bs1) bs2)
termination_by runs1.length + runs2.length

/-- The runs that `region_operator_init` reads of a region that is not empty. -/
def operandRuns (r : SkinRegion) : List Band :=
  match r.runs with
  | .complex bands => bands
  | _ => runsSetRect r.bounds

/-- `region_operator_done`: the result region. -/
def regionOperatorDone (runs : List Band) : SkinRegion :=
  if runs = [] then skinRegionInitEmpty
  else
    let (bands, minmax) := runsCoalesce none ⟨2147483647, 2147483647, -2147483648, -2147483648⟩ runs
    if runsCount bands = 1 then skinRegionInitEmpty
    else if runsCount bands = RUNS_RECT_COUNT then ⟨skinBoxToRect minmax, .rect⟩
    else ⟨skinBoxToRect minmax, .complex bands⟩

/-- The three calls of a region operator. -/
def regionOperator (wanted : Wanted) (r r2 : SkinRegion) : SkinRegion :=
  regionOperatorDone (regionOperatorDo wanted (operandRuns r) (operandRuns r2))

/-- `skin_region_intersect`: the region and the result of the call. -/
def skinRegionIntersect (r r2 : SkinRegion) : SkinRegion × ℤ :=
  if r.runs = .empty then (r, 0)
  else if r2.runs = .empty then (r, 1)
  else if skinRectContainsRect r.bounds r2.bounds = .outside then (skinRegionInitEmpty, 0)
  else
    let result := regionOperator ⟨false, false, true⟩ r r2
    (result, if result.runs = .empty then 1 else 0)

/-- `skin_region_union`. -/
def skinRegionUnion (r r2 : SkinRegion) : SkinRegion :=
  if r.runs = .empty then skinRegionCopy r r2
  else if r2.runs = .empty then r
  else regionOperator ⟨true, true, true⟩ r r2

/-- `skin_region_substract`. -/
def skinRegionSubstract (r r2 : SkinRegion) : SkinRegion :=
  if r.runs = .empty ∨ r2.runs = .empty then r
  else if skinRectContainsRect r.bounds r2.bounds = .outside then skinRegionInitEmpty
  else regionOperator ⟨true, false, false⟩ r r2

/-- `skin_region_xor`, which calls the operator with `FLAG_REGION_1` alone. -/
def skinRegionXor (r r2 : SkinRegion) : SkinRegion :=
  if r.runs = .empty then skinRegionCopy r r2
  else if r2.runs = .empty then r
  else if skinRectContainsRect r.bounds r2.bounds = .outside then skinRegionInitEmpty
  else regionOperator ⟨true, false, false⟩ r r2

end Emulator.Skin
