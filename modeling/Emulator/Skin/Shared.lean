import Emulator.Lib.RefCount
import Emulator.Skin.RegionOps

/-!
# Regions that share their runs

The store level under the region values. Copies of a region point to one run store, and `runstore_edit` copies a
store that its count says is shared. `runstore_unrefp` does not lower the count, so a count can be too large. The
temporary store of a region operator is left out: no region ever points to it.
-/

namespace Emulator.Skin.Shared

open Function

/-- The field `runs`: `RUNS_EMPTY`, `RUNS_RECT` or a pointer into a run store. -/
inductive RunsPtr
  | empty
  | rect
  | store (s : ℕ)
  deriving DecidableEq, Repr

structure RunStore where
  refcount : ℤ
  runs : List Band

structure Region where
  bounds : SkinRect
  runs : RunsPtr

/-- `malloc` hands out the stores in order. A store that is `none` is not allocated: it never was, or it was freed. -/
structure Heap where
  stores : ℕ → Option RunStore
  next : ℕ

/-- A write to a store. -/
def Heap.put (h : Heap) (s : ℕ) (st : RunStore) : Heap := { h with stores := update h.stores s (some st) }

/-- `runstore_free`. -/
def runstoreFree (h : Heap) (s : ℕ) : Heap := { h with stores := update h.stores s none }

/-- `runstore_alloc`, with the runs that are written to the store. -/
def runstoreAlloc (h : Heap) (runs : List Band) : Heap × ℕ :=
  ({ h.put h.next ⟨1, runs⟩ with next := h.next + 1 }, h.next)

/-- `runstore_edit`. -/
def runstoreEdit (h : Heap) (s : ℕ) : Option (Heap × ℕ) := do
  let st ← h.stores s
  if st.refcount = 1 then some (h, s)
  else
    let (h2, s2) := runstoreAlloc h st.runs
    some (h2.put s { st with refcount := st.refcount - 1 }, s2)

/-- `runstore_unrefp`. -/
def runstoreUnrefp (h : Heap) (s : ℕ) : Option Heap := do
  let st ← h.stores s
  some (if st.refcount ≤ 0 then runstoreFree h s else h)

/-- `runstore_ref`. The count is an `int`: the behaviour is undefined where it overflows. -/
def runstoreRef (h : Heap) (s : ℕ) : Option Heap := do
  let st ← h.stores s
  if st.refcount = 2147483647 then none else some (h.put s { st with refcount := st.refcount + 1 })

/-- The regions of a program, by their addresses, and the run stores. -/
structure Family (ι : Type) where
  regions : ι → Region
  heap : Heap

/-- What a region stands for; `none` if its store is not allocated. -/
def readRegion (h : Heap) (region : Region) : Option SkinRegion :=
  match region.runs with
  | .empty => some ⟨region.bounds, .empty⟩
  | .rect => some ⟨region.bounds, .rect⟩
  | .store s => (h.stores s).map fun st => ⟨region.bounds, .complex st.runs⟩

def Family.value {ι : Type} (f : Family ι) (r : ι) : Option SkinRegion := readRegion f.heap (f.regions r)

variable {ι : Type} [DecidableEq ι]

def Family.set (f : Family ι) (r : ι) (region : Region) : Family ι := { f with regions := update f.regions r region }

/-- Every region is empty and nothing is allocated. -/
def Family.start : Family ι := ⟨fun _ => ⟨⟨0, 0, 0, 0⟩, .empty⟩, ⟨fun _ => none, 0⟩⟩

/-- `skin_region_init_empty`. -/
def skinRegionInitEmpty (f : Family ι) (r : ι) : Family ι := f.set r ⟨⟨0, 0, 0, 0⟩, .empty⟩

/-- `skin_region_init`. -/
def skinRegionInit (f : Family ι) (r : ι) (x1 y1 x2 y2 : ℤ) : Family ι :=
  if x2 ≤ x1 ∨ y2 ≤ y1 then skinRegionInitEmpty f r else f.set r ⟨⟨x1, y1, x2 - x1, y2 - y1⟩, .rect⟩

/-- `skin_region_init_rect`. -/
def skinRegionInitRect (f : Family ι) (r : ι) : Option SkinRect → Family ι
  | none => skinRegionInitEmpty f r
  | some rect => if rect.w ≤ 0 ∨ rect.h ≤ 0 then skinRegionInitEmpty f r else f.set r ⟨rect, .rect⟩

/-- `skin_region_init_box`. -/
def skinRegionInitBox (f : Family ι) (r : ι) : Option SkinBox → Family ι
  | none => skinRegionInitEmpty f r
  | some b => skinRegionInit f r b.x1 b.y1 b.x2 b.y2

/-- `skin_region_init_copy`; `src` may be `NULL`. -/
def skinRegionInitCopy (f : Family ι) (r : ι) : Option ι → Option (Family ι)
  | none => some (skinRegionInitEmpty f r)
  | some src =>
    match (f.regions src).runs with
    | .empty => some (skinRegionInitEmpty f r)
    | .rect => some (f.set r (f.regions src))
    | .store s => do
      let heap ← runstoreRef f.heap s
      some { f.set r (f.regions src) with heap := heap }

/-- `skin_region_reset`. -/
def skinRegionReset (f : Family ι) (r : ι) : Option (Family ι) :=
  match (f.regions r).runs with
  | .store s => do
    let heap ← runstoreUnrefp f.heap s
    some (skinRegionInitEmpty { f with heap := heap } r)
  | _ => some (skinRegionInitEmpty f r)

/-- `skin_region_copy`. -/
def skinRegionCopy (f : Family ι) (r : ι) (src : Option ι) : Option (Family ι) := do
  let f ← skinRegionReset f r
  skinRegionInitCopy f r src

/-- The loops of `skin_region_translate`. -/
def translateRuns (dx dy : ℤ) (bands : List Band) : List Band :=
  bands.map fun b => ⟨toRun (b.ytop + dy), toRun (b.ybot + dy), b.spans.map fun s =>
    (toRun (s.1 + dx), toRun (s.2 + dx))⟩

/-- `skin_region_translate`. -/
def skinRegionTranslate (f : Family ι) (r : ι) (dx dy : ℤ) : Option (Family ι) :=
  let bounds := skinRectTranslate (f.regions r).bounds dx dy
  match (f.regions r).runs with
  | .empty => some f
  | .rect => some (f.set r ⟨bounds, .rect⟩)
  | .store s => do
    let (heap, s) ← runstoreEdit f.heap s
    let st ← heap.stores s
    some { f.set r ⟨bounds, .store s⟩ with heap := heap.put s { st with runs := translateRuns dx dy st.runs } }

/-- `skin_region_swap`. -/
def skinRegionSwap (f : Family ι) (r r2 : ι) : Family ι := (f.set r (f.regions r2)).set r2 (f.regions r)

/-- The region that `region_operator_done` makes of a result. -/
def makeResult (h : Heap) (result : SkinRegion) : Heap × Region :=
  match result.runs with
  | .empty => (h, ⟨result.bounds, .empty⟩)
  | .rect => (h, ⟨result.bounds, .rect⟩)
  | .complex bands =>
    let (h, s) := runstoreAlloc h bands
    (h, ⟨result.bounds, .store s⟩)

/-- The three calls of a region operator, the swap of `r` with the result and the reset of what `r` was. -/
def regionOperator (wanted : Wanted) (f : Family ι) (r r2 : ι) : Option (Family ι) := do
  let v ← f.value r
  let v2 ← f.value r2
  let (heap, region) := makeResult f.heap (Skin.regionOperator wanted v v2)
  let f' := { f.set r region with heap := heap }
  match (f.regions r).runs with
  | .store s => do
    let heap ← runstoreUnrefp f'.heap s
    some { f' with heap := heap }
  | _ => some f'

/-- `skin_region_intersect`. -/
def skinRegionIntersect (f : Family ι) (r r2 : ι) : Option (Family ι) :=
  if (f.regions r).runs = .empty ∨ (f.regions r2).runs = .empty then some f
  else if skinRectContainsRect (f.regions r).bounds (f.regions r2).bounds = .outside then some (skinRegionInitEmpty f r)
  else regionOperator ⟨false, false, true⟩ f r r2

/-- `skin_region_union`. -/
def skinRegionUnion (f : Family ι) (r r2 : ι) : Option (Family ι) :=
  if (f.regions r).runs = .empty then skinRegionCopy f r (some r2)
  else if (f.regions r2).runs = .empty then some f
  else regionOperator ⟨true, true, true⟩ f r r2

/-- `skin_region_substract`. -/
def skinRegionSubstract (f : Family ι) (r r2 : ι) : Option (Family ι) :=
  if (f.regions r).runs = .empty ∨ (f.regions r2).runs = .empty then some f
  else if skinRectContainsRect (f.regions r).bounds (f.regions r2).bounds = .outside then some (skinRegionInitEmpty f r)
  else regionOperator ⟨true, false, false⟩ f r r2

/-- `skin_region_xor`. -/
def skinRegionXor (f : Family ι) (r r2 : ι) : Option (Family ι) :=
  if (f.regions r).runs = .empty then skinRegionCopy f r (some r2)
  else if (f.regions r2).runs = .empty then some f
  else if skinRectContainsRect (f.regions r).bounds (f.regions r2).bounds = .outside then some (skinRegionInitEmpty f r)
  else regionOperator ⟨true, false, false⟩ f r r2

inductive Op (ι : Type)
  | initEmpty (r : ι)
  | init (r : ι) (x1 y1 x2 y2 : ℤ)
  | initRect (r : ι) (rect : Option SkinRect)
  | initBox (r : ι) (box : Option SkinBox)
  | initCopy (r : ι) (src : Option ι)
  | reset (r : ι)
  | copy (r : ι) (src : Option ι)
  | translate (r : ι) (dx dy : ℤ)
  | swap (r r2 : ι)
  | intersect (r r2 : ι)
  | union (r r2 : ι)
  | substract (r r2 : ι)
  | xor (r r2 : ι)

/-- The call; `none` where it reads a store that is not allocated, or where a count overflows. -/
def Op.run (f : Family ι) : Op ι → Option (Family ι)
  | .initEmpty r => some (skinRegionInitEmpty f r)
  | .init r x1 y1 x2 y2 => some (skinRegionInit f r x1 y1 x2 y2)
  | .initRect r rect => some (skinRegionInitRect f r rect)
  | .initBox r box => some (skinRegionInitBox f r box)
  | .initCopy r src => skinRegionInitCopy f r src
  | .reset r => skinRegionReset f r
  | .copy r src => skinRegionCopy f r src
  | .translate r dx dy => skinRegionTranslate f r dx dy
  | .swap r r2 => some (skinRegionSwap f r r2)
  | .intersect r r2 => skinRegionIntersect f r r2
  | .union r r2 => skinRegionUnion f r r2
  | .substract r r2 => skinRegionSubstract f r r2
  | .xor r r2 => skinRegionXor f r r2

/-- No coordinate of the runs leaves the range of a `SkinRegionRun` or becomes the sentinel. -/
def TranslateFits (f : Family ι) (r : ι) (dx dy : ℤ) : Prop :=
  ∀ v ∈ f.value r, ∀ bands, v.runs = .complex bands → ∀ b ∈ bands,
    InRun (b.ytop + dy) ∧ InRun (b.ybot + dy) ∧ ∀ s ∈ b.spans, InRun (s.1 + dx) ∧ InRun (s.2 + dx)

/-- The operands of a region operator have run coordinates. -/
def OperandsFit (f : Family ι) (r r2 : ι) : Prop := (∀ v ∈ f.value r, RegionOk v) ∧ ∀ v ∈ f.value r2, RegionOk v

/-- What the caller of a function keeps to. -/
def Op.Fits (f : Family ι) : Op ι → Prop
  | .translate r dx dy => TranslateFits f r dx dy
  | .intersect r r2 | .union r r2 | .substract r r2 | .xor r r2 => OperandsFit f r r2
  | _ => True

/-- **The families that calls of the API make.** -/
inductive Reached : Family ι → Prop
  | start : Reached Family.start
  | step {f f' : Family ι} (op : Op ι) (h : Reached f) (hfit : op.Fits f) (hrun : op.run f = some f') : Reached f'

end Emulator.Skin.Shared
