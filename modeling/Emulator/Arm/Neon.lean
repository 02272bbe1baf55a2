import Mathlib.Tactic
import Emulator.Arm.Cpsr
import Emulator.Lib.Lanes

/-!
# NEON helpers (`target-arm/neon_helper.c`)

Most helpers are one macro `NEON_FN` for a lane, on every lane of a word. A lane is a value of its
C type, and `NEON_FN` computes with the promotions of C.

* `neonVop` and `neonVopEnv` are `NEON_VOP` and `NEON_VOP_ENV`. A helper on 64 bits has one lane.
* A lane that shifts by an amount that its type does not have is an error (`none`).
* `neonVop_iff`, `neonVopEnv_iff`: what a helper does, by what it does on the lanes.
-/

namespace Emulator.Arm

open Lib List

/-- The types of lanes. -/
inductive NeonType
  | s8
  | u8
  | s16
  | u16
  | s32
  | u32
  | s64
  | u64
  deriving DecidableEq

namespace NeonType

def int : NeonType → IntType
  | .s8 => .int8
  | .u8 => .uint8
  | .s16 => .int16
  | .u16 => .uint16
  | .s32 => .int32
  | .u32 => .uint32
  | .s64 => .int64
  | .u64 => .uint64

/-- How many lanes there are. -/
def lanes : NeonType → ℕ
  | .s8 | .u8 => 4
  | .s16 | .u16 => 2
  | .s32 | .u32 => 1
  | .s64 | .u64 => 1

/-- The width of the operands. -/
def word : NeonType → ℕ
  | .s64 | .u64 => 64
  | _ => 32

theorem width_mul_lanes (t : NeonType) : t.int.width * t.lanes = t.word := by cases t <;> rfl

end NeonType

/-- `SIGNBIT`. -/
def signBit : Word := 0x80000000#32

/-- `SIGNBIT64`. -/
def signBit64 : BitVec 64 := 1#64 <<< 63

/-- `NEON_VOP`, for the `NEON_FN` of a lane. -/
def neonVop (t : NeonType) (fn : ℤ → ℤ → Option ℤ) (arg1 arg2 : BitVec t.word) : Option (BitVec t.word) := do
  let vdest ← (List.range t.lanes).mapM fun i => fn (lane t.int arg1 i) (lane t.int arg2 i)
  return packLanes t.word t.int vdest

/-- The state with the registers of VFP. -/
structure NeonState extends CPUARMState where
  xregs : Fin 16 → Word

deriving instance Inhabited for CPUARMState, NeonState

/-- `ARM_VFP_FPSCR`. -/
def armVfpFpscr : Fin 16 := 1

namespace NeonState

def fpscr (env : NeonState) : Word := env.xregs armVfpFpscr

/-- `SET_QC`. -/
def setQc (env : NeonState) : NeonState := { env with xregs := Function.update env.xregs armVfpFpscr cpsrQ }

/-- The bit QC. -/
def qc (env : NeonState) : Bool := env.fpscr.getLsbD 27

@[simp] theorem setQc_fpscr (env : NeonState) : env.setQc.fpscr = cpsrQ := by
  simp [setQc, fpscr]

@[simp] theorem setQc_qc (env : NeonState) : env.setQc.qc = true := by
  rw [qc, setQc_fpscr]
  rfl

@[simp] theorem setQc_setQc (env : NeonState) : env.setQc.setQc = env.setQc := by
  simp [setQc]

/-- `SET_QC` in some of the lanes. -/
def setQcIf (env : NeonState) (saturated : List Bool) : NeonState :=
  saturated.foldl (fun env sat => if sat then env.setQc else env) env

theorem setQcIf_eq (env : NeonState) (saturated : List Bool) :
    env.setQcIf saturated = if true ∈ saturated then env.setQc else env := by
  have hset : ∀ l, env.setQc.setQcIf l = env.setQc := by
    intro l
    induction l with
    | nil => rfl
    | cons sat l ih =>
      rw [setQcIf, foldl_cons]
      cases sat with
      | true => simpa [setQcIf] using ih
      | false => exact ih
  induction saturated with
  | nil => rfl
  | cons sat l ih =>
    cases sat with
    | true => simpa [setQcIf] using hset l
    | false => simpa [setQcIf] using ih

end NeonState

/-- `NEON_VOP_ENV`: `fn` gives the lane, and whether it is one that executes `SET_QC`. -/
def neonVopEnv (t : NeonType) (fn : ℤ → ℤ → Option (ℤ × Bool)) (env : NeonState) (arg1 arg2 : BitVec t.word) :
    Option (NeonState × BitVec t.word) := do
  let vdest ← (List.range t.lanes).mapM fun i => fn (lane t.int arg1 i) (lane t.int arg2 i)
  return (env.setQcIf (vdest.map Prod.snd), packLanes t.word t.int (vdest.map Prod.fst))

variable {t : NeonType} {P : ℕ → ℤ → Prop} {R : NeonState → Prop}

theorem lane_range {g : ℕ → ℤ} {i : ℕ} (hi : i < t.lanes) :
    lane t.int (packLanes t.word t.int ((List.range t.lanes).map g)) i = t.int.wrap (g i) := by
  rw [lane_packLanes (by rw [length_map, length_range, t.width_mul_lanes]) (by simpa using hi)]
  simp

variable {arg1 arg2 : BitVec t.word}

/-- **A helper is right exactly if it is right on each lane.** -/
theorem neonVop_iff {fn : ℤ → ℤ → Option ℤ} :
    (∃ res, neonVop t fn arg1 arg2 = some res ∧ ∀ i < t.lanes, P i (lane t.int res i)) ↔
      ∀ i < t.lanes, ∃ dest, fn (lane t.int arg1 i) (lane t.int arg2 i) = some dest ∧ P i (t.int.wrap dest) := by
  have hbind : (∃ res, neonVop t fn arg1 arg2 = some res ∧ ∀ i < t.lanes, P i (lane t.int res i)) ↔
      ∃ vdest, (List.range t.lanes).mapM (fun i => fn (lane t.int arg1 i) (lane t.int arg2 i)) = some vdest ∧
        ∀ i < t.lanes, P i (lane t.int (packLanes t.word t.int vdest) i) := by
    simp [neonVop, Option.bind_eq_some_iff]
  rw [hbind, lanesM_iff]
  constructor
  · rintro ⟨g, hg, hP⟩ i hi
    exact ⟨g i, hg i hi, lane_range hi ▸ hP i hi⟩
  · intro h
    obtain ⟨g, hg⟩ := choose_lanes h
    exact ⟨g, fun i hi => (hg i hi).1, fun i hi => (lane_range hi).symm ▸ (hg i hi).2⟩

variable {fn : ℤ → ℤ → Option (ℤ × Bool)}

theorem neonVopEnv_some {g : ℕ → ℤ × Bool}
    (h : ∀ i < t.lanes, fn (lane t.int arg1 i) (lane t.int arg2 i) = some (g i)) (env : NeonState) :
    neonVopEnv t fn env arg1 arg2 = some (if ∃ i < t.lanes, (g i).2 = true then env.setQc else env,
      packLanes t.word t.int ((List.range t.lanes).map fun i => (g i).1)) := by
  rw [neonVopEnv, mapM_of_some fun i hi => h i (mem_range.1 hi)]
  refine congrArg some (Prod.ext ?_ ?_)
  · change env.setQcIf _ = _
    rw [NeonState.setQcIf_eq]
    simp
  · exact congrArg (packLanes t.word t.int) map_map

theorem neonVopEnv_none {i : ℕ} (hi : i < t.lanes)
    (h : fn (lane t.int arg1 i) (lane t.int arg2 i) = none) (env : NeonState) :
      neonVopEnv t fn env arg1 arg2 = none := by
  rw [neonVopEnv, mapM_of_none (mem_range.2 hi) h]
  rfl

/-- The same with the flag, which is set if some lane sets it. -/
theorem neonVopEnv_iff {env : NeonState} :
    (∃ env' res, neonVopEnv t fn env arg1 arg2 = some (env', res) ∧ (∀ i < t.lanes, P i (lane t.int res i)) ∧ R env') ↔
      ∃ g : ℕ → ℤ × Bool, (∀ i < t.lanes, fn (lane t.int arg1 i) (lane t.int arg2 i) = some (g i)) ∧
        (∀ i < t.lanes, P i (t.int.wrap (g i).1)) ∧
        ((∃ i < t.lanes, (g i).2 = true) → R env.setQc) ∧ ((∀ i < t.lanes, (g i).2 = false) → R env) := by
  have hbind : (∃ env' res, neonVopEnv t fn env arg1 arg2 = some (env', res) ∧
      (∀ i < t.lanes, P i (lane t.int res i)) ∧ R env') ↔
      ∃ vdest, (List.range t.lanes).mapM (fun i => fn (lane t.int arg1 i) (lane t.int arg2 i)) = some vdest ∧
        (∀ i < t.lanes, P i (lane t.int (packLanes t.word t.int (vdest.map Prod.fst)) i)) ∧
          R (env.setQcIf (vdest.map Prod.snd)) := by
    simp only [neonVopEnv, Option.bind_eq_bind, Option.bind_eq_some_iff, Option.pure_def, Option.some.injEq,
      Prod.mk.injEq]
    constructor
    · rintro ⟨env', res, ⟨vdest, hv, rfl, rfl⟩, h⟩
      exact ⟨vdest, hv, h⟩
    · rintro ⟨vdest, hv, h⟩
      exact ⟨_, _, ⟨vdest, hv, rfl, rfl⟩, h⟩
  rw [hbind, lanesM_iff]
  refine exists_congr fun g => and_congr_right fun hg => ?_
  have hlane : ∀ i < t.lanes, lane t.int (packLanes t.word t.int (((List.range t.lanes).map g).map Prod.fst)) i =
      t.int.wrap (g i).1 := by
    intro i hi
    rw [map_map]
    exact lane_range hi
  refine and_congr (forall₂_congr fun i hi => by rw [hlane i hi]) ?_
  rw [NeonState.setQcIf_eq]
  have hmem : true ∈ ((List.range t.lanes).map g).map Prod.snd ↔ ∃ i < t.lanes, (g i).2 = true := by simp
  split_ifs with hsat
  · exact ⟨fun h => ⟨fun _ => h, fun hnone => absurd (hmem.1 hsat) (by simpa using hnone)⟩, fun h => h.1 (hmem.1 hsat)⟩
  · have hnone : ∀ i < t.lanes, (g i).2 = false := by
      intro i hi
      by_contra hne
      exact hsat (hmem.2 ⟨i, hi, by simpa using hne⟩)
    exact ⟨fun h => ⟨fun hex => absurd (hmem.2 hex) hsat, fun _ => h⟩, fun h => h.2 hnone⟩

end Emulator.Arm
