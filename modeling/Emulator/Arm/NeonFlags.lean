import Mathlib.Tactic
import Emulator.Arm.NeonSatShift
import Emulator.Arm.NeonSaturate

/-!
# What saturating NEON helpers do to the state (`target-arm/neon_helper.c`, `op_helper.c`)

The architecture changes one bit: QC of FPSCR, which a lane that saturates sets. `SET_QC` stores the
bit alone in the register, and the 64-bit sums and differences set the integer flag Q.

* `NeonCall.step_eq`: what a helper does to the state.
* `flags_iff`: which runs of helpers change QC only.
-/

namespace Emulator.Arm

open Function Lib List

/-- A call of a saturating helper. -/
inductive NeonCall
  | arith (helper : SatHelper) (arg1 arg2 : BitVec helper.srcWord)
  | shift (rounding : Bool) (t : NeonType) (arg1 arg2 : BitVec t.word)

namespace NeonCall

/-- The state after a call. -/
def step (host : Host) (env : NeonState) : NeonCall → Option NeonState
  | arith helper arg1 arg2 => (helper.run env arg1 arg2).map Prod.fst
  | shift rounding t arg1 arg2 => (neonQshl host rounding t env arg1 arg2).map Prod.fst

/-- A lane saturates. -/
def Saturates : NeonCall → Prop
  | arith helper arg1 arg2 =>
    ∃ i < helper.lanes, ¬ helper.dest.Holds (helper.exact (lane helper.src arg1 i) (lane helper.src arg2 i))
  | shift rounding t arg1 arg2 =>
    ∃ i < t.lanes, ¬ t.int.Holds (shiftExact rounding (lane t.int arg1 i) (amount (lane t.int arg2 i)))

end NeonCall

namespace NeonState

/-- QC, set. -/
def orQc (env : NeonState) : NeonState :=
  { env with xregs := update env.xregs armVfpFpscr (env.fpscr ||| cpsrQ) }

@[simp] theorem orQc_fpscr (env : NeonState) : env.orQc.fpscr = env.fpscr ||| cpsrQ := by
  simp [orQc, fpscr]

@[simp] theorem orQc_orQc (env : NeonState) : env.orQc.orQc = env.orQc := by
  simp [orQc, fpscr, BitVec.or_assoc]

theorem eq_iff_fpscr {env : NeonState} {v w : Word} :
    ({ env with xregs := update env.xregs armVfpFpscr v } : NeonState) =
      { env with xregs := update env.xregs armVfpFpscr w } ↔ v = w := by
  constructor
  · intro h
    simpa [fpscr] using congrArg fpscr h
  · rintro rfl
    rfl

theorem eq_self_iff_fpscr {env : NeonState} {v : Word} :
    ({ env with xregs := update env.xregs armVfpFpscr v } : NeonState) = env ↔ v = env.fpscr := by
  conv_lhs => rhs; rw [show env = { env with xregs := update env.xregs armVfpFpscr env.fpscr } by simp [fpscr]]
  exact eq_iff_fpscr

/-- `SET_QC` stores the bit alone. -/
theorem setQc_eq_orQc_iff (env : NeonState) : env.setQc = env.orQc ↔ env.fpscr &&& ~~~ cpsrQ = 0 := by
  refine eq_iff_fpscr.trans ?_
  constructor
  · intro h
    have hout : env.fpscr &&& ~~~ (env.fpscr ||| cpsrQ) = 0 := by
      ext j hj
      simp only [BitVec.getElem_and, BitVec.getElem_not, BitVec.getElem_or]
      cases env.fpscr[j] <;> simp
    rwa [← h] at hout
  · intro h
    ext j hj
    have hbit := congrArg (fun v : Word => v.getLsbD j) h
    simp only [BitVec.getLsbD_and, BitVec.getLsbD_not, hj, decide_true, Bool.true_and] at hbit
    rw [BitVec.getElem_or, ← BitVec.getLsbD_eq_getElem, ← BitVec.getLsbD_eq_getElem]
    cases hfpscr : env.fpscr.getLsbD j with
    | false => rw [Bool.false_or]
    | true => simpa [hfpscr] using hbit

theorem setQc_eq_self_iff (env : NeonState) : env.setQc = env ↔ env.fpscr = cpsrQ := eq_self_iff_fpscr.trans eq_comm

theorem orQc_eq_self_iff (env : NeonState) : env.orQc = env ↔ env.qc = true := by
  have hbit : cpsrQ = BitVec.twoPow 32 27 := by decide
  refine eq_self_iff_fpscr.trans ?_
  constructor
  · intro h
    rw [qc, ← h, hbit]
    simp
  · intro h
    ext j hj
    rw [BitVec.getElem_or, hbit, ← BitVec.getLsbD_eq_getElem, ← BitVec.getLsbD_eq_getElem, BitVec.getLsbD_twoPow]
    rcases eq_or_ne 27 j with rfl | hne
    · rw [show env.fpscr.getLsbD 27 = true from h, Bool.true_or]
    · rw [decide_eq_false hne, Bool.and_false, Bool.or_false]

theorem setQf_eq_orQc_iff (env : NeonState) : env.setQf = env.orQc ↔ env.qf = 1 ∧ env.qc = true := by
  have hset : env.qf = 1 → env.setQf = env := by
    intro h
    rw [setQf, ← h]
  rw [← orQc_eq_self_iff]
  constructor
  · intro h
    have hqf : env.qf = 1 := (congrArg (fun e : NeonState => e.qf) h).symm
    exact ⟨hqf, h.symm.trans (hset hqf)⟩
  · intro h
    rw [h.2, hset h.1]

end NeonState

/-- Only QC changes: it is set if `saturates`. -/
def OnlyQc (saturates : Prop) (env env' : NeonState) : Prop :=
  (saturates → env' = env.orQc) ∧ (¬ saturates → env' = env)

theorem onlyQc_of {p : Prop} (h : p) (env env' : NeonState) : OnlyQc p env env' ↔ env' = env.orQc :=
  ⟨fun hqc => hqc.1 h, fun heq => ⟨fun _ => heq, fun hnot => absurd h hnot⟩⟩

theorem onlyQc_of_not {p : Prop} (h : ¬ p) (env env' : NeonState) : OnlyQc p env env' ↔ env' = env :=
  ⟨fun hqc => hqc.2 h, fun heq => ⟨fun hp => absurd hp h, fun _ => heq⟩⟩

/-- Every other bit and field stays. -/
theorem OnlyQc.frame {p : Prop} {env env' : NeonState} (h : OnlyQc p env env') :
    env'.toCPUARMState = env.toCPUARMState ∧ (∀ reg, reg ≠ armVfpFpscr → env'.xregs reg = env.xregs reg) ∧
      ∀ j ≠ 27, env'.fpscr.getLsbD j = env.fpscr.getLsbD j := by
  by_cases hp : p
  · obtain rfl := h.1 hp
    refine ⟨rfl, fun reg hreg => update_of_ne hreg _ _, fun j hj => ?_⟩
    have hbit : cpsrQ.getLsbD j = false := by
      rw [show cpsrQ = BitVec.twoPow 32 27 by decide, BitVec.getLsbD_twoPow, decide_eq_false hj.symm, Bool.and_false]
    rw [NeonState.orQc_fpscr, BitVec.getLsbD_or, hbit, Bool.or_false]
  · obtain rfl := h.2 hp
    exact ⟨rfl, fun _ _ => rfl, fun _ _ => rfl⟩

/-- The state after a run. -/
def neonRun (host : Host) (env : NeonState) (calls : List NeonCall) : Option NeonState :=
  calls.foldlM (NeonCall.step host) env

/-- After every number of calls only QC has changed: it is set if one of the calls saturates. -/
def RunOnlyQc (host : Host) (env : NeonState) (calls : List NeonCall) : Prop :=
  ∀ n ≤ calls.length, ∃ env', neonRun host env (calls.take n) = some env' ∧
    OnlyQc (∃ call ∈ calls.take n, call.Saturates) env env'

/-- The lanes in which the amount is one that the shifts of a rounding helper can make. -/
def ShiftDefined (rounding : Bool) (t : NeonType) (s : ℤ) : Prop :=
  rounding = true → (-31 ≤ s ∨ (s = -32 ∧ 32 < t.int.width)) ∧ s < t.int.promote.width

/-- The lanes that execute `SET_QC`. -/
def ShiftSets : (rounding : Bool) → NeonType → (x s : ℤ) → Prop
  | false, .u64, x, s => ¬ IntType.uint64.Holds (scaled x s)
  | false, .s64, x, s => 64 ≤ s ∧ x ≠ 0
  | false, t, x, s => (s < 0 ∨ t.int.width ≤ s) ∧ x ≠ 0
  | true, t, x, s => ¬ t.int.Holds (rounded x s)

namespace NeonCall

/-- The call executes `SET_QC`, or sets `QF`. -/
def Sets : NeonCall → Prop
  | arith helper arg1 arg2 => (arith helper arg1 arg2).Saturates
  | shift rounding t arg1 arg2 => ∃ i < t.lanes, ShiftSets rounding t (lane t.int arg1 i) (amount (lane t.int arg2 i))

/-- No lane shifts by an amount that its type does not have. -/
def Defined : NeonCall → Prop
  | arith _ _ _ => True
  | shift rounding t _ arg2 => ∀ i < t.lanes, ShiftDefined rounding t (amount (lane t.int arg2 i))

/-- The call sets `QF`, and not QC. -/
def SetsQf : NeonCall → Prop
  | arith helper _ _ => helper = .addSaturateU64 ∨ helper = .addSaturateS64 ∨ helper = .subSaturateU64 ∨
      helper = .subSaturateS64
  | shift _ _ _ _ => False

/-- The states in which a call changes QC only. -/
def Harmless (call : NeonCall) (env : NeonState) : Prop :=
  call.Defined ∧ (call.SetsQf → call.Saturates → env.qf = 1 ∧ env.qc = true) ∧
    (¬ call.SetsQf →
      (call.Sets ∧ call.Saturates ∧ env.fpscr &&& ~~~ cpsrQ = 0) ∨ (call.Sets ∧ ¬ call.Saturates ∧ env.fpscr = cpsrQ) ∨
        (¬ call.Sets ∧ call.Saturates ∧ env.qc = true) ∨ (¬ call.Sets ∧ ¬ call.Saturates))

end NeonCall

/-- Every call of a run is made in such a state. -/
def RunHarmless : NeonState → List NeonCall → Prop
  | _, [] => True
  | env, call :: calls => call.Harmless env ∧ ∀ env', OnlyQc call.Saturates env env' → RunHarmless env' calls

section

variable {host : Host} {t : NeonType} {x y : ℤ}

/-- **What a lane of a shift does to QC.** -/
theorem qshlLane_sets (host : Host) (hx : t.int.Holds x) {rounding : Bool}
    (hdefined : ShiftDefined rounding t (amount y)) :
    ∃ out, qshlLane host rounding t x y = some out ∧ (out.2 = true ↔ ShiftSets rounding t x (amount y)) := by
  cases rounding with
  | false =>
    have hsmallU : t.int.signed = false → ∃ out, qshlU host t x y = some out ∧
        (out.2 = true ↔ (amount y < 0 ∨ t.int.width ≤ amount y) ∧ x ≠ 0) := by
      intro _
      rw [qshlU_eq]
      split_ifs with h
      · exact ⟨_, rfl, iff_of_true rfl h⟩
      · exact ⟨_, rfl, iff_of_false Bool.false_ne_true h⟩
    have hsmallS : t.int.width ≤ 32 → ∃ out, qshlS host t x y = some out ∧
        (out.2 = true ↔ (amount y < 0 ∨ t.int.width ≤ amount y) ∧ x ≠ 0) := by
      intro hsmall
      rw [qshlS_eq hsmall]
      exact ⟨_, rfl, decide_eq_true_iff⟩
    cases t with
    | u64 =>
      obtain ⟨out, hout, -, hsat⟩ := qshlU64_exact hx y
      exact ⟨out, hout, hsat⟩
    | s64 =>
      change ∃ out, qshlS64 x y = some out ∧ (out.2 = true ↔ 64 ≤ amount y ∧ x ≠ 0)
      rw [qshlS64_eq x y hx]
      by_cases h : 64 ≤ amount y ∧ x ≠ 0
      · rw [if_pos h]
        exact ⟨_, rfl, iff_of_true rfl h⟩
      · rw [if_neg h]
        exact ⟨_, rfl, iff_of_false Bool.false_ne_true h⟩
    | u8 => exact hsmallU rfl
    | u16 => exact hsmallU rfl
    | u32 => exact hsmallU rfl
    | s8 => exact hsmallS (by decide)
    | s16 => exact hsmallS (by decide)
    | s32 => exact hsmallS (by decide)
  | true =>
    obtain ⟨hlow, hhigh⟩ := hdefined rfl
    have hsome : ∃ out, qshlLane host true t x y = some out := by
      obtain ⟨n, hn⟩ | ⟨k, hk⟩ := amount_cases (amount y)
      · rw [qrshl_natCast x hn, if_pos (by omega)]
        split_ifs
        · exact ⟨_, rfl⟩
        · exact ⟨_, rfl⟩
      · obtain ⟨value, hvalue, -, hnone⟩ := qrshl_neg host hx hk
        rw [hvalue]
        cases value with
        | none => exact absurd (hnone.1 rfl) (not_not.2 (by omega))
        | some dest => exact ⟨_, rfl⟩
    obtain ⟨out, hout⟩ := hsome
    exact ⟨out, hout, qrshlLane_flag hx hout⟩

theorem qshlLane_none (hx : t.int.Holds x) {rounding : Bool} (hundefined : ¬ ShiftDefined rounding t (amount y)) :
    qshlLane host rounding t x y = none := by
  obtain ⟨rfl, hout⟩ := Classical.not_imp.1 hundefined
  obtain ⟨n, hn⟩ | ⟨k, hk⟩ := amount_cases (amount y)
  · rw [qrshl_natCast x hn, if_neg (by omega)]
  · obtain ⟨value, hvalue, -, hnone⟩ := qrshl_neg host hx hk
    have hwide : (32 : ℕ) ≤ t.int.promote.width := by cases t <;> decide
    rw [hvalue, hnone.2 (by omega)]
    rfl

end

namespace NeonCall

variable {host : Host} {call : NeonCall} {env : NeonState}

/-- What the call does to the state where it sets a flag. -/
def setFlag : NeonCall → NeonState → NeonState
  | arith helper _ _ => helper.setFlag
  | shift _ _ _ _ => NeonState.setQc

theorem setFlag_of_qf (h : call.SetsQf) : call.setFlag = NeonState.setQf := by
  cases call with
  | arith helper arg1 arg2 => obtain rfl | rfl | rfl | rfl := h <;> rfl
  | shift rounding t arg1 arg2 => exact h.elim

theorem setFlag_of_not_qf (h : ¬ call.SetsQf) : call.setFlag = NeonState.setQc := by
  cases call with
  | arith helper arg1 arg2 =>
    simp only [SetsQf, not_or] at h
    obtain ⟨h1, h2, h3, h4⟩ := h
    change helper.setFlag = _
    cases helper <;> first | rfl | contradiction
  | shift rounding t arg1 arg2 => rfl

/-- **What a call does to the state.** -/
theorem step_eq (host : Host) (env : NeonState) (hdefined : call.Defined) :
    ∃ env', call.step host env = some env' ∧ (call.Sets → env' = call.setFlag env) ∧ (¬ call.Sets → env' = env) := by
  cases call with
  | arith helper arg1 arg2 =>
    obtain ⟨res, hrun, -⟩ := helper.computes env arg1 arg2
    refine ⟨_, by rw [step, hrun]; rfl, fun h => if_pos h, fun h => if_neg h⟩
  | shift rounding t arg1 arg2 =>
    obtain ⟨g, hg⟩ := choose_lanes fun i hi => qshlLane_sets host (y := lane t.int arg2 i)
      (holds_lane t.int arg1 i) (hdefined i hi)
    have hrun := neonVopEnv_some (fun i hi => (hg i hi).1) env
    rw [← neonQshl_eq] at hrun
    refine ⟨_, by rw [step, hrun]; rfl, ?_, ?_⟩
    · rintro ⟨i, hi, hsets⟩
      exact if_pos ⟨i, hi, (hg i hi).2.2 hsets⟩
    · intro hnone
      refine if_neg ?_
      rintro ⟨i, hi, hsat⟩
      exact hnone ⟨i, hi, (hg i hi).2.1 hsat⟩

theorem step_none (hundefined : ¬ call.Defined) : call.step host env = none := by
  cases call with
  | arith helper arg1 arg2 => exact absurd trivial hundefined
  | shift rounding t arg1 arg2 =>
    simp only [Defined, not_forall] at hundefined
    obtain ⟨i, hi, hlane⟩ := hundefined
    rw [step, neonQshl_eq, neonVopEnv_none hi (qshlLane_none (holds_lane t.int arg1 i) hlane)]
    rfl

/-- **When a call changes QC only.** -/
theorem onlyQc_iff (host : Host) :
    (∃ env', call.step host env = some env' ∧ OnlyQc call.Saturates env env') ↔ call.Harmless env := by
  by_cases hdefined : call.Defined
  · obtain ⟨env', hstep, hsets, hunset⟩ := step_eq host env hdefined
    have hsome : (∃ s, call.step host env = some s ∧ OnlyQc call.Saturates env s) ↔ OnlyQc call.Saturates env env' := by
      rw [hstep]
      simp
    rw [hsome, Harmless, and_iff_right hdefined]
    by_cases hqf : call.SetsQf
    · have hsame : call.Sets = call.Saturates := by
        cases call with
        | arith helper arg1 arg2 => rfl
        | shift rounding t arg1 arg2 => exact hqf.elim
      rw [hsame, setFlag_of_qf hqf] at hsets
      rw [hsame] at hunset
      simp only [hqf, not_true_eq_false, true_implies, false_implies, and_true]
      by_cases hsat : call.Saturates
      · rw [onlyQc_of hsat, hsets hsat, NeonState.setQf_eq_orQc_iff]
        exact ⟨fun h _ => h, fun h => h hsat⟩
      · rw [onlyQc_of_not hsat]
        exact iff_of_true (hunset hsat) (fun h => absurd h hsat)
    · rw [setFlag_of_not_qf hqf] at hsets
      simp only [hqf, not_false_eq_true, true_implies, false_implies, true_and]
      by_cases hset : call.Sets <;> by_cases hsat : call.Saturates
      · rw [onlyQc_of hsat, hsets hset, NeonState.setQc_eq_orQc_iff]
        simp [hset, hsat]
      · rw [onlyQc_of_not hsat, hsets hset, NeonState.setQc_eq_self_iff]
        simp [hset, hsat]
      · rw [onlyQc_of hsat, hunset hset, eq_comm, NeonState.orQc_eq_self_iff]
        simp [hset, hsat]
      · rw [onlyQc_of_not hsat]
        simp [hset, hsat, hunset hset]
  · refine iff_of_false ?_ fun h => hdefined h.1
    rw [step_none hdefined]
    simp

end NeonCall

section

variable {host : Host} {env env' : NeonState} {call : NeonCall} {calls : List NeonCall}

/-- What the next calls do, after a call that changed QC only. -/
theorem OnlyQc.trans_iff {p q : Prop} {env₁ env₂ : NeonState} (h : OnlyQc p env env₁) :
    OnlyQc (p ∨ q) env env₂ ↔ OnlyQc q env₁ env₂ := by
  by_cases hp : p
  · obtain rfl := h.1 hp
    rw [onlyQc_of (.inl hp)]
    by_cases hq : q
    · rw [onlyQc_of hq, NeonState.orQc_orQc]
    · rw [onlyQc_of_not hq]
  · obtain rfl := h.2 hp
    rw [or_iff_right hp]

theorem OnlyQc.unique {p : Prop} {env₁ env₂ : NeonState} (h₁ : OnlyQc p env env₁) (h₂ : OnlyQc p env env₂) :
    env₁ = env₂ := by
  by_cases hp : p
  · rw [h₁.1 hp, h₂.1 hp]
  · rw [h₁.2 hp, h₂.2 hp]

theorem neonRun_cons (env : NeonState) (call : NeonCall) (calls : List NeonCall) :
    neonRun host env (call :: calls) = (call.step host env).bind fun env₁ => neonRun host env₁ calls := by
  rw [neonRun, foldlM_cons]
  rfl

/-- **One more call in front.** -/
theorem runOnlyQc_cons :
    RunOnlyQc host env (call :: calls) ↔
      ∃ env₁, call.step host env = some env₁ ∧ OnlyQc call.Saturates env env₁ ∧ RunOnlyQc host env₁ calls := by
  constructor
  · intro h
    obtain ⟨env₁, hone, honly⟩ := h 1 (by simp)
    have hstep : call.step host env = some env₁ := by
      rw [take_succ_cons, take_zero, neonRun_cons] at hone
      cases hcall : call.step host env with
      | none => simp [hcall] at hone
      | some s => simpa [hcall, neonRun] using hone
    simp only [take_succ_cons, take_zero, mem_singleton, exists_eq_left] at honly
    refine ⟨env₁, hstep, honly, fun n hn => ?_⟩
    obtain ⟨env', hrun, hall⟩ := h (n + 1) (by simpa using hn)
    rw [take_succ_cons, neonRun_cons, hstep, Option.bind_some] at hrun
    simp only [take_succ_cons, mem_cons, exists_eq_or_imp] at hall
    exact ⟨env', hrun, honly.trans_iff.1 hall⟩
  · rintro ⟨env₁, hstep, honly, hrest⟩ n hn
    cases n with
    | zero => exact ⟨env, rfl, (onlyQc_of_not (by simp) env env).2 rfl⟩
    | succ n =>
      obtain ⟨env', hrun, hall⟩ := hrest n (by simpa using hn)
      refine ⟨env', ?_, ?_⟩
      · rw [take_succ_cons, neonRun_cons, hstep, Option.bind_some, hrun]
      · simp only [take_succ_cons, mem_cons, exists_eq_or_imp]
        exact honly.trans_iff.2 hall

/-- **Which runs change QC only**, in every state they reach. -/
theorem flags_iff (host : Host) (env : NeonState) (calls : List NeonCall) :
    RunOnlyQc host env calls ↔ RunHarmless env calls := by
  induction calls generalizing env with
  | nil =>
    refine iff_of_true (fun n _ => ⟨env, by rw [take_nil]; rfl, ?_⟩) trivial
    rw [take_nil, onlyQc_of_not (by simp)]
  | cons call calls ih =>
    rw [runOnlyQc_cons, RunHarmless, ← NeonCall.onlyQc_iff host]
    constructor
    · rintro ⟨env₁, hstep, honly, hrun⟩
      refine ⟨⟨env₁, hstep, honly⟩, fun env' h' => ?_⟩
      obtain rfl := honly.unique h'
      exact (ih env₁).1 hrun
    · rintro ⟨⟨env₁, hstep, honly⟩, hrest⟩
      exact ⟨env₁, hstep, honly, (ih env₁).2 (hrest env₁ honly)⟩

end

/-- A state with a rounding mode in FPSCR. -/
def roundingState : NeonState := { (default : NeonState) with xregs := fun _ => 0x00c00000#32 }

/-- A sum that saturates clears the rounding mode, and a 64-bit one sets the flag Q. -/
theorem flags_lost :
    (neonQaddU8 roundingState 0xff#32 0x01#32).map (fun out => out.1.fpscr) = some 0x08000000#32 ∧
      (neonAddSaturateU64 roundingState (~~~ 0#64) 1#64).1.qf = 1 ∧ roundingState.qf = 0 ∧
      ¬ ∀ host env calls, RunOnlyQc host env calls := by
  refine ⟨by decide, by decide, by decide, fun h => ?_⟩
  obtain ⟨env', hrun, honly⟩ := h host64 roundingState [.arith .qaddU8 0xff#32 0x01#32] 1 le_rfl
  have hset : some (NeonState.setQc roundingState) = some env' := hrun
  obtain rfl := Option.some.inj hset
  exact absurd (honly.frame.2.2 22 (by decide)) (by decide)

end Emulator.Arm
