import Emulator.Tcg.LivenessBuffers

/-!
# Runs of ops, before and after the analysis

What the ops compute is a parameter (`Machine`). What an op may touch follows from its flags (`TCGOp.rights`): an op
without `TCG_OPF_SIDE_EFFECTS` changes nothing but its outputs, and only an op that ends a basic block or clobbers, or a
call that is not `TCG_CALL_CONST`, sees the globals. The value of a temporary that is not local is lost at the end of a
basic block.

* `step_congr`: a value that is dead makes no difference;
* `step_optimized`: nor does an op that is removed;
* `liveness_preserves`: **`tcg_gen_code` reads ops behind the analysis that run as the ops before it do.**
-/

namespace Emulator.Tcg

open Function Lib List

inductive Next
  | fall
  | label (l : ℕ)
  | exit

/-- What an op does: its outputs, the globals, the state outside, and where it goes on. -/
structure Effect (V W : Type*) (g : ℕ) where
  outs : ℕ → V
  globals : Fin g → V
  world : W
  next : Next

/-- `act` is given the opcode, the constant parameters, the inputs (`none` for `TCG_CALL_DUMMY_ARG`) and the globals if
the op sees them. A `W` is the state outside of the temporaries, with everything that was done to it so far. `lost` is
what is in a temporary whose value was lost. -/
structure Machine (V W : Type*) (g : ℕ) where
  act : TCGOpcode → List ℕ → List (Option V) → Option (Fin g → V) → W → Effect V W g
  lost : ℕ → W → ℕ → V

structure Rights where
  seesGlobals : Bool
  writesGlobals : Bool
  sideEffects : Bool
  branches : Bool

namespace TCGOp

def oargs : TCGOp → List ℕ
  | op _ oargs _ _ => oargs
  | call oargs _ _ => oargs
  | nopn _ => []

def iargs : TCGOp → List ℕ
  | op _ _ iargs _ => iargs
  | call _ iargs _ => iargs
  | nopn _ => []

def cargs : TCGOp → List ℕ
  | op _ _ _ cargs => cargs
  | call _ _ flags => [flags]
  | nopn _ => []

def rights (h : TcgTarget) : TCGOp → Rights
  | op opc _ _ _ =>
    let d := tcgOpDef h opc
    ⟨d.bbEnd || d.callClobber, d.bbEnd || d.callClobber, d.sideEffects, d.bbEnd⟩
  | call _ _ flags =>
    let const := flags &&& TCG_CALL_CONST != 0
    let pure := flags &&& TCG_CALL_PURE != 0
    ⟨!const, !const && !pure, !pure, false⟩
  | nopn _ => ⟨false, false, false, false⟩

def isLabel (l : ℕ) : TCGOp → Bool
  | op .set_label _ _ cargs => cargs == [l]
  | _ => false

end TCGOp

variable {V W : Type*} {h : TcgTarget} {s : TcgTemps}

/-- `pc` is the number of an op. -/
structure OpState (V W : Type*) where
  pc : ℕ
  temps : ℕ → V
  world : W

/-- The ops go on, or they have been left. -/
inductive Outcome (V W : Type*) (g : ℕ)
  | running (st : OpState V W)
  | left (globals : Fin g → V) (world : W)

def writeOuts (temps : ℕ → V) : ℕ → List ℕ → (ℕ → V) → ℕ → V
  | _, [], _ => temps
  | k, t :: rest, outs => writeOuts (update temps t (outs k)) (k + 1) rest outs

def setGlobals (temps : ℕ → V) (globals : Fin s.nbGlobals → V) : ℕ → V := fun t =>
  if ht : t < s.nbGlobals then globals ⟨t, ht⟩ else temps t

/-- The end of a basic block. -/
def bbEnd (s : TcgTemps) (temps lost : ℕ → V) : ℕ → V := fun t =>
  if t < s.nbGlobals ∨ s.tempLocal t = true then temps t else lost t

variable (h) (M : Machine V W s.nbGlobals) (ops : List TCGOp)

def globalsOf (s : TcgTemps) (temps : ℕ → V) : Fin s.nbGlobals → V := fun t => temps t

/-- What the op gives on these values. -/
def effectOf (i : TCGOp) (temps : ℕ → V) (world : W) : Effect V W s.nbGlobals :=
  M.act i.opcode i.cargs (i.iargs.map fun t => if t = h.dummyArg then none else some (temps t))
    (if (i.rights h).seesGlobals then some (globalsOf s temps) else none) world

/-- An op that is no special case. -/
def stepOp (i : TCGOp) (st : OpState V W) : Option (Outcome V W s.nbGlobals) :=
  let e := effectOf h M i st.temps st.world
  let r := i.rights h
  let temps := writeOuts (if r.writesGlobals then setGlobals st.temps e.globals else st.temps) 0 i.oargs e.outs
  let world := if r.sideEffects then e.world else st.world
  if r.branches then
    match e.next with
    | .fall => some (.running ⟨st.pc + 1, bbEnd s temps (M.lost st.pc world), world⟩)
    | .label l => (ops.findIdx? (·.isLabel l)).map fun pc => .running ⟨pc, bbEnd s temps (M.lost st.pc world), world⟩
    | .exit => some (.left (globalsOf s temps) world)
  else some (.running ⟨st.pc + 1, temps, world⟩)

/-- One op, `none` behind the last one. -/
def step (st : OpState V W) : Option (Outcome V W s.nbGlobals) :=
  match ops[st.pc]? with
  | none => none
  | some (.op .end_ _ _ _) => none
  | some (.nopn _) => some (.running ⟨st.pc + 1, st.temps, st.world⟩)
  | some (.op .set_label _ _ _) =>
    some (.running ⟨st.pc + 1, bbEnd s st.temps (M.lost st.pc st.world), st.world⟩)
  | some (.op .discard oargs _ _) =>
    some (.running ⟨st.pc + 1, fun t => if t ∈ oargs then M.lost st.pc st.world t else st.temps t, st.world⟩)
  | some i => stepOp h M ops i st

/-- So many ops. -/
def run : ℕ → OpState V W → Option (Outcome V W s.nbGlobals)
  | 0, st => some (.running st)
  | n + 1, st => (step h M ops st).bind fun o =>
    match o with
    | .running st' => run n st'
    | .left globals world => some (.left globals world)

variable {h M ops}

/-! ## What the analysis says of an op -/

variable {dead : DeadTemps} {t : ℕ} {oargs : List ℕ}

theorem outputsDead_iff :
    outputsDead dead oargs t = true ↔ t ∈ oargs ∨ dead t = true := by
  induction oargs generalizing dead with
  | nil => simp [outputsDead]
  | cons a oargs ih =>
    rw [outputsDead, foldl_cons, ← outputsDead, ih, update_apply]
    by_cases ha : t = a <;> simp [ha]

theorem outputsDead_of_live (ht : dead t = false) (hout : t ∉ oargs) :
    outputsDead dead oargs t = false := by
  rw [Bool.eq_false_iff, Ne, outputsDead_iff, ht]
  simp [hout]

variable {skip : ℕ → Bool}

theorem inputsLive_cons {i a : ℕ} {rest : List ℕ} :
    (inputsLive skip dead i (a :: rest)).1 = if skip a then (inputsLive skip dead (i + 1) rest).1
      else (inputsLive skip (update dead a false) (i + 1) rest).1 := by
  rw [inputsLive]
  by_cases hskip : skip a = true
  · rw [if_pos hskip, if_pos hskip]
  · rw [if_neg hskip, if_neg hskip]

variable {iargs : List ℕ}

theorem inputsLive_of_live : ∀ {dead : DeadTemps} {i : ℕ}, dead t = false →
    (inputsLive skip dead i iargs).1 t = false := by
  induction iargs with
  | nil => exact fun ht => ht
  | cons a iargs ih =>
    intro dead i ht
    rw [inputsLive_cons]
    split_ifs
    · exact ih ht
    · refine ih ?_
      rw [update_apply]
      split_ifs
      · rfl
      · exact ht

/-- **The inputs are live** before the op. -/
theorem inputsLive_input (hskip : skip t = false) :
    ∀ {dead : DeadTemps} {i : ℕ}, t ∈ iargs → (inputsLive skip dead i iargs).1 t = false := by
  induction iargs with
  | nil => exact fun ht => absurd ht not_mem_nil
  | cons a iargs ih =>
    intro dead i ht
    rw [inputsLive_cons]
    rcases mem_cons.1 ht with rfl | ht
    · rw [if_neg (by rw [hskip]; exact Bool.false_ne_true)]
      exact inputsLive_of_live (update_self ..)
    · split_ifs
      · exact ih ht
      · exact ih ht

/-- An op that may be removed: it changes nothing but outputs that are dead. -/
structure Removable (h : TcgTarget) (i : TCGOp) (after : DeadTemps) : Prop where
  noEffect : (i.rights h).sideEffects = false
  noGlobals : (i.rights h).writesGlobals = false
  noBranch : (i.rights h).branches = false
  dead : ∀ t ∈ i.oargs, after t = true

/-- What is live before an op that is kept. -/
structure Transfer (h : TcgTarget) (s : TcgTemps) (i : TCGOp) (after before : DeadTemps) : Prop where
  input : ∀ t ∈ i.iargs, t ≠ h.dummyArg → before t = false
  globals : (i.rights h).seesGlobals = true → ∀ t < s.nbGlobals, before t = false
  frame : (i.rights h).branches = false → ∀ t, after t = false → t ∉ i.oargs → before t = false
  block : (i.rights h).branches = true → ∀ t, t < s.nbGlobals ∨ s.tempLocal t = true → before t = false

/-- The op is no case of its own. -/
def TCGOp.ordinary : TCGOp → Bool
  | op opc _ _ _ => !special opc
  | call _ _ _ => true
  | nopn _ => false

theorem globalsLive_of_live (ht : dead t = false) : globalsLive s dead t = false := by
  unfold globalsLive
  split_ifs
  · rfl
  · exact ht

variable {i : TCGOp}

/-- The loop over the inputs, after what was done for the outputs and the globals. -/
theorem Transfer.of_inputs {after mid : DeadTemps} (hskip : ∀ t ∈ i.iargs, t ≠ h.dummyArg → skip t = false)
    (hglobals : (i.rights h).seesGlobals = true → ∀ t < s.nbGlobals, mid t = false)
    (hframe : (i.rights h).branches = false → ∀ t, after t = false → t ∉ i.oargs → mid t = false)
    (hblock : (i.rights h).branches = true → ∀ t, t < s.nbGlobals ∨ s.tempLocal t = true → mid t = false) :
    Transfer h s i after (inputsLive skip mid 0 i.iargs).1 where
  input t ht hne := inputsLive_input (hskip t ht hne) ht
  globals hsees t ht := inputsLive_of_live (hglobals hsees t ht)
  frame hbb t hlive hout := inputsLive_of_live (hframe hbb t hlive hout)
  block hbb t ht := inputsLive_of_live (hblock hbb t ht)

/-- **An op is removable, or it is kept** and the analysis goes on with what it needs. -/
theorem ordinary_cases (hi : i.ordinary = true) (after : DeadTemps) :
    (livenessOp h s i after = (i.removed, after, none) ∧ Removable h i after) ∨
      ((livenessOp h s i after).1 = i ∧ Transfer h s i after (livenessOp h s i after).2.1) := by
  cases i with
  | op opc oargs iargs cargs =>
    have hdef : special opc = false := by simpa [TCGOp.ordinary] using hi
    obtain ⟨hflags, hclob⟩ := tcgOpDef_flags h opc
    rw [livenessOp_default hdef]
    unfold opTransfer
    split_ifs with hrem hbb hcc
    · obtain ⟨hside, -, hall⟩ := hrem
      have hside' : (tcgOpDef h opc).sideEffects = false := by simpa using hside
      have hbb : (tcgOpDef h opc).bbEnd = false := by
        by_contra hbb
        rw [(hflags (by simpa using hbb)).2] at hside'
        cases hside'
      have hcc : (tcgOpDef h opc).callClobber = false := by
        by_contra hcc
        rw [hclob (by simpa using hcc)] at hside'
        cases hside'
      exact .inl ⟨rfl, hside', by simp [TCGOp.rights, hbb, hcc], hbb, all_eq_true.1 hall⟩
    · refine .inr ⟨rfl, .of_inputs (fun _ _ _ => rfl) (fun _ t ht => by simp [tcgLaBbEnd, ht]) (fun hno => ?_)
        fun _ t ht => by rcases ht with ht | ht <;> simp [tcgLaBbEnd, ht]⟩
      exact absurd (hno.symm.trans hbb) Bool.false_ne_true
    · exact .inr ⟨rfl, .of_inputs (fun _ _ _ => rfl) (fun _ t ht => by simp [globalsLive, ht])
        (fun _ t hlive hout => globalsLive_of_live (outputsDead_of_live hlive hout)) fun hno => absurd hno hbb⟩
    · refine .inr ⟨rfl, .of_inputs (fun _ _ _ => rfl) (fun hsees => ?_)
        (fun _ t hlive hout => outputsDead_of_live hlive hout) fun hno => absurd hno hbb⟩
      simp [TCGOp.rights, hbb, hcc] at hsees
  | call oargs iargs flags =>
    have hop : livenessOp h s (.call oargs iargs flags) after =
      livenessStoreOp (.call oargs iargs flags) after (callTransfer h s oargs iargs flags after) := rfl
    rw [hop]
    unfold callTransfer
    split_ifs with hrem hconst
    · obtain ⟨hpure, hall⟩ := hrem
      exact .inl ⟨rfl, by simp [TCGOp.rights, hpure], by simp [TCGOp.rights, hpure], rfl, all_eq_true.1 hall⟩
    · exact .inr ⟨rfl, .of_inputs (fun t _ hne => by simpa using hne) (fun _ t ht => by simp [globalsLive, ht])
        (fun _ t hlive hout => globalsLive_of_live (outputsDead_of_live hlive hout))
        fun hno => absurd hno Bool.false_ne_true⟩
    · refine .inr ⟨rfl, .of_inputs (fun t _ hne => by simpa using hne) (fun hsees => ?_)
        (fun _ t hlive hout => outputsDead_of_live hlive hout) fun hno => absurd hno Bool.false_ne_true⟩
      simp [TCGOp.rights, hconst] at hsees
  | nopn args => cases hi

/-! ## Values that are dead -/

/-- The states go on alike: they agree on what is live. -/
structure Agree (dead : DeadTemps) (st st' : OpState V W) : Prop where
  pc : st.pc = st'.pc
  temps : ∀ t, dead t = false → st.temps t = st'.temps t
  world : st.world = st'.world

/-- **Two outcomes match**: the ops were left with the same globals, or the states agree on what is live. -/
inductive Matches (h : TcgTarget) (s : TcgTemps) (ops : List TCGOp) :
    Option (Outcome V W s.nbGlobals) → Option (Outcome V W s.nbGlobals) → Prop
  | stuck : Matches h s ops none none
  | left {globals : Fin s.nbGlobals → V} {world : W} :
    Matches h s ops (some (.left globals world)) (some (.left globals world))
  | running {st st' : OpState V W} (hagree : Agree (deadBefore h s (ops.drop st.pc)) st st') :
    Matches h s ops (some (.running st)) (some (.running st'))

theorem Agree.refl (dead : DeadTemps) (st : OpState V W) : Agree dead st st := ⟨rfl, fun _ _ => rfl, rfl⟩

theorem Agree.trans {st st' st'' : OpState V W} (h₁ : Agree dead st st') (h₂ : Agree dead st' st'') :
    Agree dead st st'' :=
  ⟨h₁.pc.trans h₂.pc, fun t ht => (h₁.temps t ht).trans (h₂.temps t ht), h₁.world.trans h₂.world⟩

theorem Matches.refl (o : Option (Outcome V W s.nbGlobals)) : Matches h s ops o o := by
  cases o with
  | none => exact .stuck
  | some o =>
    cases o with
    | running st => exact .running (.refl _ st)
    | left globals world => exact .left

theorem Matches.trans {o o' o'' : Option (Outcome V W s.nbGlobals)} (h₁ : Matches h s ops o o')
    (h₂ : Matches h s ops o' o'') : Matches h s ops o o'' := by
  cases h₁ with
  | stuck => exact h₂
  | left => exact h₂
  | running hagree =>
    cases h₂ with
    | running hagree' => exact .running (hagree.trans (by rw [hagree.pc]; exact hagree'))

theorem writeOuts_congr {temps temps' : ℕ → V} {outs : ℕ → V} :
    ∀ {k : ℕ}, (t ∉ oargs → temps t = temps' t) → writeOuts temps k oargs outs t = writeOuts temps' k oargs outs t := by
  induction oargs generalizing temps temps' with
  | nil => exact fun ht => ht not_mem_nil
  | cons a oargs ih =>
    intro k ht
    rw [writeOuts, writeOuts]
    refine ih fun hout => ?_
    rw [update_apply, update_apply]
    split_ifs with ha
    · rfl
    · exact ht (by simp [ha, hout])

theorem writeOuts_of_not_mem {temps : ℕ → V} {outs : ℕ → V} (ht : t ∉ oargs) :
    ∀ {k : ℕ}, writeOuts temps k oargs outs t = temps t := by
  induction oargs generalizing temps with
  | nil => exact rfl
  | cons a oargs ih =>
    intro k
    rw [mem_cons, not_or] at ht
    rw [writeOuts, ih ht.2, update_of_ne ht.1]

theorem drop_pc {ops : List TCGOp} {pc : ℕ} (hi : ops[pc]? = some i) :
    deadBefore h s (ops.drop pc) = (livenessOp h s i (deadBefore h s (ops.drop (pc + 1)))).2.1 := by
  obtain ⟨hlt, rfl⟩ := List.getElem?_eq_some_iff.1 hi
  rw [drop_eq_getElem_cons hlt, deadBefore]

theorem step_ordinary {st : OpState V W} (hget : ops[st.pc]? = some i) (hi : i.ordinary = true) :
    step h M ops st = stepOp h M ops i st := by
  unfold step
  rw [hget]
  cases i with
  | op opc oargs iargs cargs => cases opc <;> first | rfl | cases hi
  | call oargs iargs flags => rfl
  | nopn args => cases hi

theorem bbEnd_congr {temps temps' lost : ℕ → V}
    (ht : ∀ t, t < s.nbGlobals ∨ s.tempLocal t = true → temps t = temps' t) :
      bbEnd s temps lost = bbEnd s temps' lost := by
  funext t
  unfold bbEnd
  split_ifs with hkept
  · exact ht t hkept
  · rfl

variable {st st' : OpState V W}

theorem effectOf_congr {after before : DeadTemps} (htr : Transfer h s i after before)
    (hagree : Agree before st st') : effectOf h M i st.temps st.world = effectOf h M i st'.temps st'.world := by
  unfold effectOf
  rw [hagree.world]
  congr 1
  · refine map_congr_left fun t ht => ?_
    split_ifs with hdummy
    · rfl
    · exact congrArg some (hagree.temps t (htr.input t ht hdummy))
  · split_ifs with hsees
    · refine congrArg some (funext fun t => ?_)
      exact hagree.temps t (htr.globals hsees t t.isLt)
    · rfl

/-- An op that is kept, from two states that agree. -/
theorem stepOp_congr {before : DeadTemps}
    (htr : Transfer h s i (deadBefore h s (ops.drop (st.pc + 1))) before) (hagree : Agree before st st') :
    Matches h s ops (stepOp h M ops i st) (stepOp h M ops i st') := by
  unfold stepOp
  rw [← effectOf_congr (M := M) htr hagree, ← hagree.world, ← hagree.pc]
  generalize effectOf h M i st.temps st.world = e
  simp only
  generalize hglobals : (if (i.rights h).writesGlobals then setGlobals st.temps e.globals else st.temps) = temps
  generalize hglobals' : (if (i.rights h).writesGlobals then setGlobals st'.temps e.globals else st'.temps) = temps'
  have htemps : ∀ t, st.temps t = st'.temps t → temps t = temps' t := by
    intro t ht
    rw [← hglobals, ← hglobals']
    split_ifs
    · unfold setGlobals
      split_ifs
      · rfl
      · exact ht
    · exact ht
  generalize (if (i.rights h).sideEffects then e.world else st.world) = world
  have houts : ∀ t, (t ∉ i.oargs → st.temps t = st'.temps t) →
      writeOuts temps 0 i.oargs e.outs t = writeOuts temps' 0 i.oargs e.outs t :=
    fun t ht => writeOuts_congr fun hout => htemps t (ht hout)
  by_cases hbranch : (i.rights h).branches = true
  · -- the block ends: everything that is kept is live before the op
    have hkept : ∀ t, t < s.nbGlobals ∨ s.tempLocal t = true →
        writeOuts temps 0 i.oargs e.outs t = writeOuts temps' 0 i.oargs e.outs t :=
      fun t ht => houts t fun _ => hagree.temps t (htr.block hbranch t ht)
    rw [if_pos hbranch, if_pos hbranch, bbEnd_congr hkept]
    cases e.next with
    | fall => exact .refl _
    | label l => exact .refl _
    | exit =>
      have hsame : globalsOf s (writeOuts temps 0 i.oargs e.outs) = globalsOf s (writeOuts temps' 0 i.oargs e.outs) :=
        funext fun t => hkept t (.inl t.isLt)
      simp only [hsame]
      exact .left
  · rw [if_neg hbranch, if_neg hbranch]
    refine .running ⟨rfl, fun t ht => houts t fun hout => ?_, rfl⟩
    exact hagree.temps t (htr.frame (by simpa using hbranch) t ht hout)

variable (M ops) in
/-- An op that may be removed: only its outputs change. -/
theorem stepOp_removable (st : OpState V W) {after : DeadTemps} (hrem : Removable h i after) :
    ∃ temps : ℕ → V, (∀ t, after t = false → temps t = st.temps t) ∧
      stepOp h M ops i st = some (.running ⟨st.pc + 1, temps, st.world⟩) := by
  refine ⟨writeOuts st.temps 0 i.oargs (effectOf h M i st.temps st.world).outs, fun t ht => ?_, ?_⟩
  · refine writeOuts_of_not_mem fun hout => ?_
    rw [hrem.dead t hout] at ht
    cases ht
  · simp only [stepOp, hrem.noEffect, hrem.noGlobals, hrem.noBranch, Bool.false_eq_true, if_false]

theorem not_ordinary (hi : i.ordinary = false) : (∃ args, i = .nopn args) ∨
    ∃ opc oargs iargs cargs, i = .op opc oargs iargs cargs ∧ special opc = true := by
  cases i with
  | op opc oargs iargs cargs => exact .inr ⟨opc, oargs, iargs, cargs, rfl, by simpa [TCGOp.ordinary] using hi⟩
  | call oargs iargs flags => cases hi
  | nopn args => exact .inl ⟨args, rfl⟩

/-- **A value that is dead makes no difference** to an op. -/
theorem step_congr (hagree : Agree (deadBefore h s (ops.drop st.pc)) st st')
    (hwf : ∀ i ∈ ops, i.Wf h) : Matches h s ops (step h M ops st) (step h M ops st') := by
  cases hget : ops[st.pc]? with
  | none =>
    have hget' : ops[st'.pc]? = none := hagree.pc ▸ hget
    unfold step
    rw [hget, hget']
    exact .stuck
  | some i =>
    have hget' : ops[st'.pc]? = some i := hagree.pc ▸ hget
    rw [drop_pc hget] at hagree
    cases hi : i.ordinary with
    | true =>
      rw [step_ordinary hget hi, step_ordinary hget' hi]
      rcases ordinary_cases hi (deadBefore h s (ops.drop (st.pc + 1))) with ⟨hop, hrem⟩ | ⟨-, htr⟩
      · rw [hop] at hagree
        obtain ⟨temps, htemps, hstep⟩ := stepOp_removable M ops st hrem
        obtain ⟨temps', htemps', hstep'⟩ := stepOp_removable M ops st' hrem
        rw [hstep, hstep']
        refine .running ⟨by rw [hagree.pc], fun t ht => ?_, hagree.world⟩
        exact (htemps t ht).trans ((hagree.temps t ht).trans (htemps' t ht).symm)
      · exact stepOp_congr htr hagree
    | false =>
      have hpc := hagree.pc
      have hworld := hagree.world
      unfold step
      rw [hget, hget']
      rcases not_ordinary hi with ⟨args, rfl⟩ | ⟨opc, oargs, iargs, cargs, rfl, hspecial⟩
      · exact .running ⟨by rw [hpc], fun t ht => hagree.temps t ht, hworld⟩
      · have hwf' := hwf _ (mem_of_getElem? hget)
        rcases special_cases hspecial with rfl | rfl | rfl | rfl | rfl | rfl
        · exact absurd rfl hwf'.1
        · simp only
          have hkept : ∀ t, t < s.nbGlobals ∨ s.tempLocal t = true → st.temps t = st'.temps t := by
            intro t ht
            refine hagree.temps t ?_
            rcases ht with ht | ht <;> simp [livenessOp, tcgLaBbEnd, ht]
          rw [← hpc, ← hworld, bbEnd_congr hkept]
          exact .refl _
        · obtain ⟨-, -, -, ho, hi', -⟩ := hwf'
          obtain rfl := length_eq_zero_iff.1 ho
          obtain rfl := length_eq_zero_iff.1 hi'
          have hsame : Transfer h s (.op .debug_insn_start [] [] cargs) (deadBefore h s (ops.drop (st.pc + 1)))
              (deadBefore h s (ops.drop (st.pc + 1))) := by
            refine ⟨?_, ?_, fun _ t ht _ => ht, ?_⟩
            · exact fun t ht => absurd ht not_mem_nil
            · exact fun hno => absurd hno Bool.false_ne_true
            · exact fun hno => absurd hno Bool.false_ne_true
          exact stepOp_congr hsame hagree
        · exact absurd rfl hwf'.2.1
        · refine .running ⟨by rw [hpc], fun t ht => ?_, hworld⟩
          simp only [hpc, hworld]
          split_ifs with hout
          · rfl
          · exact hagree.temps t (outputsDead_of_live ht hout)
        · exact .stuck

/-! ## Ops that are removed -/

theorem getElem?_optimized (ops : List TCGOp) : ∀ pc : ℕ, (optimized h s ops)[pc]? =
    ops[pc]?.map fun i => (livenessOp h s i (deadBefore h s (ops.drop (pc + 1)))).1 := by
  induction ops with
  | nil => exact fun pc => rfl
  | cons i ops ih =>
    intro pc
    cases pc with
    | zero => rfl
    | succ pc => exact ih pc

theorem livenessOp_kept (hi : i.ordinary = false) (dead : DeadTemps) : (livenessOp h s i dead).1 = i := by
  rcases not_ordinary hi with ⟨args, rfl⟩ | ⟨opc, oargs, iargs, cargs, rfl, hspecial⟩
  · rfl
  · rcases special_cases hspecial with rfl | rfl | rfl | rfl | rfl | rfl <;> rfl

theorem isLabel_livenessOp (i : TCGOp) (dead : DeadTemps) (l : ℕ) :
    (livenessOp h s i dead).1.isLabel l = i.isLabel l := by
  cases hi : i.ordinary with
  | true =>
    rcases ordinary_cases (s := s) hi dead with ⟨hop, -⟩ | ⟨hkept, -⟩
    · rw [hop]
      cases i with
      | op opc oargs iargs cargs => cases opc <;> first | rfl | cases hi
      | call oargs iargs flags => rfl
      | nopn args => rfl
    · rw [hkept]
  | false => rw [livenessOp_kept hi]

theorem findIdx?_optimized (ops : List TCGOp) (l : ℕ) :
    (optimized h s ops).findIdx? (·.isLabel l) = ops.findIdx? (·.isLabel l) := by
  induction ops with
  | nil => rfl
  | cons i ops ih => rw [optimized, List.findIdx?_cons, List.findIdx?_cons, isLabel_livenessOp, ih]

theorem step_kept {st : OpState V W} (hget : ops[st.pc]? = some i)
    (hget' : (optimized h s ops)[st.pc]? = some i) : step h M (optimized h s ops) st = step h M ops st := by
  unfold step
  rw [hget, hget']
  cases i with
  | op opc oargs iargs cargs =>
    cases opc <;> first | rfl | (simp only [stepOp, findIdx?_optimized])
  | call oargs iargs flags => simp only [stepOp, findIdx?_optimized]
  | nopn args => rfl

/-- **An op that is removed makes no difference.** -/
theorem step_optimized (st : OpState V W) : Matches h s ops (step h M ops st) (step h M (optimized h s ops) st) := by
  cases hget : ops[st.pc]? with
  | none =>
    have hget' : (optimized h s ops)[st.pc]? = none := by rw [getElem?_optimized, hget]; rfl
    unfold step
    rw [hget, hget']
    exact .stuck
  | some i =>
    have hget' := getElem?_optimized (h := h) (s := s) ops st.pc
    rw [hget, Option.map_some] at hget'
    cases hi : i.ordinary with
    | true =>
      rcases ordinary_cases (s := s) hi (deadBefore h s (ops.drop (st.pc + 1))) with ⟨hop, hrem⟩ | ⟨hkept, -⟩
      · obtain ⟨temps, htemps, hstep⟩ := stepOp_removable M ops st hrem
        have hnop : step h M (optimized h s ops) st = some (.running ⟨st.pc + 1, st.temps, st.world⟩) := by
          unfold step
          rw [hget', hop]
          rfl
        rw [step_ordinary hget hi, hstep, hnop]
        exact .running ⟨rfl, htemps, rfl⟩
      · rw [step_kept hget (by rw [hget', hkept])]
        exact .refl _
    | false =>
      rw [step_kept hget (by rw [hget', livenessOp_kept hi])]
      exact .refl _

theorem length_optimized (ops : List TCGOp) : (optimized h s ops).length = ops.length := by
  induction ops with
  | nil => rfl
  | cons i ops ih => rw [optimized, length_cons, length_cons, ih]

/-! ## Runs -/

/-- The runs from states that agree on what is live, with steps that match. -/
theorem run_matches {ops' : List TCGOp} (n : ℕ)
    (hstep : ∀ st st' : OpState V W, Agree (deadBefore h s (ops.drop st.pc)) st st' →
      Matches h s ops (step h M ops st) (step h M ops' st')) :
    ∀ st st' : OpState V W, Agree (deadBefore h s (ops.drop st.pc)) st st' →
      Matches h s ops (run h M ops n st) (run h M ops' n st') := by
  induction n with
  | zero => exact fun st st' hagree => .running hagree
  | succ n ih =>
    intro st st' hagree
    have hmatch := hstep st st' hagree
    rw [run, run]
    generalize step h M ops st = o at hmatch
    generalize step h M ops' st' = o' at hmatch
    cases hmatch with
    | stuck => exact .stuck
    | left => exact .left
    | running hagree' => exact ih _ _ hagree'

/-- **The ops that are left run as the ops do**, from any two states that agree on what is live. -/
theorem run_optimized (hwf : ∀ i ∈ ops, i.Wf h) (n : ℕ)
    (hagree : Agree (deadBefore h s (ops.drop st.pc)) st st') :
    Matches h s ops (run h M ops n st) (run h M (optimized h s ops) n st') :=
  run_matches n (fun _ st₂ hagree' => (step_congr hagree' hwf).trans (step_optimized st₂)) st st' hagree

theorem readOps_optimized {b : OpBuffers} (hwf : ∀ i ∈ ops, i.Wf h)
    (hb : HoldsOps b 0 0 (optimized h s ops ++ [TCGOp.endOp])) :
    readOps h b (ops.length + 1) 0 0 = some (optimized h s ops) := by
  rw [← length_optimized (h := h) (s := s) ops]
  exact readOps_eq _ 0 0 (wf_optimized hwf) hb

/-- **The liveness analysis keeps the meaning**: it does not abort, and `tcg_gen_code_common` reads ops from the buffers
behind it that run as the ops before it do, step by step: with the same effects, with the same globals when they are
left, and with the same value in every temporary that is live. -/
theorem liveness_preserves {ops : List TCGOp} {b : OpBuffers} (mem : ℕ → ℕ)
    (hok : ∀ i ∈ ops, i.Wf h ∧ i.ArgsIn h s) (hfit : ops.length ≤ OPC_BUF_SIZE)
    (hb : HoldsOps b 0 0 (ops ++ [TCGOp.endOp])) :
    ∃ l ops', tcgLivenessAnalysis h s b ops.length (ops.flatMap TCGOp.params).length mem = some l ∧
      readOps h l.bufs (ops.length + 1) 0 0 = some ops' ∧
      ∀ (M : Machine V W s.nbGlobals) (n : ℕ) (st : OpState V W),
        Matches h s ops (run h M ops n st) (run h M ops' n st) := by
  obtain ⟨l, hl, hbl, -⟩ := tcgLivenessAnalysis_eq mem hok hfit hb
  have hwf : ∀ i ∈ ops, i.Wf h := fun i hi => (hok i hi).1
  exact ⟨l, optimized h s ops, hl, readOps_optimized hwf hbl, fun M n st => run_optimized hwf n (.refl _ st)⟩

/-- What the ops leave in the buffers. -/
def buffersOf (ops : List TCGOp) : OpBuffers :=
  ⟨fun k => (ops.map TCGOp.opcode).getD k .end_, fun p => (ops.flatMap TCGOp.params).getD p 0⟩

/-- A global, a local temporary and two that are not local. The first value is never used. -/
def unusedOps : List TCGOp :=
  [.op (.movi .i32) [2] [] [7], .op (.movi .i32) [3] [] [1], .op (.add .i32) [0] [0, 3] [], .op .exit_tb [] [] [0]]

def oneGlobal : TcgTemps := ⟨1, 4, (· == 1)⟩

example : optimized ⟨64, 32⟩ oneGlobal unusedOps = .nopn [2, 2] :: unusedOps.tail := by decide

theorem unusedOps_ok : ∀ i ∈ unusedOps, i.Wf ⟨64, 32⟩ ∧ i.ArgsIn ⟨64, 32⟩ oneGlobal := by decide

theorem unusedOps_held : HoldsOps (buffersOf unusedOps) 0 0 (unusedOps ++ [TCGOp.endOp]) := ⟨rfl, rfl⟩

theorem liveness_preserves_unused :
    ∃ l ops', tcgLivenessAnalysis ⟨64, 32⟩ oneGlobal (buffersOf unusedOps) unusedOps.length
        (unusedOps.flatMap TCGOp.params).length (fun _ => 0) = some l ∧
      readOps ⟨64, 32⟩ l.bufs (unusedOps.length + 1) 0 0 = some ops' ∧
      ∀ (M : Machine ℕ ℕ 1) (n : ℕ) (st : OpState ℕ ℕ), Matches ⟨64, 32⟩ oneGlobal unusedOps
        (run (s := oneGlobal) ⟨64, 32⟩ M unusedOps n st) (run (s := oneGlobal) ⟨64, 32⟩ M ops' n st) :=
  liveness_preserves (fun _ => 0) unusedOps_ok (by decide) unusedOps_held

/-! ## Inputs that are not used any more -/

/-- A bit of `dead_iargs` is for an input that was dead. -/
theorem inputsLive_bit {k : ℕ} : ∀ {dead : DeadTemps} {i : ℕ},
    (inputsLive skip dead i iargs).2.testBit k = true → ∃ j t, k = i + j ∧ iargs[j]? = some t ∧ dead t = true := by
  induction iargs with
  | nil =>
    intro dead i hbit
    rw [inputsLive, Nat.zero_testBit] at hbit
    cases hbit
  | cons a iargs ih =>
    intro dead i hbit
    have hrest : ∀ {dead' : DeadTemps}, (∀ t, dead' t = true → dead t = true) →
        (inputsLive skip dead' (i + 1) iargs).2.testBit k = true →
        ∃ j t, k = i + j ∧ (a :: iargs)[j]? = some t ∧ dead t = true := by
      intro dead' hdead hbit
      obtain ⟨j, t, hk, hj, ht⟩ := ih hbit
      exact ⟨j + 1, t, by omega, hj, hdead t ht⟩
    rw [inputsLive] at hbit
    by_cases hskip : skip a = true
    · rw [if_pos hskip] at hbit
      exact hrest (fun t ht => ht) hbit
    · rw [if_neg hskip] at hbit
      simp only [Nat.testBit_or, Bool.or_eq_true] at hbit
      rcases hbit with hfirst | hbit
      · by_cases ha : dead a = true
        · rw [if_pos ha, Nat.testBit_shiftLeft, Bool.and_eq_true, Nat.testBit_one_eq_true_iff_self_eq_zero] at hfirst
          have hle : i ≤ k := by simpa using hfirst.1
          exact ⟨0, a, by omega, rfl, ha⟩
        · rw [if_neg ha, Nat.zero_testBit] at hfirst
          cases hfirst
      · refine hrest (fun t ht => ?_) hbit
        rw [update_apply] at ht
        split_ifs at ht
        exact ht

theorem dead_of_bits {mid : DeadTemps} {bits j t : ℕ}
    (hbits : some ((inputsLive skip mid 0 iargs).2 % 2 ^ 16) = some bits) (hbit : bits.testBit j = true)
    (ht : iargs[j]? = some t) : mid t = true := by
  obtain rfl := Option.some.inj hbits
  rw [Nat.testBit_mod_two_pow, Bool.and_eq_true] at hbit
  obtain ⟨j', t', hj, ht', hdead⟩ := inputsLive_bit hbit.2
  rw [Nat.zero_add] at hj
  rw [← hj, ht, Option.some.injEq] at ht'
  rwa [ht']

theorem dead_of_globalsLive (ht : globalsLive s dead t = true) : dead t = true := by
  unfold globalsLive at ht
  split_ifs at ht
  exact ht

/-- What a bit says, for an op that does not end a block. -/
theorem deadInput {after : DeadTemps} {bits j t : ℕ} (hi : i.ordinary = true)
    (hbranch : (i.rights h).branches = false) (hbits : (livenessOp h s i after).2.2 = some bits)
    (hbit : bits.testBit j = true) (ht : i.iargs[j]? = some t) (hout : t ∉ i.oargs) : after t = true := by
  have hafter : outputsDead after i.oargs t = true → after t = true :=
    fun hdead => (outputsDead_iff.1 hdead).resolve_left hout
  cases i with
  | op opc oargs iargs cargs =>
    have hdef : special opc = false := by simpa [TCGOp.ordinary] using hi
    rw [livenessOp_default hdef] at hbits
    unfold opTransfer at hbits
    split_ifs at hbits with hrem hbb hcc
    · cases hbits
    · exact absurd (hbranch.symm.trans hbb) Bool.false_ne_true
    · exact hafter (dead_of_globalsLive (dead_of_bits hbits hbit ht))
    · exact hafter (dead_of_bits hbits hbit ht)
  | call oargs iargs flags =>
    have hop : livenessOp h s (.call oargs iargs flags) after =
      livenessStoreOp (.call oargs iargs flags) after (callTransfer h s oargs iargs flags after) := rfl
    rw [hop] at hbits
    unfold callTransfer at hbits
    split_ifs at hbits with hrem hconst
    · cases hbits
    · exact hafter (dead_of_globalsLive (dead_of_bits hbits hbit ht))
    · exact hafter (dead_of_bits hbits hbit ht)
  | nopn args => cases hi

theorem Agree.symm (hagree : Agree dead st st') : Agree dead st' st :=
  ⟨hagree.pc.symm, fun t ht => (hagree.temps t ht).symm, hagree.world.symm⟩

theorem Matches.symm {o o' : Option (Outcome V W s.nbGlobals)} (hmatch : Matches h s ops o o') :
    Matches h s ops o' o := by
  cases hmatch with
  | stuck => exact .stuck
  | left => exact .left
  | running hagree => exact .running (by rw [← hagree.pc]; exact hagree.symm)

/-- An ordinary op that is left was not changed, and its bits are set. -/
theorem livenessOp_left {i₀ i : TCGOp} (hop : (livenessOp h s i₀ dead).1 = i) (hi : i.ordinary = true) :
    i₀ = i ∧ ∃ bits, (livenessOp h s i dead).2.2 = some bits := by
  have hstore : ∀ o, livenessOp h s i₀ dead = livenessStoreOp i₀ dead o →
      i₀ = i ∧ ∃ bits, (livenessOp h s i dead).2.2 = some bits := by
    intro o ho
    rw [ho] at hop
    cases o with
    | none =>
      rw [← hop] at hi
      cases hi
    | some r =>
      obtain rfl : i₀ = i := hop
      exact ⟨rfl, _, by rw [ho]; rfl⟩
  cases hi₀ : i₀.ordinary with
  | false =>
    rw [livenessOp_kept hi₀] at hop
    rw [hop, hi] at hi₀
    cases hi₀
  | true =>
    cases i₀ with
    | op opc oargs iargs cargs => exact hstore _ (livenessOp_default (by simpa [TCGOp.ordinary] using hi₀) _ _ _ _)
    | call oargs iargs flags => exact hstore _ rfl
    | nopn args => cases hi₀

/-- An op that ends no block goes on with the next one. -/
theorem pc_of_step {ops' : List TCGOp} (hget : ops'[st.pc]? = some i)
    (hi : i.ordinary = true) (hbranch : (i.rights h).branches = false)
    (hstep : step h M ops' st = some (.running st')) : st'.pc = st.pc + 1 := by
  rw [step_ordinary hget hi, stepOp, hbranch] at hstep
  simp only [Bool.false_eq_true, if_false, Option.some.injEq, Outcome.running.injEq] at hstep
  rw [← hstep]

/-- **`op_dead_iargs` is right**: behind an op that is left and ends no block, the runs are the same whatever is in an
input with its bit set, if it is no output. -/
theorem opDeadIargs_unused {ops : List TCGOp} {b : OpBuffers} (mem : ℕ → ℕ)
    (hok : ∀ i ∈ ops, i.Wf h ∧ i.ArgsIn h s) (hfit : ops.length ≤ OPC_BUF_SIZE)
    (hb : HoldsOps b 0 0 (ops ++ [TCGOp.endOp])) :
    ∃ l ops', tcgLivenessAnalysis h s b ops.length (ops.flatMap TCGOp.params).length mem = some l ∧
      readOps h l.bufs (ops.length + 1) 0 0 = some ops' ∧
      ∀ (k : ℕ) (i : TCGOp) (j t : ℕ), ops'[k]? = some i → i.ordinary = true → (i.rights h).branches = false →
        (l.opDeadIargs k).testBit j = true → i.iargs[j]? = some t → t ∉ i.oargs →
        ∀ (M : Machine V W s.nbGlobals) (st st' : OpState V W), st.pc = k → step h M ops' st = some (.running st') →
          ∀ (v : V) (n : ℕ), Matches h s ops (run h M ops' n st')
            (run h M ops' n { st' with temps := update st'.temps t v }) := by
  obtain ⟨l, hl, hbl, hbits⟩ := tcgLivenessAnalysis_eq mem hok hfit hb
  have hwf : ∀ i ∈ ops, i.Wf h := fun i hi => (hok i hi).1
  refine ⟨l, optimized h s ops, hl, readOps_optimized hwf hbl, ?_⟩
  rintro k i j t hget hi hbranch hbit ht hout M st st' rfl hstep v n
  have hpc := pc_of_step hget hi hbranch hstep
  -- the op was left as it is
  rw [getElem?_optimized, Option.map_eq_some_iff] at hget
  obtain ⟨i₀, hget₀, hop⟩ := hget
  obtain ⟨rfl, bits, hset⟩ := livenessOp_left hop hi
  have hdead := hbits st.pc bits (by rw [deadIargs, hget₀]; exact hset)
  rw [hdead] at hbit
  have hafter := deadInput hi hbranch hset hbit ht hout
  rw [← hpc] at hafter
  have hagree : Agree (deadBefore h s (ops.drop st'.pc)) st' { st' with temps := update st'.temps t v } := by
    refine ⟨rfl, fun x hx => (update_of_ne ?_ ..).symm, rfl⟩
    rintro rfl
    rw [hafter] at hx
    cases hx
  exact ((run_optimized hwf n (.refl _ st')).symm).trans (run_optimized hwf n hagree)

/-- Behind the addition the runs are the same whatever is in its second input. -/
theorem opDeadIargs_unused_add :
    ∃ l ops', tcgLivenessAnalysis ⟨64, 32⟩ oneGlobal (buffersOf unusedOps) unusedOps.length
        (unusedOps.flatMap TCGOp.params).length (fun _ => 0) = some l ∧
      readOps ⟨64, 32⟩ l.bufs (unusedOps.length + 1) 0 0 = some ops' ∧
      ops'[2]? = some (.op (.add .i32) [0] [0, 3] []) ∧ (l.opDeadIargs 2).testBit 1 = true ∧
      ∀ (M : Machine ℕ ℕ 1) (st st' : OpState ℕ ℕ), st.pc = 2 →
        step (s := oneGlobal) ⟨64, 32⟩ M ops' st = some (.running st') →
        ∀ v n : ℕ, Matches ⟨64, 32⟩ oneGlobal unusedOps (run (s := oneGlobal) ⟨64, 32⟩ M ops' n st')
          (run (s := oneGlobal) ⟨64, 32⟩ M ops' n { st' with temps := update st'.temps 3 v }) := by
  obtain ⟨l, ops', hl, hops, hunused⟩ :=
    opDeadIargs_unused (fun _ => 0) unusedOps_ok (by decide) unusedOps_held
  have hbit : ((tcgLivenessAnalysis ⟨64, 32⟩ oneGlobal (buffersOf unusedOps) unusedOps.length
      (unusedOps.flatMap TCGOp.params).length fun _ => 0).map fun l => (l.opDeadIargs 2).testBit 1) = some true := by
    decide
  have hadd : ((tcgLivenessAnalysis ⟨64, 32⟩ oneGlobal (buffersOf unusedOps) unusedOps.length
      (unusedOps.flatMap TCGOp.params).length fun _ => 0).bind fun l =>
        (readOps ⟨64, 32⟩ l.bufs (unusedOps.length + 1) 0 0).bind fun ops' => ops'[2]?) =
      some (.op (.add .i32) [0] [0, 3] []) := by
    decide
  rw [hl, Option.map_some] at hbit
  rw [hl, Option.bind_some, hops, Option.bind_some] at hadd
  have hbit := Option.some.inj hbit
  exact ⟨l, ops', hl, hops, hadd, hbit, fun M st st' hpc hstep v n =>
    hunused 2 _ 1 3 hadd rfl rfl hbit rfl (by decide) M st st' hpc hstep v n⟩

end Emulator.Tcg
