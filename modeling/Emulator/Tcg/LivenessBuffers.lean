import Mathlib.Data.List.Induction
import Emulator.Tcg.Liveness

/-!
# The liveness analysis on the buffers

* `HoldsOps`: ops are in the buffers, from an opcode and from a parameter on.
* `livenessRound_eq`: a round does to the op in the buffers what `livenessOp` does to the op.
* `livenessLoop_holds`: the loop over all ops.
* `readOps`: how `tcg_gen_code_common` goes through the buffers, from the front.
-/

namespace Emulator.Tcg

open Function Lib List

variable {h : TcgTarget} {s : TcgTemps}

namespace TCGOp

/-- The temporaries of the op are in the table. A call may have `TCG_CALL_DUMMY_ARG` as an input. -/
def ArgsIn (h : TcgTarget) (s : TcgTemps) : TCGOp → Prop
  | op _ oargs iargs _ => ∀ t ∈ oargs ++ iargs, t < s.nbTemps
  | call oargs iargs _ => (∀ t ∈ oargs, t < s.nbTemps) ∧ ∀ t ∈ iargs, t < s.nbTemps ∨ t = h.dummyArg
  | nopn _ => True

instance (i : TCGOp) : Decidable (i.ArgsIn h s) :=
  match i with
  | op _ oargs iargs _ => List.decidableBAll (· < s.nbTemps) (oargs ++ iargs)
  | call oargs iargs _ =>
    @instDecidableAnd _ _ (List.decidableBAll (· < s.nbTemps) oargs)
      (List.decidableBAll (fun t => t < s.nbTemps ∨ t = h.dummyArg) iargs)
  | nopn _ => .isTrue trivial

/-- `gen_opc_buf` ends with this op. -/
def endOp : TCGOp := op .end_ [] [] []

@[simp] theorem opcode_removed (i : TCGOp) : i.removed.opcode = .nopn := rfl

theorem params_removed (i : TCGOp) :
    i.removed.params = (i.params.set 0 i.params.length).set (i.params.length - 1) i.params.length := rfl

@[simp] theorem length_removed (i : TCGOp) : i.removed.params.length = i.params.length := by
  rw [params_removed, length_set, length_set]

theorem params_call (oargs iargs : List ℕ) (flags : ℕ) : (call oargs iargs flags).params =
    ((oargs.length <<< 16) ||| iargs.length) :: (oargs ++ (iargs ++ (flags :: [oargs.length + iargs.length + 3]))) := by
  simp [params]

theorem length_params_call (oargs iargs : List ℕ) (flags : ℕ) :
    (call oargs iargs flags).params.length = oargs.length + iargs.length + 3 := by
  simp [params]
  omega

theorem length_params_op {opc : TCGOpcode} {oargs iargs cargs : List ℕ} (hwf : (op opc oargs iargs cargs).Wf h) :
    (op opc oargs iargs cargs).params.length = (tcgOpDef h opc).nbArgs := by
  obtain ⟨-, -, -, ho, hi, hc⟩ := hwf
  simp [params, TCGOpDef.nbArgs, ho, hi, hc]
  omega

end TCGOp

open TCGOp

/-- The ops are in the buffers, from the opcode `k` and the parameter `p` on. -/
structure HoldsOps (b : OpBuffers) (k p : ℕ) (ops : List TCGOp) : Prop where
  opc : Holds b.opc k (ops.map opcode)
  opparam : Holds b.opparam p (ops.flatMap params)

variable {k p : ℕ} {b : OpBuffers} {i : TCGOp} {ops : List TCGOp}

theorem holdsOps_cons :
    HoldsOps b k p (i :: ops) ↔
      b.opc k = i.opcode ∧ Holds b.opparam p i.params ∧ HoldsOps b (k + 1) (p + i.params.length) ops := by
  constructor
  · intro hb
    have hopc := hb.opc
    have hpar := hb.opparam
    rw [map_cons, holds_cons] at hopc
    rw [flatMap_cons, holds_append] at hpar
    exact ⟨hopc.1, hpar.1, hopc.2, hpar.2⟩
  · rintro ⟨hopc, hpar, hrest⟩
    exact ⟨by rw [map_cons, holds_cons]; exact ⟨hopc, hrest.opc⟩,
      by rw [flatMap_cons, holds_append]; exact ⟨hpar, hrest.opparam⟩⟩

theorem holdsOps_append {ops ops' : List TCGOp} :
    HoldsOps b k p (ops ++ ops') ↔
      HoldsOps b k p ops ∧ HoldsOps b (k + ops.length) (p + (ops.flatMap params).length) ops' := by
  constructor
  · intro hb
    have hopc := hb.opc
    have hpar := hb.opparam
    rw [map_append, holds_append, length_map] at hopc
    rw [flatMap_append, holds_append] at hpar
    exact ⟨⟨hopc.1, hpar.1⟩, hopc.2, hpar.2⟩
  · rintro ⟨hb, hb'⟩
    refine ⟨?_, ?_⟩
    · rw [map_append, holds_append, length_map]
      exact ⟨hb.opc, hb'.opc⟩
    · rw [flatMap_append, holds_append]
      exact ⟨hb.opparam, hb'.opparam⟩

theorem store_of_holds {α : Type*} {mem : ℕ → α} {p : ℕ} {l : List α} (hl : Holds mem p l) : store mem p l = mem := by
  funext i
  by_cases hi : p ≤ i ∧ i < p + l.length
  · have hget := hl.get (i := i - p) (by omega)
    have hlt : i - p < l.length := by omega
    have hstore : store mem p l (p + (i - p)) = l[i - p] := store_of_mem hlt
    rw [Nat.add_sub_cancel' hi.1] at hget hstore
    rw [hstore, hget]
  · rw [not_and_or] at hi
    exact store_of_not_mem (by omega)

/-- What a round does to the op `i`, which is op number `k` with its parameters from `p` on. -/
def livenessWrite (h : TcgTarget) (s : TcgTemps) (l : Liveness) (k p : ℕ) (i : TCGOp) : Liveness :=
  let r := livenessOp h s i l.deadTemps
  { bufs := ⟨update l.bufs.opc k r.1.opcode, store l.bufs.opparam p r.1.params⟩
    deadTemps := r.2.1
    opDeadIargs := r.2.2.elim l.opDeadIargs (update l.opDeadIargs k)
    args := p }

theorem tcgSetNop_eq (hpar : Holds b.opparam p i.params)
    (hne : i.params.length ≠ 0) : tcgSetNop b k p i.params.length =
      ⟨update b.opc k .nopn, store b.opparam p i.removed.params⟩ := by
  rw [tcgSetNop, if_neg hne]
  congr 1
  funext j
  by_cases hj : p ≤ j ∧ j < p + i.params.length
  · have hget := hpar.get (i := j - p) (by omega)
    have hlt : j - p < i.removed.params.length := by
      rw [length_removed]
      omega
    have hstore : store b.opparam p i.removed.params (p + (j - p)) = i.removed.params[j - p] := store_of_mem hlt
    rw [Nat.add_sub_cancel' hj.1] at hget hstore
    rw [hstore]
    simp only [params_removed, getElem_set, update_apply, ← hget]
    split_ifs <;> first | rfl | omega
  · rw [store_of_not_mem (by rw [length_removed]; omega), update_of_ne (by omega),
      update_of_ne (by omega)]

variable {l : Liveness}

/-- The op that was removed or not, in the buffers and in the list. -/
theorem livenessStore_eq {o : Option (DeadTemps × ℕ)}
    (hopc : l.bufs.opc k = i.opcode) (hpar : Holds l.bufs.opparam p i.params) (hne : o = none → i.params.length ≠ 0)
    (hop : livenessOp h s i l.deadTemps = livenessStoreOp i l.deadTemps o) :
    livenessStore l k p i.params.length o = livenessWrite h s l k p i := by
  rw [livenessWrite, hop]
  cases o with
  | none =>
    simp only [livenessStore, livenessStoreOp, opcode_removed, Option.elim_none]
    rw [tcgSetNop_eq hpar (hne rfl)]
  | some r =>
    simp only [livenessStore, livenessStoreOp, Option.elim_some]
    rw [store_of_holds hpar, ← hopc, update_eq_self]

/-- An op that is only skipped. -/
theorem livenessWrite_skip {dead : DeadTemps} (hopc : l.bufs.opc k = i.opcode)
    (hpar : Holds l.bufs.opparam p i.params) (hop : livenessOp h s i l.deadTemps = (i, dead, none)) :
    livenessWrite h s l k p i = { l with deadTemps := dead, args := p } := by
  rw [livenessWrite, hop]
  simp only [Option.elim_none]
  rw [store_of_holds hpar, ← hopc, update_eq_self]

theorem callHeader (o : ℕ) {i : ℕ} (hi : i < 2 ^ 16) :
    ((o <<< 16) ||| i) &&& 0xffff = i ∧ ((o <<< 16) ||| i) >>> 16 = o := by
  have hor : (o <<< 16) ||| i = o * 2 ^ 16 + i := by
    rw [Nat.shiftLeft_eq, Nat.mul_comm, Nat.two_pow_add_eq_or_of_lt hi]
  rw [hor, show (0xffff : ℕ) = 2 ^ 16 - 1 from rfl, Nat.and_two_pow_sub_one_eq_mod, Nat.shiftRight_eq_div_pow]
  constructor <;> omega

/-- The cases of the `switch`. -/
def special : TCGOpcode → Bool
  | .call | .set_label | .debug_insn_start | .nopn | .discard | .end_ => true
  | _ => false

variable {opc : TCGOpcode}

theorem special_cases (hopc : special opc = true) :
    opc = .call ∨ opc = .set_label ∨ opc = .debug_insn_start ∨ opc = .nopn ∨ opc = .discard ∨ opc = .end_ := by
  cases opc <;> first | exact absurd hopc Bool.false_ne_true | simp

theorem livenessRound_default {k : ℕ} (hopc : l.bufs.opc k = opc)
    (hdef : special opc = false) : livenessRound h s l k =
      let d := tcgOpDef h opc
      let args := l.args - d.nbArgs
      let oargs := load l.bufs.opparam args d.nbOargs
      let iargs := load l.bufs.opparam (args + d.nbOargs) d.nbIargs
      if l.args < d.nbArgs then none
      else if (oargs ++ iargs).all (· < s.nbTemps) then
        some (livenessStore l k args d.nbArgs (opTransfer s d oargs iargs l.deadTemps))
      else none := by
  unfold livenessRound
  rw [hopc]
  cases opc <;> first | rfl | cases hdef

theorem livenessOp_default (hdef : special opc = false) (oargs iargs cargs : List ℕ)
    (dead : DeadTemps) : livenessOp h s (.op opc oargs iargs cargs) dead =
      livenessStoreOp (.op opc oargs iargs cargs) dead (opTransfer s (tcgOpDef h opc) oargs iargs dead) := by
  cases opc <;> first | rfl | cases hdef

theorem opTransfer_none {d : TCGOpDef} {oargs iargs : List ℕ} {dead : DeadTemps} :
    opTransfer s d oargs iargs dead = none ↔ d.sideEffects = false ∧ d.nbOargs ≠ 0 ∧ oargs.all dead = true := by
  unfold opTransfer
  split_ifs with hrem <;> simp_all

/-- An op of the default case. -/
theorem livenessRound_op {oargs iargs cargs : List ℕ}
    (hdef : special opc = false) (hwf : (op opc oargs iargs cargs).Wf h) (hin : (op opc oargs iargs cargs).ArgsIn h s)
    (hopc : l.bufs.opc k = opc) (hpar : Holds l.bufs.opparam p (op opc oargs iargs cargs).params)
    (hl : l.args = p + (op opc oargs iargs cargs).params.length) :
    livenessRound h s l k = some (livenessWrite h s l k p (op opc oargs iargs cargs)) := by
  have hlen := length_params_op hwf
  obtain ⟨-, -, -, ho, hi, -⟩ := hwf
  have hargs : l.args - (tcgOpDef h opc).nbArgs = p := by omega
  have hpar' : Holds l.bufs.opparam p (oargs ++ (iargs ++ cargs)) := by
    rw [← append_assoc]
    exact hpar
  rw [livenessRound_default hopc hdef]
  simp only [hargs, hpar'.left ho, (hpar'.right ho).left hi]
  rw [if_neg (by omega), if_pos (by simpa [ArgsIn, or_imp, forall_and] using hin), ← hlen]
  refine congrArg some (livenessStore_eq hopc hpar (fun hnone => ?_) (livenessOp_default hdef _ _ _ _))
  rw [opTransfer_none, ← ho] at hnone
  simp only [params, length_append]
  omega

/-- The other cases, but the ops with a variable number of parameters. -/
theorem livenessRound_special {oargs iargs cargs : List ℕ}
    (hspecial : special opc = true) (hwf : (op opc oargs iargs cargs).Wf h)
    (hin : (op opc oargs iargs cargs).ArgsIn h s) (hopc : l.bufs.opc k = opc)
    (hpar : Holds l.bufs.opparam p (op opc oargs iargs cargs).params)
    (hl : l.args = p + (op opc oargs iargs cargs).params.length) :
    livenessRound h s l k = some (livenessWrite h s l k p (op opc oargs iargs cargs)) := by
  have hlen := length_params_op hwf
  obtain ⟨hcall, hnopn, hend, ho, hi, hc⟩ := hwf
  rcases special_cases hspecial with rfl | rfl | rfl | rfl | rfl | rfl
  · exact absurd rfl hcall
  · have hl' : l.args = p + 1 := hl.trans (by rw [hlen]; rfl)
    rw [livenessWrite_skip hopc hpar rfl]
    unfold livenessRound
    simp only [hopc]
    rw [if_neg (by omega), hl', Nat.add_sub_cancel]
  · rw [livenessWrite_skip hopc hpar rfl]
    unfold livenessRound
    simp only [hopc]
    rw [hl, hlen, if_neg (by omega), Nat.add_sub_cancel]
  · exact absurd rfl hnopn
  · -- the only parameter is the temporary
    have hl' : l.args = p + 1 := hl.trans (by rw [hlen]; rfl)
    obtain ⟨t, rfl⟩ := length_eq_one_iff.1 ho
    obtain rfl := length_eq_zero_iff.1 hi
    obtain rfl := length_eq_zero_iff.1 hc
    have ht : l.bufs.opparam p = t := (holds_cons.1 hpar).1
    rw [livenessWrite_skip hopc hpar rfl]
    unfold livenessRound
    simp only [hopc]
    rw [hl', Nat.add_sub_cancel, ht, if_neg]
    · rfl
    · have := hin t (by simp)
      omega
  · exact absurd rfl hend

theorem livenessRound_nopn {args : List ℕ} (hwf : (nopn args).Wf h)
    (hopc : l.bufs.opc k = .nopn) (hpar : Holds l.bufs.opparam p args) (hl : l.args = p + args.length) :
    livenessRound h s l k = some (livenessWrite h s l k p (nopn args)) := by
  obtain ⟨-, hlast⟩ := hwf
  have hne : args ≠ [] := by
    rintro rfl
    cases hlast
  have hpos := length_pos_iff.2 hne
  have hcount : l.bufs.opparam (l.args - 1) = args.length := by
    have hget := hpar.get (i := args.length - 1) (by omega)
    rw [List.getLast?_eq_getElem?, List.getElem?_eq_getElem (by omega), Option.some.injEq] at hlast
    rw [hl, Nat.add_sub_assoc hpos, hget, hlast]
  rw [livenessWrite_skip (i := nopn args) hopc hpar rfl]
  unfold livenessRound
  simp only [hopc]
  rw [hcount, hl, if_neg (by omega), Nat.add_sub_cancel]

theorem livenessRound_call {oargs iargs : List ℕ} {flags : ℕ}
    (hwf : (call oargs iargs flags).Wf h) (hin : (call oargs iargs flags).ArgsIn h s) (hopc : l.bufs.opc k = .call)
    (hpar : Holds l.bufs.opparam p (call oargs iargs flags).params)
    (hl : l.args = p + (call oargs iargs flags).params.length) :
    livenessRound h s l k = some (livenessWrite h s l k p (call oargs iargs flags)) := by
  have hlen := length_params_call oargs iargs flags
  have hpar' := hpar
  rw [params_call, holds_cons] at hpar'
  obtain ⟨hhead, hrest⟩ := hpar'
  have hrest' := hrest.right rfl
  have hbehind := hrest'.right rfl
  rw [holds_cons, holds_cons] at hbehind
  obtain ⟨hflags, hcount, -⟩ := hbehind
  have hcount' : l.bufs.opparam (l.args - 1) = (call oargs iargs flags).params.length := by
    rw [hlen, ← hcount]
    congr 1
    omega
  have hargs : l.args - (call oargs iargs flags).params.length = p := by omega
  obtain ⟨hmask, hshift⟩ := callHeader oargs.length (Nat.lt_of_le_of_lt hwf (by decide))
  unfold livenessRound
  simp only [hopc, hcount', hargs, hhead, hmask, hshift, hrest.left rfl, hrest'.left rfl, hflags]
  rw [if_neg (by omega), if_pos]
  · exact congrArg some (livenessStore_eq hopc hpar (fun _ => by omega) rfl)
  · simpa [ArgsIn] using hin

/-- **One round** of the loop. -/
theorem livenessRound_eq (hwf : i.Wf h) (hin : i.ArgsIn h s)
    (hopc : l.bufs.opc k = i.opcode) (hpar : Holds l.bufs.opparam p i.params) (hl : l.args = p + i.params.length) :
    livenessRound h s l k = some (livenessWrite h s l k p i) := by
  cases i with
  | op opc oargs iargs cargs =>
    cases hdef : special opc with
    | false => exact livenessRound_op hdef hwf hin hopc hpar hl
    | true => exact livenessRound_special hdef hwf hin hopc hpar hl
  | call oargs iargs flags => exact livenessRound_call hwf hin hopc hpar hl
  | nopn args => exact livenessRound_nopn hwf hopc hpar hl

theorem HoldsOps.frame {b b' : OpBuffers} (hb : HoldsOps b k p ops)
    (hopc : ∀ j, k ≤ j → j < k + ops.length → b'.opc j = b.opc j)
    (hpar : ∀ j, p ≤ j → j < p + (ops.flatMap params).length → b'.opparam j = b.opparam j) : HoldsOps b' k p ops :=
  ⟨hb.opc.frame fun j hj hj' => hopc j hj (by rwa [length_map] at hj'), hb.opparam.frame hpar⟩

theorem holds_store {α : Type*} (mem : ℕ → α) (p : ℕ) (l : List α) : Holds (store mem p l) p l :=
  holds_of_get fun _ hi => store_of_mem hi

/-- One op is replaced by another one of the same size. -/
theorem HoldsOps.replace {pre post : List TCGOp} {i i' : TCGOp}
    (hb : HoldsOps b 0 0 (pre ++ i :: post)) (hlen : i'.params.length = i.params.length) :
    HoldsOps ⟨update b.opc pre.length i'.opcode, store b.opparam (pre.flatMap params).length i'.params⟩ 0 0
      (pre ++ i' :: post) := by
  rw [holdsOps_append, holdsOps_cons, Nat.zero_add, Nat.zero_add] at hb ⊢
  obtain ⟨hpre, -, -, hpost⟩ := hb
  refine ⟨hpre.frame (fun j _ hj => ?_) (fun j _ hj => ?_), update_self .., holds_store _ _ _, ?_⟩
  · exact update_of_ne (by omega) ..
  · exact store_of_not_mem (by omega)
  · rw [← hlen] at hpost
    refine hpost.frame (fun j hj _ => ?_) (fun j hj _ => ?_)
    · exact update_of_ne (by omega) ..
    · exact store_of_not_mem (by omega)

theorem length_livenessOp (i : TCGOp) (dead : DeadTemps) :
    (livenessOp h s i dead).1.params.length = i.params.length := by
  have hstore : ∀ o, (livenessStoreOp i dead o).1.params.length = i.params.length := by
    intro o
    cases o with
    | none => exact length_removed i
    | some r => rfl
  unfold livenessOp
  split <;> first | exact hstore _ | rfl

/-- `op_dead_iargs` of the op number `k`, if the analysis sets it. -/
def deadIargs (h : TcgTarget) (s : TcgTemps) (ops : List TCGOp) (k : ℕ) : Option ℕ :=
  (ops[k]?).bind fun i => (livenessOp h s i (deadBefore h s (ops.drop (k + 1)))).2.2

/-- **The loop**, from the ops `pre` in front of those that it has gone through. -/
theorem livenessLoop_holds (pre : List TCGOp) : ∀ (rest : List TCGOp) (l : Liveness),
    (∀ i ∈ pre, i.Wf h ∧ i.ArgsIn h s) → HoldsOps l.bufs 0 0 (pre ++ optimized h s rest) →
    l.deadTemps = deadBefore h s rest → l.args = (pre.flatMap params).length →
    ∃ l', livenessLoop h s pre.length l = some l' ∧ HoldsOps l'.bufs 0 0 (optimized h s (pre ++ rest)) ∧ l'.args = 0 ∧
      (∀ k ≥ pre.length, l'.opDeadIargs k = l.opDeadIargs k) ∧
      ∀ k < pre.length, ∀ bits, deadIargs h s (pre ++ rest) k = some bits → l'.opDeadIargs k = bits := by
  induction pre using List.reverseRecOn with
  | nil =>
    intro rest l _ hb _ hargs
    exact ⟨l, rfl, hb, hargs, fun _ _ => rfl, fun k hk => absurd hk (Nat.not_lt_zero k)⟩
  | append_singleton pre i ih =>
    intro rest l hok hb hdead hargs
    have hsplit : (pre ++ [i]).flatMap params = pre.flatMap params ++ i.params := by simp
    rw [append_assoc, singleton_append] at hb
    obtain ⟨hwf, hin⟩ := hok i (by simp)
    have hat := (holdsOps_append.1 hb).2
    rw [holdsOps_cons, Nat.zero_add, Nat.zero_add] at hat
    have hround := livenessRound_eq hwf hin hat.1 hat.2.1 (by rw [hargs, hsplit, length_append])
    obtain ⟨l', hl', hb', hargs', hkeep, hbits⟩ := ih (i :: rest)
      (livenessWrite h s l pre.length (pre.flatMap params).length i) (fun j hj => hok j (by simp [hj]))
      (by rw [livenessWrite, hdead]; exact hb.replace (length_livenessOp i _)) (by rw [livenessWrite, hdead]; rfl) rfl
    refine ⟨l', ?_, by rwa [append_assoc, singleton_append], hargs', fun k hk => ?_, fun k hk bits hset => ?_⟩
    · rw [length_append, length_singleton, livenessLoop, hround]
      exact hl'
    · rw [length_append, length_singleton] at hk
      rw [hkeep k (by omega)]
      simp only [livenessWrite]
      cases (livenessOp h s i l.deadTemps).2.2 with
      | none => rfl
      | some bits => exact update_of_ne (by omega) ..
    · rw [append_assoc, singleton_append] at hset
      rw [length_append, length_singleton] at hk
      rcases Nat.lt_succ_iff_lt_or_eq.1 hk with hlt | rfl
      · exact hbits k hlt bits hset
      · have hop : (livenessOp h s i l.deadTemps).2.2 = some bits := by
          rw [hdead]
          simpa [deadIargs] using hset
        rw [hkeep _ (Nat.le_refl _)]
        simp only [livenessWrite, hop, Option.elim_some, update_self]

theorem deadBefore_end (ops : List TCGOp) : deadBefore h s (ops ++ [endOp]) = deadBefore h s ops := by
  induction ops with
  | nil => rfl
  | cons i ops ih => rw [cons_append, deadBefore, deadBefore, ih]

theorem optimized_end (ops : List TCGOp) : optimized h s (ops ++ [endOp]) = optimized h s ops ++ [endOp] := by
  induction ops with
  | nil => rfl
  | cons i ops ih => rw [cons_append, optimized, optimized, ih, deadBefore_end, cons_append]

theorem deadIargs_end {k : ℕ} (hk : k < ops.length) :
    deadIargs h s (ops ++ [endOp]) k = deadIargs h s ops k := by
  rw [deadIargs, deadIargs, List.getElem?_append_left hk, drop_append_of_le_length hk, deadBefore_end]

/-- **The analysis of the ops that are in the buffers** with `end` behind them. -/
theorem tcgLivenessAnalysis_eq (mem : ℕ → ℕ)
    (hok : ∀ i ∈ ops, i.Wf h ∧ i.ArgsIn h s) (hfit : ops.length ≤ OPC_BUF_SIZE)
    (hb : HoldsOps b 0 0 (ops ++ [endOp])) :
    ∃ l, tcgLivenessAnalysis h s b ops.length (ops.flatMap params).length mem = some l ∧
      HoldsOps l.bufs 0 0 (optimized h s ops ++ [endOp]) ∧
      ∀ k bits, deadIargs h s ops k = some bits → l.opDeadIargs k = bits := by
  have hend : b.opc ops.length = .end_ := by
    have hat := (holdsOps_append.1 hb).2
    rw [holdsOps_cons, Nat.zero_add] at hat
    exact hat.1
  obtain ⟨l, hl, hbl, hargs, -, hbits⟩ := livenessLoop_holds ops [endOp]
    ⟨b, fun _ => true, mem, (ops.flatMap params).length⟩ hok hb rfl rfl
  refine ⟨l, ?_, by rwa [optimized_end] at hbl, fun k bits hset => ?_⟩
  · have hround : livenessRound h s ⟨b, fun _ => true, mem, (ops.flatMap params).length⟩ ops.length =
        some ⟨b, fun _ => true, mem, (ops.flatMap params).length⟩ := by
      unfold livenessRound
      simp only [hend]
    rw [tcgLivenessAnalysis, if_neg (by omega), livenessLoop, hround, Option.bind_some, hl]
    exact if_pos hargs
  · have hk : k < ops.length := by
      by_contra hle
      rw [deadIargs, List.getElem?_eq_none (by omega)] at hset
      cases hset
    exact hbits k hk bits (by rwa [deadIargs_end hk])

variable (h)

/-- The op number `k` with its parameters from `p` on, and where the parameters of the next one are. -/
def readOp (b : OpBuffers) (k p : ℕ) : TCGOp × ℕ :=
  let opc := b.opc k
  let d := tcgOpDef h opc
  match opc with
  | .nopn => (.nopn (load b.opparam p (b.opparam p)), p + b.opparam p)
  | .call =>
    let nbOargs := b.opparam p >>> 16
    let nbIargs := b.opparam p &&& 0xffff
    (.call (load b.opparam (p + 1) nbOargs) (load b.opparam (p + 1 + nbOargs) nbIargs)
      (b.opparam (p + 1 + nbOargs + nbIargs)), p + (nbIargs + nbOargs + d.nbCargs + 1))
  | _ =>
    (.op opc (load b.opparam p d.nbOargs) (load b.opparam (p + d.nbOargs) d.nbIargs)
      (load b.opparam (p + d.nbOargs + d.nbIargs) d.nbCargs), p + d.nbArgs)

/-- The ops up to `end`, the next one being the op number `k` with its parameters from `p` on. -/
def readOps (b : OpBuffers) : (fuel : ℕ) → (k p : ℕ) → Option (List TCGOp)
  | 0, _, _ => none
  | fuel + 1, k, p =>
    if b.opc k = .end_ then some []
    else
      let (i, p') := readOp h b k p
      (readOps b fuel (k + 1) p').map (i :: ·)

variable {h}

theorem readOp_eq (hwf : i.Wf h) (hopc : b.opc k = i.opcode)
    (hpar : Holds b.opparam p i.params) : readOp h b k p = (i, p + i.params.length) := by
  cases i with
  | op opc oargs iargs cargs =>
    have hlen := length_params_op hwf
    obtain ⟨hcall, hnopn, -, ho, hi, hc⟩ := hwf
    have hdef : readOp h b k p = (.op opc (load b.opparam p (tcgOpDef h opc).nbOargs)
        (load b.opparam (p + (tcgOpDef h opc).nbOargs) (tcgOpDef h opc).nbIargs)
        (load b.opparam (p + (tcgOpDef h opc).nbOargs + (tcgOpDef h opc).nbIargs) (tcgOpDef h opc).nbCargs),
        p + (tcgOpDef h opc).nbArgs) := by
      unfold readOp
      rw [show b.opc k = opc from hopc]
      cases opc <;> first | rfl | exact absurd rfl hcall | exact absurd rfl hnopn
    have hpar' : Holds b.opparam p (oargs ++ (iargs ++ (cargs ++ []))) := by
      rw [← append_assoc, append_nil]
      exact hpar
    rw [hdef, hlen, hpar'.left ho, (hpar'.right ho).left hi, ((hpar'.right ho).right hi).left hc]
  | call oargs iargs flags =>
    have hpar' := hpar
    rw [params_call, holds_cons] at hpar'
    obtain ⟨hhead, hrest⟩ := hpar'
    have hrest' := hrest.right rfl
    have hflags := (holds_cons.1 (hrest'.right rfl)).1
    obtain ⟨hmask, hshift⟩ := callHeader oargs.length (Nat.lt_of_le_of_lt hwf (by decide))
    unfold readOp
    rw [show b.opc k = .call from hopc]
    simp only [hhead, hmask, hshift, hrest.left rfl, hrest'.left rfl, hflags, length_params_call]
    refine congrArg _ ?_
    rw [show (tcgOpDef h .call).nbCargs = 2 from rfl]
    omega
  | nopn args =>
    have hhead : b.opparam p = args.length := by
      obtain ⟨hfirst, -⟩ := hwf
      cases args with
      | nil => cases hfirst
      | cons a rest => exact (holds_cons.1 hpar).1.trans (Option.some.inj hfirst)
    have hload : load b.opparam p args.length = args := hpar
    unfold readOp
    rw [show b.opc k = .nopn from hopc]
    simp only [hhead, hload]
    rfl

theorem opcode_ne_end (hwf : i.Wf h) : i.opcode ≠ .end_ := by
  cases i with
  | op opc oargs iargs cargs => exact hwf.2.2.1
  | call oargs iargs flags => exact TCGOpcode.noConfusion
  | nopn args => exact TCGOpcode.noConfusion

/-- **What `tcg_gen_code_common` reads** is what was put into the buffers. -/
theorem readOps_eq (ops : List TCGOp) : ∀ (k p : ℕ), (∀ i ∈ ops, i.Wf h) →
    HoldsOps b k p (ops ++ [endOp]) → readOps h b (ops.length + 1) k p = some ops := by
  induction ops with
  | nil =>
    intro k p _ hb
    exact if_pos (holdsOps_cons.1 hb).1
  | cons i ops ih =>
    intro k p hok hb
    rw [cons_append, holdsOps_cons] at hb
    obtain ⟨hopc, hpar, hrest⟩ := hb
    have hwf := hok i mem_cons_self
    rw [length_cons, readOps, if_neg (by rw [hopc]; exact opcode_ne_end hwf), readOp_eq hwf hopc hpar]
    simp only
    rw [ih (k + 1) _ (fun j hj => hok j (mem_cons_of_mem i hj)) hrest]
    rfl

theorem wf_removed (hne : i.params.length ≠ 0) : i.removed.Wf h := by
  have hlen := length_removed i
  have hends : ∀ k (hk : k < i.removed.params.length), k = 0 ∨ k = i.params.length - 1 →
      i.removed.params[k] = i.removed.params.length := by
    intro k hk hk'
    simp only [params_removed, getElem_set, length_set]
    split_ifs <;> first | rfl | omega
  rw [show i.removed = .nopn i.removed.params from rfl]
  constructor
  · rw [List.head?_eq_getElem?, List.getElem?_eq_getElem (by omega), hends 0 (by omega) (.inl rfl)]
  · rw [List.getLast?_eq_getElem?, List.getElem?_eq_getElem (by omega), hends _ (by omega) (.inr (by rw [hlen]))]

/-- Only an op with outputs, or a call, is removed. -/
theorem livenessOp_cases (i : TCGOp) (hwf : i.Wf h) (dead : DeadTemps) :
    (livenessOp h s i dead).1 = i ∨ livenessOp h s i dead = (i.removed, dead, none) ∧ i.params.length ≠ 0 := by
  cases i with
  | op opc oargs iargs cargs =>
    cases hdef : special opc with
    | false =>
      rw [livenessOp_default hdef]
      cases htransfer : opTransfer s (tcgOpDef h opc) oargs iargs dead with
      | none =>
        rw [opTransfer_none, ← hwf.2.2.2.1] at htransfer
        refine .inr ⟨rfl, ?_⟩
        simp only [params, length_append]
        omega
      | some r => exact .inl rfl
    | true => rcases special_cases hdef with rfl | rfl | rfl | rfl | rfl | rfl <;> exact .inl rfl
  | call oargs iargs flags =>
    cases htransfer : callTransfer h s oargs iargs flags dead with
    | none => exact .inr ⟨by rw [livenessOp, htransfer]; rfl, by rw [length_params_call]; omega⟩
    | some r => exact .inl (by rw [livenessOp, htransfer]; rfl)
  | nopn args => exact .inl rfl

theorem wf_livenessOp (hwf : i.Wf h) (dead : DeadTemps) : (livenessOp h s i dead).1.Wf h := by
  rcases livenessOp_cases (s := s) i hwf dead with hkept | ⟨hremoved, hne⟩
  · rwa [hkept]
  · rw [hremoved]
    exact wf_removed hne

/-- The ops that are left have their counts too. -/
theorem wf_optimized (hok : ∀ i ∈ ops, i.Wf h) : ∀ i ∈ optimized h s ops, i.Wf h := by
  induction ops with
  | nil => exact fun i hi => absurd hi not_mem_nil
  | cons i ops ih =>
    intro j hj
    rw [optimized, mem_cons] at hj
    rcases hj with rfl | hj
    · exact wf_livenessOp (hok i mem_cons_self) _
    · exact ih (fun k hk => hok k (mem_cons_of_mem i hk)) j hj

end Emulator.Tcg
