import Mathlib.Algebra.Group.Nat.Defs
import Mathlib.Data.Nat.Notation
import Mathlib.Logic.Function.Basic
import Mathlib.Tactic.SplitIfs

/-!
# The ops of the code generator

`tcg-opc.h`, and how `tcg-op.h` and `tcg_gen_callN` put ops into the buffers: the opcodes are in `gen_opc_buf`, and the
parameters of all ops one after the other in `gen_opparam_buf`. `tcg_gen_code` reads them from the front. The liveness
analysis reads them from the back, which is why an op with a variable number of parameters has their count behind them.

An opcode for both word sizes (`mov_i32` and `mov_i64`) is one opcode with a type here. What a host lacks
(`TCG_TARGET_HAS_*`) is never generated.
-/

namespace Emulator.Tcg

inductive TCGType
  | i32
  | i64
  deriving DecidableEq

inductive TCGOpcode
  | end_ | nop | nop1 | nop2 | nop3 | nopn
  | discard | set_label | call | jmp | br
  | mov (type : TCGType) | movi (type : TCGType) | setcond (type : TCGType)
  | ld8u (type : TCGType) | ld8s (type : TCGType) | ld16u (type : TCGType) | ld16s (type : TCGType)
  | ld32u | ld32s | ld (type : TCGType)
  | st8 (type : TCGType) | st16 (type : TCGType) | st32 | st (type : TCGType)
  | add (type : TCGType) | sub (type : TCGType) | mul (type : TCGType)
  | div (type : TCGType) | divu (type : TCGType) | rem (type : TCGType) | remu (type : TCGType)
  | div2 (type : TCGType) | divu2 (type : TCGType)
  | and (type : TCGType) | or (type : TCGType) | xor (type : TCGType)
  | shl (type : TCGType) | shr (type : TCGType) | sar (type : TCGType)
  | rotl (type : TCGType) | rotr (type : TCGType)
  | brcond (type : TCGType) | add2 | sub2 | brcond2 | mulu2 | setcond2
  | ext8s (type : TCGType) | ext16s (type : TCGType) | ext32s
  | ext8u (type : TCGType) | ext16u (type : TCGType) | ext32u
  | bswap16 (type : TCGType) | bswap32 (type : TCGType) | bswap64
  | not (type : TCGType) | neg (type : TCGType) | andc (type : TCGType) | orc (type : TCGType)
  | debug_insn_start | exit_tb | goto_tb
  | qemu_ld8u | qemu_ld8s | qemu_ld16u | qemu_ld16s | qemu_ld32u | qemu_ld32s | qemu_ld64
  | qemu_st8 | qemu_st16 | qemu_st32 | qemu_st64
  deriving DecidableEq

/-- The counts of the parameters and the flags `TCG_OPF_*`. -/
structure TCGOpDef where
  nbOargs : ℕ
  nbIargs : ℕ
  nbCargs : ℕ
  bbEnd : Bool := false
  callClobber : Bool := false
  sideEffects : Bool := false

def TCGOpDef.nbArgs (d : TCGOpDef) : ℕ := d.nbOargs + d.nbIargs + d.nbCargs

/-- `TCG_TARGET_REG_BITS` and `TARGET_LONG_BITS`, 32 or 64, and `TCG_CALL_DUMMY_ARG`. -/
structure TcgTarget where
  regBits : ℕ
  targetLongBits : ℕ

def TcgTarget.dummyArg (h : TcgTarget) : ℕ := 2 ^ h.regBits - 1

/-- The registers that hold an address of the guest. -/
def TcgTarget.addrArgs (h : TcgTarget) : ℕ := if h.regBits < h.targetLongBits then 2 else 1

/-- The registers that hold 64 bits. -/
def TcgTarget.longArgs (h : TcgTarget) : ℕ := if h.regBits = 32 then 2 else 1

/-- `tcg_op_defs`. -/
def tcgOpDef (h : TcgTarget) : TCGOpcode → TCGOpDef
  | .end_ | .nop => ⟨0, 0, 0, false, false, false⟩
  | .nop1 | .nopn => ⟨0, 0, 1, false, false, false⟩
  | .nop2 => ⟨0, 0, 2, false, false, false⟩
  | .nop3 => ⟨0, 0, 3, false, false, false⟩
  | .discard => ⟨1, 0, 0, false, false, false⟩
  | .set_label => ⟨0, 0, 1, false, false, false⟩
  | .call => ⟨0, 1, 2, false, false, true⟩
  | .jmp => ⟨0, 1, 0, true, false, true⟩
  | .br | .exit_tb | .goto_tb => ⟨0, 0, 1, true, false, true⟩
  | .mov _ | .ext8s _ | .ext16s _ | .ext32s | .ext8u _ | .ext16u _ | .ext32u | .bswap16 _ | .bswap32 _ | .bswap64
  | .not _ | .neg _ => ⟨1, 1, 0, false, false, false⟩
  | .movi _ => ⟨1, 0, 1, false, false, false⟩
  | .setcond _ => ⟨1, 2, 1, false, false, false⟩
  | .ld8u _ | .ld8s _ | .ld16u _ | .ld16s _ | .ld32u | .ld32s | .ld _ => ⟨1, 1, 1, false, false, false⟩
  | .st8 _ | .st16 _ | .st32 | .st _ => ⟨0, 2, 1, false, false, true⟩
  | .add _ | .sub _ | .mul _ | .div _ | .divu _ | .rem _ | .remu _ | .and _ | .or _ | .xor _ | .shl _ | .shr _ | .sar _
  | .rotl _ | .rotr _ | .andc _ | .orc _ => ⟨1, 2, 0, false, false, false⟩
  | .div2 _ | .divu2 _ => ⟨2, 3, 0, false, false, false⟩
  | .brcond _ => ⟨0, 2, 2, true, false, true⟩
  | .add2 | .sub2 => ⟨2, 4, 0, false, false, false⟩
  | .brcond2 => ⟨0, 4, 2, true, false, true⟩
  | .mulu2 => ⟨2, 2, 0, false, false, false⟩
  | .setcond2 => ⟨1, 4, 1, false, false, false⟩
  | .debug_insn_start => ⟨0, 0, h.addrArgs, false, false, false⟩
  | .qemu_ld8u | .qemu_ld8s | .qemu_ld16u | .qemu_ld16s | .qemu_ld32u | .qemu_ld32s =>
    ⟨1, h.addrArgs, 1, false, true, true⟩
  | .qemu_ld64 => ⟨h.longArgs, h.addrArgs, 1, false, true, true⟩
  | .qemu_st8 | .qemu_st16 | .qemu_st32 => ⟨0, 1 + h.addrArgs, 1, false, true, true⟩
  | .qemu_st64 => ⟨0, h.longArgs + h.addrArgs, 1, false, true, true⟩

/-- What flags an op can have. -/
theorem tcgOpDef_flags (h : TcgTarget) (opc : TCGOpcode) :
    ((tcgOpDef h opc).bbEnd = true → (tcgOpDef h opc).nbOargs = 0 ∧ (tcgOpDef h opc).sideEffects = true) ∧
      ((tcgOpDef h opc).callClobber = true → (tcgOpDef h opc).sideEffects = true) := by
  cases opc <;> simp [tcgOpDef]

/-- An op with its parameters. The last input of a call is the address of the function. A nop of a variable size has
its size as the first and as the last parameter, and anything between. -/
inductive TCGOp
  | op (opc : TCGOpcode) (oargs iargs cargs : List ℕ)
  | call (oargs iargs : List ℕ) (flags : ℕ)
  | nopn (args : List ℕ)
  deriving DecidableEq

namespace TCGOp

def opcode : TCGOp → TCGOpcode
  | op opc _ _ _ => opc
  | call _ _ _ => .call
  | nopn _ => .nopn

/-- What `tcg_gen_op*` and `tcg_gen_callN` write into `gen_opparam_buf`. -/
def params : TCGOp → List ℕ
  | op _ oargs iargs cargs => oargs ++ iargs ++ cargs
  | call oargs iargs flags =>
    ((oargs.length <<< 16) ||| iargs.length) :: (oargs ++ iargs ++ [flags, oargs.length + iargs.length + 3])
  | nopn args => args

/-- The counts are those of `tcg_op_defs`, or those that the op has among its parameters. A call has an input for each
bit of `dead_iargs` at the most: `1 << i` has no value behind them. -/
def Wf (h : TcgTarget) : TCGOp → Prop
  | op opc oargs iargs cargs => opc ≠ .call ∧ opc ≠ .nopn ∧ opc ≠ .end_ ∧ oargs.length = (tcgOpDef h opc).nbOargs ∧
      iargs.length = (tcgOpDef h opc).nbIargs ∧ cargs.length = (tcgOpDef h opc).nbCargs
  | call _ iargs _ => iargs.length ≤ 32
  | nopn args => args.head? = some args.length ∧ args.getLast? = some args.length

instance (h : TcgTarget) (i : TCGOp) : Decidable (i.Wf h) := by
  cases i <;> unfold Wf <;> infer_instance

end TCGOp

/-- `gen_opc_buf` and `gen_opparam_buf`. -/
structure OpBuffers where
  opc : ℕ → TCGOpcode
  opparam : ℕ → ℕ

end Emulator.Tcg
