import Emulator.Exec.JumpCache
import Emulator.Lib.Loops

/-!
# Translation blocks and their jumps

A block of guest code that has been translated, the fields that link it to other blocks, and the functions of
`exec.c` and `exec-all.h` that chain blocks. A pointer to a block with a tag in its two low bits is a
pair here, and the array `tbs` is a function of the index.

The jump lists are closed: `jmp_first` of a block leads to a block that jumps to it, with the number of the jump as
tag, the field `jmp_next` of that jump to the next one, and the last one back with the tag 2.

A function gives `none` if it follows a null pointer, or if its fuel is too small.
-/

namespace Emulator.Exec

open Function

/-- The numbers of the two jumps and of the two pages of a block have numerals. -/
scoped instance neZero_two : NeZero 2 := ⟨by decide⟩

/-- The tag of a pointer in a jump list: 0 and 1 are `jmp_next`, 2 is `jmp_first`. -/
inductive JmpTag
  | next (n : Fin 2)
  | first
  deriving DecidableEq

/-- A field of a jump list: the block and the tag. A pointer in a jump list is the field that comes next. -/
abbrev JmpField := ℕ × JmpTag

/-- What a block is about. It stays while the block is linked. -/
structure TbCode where
  pc : TargetUlong
  /-- `1 <= size <= TARGET_PAGE_SIZE`. -/
  size : ℕ
  tcPtr : ℕ
  tbNextOffset : Fin 2 → ℕ
  pageAddr : Fin 2 → TargetUlong

/-- The links of the lists of the physical pages. -/
structure TbPhysLinks where
  physHashNext : Option ℕ
  pageNext : Fin 2 → Option (ℕ × Fin 2)

/-- The jumps, with the host address that each goes to. -/
structure TbJumps where
  tbNext : Fin 2 → ℕ
  jmpNext : Fin 2 → Option JmpField
  jmpFirst : Option JmpField

structure TranslationBlock extends TbCode, TbPhysLinks, TbJumps

abbrev Blocks := ℕ → TranslationBlock

namespace Blocks

variable (b : Blocks)

/-- The pointer in a field. -/
def jmpAt (f : JmpField) : Option JmpField :=
  match f.2 with
  | .next n => (b f.1).jmpNext n
  | .first => (b f.1).jmpFirst

def setJmp (f : JmpField) (p : Option JmpField) : Blocks :=
  match f.2 with
  | .next n => update b f.1 { b f.1 with jmpNext := update (b f.1).jmpNext n p }
  | .first => update b f.1 { b f.1 with jmpFirst := p }

def tbSetJmpTarget (tb : ℕ) (n : Fin 2) (addr : ℕ) : Blocks :=
  update b tb { b tb with tbNext := update (b tb).tbNext n addr }

/-- The jump is not chained to another block any more. -/
def tbResetJump (tb : ℕ) (n : Fin 2) : Blocks := b.tbSetJmpTarget tb n ((b tb).tcPtr + (b tb).tbNextOffset n)

/-- `if (tb->tb_next_offset[n] != 0xffff) tb_reset_jump(tb, n);`. -/
def initJump (tb : ℕ) (n : Fin 2) : Blocks := if (b tb).tbNextOffset n ≠ 0xffff then b.tbResetJump tb n else b

/-- The end of `tb_link_phys`: no jump is chained. -/
def linkJumps (tb : ℕ) : Blocks :=
  let b := b.setJmp (tb, .first) (some (tb, .first))
  let b := b.setJmp (tb, .next 0) none
  let b := b.setJmp (tb, .next 1) none
  (b.initJump tb 0).initJump tb 1

def tbAddJump (tb : ℕ) (n : Fin 2) (tbNext : ℕ) : Blocks :=
  if ((b tb).jmpNext n).isNone then
    let b := b.tbSetJmpTarget tb n (b tbNext).tcPtr
    let b := b.setJmp (tb, .next n) (b tbNext).jmpFirst
    b.setJmp (tbNext, .first) (some (tb, .next n))
  else b

/-- The search goes round, from the field of the jump itself. -/
def tbJmpRemove (fuel : ℕ) (tb : ℕ) (n : Fin 2) : Option Blocks :=
  if ((b tb).jmpNext n).isNone then some b
  else do
    let ptb ← findLink b.jmpAt (· = (tb, .next n)) fuel (tb, .next n)
    let b := b.setJmp ptb ((b tb).jmpNext n)
    return b.setJmp (tb, .next n) none

/-- The last loop of `tb_phys_invalidate`: the jumps to the block, from the pointer `tb1` on. -/
def suppressJumps : ℕ → Blocks → Option JmpField → Option Blocks
  | 0, _, _ => none
  | _ + 1, _, none => none
  | _ + 1, b, some (_, .first) => some b
  | fuel + 1, b, some (tb1, .next n1) =>
    let tb2 := (b tb1).jmpNext n1
    let b := b.tbResetJump tb1 n1
    let b := b.setJmp (tb1, .next n1) none
    suppressJumps fuel b tb2

/-- `tb_reset_jump_recursive2`. The last step is the call of `tb_reset_jump_recursive`. -/
def tbResetJumpRecursive2 (tbResetJumpRecursive : Blocks → ℕ → Option Blocks) (steps : ℕ) (tb : ℕ) (n : Fin 2) :
    Option Blocks :=
  if ((b tb).jmpNext n).isNone then some b
  else do
    -- the head of the list is the block that the jump goes to
    let last ← findLink b.jmpAt (·.2 = .first) steps (tb, .next n)
    let (tbNext, _) ← b.jmpAt last
    let ptb ← findLink b.jmpAt (· = (tb, .next n)) steps (tbNext, .first)
    let b := b.setJmp ptb ((b tb).jmpNext n)
    let b := b.setJmp (tb, .next n) none
    let b := b.tbResetJump tb n
    tbResetJumpRecursive b tbNext

/-- The first number bounds the depth of the calls, `steps` the searches in lists. -/
def tbResetJumpRecursive : ℕ → ℕ → Blocks → ℕ → Option Blocks
  | 0, _, _, _ => none
  | fuel + 1, steps, b, tb => do
    let b ← b.tbResetJumpRecursive2 (tbResetJumpRecursive fuel steps) steps tb 0
    b.tbResetJumpRecursive2 (tbResetJumpRecursive fuel steps) steps tb 1

variable {b}

@[simp] theorem jmpAt_setJmp (f : JmpField) (p : Option JmpField) :
    (b.setJmp f p).jmpAt = update b.jmpAt f p := by
  funext g
  obtain ⟨tb, tag⟩ := f
  obtain ⟨tb', tag'⟩ := g
  by_cases htb : tb' = tb
  · subst htb
    cases tag <;> cases tag' <;> simp [setJmp, jmpAt, update_apply]
  · cases tag <;> cases tag' <;> simp [setJmp, jmpAt, htb]

@[simp] theorem jmpAt_tbSetJmpTarget (tb : ℕ) (n : Fin 2) (addr : ℕ) :
    (b.tbSetJmpTarget tb n addr).jmpAt = b.jmpAt := by
  funext g
  obtain ⟨tb', tag'⟩ := g
  by_cases htb : tb' = tb
  · subst htb
    cases tag' <;> simp [tbSetJmpTarget, jmpAt]
  · cases tag' <;> simp [tbSetJmpTarget, jmpAt, htb]

@[simp] theorem jmpAt_tbResetJump (tb : ℕ) (n : Fin 2) : (b.tbResetJump tb n).jmpAt = b.jmpAt :=
  jmpAt_tbSetJmpTarget tb n _

@[simp] theorem jmpAt_initJump (tb : ℕ) (n : Fin 2) : (b.initJump tb n).jmpAt = b.jmpAt := by
  unfold initJump
  split_ifs
  · exact jmpAt_tbResetJump tb n
  · rfl

@[simp] theorem jmpAt_linkJumps (tb : ℕ) : (b.linkJumps tb).jmpAt =
    update (update (update b.jmpAt (tb, .first) (some (tb, .first))) (tb, .next 0) none)
      (tb, .next 1) none := by
  simp [linkJumps]

theorem jmpAt_next (tb : ℕ) (n : Fin 2) : (b tb).jmpNext n = b.jmpAt (tb, .next n) := rfl

theorem tbNext_setJmp (f : JmpField) (p : Option JmpField) (tb : ℕ) : (b.setJmp f p tb).tbNext = (b tb).tbNext := by
  obtain ⟨tb', tag⟩ := f
  by_cases htb : tb = tb'
  · subst htb
    cases tag <;> simp [setJmp]
  · cases tag <;> simp [setJmp, htb]

theorem tbNext_tbSetJmpTarget (tb : ℕ) (n : Fin 2) (addr : ℕ) (tb' : ℕ) (m : Fin 2) :
    (b.tbSetJmpTarget tb n addr tb').tbNext m = if tb' = tb ∧ m = n then addr else (b tb').tbNext m := by
  by_cases htb : tb' = tb
  · subst htb
    simp [tbSetJmpTarget, update_apply]
  · simp [tbSetJmpTarget, htb]

/-- Nothing but the jumps of blocks differs. -/
structure SameCode (b b' : Blocks) : Prop where
  code : ∀ tb, (b' tb).toTbCode = (b tb).toTbCode
  physLinks : ∀ tb, (b' tb).toTbPhysLinks = (b tb).toTbPhysLinks

theorem SameCode.rfl : b.SameCode b := ⟨fun _ => .refl _, fun _ => .refl _⟩

theorem SameCode.trans {b' b'' : Blocks} (h : b.SameCode b') (h' : b'.SameCode b'') : b.SameCode b'' :=
  ⟨fun tb => (h'.code tb).trans (h.code tb), fun tb => (h'.physLinks tb).trans (h.physLinks tb)⟩

theorem sameCode_setJmp (f : JmpField) (p : Option JmpField) : b.SameCode (b.setJmp f p) := by
  obtain ⟨tb', tag⟩ := f
  constructor <;>
  · intro tb
    by_cases htb : tb = tb'
    · subst htb
      cases tag <;> simp [setJmp]
    · cases tag <;> simp [setJmp, htb]

theorem sameCode_tbSetJmpTarget (tb : ℕ) (n : Fin 2) (addr : ℕ) : b.SameCode (b.tbSetJmpTarget tb n addr) := by
  constructor <;>
  · intro tb'
    by_cases htb : tb' = tb
    · subst htb
      simp [tbSetJmpTarget]
    · simp [tbSetJmpTarget, htb]

theorem sameCode_initJump (tb : ℕ) (n : Fin 2) : b.SameCode (b.initJump tb n) := by
  unfold initJump
  split_ifs
  · exact sameCode_tbSetJmpTarget _ _ _
  · exact .rfl

theorem tbNext_initJump (tb : ℕ) (n : Fin 2) (tb' : ℕ) (m : Fin 2) : (b.initJump tb n tb').tbNext m =
    if (tb' = tb ∧ m = n) ∧
      (b tb).tbNextOffset n ≠ 0xffff then (b tb).tcPtr + (b tb).tbNextOffset n else (b tb').tbNext m := by
  unfold initJump
  by_cases hoff : (b tb).tbNextOffset n = 0xffff
  · simp [hoff]
  · rw [if_pos hoff, tbResetJump, tbNext_tbSetJmpTarget]
    simp [hoff]

theorem sameCode_linkJumps (tb : ℕ) : b.SameCode (b.linkJumps tb) :=
  ((((sameCode_setJmp _ _).trans (sameCode_setJmp _ _)).trans (sameCode_setJmp _ _)).trans
    (sameCode_initJump _ _)).trans (sameCode_initJump _ _)

theorem tbNext_linkJumps (tb tb' : ℕ) (m : Fin 2) : (b.linkJumps tb tb').tbNext m =
    if tb' = tb ∧ (b tb).tbNextOffset m ≠ 0xffff then (b tb).tcPtr + (b tb).tbNextOffset m else (b tb').tbNext m := by
  have hset := ((sameCode_setJmp (b := b) (tb, .first) (some (tb, .first))).trans
    (sameCode_setJmp (tb, .next 0) none)).trans (sameCode_setJmp (tb, .next 1) none)
  have hinit := hset.trans (sameCode_initJump tb 0)
  unfold linkJumps
  rw [tbNext_initJump, tbNext_initJump, tbNext_setJmp, tbNext_setJmp, tbNext_setJmp]
  rw [congrArg TbCode.tbNextOffset (hset.code tb), congrArg TbCode.tcPtr (hset.code tb),
    congrArg TbCode.tbNextOffset (hinit.code tb), congrArg TbCode.tcPtr (hinit.code tb)]
  fin_cases m <;> by_cases htb : tb' = tb <;> simp [htb]

end Blocks

end Emulator.Exec
