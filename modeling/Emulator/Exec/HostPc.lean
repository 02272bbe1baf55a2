import Emulator.Lib.BinarySearch
import Emulator.Lib.Cells
import Mathlib.Data.List.GetD

/-!
# From a host address to its translation block

The array of translation blocks, as `tb_alloc`, `tb_gen_code`, `tb_free` and `tb_flush` keep it, and the search of
`tb_find_pc`. Addresses are natural numbers. A block whose `tc_ptr` has not been set has none.

* `Starts`: the code of the blocks in the order of the array, up to `code_gen_ptr`;
* `run_starts`: every call keeps it;
* `tbFindPc_reachable`: **in every state that is reached, each address of the generated code has one block, and
  `tb_find_pc` finds it.**
* `run_inBuffer`: with the sizes of `code_gen_alloc` no call aborts, and the code stays inside of its buffer.
-/

namespace Emulator.Exec

open Lib List Option

/-- What `code_gen_alloc` sets up. -/
structure CodeBuffer where
  codeGenBuffer : ℕ
  codeGenBufferSize : ℕ
  codeGenBufferMaxSize : ℕ
  codeGenMaxBlocks : ℕ

/-- `tbs` has the `tc_ptr` of each block. -/
structure GenState where
  tbs : Cells (Option ℕ)
  nbTbs : ℕ
  codeGenPtr : ℕ

/-- `code_gen_max_block_size`: `TCG_MAX_OP_SIZE` times `OPC_MAX_SIZE`. No op has a `copy_size`. -/
def codeGenMaxBlockSize : ℕ := 192 * (2048 - 96)

def minCodeGenBufferSize : ℕ := 1024 * 1024

/-- `code_gen_alloc`, where `mmap` gives `start`. -/
def codeGenAlloc (tbSize ramSize start : ℕ) : CodeBuffer :=
  let size := if tbSize = 0 then ramSize / 4 else tbSize
  let size := if size < minCodeGenBufferSize then minCodeGenBufferSize else size
  { codeGenBuffer := start
    codeGenBufferSize := size
    codeGenBufferMaxSize := size - codeGenMaxBlockSize
    codeGenMaxBlocks := size / 128 }

namespace CodeBuffer

variable (c : CodeBuffer)

def start : GenState := ⟨Cells.fresh c.codeGenMaxBlocks, 0, c.codeGenBuffer⟩

/-- The index of the new block, `none` if there is no room. -/
def tbAlloc (s : GenState) : Option (ℕ × GenState) :=
  if c.codeGenMaxBlocks ≤ s.nbTbs ∨ c.codeGenBufferMaxSize ≤ s.codeGenPtr - c.codeGenBuffer then none
  else some (s.nbTbs, { s with nbTbs := s.nbTbs + 1 })

/-- `none` if it aborts. -/
def tbFlush (s : GenState) : Option GenState :=
  if c.codeGenBufferSize < s.codeGenPtr - c.codeGenBuffer then none
  else some { s with nbTbs := 0, codeGenPtr := c.codeGenBuffer }

/-- The end of the code, up to `CODE_GEN_ALIGN`. -/
def alignCode (ptr : ℕ) : ℕ := (ptr + 16 - 1) / 16 * 16

/-- What `tb_gen_code` does with the new block, whose code takes `codeGenSize` octets. -/
def genBlock (s : GenState) (tb codeGenSize : ℕ) : Option GenState :=
  (s.tbs.store tb (some s.codeGenPtr)).map fun tbs =>
    { s with tbs, codeGenPtr := alignCode (s.codeGenPtr + codeGenSize) }

def tbGenCode (s : GenState) (codeGenSize : ℕ) : Option GenState :=
  match c.tbAlloc s with
  | some (tb, s) => genBlock s tb codeGenSize
  | none => (c.tbFlush s).bind fun s => (c.tbAlloc s).bind fun (tb, s) => genBlock s tb codeGenSize

def tbFree (s : GenState) (tb : ℕ) : Option GenState :=
  if 0 < s.nbTbs ∧ tb = s.nbTbs - 1 then
    (s.tbs.load tb).map fun tcPtr => { s with codeGenPtr := tcPtr, nbTbs := s.nbTbs - 1 }
  else some s

/-- The index of the block, if there is one; `none` if an element is used that is not there. -/
def tbFindPc (s : GenState) (tcPtr : ℕ) : Option (Option ℕ) :=
  if s.nbTbs = 0 then some none
  else if tcPtr < c.codeGenBuffer ∨ s.codeGenPtr ≤ tcPtr then some none
  else (search s.tbs.loadAt tcPtr 0 (s.nbTbs - 1)).bind fun
    | .found m => if 0 ≤ m then some (some m.toNat) else none
    | .past mMax => if 0 ≤ mMax then some (some mMax.toNat) else none

inductive Call
  | gen (codeGenSize : ℕ)
  | free (tb : ℕ)
  | flush

def call (s : GenState) : Call → Option GenState
  | .gen codeGenSize => c.tbGenCode s codeGenSize
  | .free tb => tbFree s tb
  | .flush => c.tbFlush s

/-- `none` if a call aborts. -/
def run : GenState → List Call → Option GenState
  | s, [] => some s
  | s, a :: calls => (c.call s a).bind fun s => run s calls

/-- The blocks have their code at the addresses `l`, one behind the other from the start of the buffer on, and the
code of the last one ends in front of `code_gen_ptr`. -/
structure Starts (s : GenState) (l : List ℕ) : Prop where
  room : s.tbs.Room 0 c.codeGenMaxBlocks
  length : l.length = s.nbTbs
  le : s.nbTbs ≤ c.codeGenMaxBlocks
  load {i} : i < l.length → s.tbs.load i = l[i]?
  head : (l ++ [s.codeGenPtr]).head? = some c.codeGenBuffer
  sorted : (l ++ [s.codeGenPtr]).Pairwise (· < ·)

variable {c} {s s' : GenState} {l : List ℕ} {codeGenSize tb p : ℕ}

theorem starts_start : c.Starts c.start [] where
  room := Cells.room_fresh _
  length := rfl
  le := Nat.zero_le _
  load hi := absurd hi (Nat.not_lt_zero _)
  head := rfl
  sorted := pairwise_singleton _ _

theorem lt_alignCode (hpos : 0 < codeGenSize) (ptr : ℕ) : ptr < alignCode (ptr + codeGenSize) := by
  unfold alignCode
  omega

theorem load_overlay_self (s : GenState) (tb v : ℕ) : (s.tbs.overlay tb [some v]).load tb = some v := by
  rw [Cells.load, Cells.overlay_inside _ le_rfl (by simp), Nat.sub_self]
  rfl

theorem load_overlay_ne {i : ℕ} (hi : i < tb) (v : ℕ) : (s.tbs.overlay tb [some v]).load i = s.tbs.load i := by
  rw [Cells.load, Cells.load, Cells.overlay_outside _ (Or.inl hi)]

/-- The new block is behind the others. -/
theorem Starts.genBlock (h : c.Starts s l) (hlt : s.nbTbs < c.codeGenMaxBlocks) (hpos : 0 < codeGenSize)
    (hs : genBlock { s with nbTbs := s.nbTbs + 1 } s.nbTbs codeGenSize = some s') :
      c.Starts s' (l ++ [s.codeGenPtr]) := by
  have hcell := h.room s.nbTbs (Nat.zero_le _) hlt
  rw [CodeBuffer.genBlock, Cells.store_eq _ hcell, map_some, some_inj] at hs
  subst hs
  refine ⟨h.room.overlay, by simp [h.length], hlt, fun {i} hi => ?_, ?_, ?_⟩
  · rw [length_append, length_singleton, h.length] at hi
    simp only
    rcases Nat.lt_succ_iff_lt_or_eq.1 hi with hlt' | rfl
    · rw [← h.length] at hlt'
      rw [load_overlay_ne (h.length ▸ hlt'), h.load hlt', List.getElem?_append_left hlt']
    · rw [load_overlay_self, ← h.length, List.getElem?_concat_length]
  · rw [List.head?_append, h.head]
    rfl
  · refine pairwise_append.2 ⟨h.sorted, pairwise_singleton _ _, fun x hx y hy => ?_⟩
    rw [mem_singleton.1 hy]
    have hend := lt_alignCode hpos s.codeGenPtr
    rcases mem_append.1 hx with hx | hx
    · exact ((pairwise_append.1 h.sorted).2.2 x hx _ (mem_singleton_self _)).trans hend
    · rwa [mem_singleton.1 hx]

theorem Starts.tbFlush (h : c.Starts s l) (hs : c.tbFlush s = some s') : c.Starts s' [] := by
  unfold CodeBuffer.tbFlush at hs
  split_ifs at hs
  obtain rfl := some_inj.1 hs
  exact ⟨h.room, rfl, Nat.zero_le _, fun hi => absurd hi (Nat.not_lt_zero _), rfl, pairwise_singleton _ _⟩

theorem tbAlloc_cases {s : GenState} {r : ℕ × GenState} (h : c.tbAlloc s = some r) :
    s.nbTbs < c.codeGenMaxBlocks ∧ r = (s.nbTbs, { s with nbTbs := s.nbTbs + 1 }) := by
  unfold CodeBuffer.tbAlloc at h
  split_ifs at h with hfull
  rw [not_or] at hfull
  exact ⟨not_le.1 hfull.1, (some_inj.1 h).symm⟩

theorem Starts.tbGenCode (h : c.Starts s l) (hpos : 0 < codeGenSize) (hs : c.tbGenCode s codeGenSize = some s') :
    ∃ l', c.Starts s' l' := by
  unfold CodeBuffer.tbGenCode at hs
  split at hs
  · next tb s₁ halloc =>
    obtain ⟨hlt, heq⟩ := tbAlloc_cases halloc
    obtain ⟨rfl, rfl⟩ := Prod.mk.inj heq
    exact ⟨_, h.genBlock hlt hpos hs⟩
  · obtain ⟨s₁, hflush, hs⟩ := bind_eq_some_iff.1 hs
    obtain ⟨r, halloc, hs⟩ := bind_eq_some_iff.1 hs
    obtain ⟨hlt, rfl⟩ := tbAlloc_cases halloc
    exact ⟨_, (h.tbFlush hflush).genBlock hlt hpos hs⟩

/-- The code pointer goes back to where the code of the last block starts. -/
theorem Starts.tbFree (h : c.Starts s l) (hs : tbFree s tb = some s') : ∃ l', c.Starts s' l' := by
  unfold CodeBuffer.tbFree at hs
  split_ifs at hs with hlast
  · obtain ⟨hpos, rfl⟩ := hlast
    obtain ⟨tcPtr, hload, rfl⟩ := map_eq_some_iff.1 hs
    rcases eq_nil_or_concat' l with rfl | ⟨front, last, rfl⟩
    · exact absurd h.length.symm hpos.ne'
    · have hlen : front.length + 1 = s.nbTbs := by
        rw [← h.length, length_append, length_singleton]
      have hlast := h.load (i := front.length) (by simp)
      rw [show front.length = s.nbTbs - 1 by omega, hload, show s.nbTbs - 1 = front.length by omega,
        List.getElem?_concat_length, some_inj] at hlast
      have hhead := h.head
      rw [append_assoc, singleton_append] at hhead
      refine ⟨front, h.room, by simp only; omega, by have := h.le; simp only; omega, fun {i} hi => ?_, ?_, ?_⟩
      · rw [h.load (by rw [length_append]; omega), List.getElem?_append_left hi]
      · rw [hlast]
        cases front with
        | nil => exact hhead
        | cons a front => exact hhead
      · rw [hlast]
        exact (pairwise_append.1 h.sorted).1
  · obtain rfl := some_inj.1 hs
    exact ⟨l, h⟩

/-- The code of every block takes some room. -/
def Call.Ok : Call → Prop
  | .gen codeGenSize => 0 < codeGenSize
  | _ => True

theorem Starts.call {a : Call} (ha : a.Ok) (h : c.Starts s l) (hs : c.call s a = some s') : ∃ l', c.Starts s' l' := by
  cases a with
  | gen codeGenSize => exact h.tbGenCode ha hs
  | free tb => exact h.tbFree hs
  | flush => exact ⟨_, h.tbFlush hs⟩

/-- **Every call keeps the blocks in the order of their code.** -/
theorem run_starts {calls : List Call} (hok : ∀ a ∈ calls, a.Ok) (h : c.Starts s l) (hs : c.run s calls = some s') :
    ∃ l', c.Starts s' l' := by
  induction calls generalizing s l with
  | nil =>
    obtain rfl := some_inj.1 hs
    exact ⟨l, h⟩
  | cons a calls ih =>
    rw [forall_mem_cons] at hok
    obtain ⟨s₁, hcall, hrun⟩ := bind_eq_some_iff.1 hs
    obtain ⟨l₁, h₁⟩ := h.call hok.1 hcall
    exact ih hok.2 h₁ hrun

/-- The address is in the code of the block `m`, or behind it and in front of the next one. -/
def InBlock (s : GenState) (p m : ℕ) : Prop :=
  m < s.nbTbs ∧ (∃ tcPtr, s.tbs.load m = some tcPtr ∧ tcPtr ≤ p) ∧
    (m = s.nbTbs - 1 ∨ ∃ tcPtr, s.tbs.load (m + 1) = some tcPtr ∧ p < tcPtr)

/-- The element at an index that is an integer. -/
def valueAt (l : List ℕ) (i : ℤ) : ℕ := l.getD i.toNat 0

theorem valueAt_eq {i : ℤ} {k : ℕ} (hi : i.toNat = k) (hk : k < l.length) : valueAt l i = l[k] := by
  subst hi
  exact getD_eq_getElem _ _ hk

theorem Starts.getElem_lt (h : c.Starts s l) {i j : ℕ} (hj : j < l.length) (hij : i < j) : l[i] < l[j] :=
  pairwise_iff_getElem.1 (pairwise_append.1 h.sorted).1 i j _ hj hij

theorem Starts.getElem_le (h : c.Starts s l) {i j : ℕ} (hj : j < l.length) (hij : i ≤ j) : l[i] ≤ l[j] := by
  rcases hij.lt_or_eq with hlt | rfl
  · exact (h.getElem_lt hj hlt).le
  · exact le_rfl

theorem Starts.increasing (h : c.Starts s l) : Increasing s.tbs.loadAt (valueAt l) 0 (s.nbTbs - 1) := by
  have hlen := h.length
  constructor
  · intro i h₀ h₁
    have hi : i.toNat < l.length := by omega
    rw [Cells.loadAt, if_pos h₀, h.load hi, valueAt_eq rfl hi, List.getElem?_eq_getElem hi]
  · intro i j h₀ hij hj
    have hj' : j.toNat < l.length := by omega
    rw [valueAt_eq rfl (show i.toNat < l.length by omega), valueAt_eq rfl hj']
    exact h.getElem_lt hj' (by omega)

/-- The block of an address is the last one that does not start behind it. -/
theorem Starts.inBlock_iff (h : c.Starts s l) {m : ℕ} :
    InBlock s p m ↔ m < l.length ∧ ∀ k (hk : k < l.length), l[k] ≤ p ↔ k ≤ m := by
  have hload : ∀ k (hk : k < l.length), s.tbs.load k = some l[k] := by
    intro k hk
    rw [h.load hk, List.getElem?_eq_getElem hk]
  constructor
  · rintro ⟨hm, ⟨tcPtr, htc, hle⟩, hnext⟩
    rw [← h.length] at hm hnext
    rw [hload m hm, some_inj] at htc
    refine ⟨hm, fun k hk => ⟨fun hkp => ?_, fun hkm => (h.getElem_le hm hkm).trans (htc ▸ hle)⟩⟩
    by_contra hmk
    rcases hnext with hlast | ⟨next, hn, hlt⟩
    · omega
    · rw [hload (m + 1) (by omega), some_inj] at hn
      have hge := h.getElem_le hk (show m + 1 ≤ k by omega)
      omega
  · rintro ⟨hm, hk⟩
    refine ⟨h.length ▸ hm, ⟨_, hload m hm, (hk m hm).2 le_rfl⟩, ?_⟩
    rw [← h.length]
    by_cases hlast : m + 1 < l.length
    · exact Or.inr ⟨_, hload _ hlast, not_le.1 fun hle => absurd ((hk _ hlast).1 hle) (Nat.not_succ_le_self m)⟩
    · exact Or.inl (by omega)

theorem Starts.inBlock_of_le (h : c.Starts s l) {m : ℕ} (hm : m < l.length) (hle : l[m] ≤ p)
    (hlt : ∀ k (hk : k < l.length), m < k → p < l[k]) : InBlock s p m := by
  refine h.inBlock_iff.2 ⟨hm, fun k hk => ⟨fun hkp => ?_, fun hkm => (h.getElem_le hm hkm).trans hle⟩⟩
  by_contra hmk
  exact absurd hkp (not_le.2 (hlt k hk (not_le.1 hmk)))

/-- An address is in one block only. -/
theorem Starts.inBlock_unique (h : c.Starts s l) {m m' : ℕ} (hm : InBlock s p m) (hm' : InBlock s p m') : m' = m := by
  obtain ⟨hlt, hk⟩ := h.inBlock_iff.1 hm
  obtain ⟨hlt', hk'⟩ := h.inBlock_iff.1 hm'
  exact Nat.le_antisymm ((hk m' hlt').1 ((hk' m' hlt').2 le_rfl)) ((hk' m hlt).1 ((hk m hlt).2 le_rfl))

/-- **The search finds the block of an address** of the generated code. -/
theorem Starts.tbFindPc (h : c.Starts s l) (hlo : c.codeGenBuffer ≤ p) (hhi : p < s.codeGenPtr) :
    ∃ m, c.tbFindPc s p = some (some m) ∧ InBlock s p m := by
  have hlen := h.length
  -- there is code, so there is a block, and the first one starts with the buffer
  obtain ⟨rest, rfl⟩ : ∃ rest, l = c.codeGenBuffer :: rest := by
    have hhead := h.head
    cases l with
    | nil =>
      have heq : s.codeGenPtr = c.codeGenBuffer := some_inj.1 hhead
      omega
    | cons a rest => exact ⟨rest, congrArg (· :: rest) (some_inj.1 hhead)⟩
  set l := c.codeGenBuffer :: rest with hl
  have hpos : 0 < l.length := Nat.zero_lt_succ _
  have hinc := h.increasing
  obtain ⟨e, he, htell⟩ := search_tells p hinc (by omega)
  unfold CodeBuffer.tbFindPc
  rw [if_neg (by omega), if_neg (by omega), he, bind_some]
  cases e with
  | found m =>
    obtain ⟨h₁, h₂, h₃⟩ := htell
    have hm : m.toNat < l.length := by omega
    rw [valueAt_eq rfl hm] at h₃
    refine ⟨m.toNat, if_pos h₁, h.inBlock_of_le hm h₃.le fun k hk hmk => ?_⟩
    rw [← h₃]
    exact h.getElem_lt hk hmk
  | past r =>
    -- the address is behind the start of the first block, so that the search did not end in front of it
    obtain ⟨h₁, h₂, h₃, h₄⟩ := htell
    have hr : 0 ≤ r := by
      by_contra hneg
      have hfirst := h₄ 0 (by omega) (by omega)
      rw [valueAt_eq Int.toNat_zero hpos] at hfirst
      exact absurd hlo (not_le.2 hfirst)
    have hm : r.toNat < l.length := by omega
    have hlast := h₃ r hr le_rfl
    rw [valueAt_eq rfl hm] at hlast
    refine ⟨r.toNat, if_pos hr, h.inBlock_of_le hm hlast.le fun k hk hrk => ?_⟩
    have hnext := h₄ k (by omega) (by omega)
    rwa [valueAt_eq (Int.toNat_natCast k) hk] at hnext

/-- An address outside of the code has no block. -/
theorem tbFindPc_outside (h : p < c.codeGenBuffer ∨ s.codeGenPtr ≤ p) : c.tbFindPc s p = some none := by
  unfold CodeBuffer.tbFindPc
  rw [if_pos h, ite_self]

/-- The code of a block is no longer than `code_gen_max_block_size`. -/
def Call.Fits : Call → Prop
  | .gen codeGenSize => codeGenSize ≤ codeGenMaxBlockSize
  | _ => True

/-- There is room for one block, also where there is just room, and the code begins aligned. -/
structure Usable (c : CodeBuffer) : Prop where
  blocks : 0 < c.codeGenMaxBlocks
  size : 0 < c.codeGenBufferMaxSize
  last : c.codeGenBufferMaxSize + codeGenMaxBlockSize ≤ c.codeGenBufferSize
  aligned : c.codeGenBuffer % 16 = 0

/-- **What `code_gen_alloc` sets up is usable**, whatever sizes it is given: the start of a page is aligned. -/
theorem usable_codeGenAlloc {start : ℕ} (tbSize ramSize : ℕ) (h : start % 16 = 0) :
    Usable (codeGenAlloc tbSize ramSize start) := by
  have hmin : minCodeGenBufferSize ≤ (codeGenAlloc tbSize ramSize start).codeGenBufferSize := by
    unfold codeGenAlloc
    simp only
    split_ifs <;> omega
  have hblocks : (codeGenAlloc tbSize ramSize start).codeGenMaxBlocks =
      (codeGenAlloc tbSize ramSize start).codeGenBufferSize / 128 := rfl
  have hsize : (codeGenAlloc tbSize ramSize start).codeGenBufferMaxSize =
      (codeGenAlloc tbSize ramSize start).codeGenBufferSize - codeGenMaxBlockSize := rfl
  unfold minCodeGenBufferSize at hmin
  refine ⟨by omega, ?_, ?_, h⟩ <;>
  · rw [hsize]
    unfold codeGenMaxBlockSize
    omega

/-- The code pointers are aligned. -/
structure Aligned (s : GenState) : Prop where
  ptr : s.codeGenPtr % 16 = 0
  block : ∀ i < s.nbTbs, ∀ p ∈ s.tbs.load i, p % 16 = 0

theorem alignCode_aligned (ptr : ℕ) : alignCode ptr % 16 = 0 := Nat.mul_mod_left _ _

/-- A block of the greatest size ends where the next one can begin. -/
theorem alignCode_block_le (hptr : p % 16 = 0) (hfit : codeGenSize ≤ codeGenMaxBlockSize) :
    alignCode (p + codeGenSize) ≤ p + codeGenMaxBlockSize := by
  unfold alignCode
  unfold codeGenMaxBlockSize at *
  omega

theorem Starts.genBlock_isSome (h : c.Starts s l) (hs : Aligned s) (hlt : s.nbTbs < c.codeGenMaxBlocks)
    (codeGenSize : ℕ) :
    ∃ s', CodeBuffer.genBlock { s with nbTbs := s.nbTbs + 1 } s.nbTbs codeGenSize = some s' ∧
      s'.codeGenPtr = alignCode (s.codeGenPtr + codeGenSize) ∧ Aligned s' := by
  unfold CodeBuffer.genBlock
  rw [Cells.store_eq _ (h.room s.nbTbs (Nat.zero_le _) hlt)]
  refine ⟨_, rfl, rfl, alignCode_aligned _, fun i hi q hq => ?_⟩
  rcases Nat.lt_succ_iff_lt_or_eq.1 hi with hlt' | rfl
  · exact hs.block i hlt' q (by rwa [load_overlay_ne hlt'] at hq)
  · rw [load_overlay_self, mem_some_iff] at hq
    exact hq ▸ hs.ptr

theorem tbAlloc_eq (hlt : s.nbTbs < c.codeGenMaxBlocks)
    (hsize : s.codeGenPtr - c.codeGenBuffer < c.codeGenBufferMaxSize) :
    c.tbAlloc s = some (s.nbTbs, { s with nbTbs := s.nbTbs + 1 }) := if_neg (by omega)

theorem tbFlush_eq (hin : s.codeGenPtr - c.codeGenBuffer ≤ c.codeGenBufferSize) :
    c.tbFlush s = some { s with nbTbs := 0, codeGenPtr := c.codeGenBuffer } := if_neg (by omega)

/-- **Every call goes through** while the code is inside of the buffer, and leaves it there. -/
theorem Starts.call_isSome (hc : Usable c) {a : Call} (hfit : a.Fits) (h : c.Starts s l) (hs : Aligned s)
    (hin : s.codeGenPtr - c.codeGenBuffer ≤ c.codeGenBufferSize) :
    ∃ s', c.call s a = some s' ∧ Aligned s' ∧ s'.codeGenPtr - c.codeGenBuffer ≤ c.codeGenBufferSize := by
  obtain ⟨hblocks, hsize, hlast, hbuffer⟩ := hc
  have hempty : Aligned { s with nbTbs := 0, codeGenPtr := c.codeGenBuffer } :=
    ⟨hbuffer, fun i hi => absurd hi (Nat.not_lt_zero i)⟩
  cases a with
  | gen codeGenSize =>
    change codeGenSize ≤ codeGenMaxBlockSize at hfit
    change ∃ s', c.tbGenCode s codeGenSize = some s' ∧ _
    unfold CodeBuffer.tbGenCode
    by_cases hroom : s.nbTbs < c.codeGenMaxBlocks ∧ s.codeGenPtr - c.codeGenBuffer < c.codeGenBufferMaxSize
    · obtain ⟨s', hs', hptr, haligned⟩ := h.genBlock_isSome hs hroom.1 codeGenSize
      have hend := alignCode_block_le hs.ptr hfit
      rw [tbAlloc_eq hroom.1 hroom.2]
      exact ⟨s', hs', haligned, by rw [hptr]; omega⟩
    · -- there is no room, and the flush makes some
      have hflush := tbFlush_eq hin
      obtain ⟨s', hs', hptr, haligned⟩ := (h.tbFlush hflush).genBlock_isSome hempty hblocks codeGenSize
      have hend := alignCode_block_le hbuffer hfit
      have halloc : c.tbAlloc { s with nbTbs := 0, codeGenPtr := c.codeGenBuffer } = _ :=
        tbAlloc_eq hblocks (by rw [Nat.sub_self]; exact hsize)
      rw [show c.tbAlloc s = none from if_pos (by omega)]
      simp only [hflush, bind_some, halloc]
      exact ⟨s', hs', haligned, by rw [hptr]; simp only; omega⟩
  | free tb =>
    change ∃ s', CodeBuffer.tbFree s tb = some s' ∧ _
    unfold CodeBuffer.tbFree
    by_cases hlast : 0 < s.nbTbs ∧ tb = s.nbTbs - 1
    · have hlen := h.length
      have htb : tb < l.length := by omega
      have hlt : l[tb] < s.codeGenPtr :=
        (pairwise_append.1 h.sorted).2.2 _ (getElem_mem htb) _ (mem_singleton_self _)
      have hload : s.tbs.load tb = some l[tb] := by rw [h.load htb, List.getElem?_eq_getElem htb]
      rw [if_pos hlast, hload]
      refine ⟨_, rfl, ⟨hs.block tb (by omega) _ hload, fun i hi => hs.block i ?_⟩, by simp only; omega⟩
      simp only at hi
      omega
    · exact ⟨s, if_neg hlast, hs, hin⟩
  | flush => exact ⟨_, tbFlush_eq hin, hempty, by rw [Nat.sub_self]; exact Nat.zero_le _⟩

/-- **No sequence of calls aborts** whose blocks are of the size that the buffer was made for. -/
theorem run_isSome (hc : Usable c) {calls : List Call} (hok : ∀ a ∈ calls, a.Ok ∧ a.Fits) (h : c.Starts s l)
    (hs : Aligned s) (hin : s.codeGenPtr - c.codeGenBuffer ≤ c.codeGenBufferSize) :
    ∃ s' l', c.run s calls = some s' ∧ c.Starts s' l' ∧ s'.codeGenPtr - c.codeGenBuffer ≤ c.codeGenBufferSize := by
  induction calls generalizing s l with
  | nil => exact ⟨s, l, rfl, h, hin⟩
  | cons a calls ih =>
    rw [forall_mem_cons] at hok
    obtain ⟨s₁, hcall, hs₁, hin₁⟩ := h.call_isSome hc hok.1.2 hs hin
    obtain ⟨l₁, h₁⟩ := h.call hok.1.1 hcall
    obtain ⟨s', l', hrun, h', hin'⟩ := ih hok.2 h₁ hs₁ hin₁
    exact ⟨s', l', by rw [CodeBuffer.run, hcall, bind_some, hrun], h', hin'⟩

theorem Starts.buffer_le (h : c.Starts s l) : c.codeGenBuffer ≤ s.codeGenPtr := by
  have hhead := h.head
  have hsorted := h.sorted
  cases l with
  | nil => exact (some_inj.1 hhead).ge
  | cons a l =>
    obtain rfl : a = c.codeGenBuffer := some_inj.1 hhead
    exact ((pairwise_cons.1 hsorted).1 _ (mem_append_right _ (mem_singleton_self _))).le

/-- **The code never leaves its buffer**, and no call aborts, from `code_gen_alloc` on: a block for which there is no
room flushes all others. -/
theorem run_inBuffer {tbSize ramSize start : ℕ} (hstart : start % 16 = 0) {calls : List Call}
    (hok : ∀ a ∈ calls, a.Ok ∧ a.Fits) :
    ∃ s', (codeGenAlloc tbSize ramSize start).run (codeGenAlloc tbSize ramSize start).start calls = some s' ∧
      s'.nbTbs ≤ (codeGenAlloc tbSize ramSize start).codeGenMaxBlocks ∧ start ≤ s'.codeGenPtr ∧
      s'.codeGenPtr ≤ start + (codeGenAlloc tbSize ramSize start).codeGenBufferSize := by
  have hfresh : Aligned (codeGenAlloc tbSize ramSize start).start := ⟨hstart, fun i hi => absurd hi (Nat.not_lt_zero i)⟩
  obtain ⟨s', l', hrun, h', hin⟩ := run_isSome (usable_codeGenAlloc tbSize ramSize hstart) hok starts_start hfresh
    ((Nat.sub_self start).trans_le (Nat.zero_le _))
  have hlow := h'.buffer_le
  exact ⟨s', hrun, h'.le, hlow, by change start ≤ _ at hlow; change _ - start ≤ _ at hin; omega⟩

/-- The smallest buffer: the third block of the greatest size does not fit behind two. -/
theorem run_inBuffer_two : ∃ s', (codeGenAlloc 0 0 4096).run (codeGenAlloc 0 0 4096).start
      [.gen 374784, .gen 374784, .gen 374784, .free 0, .flush] = some s' ∧ s'.nbTbs ≤ 8192 ∧
      4096 ≤ s'.codeGenPtr ∧ s'.codeGenPtr ≤ 4096 + 1024 * 1024 :=
  run_inBuffer (by decide) (by simp [Call.Ok, Call.Fits, codeGenMaxBlockSize])

/-- **Each address of the generated code is in one block, and the search returns it**; any other address has none. -/
theorem tbFindPc_reachable (c : CodeBuffer) (calls : List Call) (hok : ∀ a ∈ calls, a.Ok)
    (hrun : c.run c.start calls = some s) (p : ℕ) :
    (c.codeGenBuffer ≤ p → p < s.codeGenPtr →
      ∃ m, c.tbFindPc s p = some (some m) ∧ InBlock s p m ∧ ∀ m', InBlock s p m' → m' = m) ∧
    (¬ (c.codeGenBuffer ≤ p ∧ p < s.codeGenPtr) → c.tbFindPc s p = some none) := by
  obtain ⟨l, h⟩ := run_starts hok starts_start hrun
  refine ⟨fun hlo hhi => ?_, fun hout => tbFindPc_outside (by omega)⟩
  obtain ⟨m, hfind, hm⟩ := h.tbFindPc hlo hhi
  exact ⟨m, hfind, hm, fun m' hm' => h.inBlock_unique hm hm'⟩

end CodeBuffer

end Emulator.Exec
