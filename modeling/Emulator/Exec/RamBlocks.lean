import Emulator.Lib.NextChain
import Mathlib.Algebra.Group.Nat.Defs
import Mathlib.Data.List.Perm.Basic
import Mathlib.Tactic.ByContra
import Mathlib.Tactic.SplitIfs

/-!
# The list of RAM blocks

`qemu_get_ram_ptr` and `qemu_ram_addr_from_host`. The first relinks the list: the block that it finds changes places
with the one in front of it. Its `prevp` is the cell that points to `prev`, not the one that points to the block.

* `findBlock_eq`: where the loop stands when it meets the block;
* `holds_swap`: the relinked list;
* `ramPtr_inverse`: **after any lookups the list has the same blocks, and both translations are inverse.**
-/

namespace Emulator.Exec

open Function Lib List

/-- Blocks whose ranges of offsets are disjoint, and so are their ranges of host addresses. No range ends at the top
of the 32 bits of a `ram_addr_t` or a pointer. -/
structure RamTable (ι : Type*) where
  host : ι → BitVec 32
  offset : ι → BitVec 32
  length : ι → BitVec 32
  blocks : List ι
  nodup : blocks.Nodup
  offset_end {b} : b ∈ blocks → (offset b).toNat + (length b).toNat < 2 ^ 32
  host_end {b} : b ∈ blocks → (host b).toNat + (length b).toNat < 2 ^ 32
  offset_disjoint {a b x} : a ∈ blocks → b ∈ blocks → offset a ≤ x → x < offset a + length a →
    offset b ≤ x → x < offset b + length b → a = b
  host_disjoint {a b x} : a ∈ blocks → b ∈ blocks → host a ≤ x → x < host a + length a →
    host b ≤ x → x < host b + length b → a = b

/-- `ram_blocks` and the pointer `next` of each block. -/
structure RamList (ι : Type*) where
  ramBlocks : Option ι
  next : ι → Option ι

variable {ι : Type*}

/-- The pointer at `prevp`, which is `&ram_blocks` or the `next` of a block. -/
def RamList.read (s : RamList ι) : Option ι → Option ι
  | none => s.ramBlocks
  | some b => s.next b

def RamList.write [DecidableEq ι] (s : RamList ι) (v : Option ι) : Option ι → RamList ι
  | none => { s with ramBlocks := v }
  | some b => { s with next := update s.next b v }

/-- The loop over the blocks that do not match: `prev`, `prevp` and `block` behind it, `none` if the fuel is too
small. -/
def findBlock (s : RamList ι) (skip : ι → Bool) :
    (fuel : ℕ) → (prev prevp block : Option ι) → Option (Option ι × Option ι × Option ι)
  | 0, _, _, _ => none
  | _ + 1, prev, prevp, none => some (prev, prevp, none)
  | fuel + 1, prev, prevp, some block =>
    if skip block then findBlock s skip fuel (some block) (if prev.isSome then prev else prevp) (s.next block)
    else some (prev, prevp, some block)

/-- The block changes places with `prev`. -/
def RamList.moveBlock [DecidableEq ι] (s : RamList ι) (prev prevp : Option ι) (block : ι) : RamList ι :=
  match prev with
  | none => s
  | some prev =>
    let s := s.write (s.next block) (some prev)
    let s := s.write (s.read prevp) (some block)
    s.write (some block) prevp

variable (ram : RamTable ι)

/-- The host pointer, and the list behind the call; `none` if it aborts, or the fuel is too small. -/
def qemuGetRamPtr [DecidableEq ι] (fuel : ℕ) (s : RamList ι) (addr : BitVec 32) : Option (BitVec 32 × RamList ι) :=
  (findBlock s (fun block => addr < ram.offset block ∨ ram.offset block + ram.length block ≤ addr) fuel none none
    s.ramBlocks).bind fun
    | (_, _, none) => none
    | (prev, prevp, some block) =>
      some (ram.host block + (addr - ram.offset block), s.moveBlock prev prevp block)

/-- The offset; `none` if it aborts, or the fuel is too small. -/
def qemuRamAddrFromHost (fuel : ℕ) (s : RamList ι) (host : BitVec 32) : Option (BitVec 32) :=
  (findBlock s (fun block => host < ram.host block ∨ ram.host block + ram.length block ≤ host) fuel none none
    s.ramBlocks).bind fun
    | (_, _, none) => none
    | (_, _, some block) => some (ram.offset block + (host - ram.host block))

variable {ram} {s : RamList ι} {skip : ι → Bool} {l l₁ l₂ : List ι} {b p : ι} {fuel : ℕ}

/-- The list goes through the blocks of `l`, each of them once. -/
def RamList.Holds (s : RamList ι) (l : List ι) : Prop := ChainFrom s.next s.ramBlocks l ∧ l.Nodup

/-- **Where the loop stands** behind the blocks that it has seen: `prev` is the last of them, and `prevp` the `next` of
the one before it. -/
theorem findBlock_eq (seen : List ι) {block : Option ι} (h : ChainFrom s.next block (l₁ ++ b :: l₂))
    (hskip : ∀ a ∈ l₁, skip a = true) (hb : skip b = false) (hfuel : l₁.length < fuel) :
    findBlock s skip fuel seen.getLast? seen.dropLast.getLast? block =
      some ((seen ++ l₁).getLast?, (seen ++ l₁).dropLast.getLast?, some b) := by
  induction l₁ generalizing seen block fuel with
  | nil =>
    obtain ⟨fuel, rfl⟩ := Nat.exists_eq_add_one_of_ne_zero (Nat.ne_zero_of_lt hfuel)
    rw [h.1, findBlock, hb, append_nil]
    rfl
  | cons a l₁ ih =>
    obtain ⟨fuel, rfl⟩ := Nat.exists_eq_add_one_of_ne_zero (Nat.ne_zero_of_lt hfuel)
    rw [forall_mem_cons] at hskip
    have hnext := ih (seen ++ [a]) h.2 hskip.2 (Nat.lt_of_succ_lt_succ hfuel)
    rw [List.getLast?_concat, dropLast_concat, append_assoc, singleton_append] at hnext
    have hprevp : (if seen.getLast?.isSome then seen.getLast? else seen.dropLast.getLast?) = seen.getLast? := by
      rcases eq_nil_or_concat' seen with rfl | ⟨seen, c, rfl⟩
      · rfl
      · rw [List.getLast?_concat]
        rfl
    rw [h.1, findBlock, hskip.1, if_pos rfl, hprevp]
    exact hnext

/-- The cell behind the blocks of `l` points to the next one. -/
theorem read_getLast? (h : ChainFrom s.next s.ramBlocks (l ++ p :: l₂)) : s.read l.getLast? = some p := by
  rcases eq_nil_or_concat' l with rfl | ⟨front, q, rfl⟩
  · exact h.1
  · rw [append_assoc, singleton_append] at h
    rw [List.getLast?_concat]
    exact h.drop.1

variable [DecidableEq ι]

/-- **The block and the one in front of it change places.** -/
theorem holds_swap (h : s.Holds (l ++ p :: b :: l₂)) :
    (s.moveBlock (some p) l.getLast? b).Holds (l ++ b :: p :: l₂) := by
  obtain ⟨hchain, hnd⟩ := h
  have hperm : (l ++ p :: b :: l₂).Perm (l ++ b :: p :: l₂) := (List.Perm.swap b p l₂).append_left l
  refine ⟨?_, hperm.nodup_iff.1 hnd⟩
  obtain ⟨hfront, htail, hcross⟩ := nodup_append.1 hnd
  obtain ⟨hp, htail⟩ := nodup_cons.1 htail
  obtain ⟨hb, -⟩ := nodup_cons.1 htail
  have hpb : p ≠ b := fun he => hp (he ▸ mem_cons_self)
  have hread := read_getLast? hchain
  have hrest : ChainFrom s.next (s.next b) l₂ := by
    rw [← singleton_append, ← append_assoc] at hchain
    exact hchain.drop
  -- what the two blocks and those behind them need of the new pointers
  have hnew (next' : ι → Option ι) (h₁ : next' b = some p) (h₂ : next' p = s.next b)
      (h₃ : ∀ a ∈ l₂, next' a = s.next a) : ChainFrom next' (some b) (b :: p :: l₂) := by
    refine ⟨rfl, h₁, ?_⟩
    rw [h₂]
    exact hrest.congr h₃
  have hother {a : ι} (ha : a ∈ l₂) : a ≠ p ∧ a ≠ b :=
    ⟨fun he => hp (he ▸ mem_cons_of_mem _ ha), fun he => hb (he ▸ ha)⟩
  rcases eq_nil_or_concat' l with rfl | ⟨front, q, rfl⟩
  · have hhead : s.ramBlocks = some p := hread
    have hmove : s.moveBlock (some p) none b =
        ⟨some b, update (update s.next p (s.next b)) b (some p)⟩ := by
      simp only [RamList.moveBlock, RamList.write, RamList.read, hhead]
    rw [List.getLast?_nil, hmove]
    refine hnew (update (update s.next p (s.next b)) b (some p)) (update_self ..) ?_
      fun a ha => ?_
    · rw [update_of_ne hpb, update_self]
    · rw [update_of_ne (hother ha).2, update_of_ne (hother ha).1]
  · rw [List.getLast?_concat] at hread ⊢
    have hq : q ∈ front ++ [q] := mem_append_right _ (mem_singleton_self q)
    have hqp : q ≠ p := hcross q hq p mem_cons_self
    have hqb : q ≠ b := hcross q hq b (mem_cons_of_mem _ mem_cons_self)
    have hmove : s.moveBlock (some p) (some q) b = ⟨s.ramBlocks, update
        (update (update s.next p (s.next b)) b (some p)) q (some b)⟩ := by
      simp only [RamList.moveBlock, RamList.write, RamList.read, update_of_ne hqp,
        show s.next q = some p from hread]
    rw [hmove]
    have hchain' := hchain.retail
      (hnew (update (update (update s.next p (s.next b)) b (some p))
      q (some b)) ?_ ?_ ?_) ?_ ?_
    · rwa [if_neg (by simp)] at hchain'
    · rw [update_of_ne hqb.symm, update_self]
    · rw [update_of_ne hqp.symm, update_of_ne hpb, update_self]
    · intro a ha
      have hqa : a ≠ q := fun he => hcross q hq a (mem_cons_of_mem _ (mem_cons_of_mem _ ha)) he.symm
      rw [update_of_ne hqa, update_of_ne (hother ha).2, update_of_ne (hother ha).1]
    · intro a ha
      rw [dropLast_concat] at ha
      have hmem : a ∈ front ++ [q] := mem_append_left _ ha
      have hqa : a ≠ q := (nodup_append.1 hfront).2.2 a ha q (mem_singleton_self q)
      rw [update_of_ne hqa, update_of_ne (hcross a hmem b (by simp)),
        update_of_ne (hcross a hmem p mem_cons_self)]
    · intro a ha
      rw [List.getLast?_concat, Option.mem_some_iff] at ha
      subst ha
      exact update_self ..

omit [DecidableEq ι] in
/-- **The loop meets the one block with the value in its range.** -/
theorem findBlock_range {lo length : ι → BitVec 32} {x : BitVec 32} (h : s.Holds l) (hb : b ∈ l) (hlo : lo b ≤ x)
    (hhi : x < lo b + length b)
    (honly : ∀ a ∈ l, lo a ≤ x → x < lo a + length a → a = b) (hfuel : l.length < fuel) :
    ∃ l₁ l₂, l = l₁ ++ b :: l₂ ∧
      findBlock s (fun block => x < lo block ∨ lo block + length block ≤ x) fuel none none s.ramBlocks =
        some (l₁.getLast?, l₁.dropLast.getLast?, some b) := by
  obtain ⟨l₁, l₂, rfl⟩ := append_of_mem hb
  refine ⟨l₁, l₂, rfl, ?_⟩
  have hskip : ∀ a ∈ l₁, decide (x < lo a ∨ lo a + length a ≤ x) = true := by
    intro a ha
    rw [decide_eq_true_eq]
    by_contra hin
    rw [not_or, BitVec.not_lt, BitVec.not_le] at hin
    have hab := honly a (mem_append_left _ ha) hin.1 hin.2
    exact (nodup_append.1 h.2).2.2 a ha b mem_cons_self hab
  rw [length_append] at hfuel
  refine findBlock_eq [] h.1 hskip (decide_eq_false ?_) (by omega)
  rw [not_or, BitVec.not_lt, BitVec.not_le]
  exact ⟨hlo, hhi⟩

/-- The list goes through the blocks of the table, in some order. -/
def RamList.Keeps (s : RamList ι) (ram : RamTable ι) : Prop := ∃ l, s.Holds l ∧ l.Perm ram.blocks

/-- **The host pointer**, and the list behind the call. -/
theorem qemuGetRamPtr_eq (h : s.Keeps ram) {addr : BitVec 32} (hb : b ∈ ram.blocks) (hlo : ram.offset b ≤ addr)
    (hhi : addr < ram.offset b + ram.length b) (hfuel : ram.blocks.length < fuel) :
    ∃ s', qemuGetRamPtr ram fuel s addr = some (ram.host b + (addr - ram.offset b), s') ∧ s'.Keeps ram := by
  obtain ⟨l, hl, hperm⟩ := h
  have honly : ∀ a ∈ l, ram.offset a ≤ addr → addr < ram.offset a + ram.length a → a = b :=
    fun a ha h₁ h₂ => ram.offset_disjoint (hperm.mem_iff.1 ha) hb h₁ h₂ hlo hhi
  obtain ⟨l₁, l₂, rfl, hfind⟩ := findBlock_range hl (hperm.mem_iff.2 hb) hlo hhi honly (hperm.length_eq ▸ hfuel)
  unfold qemuGetRamPtr
  rw [hfind]
  refine ⟨_, rfl, ?_⟩
  rcases eq_nil_or_concat' l₁ with rfl | ⟨front, p, rfl⟩
  · exact ⟨_, hl, hperm⟩
  · rw [append_assoc, singleton_append] at hl hperm
    rw [List.getLast?_concat, dropLast_concat]
    exact ⟨_, holds_swap hl, ((List.Perm.swap p b l₂).append_left front).trans hperm⟩

omit [DecidableEq ι] in
/-- **The offset.** -/
theorem qemuRamAddrFromHost_eq (h : s.Keeps ram) {host : BitVec 32} (hb : b ∈ ram.blocks) (hlo : ram.host b ≤ host)
    (hhi : host < ram.host b + ram.length b) (hfuel : ram.blocks.length < fuel) :
    qemuRamAddrFromHost ram fuel s host = some (ram.offset b + (host - ram.host b)) := by
  obtain ⟨l, hl, hperm⟩ := h
  have honly : ∀ a ∈ l, ram.host a ≤ host → host < ram.host a + ram.length a → a = b :=
    fun a ha h₁ h₂ => ram.host_disjoint (hperm.mem_iff.1 ha) hb h₁ h₂ hlo hhi
  obtain ⟨l₁, l₂, -, hfind⟩ := findBlock_range hl (hperm.mem_iff.2 hb) hlo hhi honly (hperm.length_eq ▸ hfuel)
  unfold qemuRamAddrFromHost
  rw [hfind]
  rfl

inductive RamCall
  | getRamPtr (addr : BitVec 32)
  | ramAddrFromHost (host : BitVec 32)

/-- The argument is in a block. -/
def RamCall.Valid (ram : RamTable ι) : RamCall → Prop
  | getRamPtr addr => ∃ b ∈ ram.blocks, ram.offset b ≤ addr ∧ addr < ram.offset b + ram.length b
  | ramAddrFromHost host => ∃ b ∈ ram.blocks, ram.host b ≤ host ∧ host < ram.host b + ram.length b

/-- What the call returns for an argument in a block. -/
def RamCall.Returns (ram : RamTable ι) : RamCall → BitVec 32 → Prop
  | getRamPtr addr, r => ∃ b ∈ ram.blocks, ram.offset b ≤ addr ∧ addr < ram.offset b + ram.length b ∧
      r = ram.host b + (addr - ram.offset b)
  | ramAddrFromHost host, r => ∃ b ∈ ram.blocks, ram.host b ≤ host ∧ host < ram.host b + ram.length b ∧
      r = ram.offset b + (host - ram.host b)

def RamCall.run (ram : RamTable ι) (fuel : ℕ) (s : RamList ι) : RamCall → Option (BitVec 32 × RamList ι)
  | getRamPtr addr => qemuGetRamPtr ram fuel s addr
  | ramAddrFromHost host => (qemuRamAddrFromHost ram fuel s host).map (·, s)

/-- The calls in turn. -/
def ramRun (ram : RamTable ι) (fuel : ℕ) : RamList ι → List RamCall → Option (List (BitVec 32) × RamList ι)
  | s, [] => some ([], s)
  | s, c :: calls => (c.run ram fuel s).bind fun (r, s) => (ramRun ram fuel s calls).map fun (rs, s) => (r :: rs, s)

theorem RamCall.run_keeps (h : s.Keeps ram) {c : RamCall} (hc : c.Valid ram) (hfuel : ram.blocks.length < fuel) :
    ∃ r s', c.run ram fuel s = some (r, s') ∧ c.Returns ram r ∧ s'.Keeps ram := by
  cases c with
  | getRamPtr addr =>
    obtain ⟨b, hb, hlo, hhi⟩ := hc
    obtain ⟨s', hrun, hs'⟩ := qemuGetRamPtr_eq h hb hlo hhi hfuel
    exact ⟨_, s', hrun, ⟨b, hb, hlo, hhi, rfl⟩, hs'⟩
  | ramAddrFromHost host =>
    obtain ⟨b, hb, hlo, hhi⟩ := hc
    have hrun := qemuRamAddrFromHost_eq h hb hlo hhi hfuel
    exact ⟨_, s, by rw [RamCall.run, hrun, Option.map_some], ⟨b, hb, hlo, hhi, rfl⟩, h⟩

/-- **Any calls** keep the blocks. -/
theorem ramRun_keeps (h : s.Keeps ram) {calls : List RamCall} (hc : ∀ c ∈ calls, c.Valid ram)
    (hfuel : ram.blocks.length < fuel) :
    ∃ rs s', ramRun ram fuel s calls = some (rs, s') ∧ List.Forall₂ (RamCall.Returns ram) calls rs ∧ s'.Keeps ram := by
  induction calls generalizing s with
  | nil => exact ⟨[], s, rfl, List.Forall₂.nil, h⟩
  | cons c calls ih =>
    rw [forall_mem_cons] at hc
    obtain ⟨r, s₁, hrun, hr, h₁⟩ := c.run_keeps h hc.1 hfuel
    obtain ⟨rs, s', hruns, hrs, h'⟩ := ih h₁ hc.2
    refine ⟨r :: rs, s', ?_, List.Forall₂.cons hr hrs, h'⟩
    rw [ramRun, hrun, Option.bind_some]
    simp only [hruns, Option.map_some]

/-- **Both translations are inverse, whatever was looked up before.** The list keeps the blocks of the table, each of
them once, and the loops end within as many rounds as there are blocks, and one. -/
theorem ramPtr_inverse (ram : RamTable ι) (s : RamList ι) (hs : ChainFrom s.next s.ramBlocks ram.blocks)
    (calls : List RamCall) (hc : ∀ c ∈ calls, c.Valid ram) (fuel : ℕ) (hfuel : ram.blocks.length < fuel) :
    ∃ rs s', ramRun ram fuel s calls = some (rs, s') ∧ List.Forall₂ (RamCall.Returns ram) calls rs ∧ s'.Keeps ram ∧
      ∀ b ∈ ram.blocks, ∀ addr, ram.offset b ≤ addr → addr < ram.offset b + ram.length b →
        ∃ s'', qemuGetRamPtr ram fuel s' addr = some (ram.host b + (addr - ram.offset b), s'') ∧ s''.Keeps ram ∧
          qemuRamAddrFromHost ram fuel s'' (ram.host b + (addr - ram.offset b)) = some addr := by
  have hkeeps : s.Keeps ram := ⟨ram.blocks, ⟨hs, ram.nodup⟩, List.Perm.refl _⟩
  obtain ⟨rs, s', hrun, hrs, h'⟩ := ramRun_keeps hkeeps hc hfuel
  refine ⟨rs, s', hrun, hrs, h', fun b hb addr hlo hhi => ?_⟩
  obtain ⟨s'', hget, h''⟩ := qemuGetRamPtr_eq h' hb hlo hhi hfuel
  refine ⟨s'', hget, h'', ?_⟩
  have hoffset := ram.offset_end hb
  have hhost := ram.host_end hb
  have hlow : ram.host b ≤ ram.host b + (addr - ram.offset b) := by bv_omega
  have hhigh : ram.host b + (addr - ram.offset b) < ram.host b + ram.length b := by bv_omega
  rw [qemuRamAddrFromHost_eq h'' hb hlow hhigh hfuel]
  congr 1
  bv_omega

/-- Two blocks of a page each. -/
def twoRamBlocks : RamTable Bool where
  host b := if b then 0x50000 else 0x90000
  offset b := if b then 0x1000 else 0
  length _ := 0x1000
  blocks := [false, true]
  nodup := by decide
  offset_end {b} _ := by cases b <;> decide
  host_end {b} _ := by cases b <;> decide
  offset_disjoint {a b x} _ _ h₁ h₂ h₃ h₄ := by
    cases a <;> cases b <;> simp only [Bool.false_eq_true, if_true, if_false] at h₁ h₂ h₃ h₄ <;> first | rfl | bv_omega
  host_disjoint {a b x} _ _ h₁ h₂ h₃ h₄ := by
    cases a <;> cases b <;> simp only [Bool.false_eq_true, if_true, if_false] at h₁ h₂ h₃ h₄ <;> first | rfl | bv_omega

/-- The second block is looked up, and an address in the first one. -/
theorem ramPtr_inverse_two : ∃ rs s', ramRun twoRamBlocks 3 ⟨some false, fun b => if b then none else some true⟩
    [.getRamPtr 0x1010, .ramAddrFromHost 0x90000] = some (rs, s') ∧ s'.Keeps twoRamBlocks := by
  obtain ⟨rs, s', hrun, -, hkeeps, -⟩ := ramPtr_inverse twoRamBlocks
    ⟨some false, fun b => if b then none else some true⟩ ⟨rfl, rfl, rfl⟩
    [.getRamPtr 0x1010, .ramAddrFromHost 0x90000] (by
      rw [forall_mem_cons, forall_mem_singleton]
      exact ⟨⟨true, by decide, by decide, by decide⟩, ⟨false, by decide, by decide, by decide⟩⟩) 3 (by decide)
  exact ⟨rs, s', hrun, hkeeps⟩

end Emulator.Exec
