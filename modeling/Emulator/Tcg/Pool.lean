import Emulator.Lib.NextChain
import Mathlib.Algebra.Group.Nat.Defs
import Mathlib.Data.List.Nodup
import Mathlib.Tactic.SplitIfs

/-!
# The pools of the code generator

`tcg_malloc`, `tcg_malloc_internal` and `tcg_pool_reset`. Memory is taken from chunks, which are in a list and are used
again after a reset. A request that is larger than a chunk gets a chunk of its own, and that one is linked in behind the
current chunk, but with a pointer back to it.

* `inv_step`: what a request keeps that does not do so;
* `bigRequest_cyclic`: one that does makes the list cyclic;
* `pool_good_iff`: **the blocks of every round are apart, inside of the chunks of an acyclic list, exactly if no request
  does.**
-/

namespace Emulator.Tcg

open Function Lib List Option

/-- `size` octets from `start` on. -/
structure Block where
  start : ℕ
  size : ℕ
  deriving DecidableEq

/-- `qemu_malloc`: the address for so many octets, when the blocks `live` have been given out and not been freed. -/
structure QemuMalloc where
  alloc : (live : List Block) → (n : ℕ) → ℕ
  apart {live n b} : b ∈ live → alloc live n + n ≤ b.start ∨ b.start + b.size ≤ alloc live n

structure TCGPool where
  next : Option ℕ
  size : ℕ

/-- `pools` is what is at the address of a chunk, and `live` everything that came from `qemu_malloc`. -/
structure TCGContext where
  poolCur : ℕ
  poolEnd : ℕ
  poolFirst : Option ℕ
  poolCurrent : Option ℕ
  pools : ℕ → TCGPool
  live : List Block

def tcgPoolChunkSize : ℕ := 32768

/-- `sizeof(TCGPool)` -/
def poolHeader : ℕ := 16

/-- `p->data` -/
def poolData (p : ℕ) : ℕ := p + poolHeader

/-- `p = qemu_malloc(sizeof(TCGPool) + size); p->size = size;` -/
def TCGContext.addPool (m : QemuMalloc) (s : TCGContext) (size : ℕ) : ℕ × TCGContext :=
  let p := m.alloc s.live (poolHeader + size)
  (p, { s with pools := update s.pools p { s.pools p with size }, live := ⟨p, poolHeader + size⟩ :: s.live })

/-- `p->next = next;` -/
def TCGContext.setNext (s : TCGContext) (p : ℕ) (next : Option ℕ) : TCGContext :=
  { s with pools := update s.pools p { s.pools p with next } }

/-- `if (s->pool_current) s->pool_current->next = p; else s->pool_first = p;` -/
def TCGContext.link (s : TCGContext) (p : ℕ) : TCGContext :=
  match s.poolCurrent with
  | some c => s.setNext c (some p)
  | none => { s with poolFirst := some p }

/-- The end of `tcg_malloc_internal`. -/
def TCGContext.usePool (s : TCGContext) (p size : ℕ) : ℕ × TCGContext :=
  (poolData p,
    { s with poolCurrent := some p, poolCur := poolData p + size, poolEnd := poolData p + (s.pools p).size })

/-- The label `new_pool`. -/
def TCGContext.newPool (m : QemuMalloc) (s : TCGContext) (size : ℕ) : ℕ × TCGContext :=
  let (p, s) := s.addPool m tcgPoolChunkSize
  ((s.setNext p none).link p).usePool p size

def tcgMallocInternal (m : QemuMalloc) (s : TCGContext) (size : ℕ) : ℕ × TCGContext :=
  if tcgPoolChunkSize < size then
    let (p, s) := s.addPool m size
    ((s.link p).setNext p s.poolCurrent).usePool p size
  else
    match s.poolCurrent with
    | none =>
      match s.poolFirst with
      | none => s.newPool m size
      | some p => s.usePool p size
    | some c =>
      match (s.pools c).next with
      | none => s.newPool m size
      | some p => s.usePool p size

/-- The size of the block that is given out for a request, with a `long` of `long` octets. -/
def roundLong (long size : ℕ) : ℕ := (size + long - 1) / long * long

def tcgMalloc (m : QemuMalloc) (long : ℕ) (s : TCGContext) (size : ℕ) : ℕ × TCGContext :=
  let size := roundLong long size
  let ptr := s.poolCur
  let ptrEnd := ptr + size
  if s.poolEnd < ptrEnd then tcgMallocInternal m s size
  else (ptr, { s with poolCur := ptrEnd })

def tcgPoolReset (s : TCGContext) : TCGContext := { s with poolCur := 0, poolEnd := 0, poolCurrent := none }

/-- A call, `reset` being the start of another translation. A size is an `int` that still is one when it has been
rounded and the header has been added. -/
inductive PoolOp
  | malloc (size : ℕ) (fits : size + 32 < 2 ^ 31)
  | reset

/-- The context, and the blocks that were given out since the last reset. -/
structure PoolState where
  ctx : TCGContext
  round : List Block

/-- What `tcg_context_init` leaves. -/
def PoolState.start : PoolState := ⟨⟨0, 0, none, none, fun _ => ⟨none, 0⟩, []⟩, []⟩

def PoolState.step (m : QemuMalloc) (long : ℕ) (st : PoolState) : PoolOp → PoolState
  | .malloc size _ =>
    let (ptr, ctx) := tcgMalloc m long st.ctx size
    ⟨ctx, ⟨ptr, roundLong long size⟩ :: st.round⟩
  | .reset => ⟨tcgPoolReset st.ctx, []⟩

def Block.Has (b : Block) (x : ℕ) : Prop := b.start ≤ x ∧ x < b.start + b.size

/-- The octets of a chunk. -/
def TCGContext.chunk (s : TCGContext) (c : ℕ) : Block := ⟨poolData c, (s.pools c).size⟩

def TCGContext.nextOf (s : TCGContext) (c : ℕ) : Option ℕ := (s.pools c).next

/-- The list of the chunks ends, each octet of a block of the round is in one of them, and no two blocks have an octet
in common. -/
def PoolState.Good (st : PoolState) : Prop :=
  (∃ cs, ChainFrom st.ctx.nextOf st.ctx.poolFirst cs ∧
    ∀ b ∈ st.round, ∀ x, b.Has x → ∃ c ∈ cs, (st.ctx.chunk c).Has x) ∧
  st.round.Pairwise fun a b => ∀ x, ¬ (a.Has x ∧ b.Has x)

/-- The request goes to a chunk of its own only if there is no current one. -/
def PoolState.Ok (long : ℕ) (st : PoolState) : PoolOp → Prop
  | .malloc size _ => tcgPoolChunkSize < roundLong long size →
      st.ctx.poolEnd < st.ctx.poolCur + roundLong long size → st.ctx.poolCurrent = none
  | .reset => True

/-- Every state of the run is good. -/
def GoodRun (m : QemuMalloc) (long : ℕ) : PoolState → List PoolOp → Prop
  | st, [] => st.Good
  | st, op :: ops => st.Good ∧ GoodRun m long (st.step m long op) ops

/-- Every request of the run meets the condition where it is made. -/
def OkRun (m : QemuMalloc) (long : ℕ) : PoolState → List PoolOp → Prop
  | _, [] => True
  | st, op :: ops => st.Ok long op ∧ OkRun m long (st.step m long op) ops

/-- Two blocks have no octet in common. -/
def Block.Apart (a b : Block) : Prop :=
  a.size = 0 ∨ b.size = 0 ∨ a.start + a.size ≤ b.start ∨ b.start + b.size ≤ a.start

/-- The block is in the chunk. -/
def Block.In (b chunk : Block) : Prop :=
  chunk.start ≤ b.start ∧ b.start + b.size ≤ chunk.start + chunk.size

/-- Chunks, each of them in memory of its own. -/
structure Owned (s : TCGContext) (cs : List ℕ) : Prop where
  nodup : cs.Nodup
  size_le {c} : c ∈ cs → tcgPoolChunkSize ≤ (s.pools c).size
  live {c} : c ∈ cs → ⟨c, poolHeader + (s.pools c).size⟩ ∈ s.live
  apart {c d} : c ∈ cs → d ∈ cs → c ≠ d → (s.chunk c).Apart (s.chunk d)

/-- The list of the chunks. -/
structure Chunks (s : TCGContext) (cs : List ℕ) : Prop extends Owned s cs where
  chain : ChainFrom s.nextOf s.poolFirst cs

/-- The blocks of the round are in the chunks in front of the current one, and in the part of that one that has been
given out. -/
structure Inv (st : PoolState) (cs : List ℕ) : Prop where
  chunks : Chunks st.ctx cs
  apart : st.round.Pairwise Block.Apart
  fresh : st.ctx.poolCurrent = none → st.ctx.poolCur = 0 ∧ st.ctx.poolEnd = 0 ∧ ∀ b ∈ st.round, b.size = 0
  current {c} : st.ctx.poolCurrent = some c → ∃ l₁ l₂, cs = l₁ ++ c :: l₂ ∧
    poolData c ≤ st.ctx.poolCur ∧ st.ctx.poolCur ≤ st.ctx.poolEnd ∧
      st.ctx.poolEnd = poolData c + (st.ctx.pools c).size ∧
    ∀ b ∈ st.round, b.size = 0 ∨ (∃ d ∈ l₁, b.In (st.ctx.chunk d)) ∨
      poolData c ≤ b.start ∧ b.start + b.size ≤ st.ctx.poolCur

variable {m : QemuMalloc} {s : TCGContext} {st : PoolState} {cs l₁ l₂ : List ℕ} {c p size : ℕ} {a b : Block}

theorem Block.Apart.symm (h : a.Apart b) : b.Apart a := by
  unfold Apart at *
  omega

/-- Blocks of two chunks. -/
theorem Block.Apart.of_in {x y : Block} (h : x.Apart y) (ha : a.In x) (hb : b.In y) : a.Apart b := by
  unfold Apart In at *
  omega

theorem owned_nil (s : TCGContext) : Owned s [] where
  nodup := nodup_nil
  size_le h := absurd h not_mem_nil
  live h := absurd h not_mem_nil
  apart h := absurd h not_mem_nil

theorem inv_start : Inv .start [] where
  chunks := ⟨owned_nil _, rfl⟩
  apart := List.Pairwise.nil
  fresh _ := ⟨rfl, rfl, fun _ h => absurd h not_mem_nil⟩
  current h := absurd h.symm (some_ne_none _)

/-- **Where the invariant holds, the chunks and the blocks are in order.** -/
theorem Inv.good (h : Inv st cs) : st.Good := by
  refine ⟨⟨cs, h.chunks.chain, fun b hb x hx => ?_⟩, h.apart.imp fun hab x hx => ?_⟩
  · unfold Block.Has at hx
    cases hcur : st.ctx.poolCurrent with
    | none =>
      have hzero := (h.fresh hcur).2.2 b hb
      omega
    | some c =>
      obtain ⟨l₁, l₂, rfl, h₁, h₂, h₃, hround⟩ := h.current hcur
      rcases hround b hb with hzero | ⟨d, hd, hin⟩ | hin
      · omega
      · refine ⟨d, mem_append_left _ hd, ?_⟩
        unfold Block.In at hin
        unfold Block.Has
        omega
      · refine ⟨c, mem_append_right _ mem_cons_self, ?_⟩
        simp only [Block.Has, TCGContext.chunk]
        omega
  · unfold Block.Apart at hab
    unfold Block.Has at hx
    omega

theorem Chunks.not_mem_front (h : Chunks s (l₁ ++ p :: l₂)) {d : ℕ} (hd : d ∈ l₁) : d ≠ p :=
  (nodup_append.1 h.nodup).2.2 d hd p mem_cons_self

variable {round : List Block}

/-- The first block in a chunk, when all the others are in the chunks in front of it. -/
theorem inv_usePool (h : Chunks s (l₁ ++ p :: l₂)) (hsize : size ≤ (s.pools p).size)
    (hround : round.Pairwise Block.Apart) (hin : ∀ b ∈ round, b.size = 0 ∨ ∃ d ∈ l₁, b.In (s.chunk d)) :
    Inv ⟨(s.usePool p size).2, ⟨(s.usePool p size).1, size⟩ :: round⟩ (l₁ ++ p :: l₂) := by
  have hp : p ∈ l₁ ++ p :: l₂ := mem_append_right _ mem_cons_self
  refine ⟨⟨⟨h.nodup, h.size_le, h.live, h.apart⟩, h.chain⟩, ?_, ?_, ?_⟩
  · refine pairwise_cons.2 ⟨fun b hb => ?_, hround⟩
    rcases hin b hb with hzero | ⟨d, hd, hbd⟩
    · exact Or.inr (Or.inl hzero)
    · have hnew : Block.In ⟨(s.usePool p size).1, size⟩ (s.chunk p) := ⟨Nat.le_refl _, Nat.add_le_add_left hsize _⟩
      exact (h.apart hp (mem_append_left _ hd) (h.not_mem_front hd).symm).of_in hnew hbd
  · intro hnone
    exact absurd hnone (some_ne_none _)
  · intro c hc
    obtain rfl : p = c := some_inj.1 hc
    refine ⟨l₁, l₂, rfl, Nat.le_add_right _ _, Nat.add_le_add_left hsize _, rfl, fun b hb => ?_⟩
    rcases mem_cons.1 hb with rfl | hb
    · exact Or.inr (Or.inr ⟨Nat.le_refl _, Nat.le_refl _⟩)
    · rcases hin b hb with hzero | hd
      · exact Or.inl hzero
      · exact Or.inr (Or.inl hd)

/-- The chunk that comes from `qemu_malloc` is none of those that are there. -/
theorem Owned.fresh (h : Owned s cs) (m : QemuMalloc) (n : ℕ) : m.alloc s.live (poolHeader + n) ∉ cs := by
  intro hmem
  have hapart := m.apart (n := poolHeader + n) (h.live hmem)
  simp only [poolHeader] at hapart
  omega

/-- **One more chunk.** -/
theorem Owned.snoc (h : Owned s cs) {s' : TCGContext} {n : ℕ} (hn : tcgPoolChunkSize ≤ n)
    (hp : p = m.alloc s.live (poolHeader + n)) (hlive : s'.live = ⟨p, poolHeader + n⟩ :: s.live)
    (hsize : ∀ c ∈ cs, (s'.pools c).size = (s.pools c).size) (hpsize : (s'.pools p).size = n) :
      Owned s' (cs ++ [p]) := by
  have hfresh : p ∉ cs := hp ▸ h.fresh m n
  have hnew {c : ℕ} (hc : c ∈ cs) : (s'.chunk c).Apart (s'.chunk p) := by
    have hapart := m.apart (n := poolHeader + n) (h.live hc)
    rw [← hp] at hapart
    simp only [Block.Apart, TCGContext.chunk, poolData, hsize c hc, hpsize]
    simp only at hapart
    omega
  refine ⟨?_, fun {c} hc => ?_, fun {c} hc => ?_, fun {c d} hc hd hcd => ?_⟩
  · exact nodup_append.2 ⟨h.nodup, nodup_singleton p, fun a ha b hb hab =>
      hfresh (mem_singleton.1 hb ▸ hab ▸ ha)⟩
  · rcases mem_append.1 hc with hc | hc
    · rw [hsize c hc]
      exact h.size_le hc
    · rwa [mem_singleton.1 hc, hpsize]
  · rw [hlive]
    rcases mem_append.1 hc with hc | hc
    · rw [hsize c hc]
      exact mem_cons_of_mem _ (h.live hc)
    · rw [mem_singleton.1 hc, hpsize]
      exact mem_cons_self
  · rcases mem_append.1 hc with hc | hc <;> rcases mem_append.1 hd with hd | hd
    · have hold := h.apart hc hd hcd
      simpa only [Block.Apart, TCGContext.chunk, hsize c hc, hsize d hd] using hold
    · rw [mem_singleton.1 hd]
      exact hnew hc
    · rw [mem_singleton.1 hc]
      exact (hnew hd).symm
    · exact absurd ((mem_singleton.1 hc).trans (mem_singleton.1 hd).symm) hcd

@[simp] theorem nextOf_setNext (s : TCGContext) (p : ℕ) (v : Option ℕ) :
    (s.setNext p v).nextOf = update s.nextOf p v := by
  funext q
  by_cases hq : q = p
  · subst hq
    simp [TCGContext.nextOf, TCGContext.setNext]
  · simp [TCGContext.nextOf, TCGContext.setNext, hq]

@[simp] theorem size_setNext (s : TCGContext) (p q : ℕ) (v : Option ℕ) :
    ((s.setNext p v).pools q).size = (s.pools q).size := by
  by_cases hq : q = p
  · subst hq
    simp [TCGContext.setNext]
  · simp [TCGContext.setNext, hq]

@[simp] theorem nextOf_addPool (m : QemuMalloc) (s : TCGContext) (n : ℕ) : (s.addPool m n).2.nextOf = s.nextOf := by
  funext q
  by_cases hq : q = m.alloc s.live (poolHeader + n)
  · subst hq
    simp [TCGContext.nextOf, TCGContext.addPool]
  · simp [TCGContext.nextOf, TCGContext.addPool, hq]

theorem size_addPool_self (m : QemuMalloc) (s : TCGContext) (n : ℕ) :
    ((s.addPool m n).2.pools (s.addPool m n).1).size = n := by
  simp [TCGContext.addPool]

theorem size_addPool_of_ne {m : QemuMalloc} {n : ℕ} (hc : c ≠ (s.addPool m n).1) :
    ((s.addPool m n).2.pools c).size = (s.pools c).size := by
  have hc' : c ≠ m.alloc s.live (poolHeader + n) := hc
  simp [TCGContext.addPool, hc']

theorem link_none (h : s.poolCurrent = none) (p : ℕ) : s.link p = { s with poolFirst := some p } := by
  cases s
  simp only at h
  subst h
  rfl

theorem link_some (h : s.poolCurrent = some c) (p : ℕ) : s.link p = s.setNext c (some p) := by
  unfold TCGContext.link
  rw [h]

/-- The new chunk of `new_pool`, linked in. -/
def TCGContext.linked (m : QemuMalloc) (s : TCGContext) : TCGContext :=
  ((s.addPool m tcgPoolChunkSize).2.setNext (s.addPool m tcgPoolChunkSize).1 none).link (s.addPool m tcgPoolChunkSize).1

theorem newPool_eq (m : QemuMalloc) (s : TCGContext) (size : ℕ) :
    s.newPool m size = (s.linked m).usePool (s.addPool m tcgPoolChunkSize).1 size := rfl

/-- The new chunk of a big request, linked in. -/
def TCGContext.linkedBig (m : QemuMalloc) (s : TCGContext) (size : ℕ) : TCGContext :=
  ((s.addPool m size).2.link (s.addPool m size).1).setNext (s.addPool m size).1 s.poolCurrent

theorem tcgMallocInternal_big (m : QemuMalloc) (s : TCGContext) (h : tcgPoolChunkSize < size) :
    tcgMallocInternal m s size = (s.linkedBig m size).usePool (s.addPool m size).1 size := if_pos h

/-- The first chunk of a list: there was none, or it is dropped. -/
theorem chunks_single {s' : TCGContext} {n : ℕ} (m : QemuMalloc) (hn : tcgPoolChunkSize ≤ n)
    (hlive : s'.live = ⟨(s.addPool m n).1, poolHeader + n⟩ :: s.live) (hfirst : s'.poolFirst = some (s.addPool m n).1)
    (hnext : s'.nextOf (s.addPool m n).1 = none) (hsize : (s'.pools (s.addPool m n).1).size = n) :
    Chunks s' ([] ++ (s.addPool m n).1 :: []) :=
  ⟨(owned_nil s).snoc hn rfl hlive (fun _ hc => absurd hc not_mem_nil) hsize, hfirst, hnext⟩

theorem inv_newPool_first (hcur : s.poolCurrent = none) (hsize : size ≤ tcgPoolChunkSize)
    (hround : round.Pairwise Block.Apart) (hzero : ∀ b ∈ round, b.size = 0) :
    ∃ cs, Inv ⟨(s.newPool m size).2, ⟨(s.newPool m size).1, size⟩ :: round⟩ cs := by
  have hlink : s.linked m = { (s.addPool m tcgPoolChunkSize).2.setNext (s.addPool m tcgPoolChunkSize).1 none with
      poolFirst := some (s.addPool m tcgPoolChunkSize).1 } :=
    link_none (s := (s.addPool m tcgPoolChunkSize).2.setNext (s.addPool m tcgPoolChunkSize).1 none) hcur _
  have hself : ((s.linked m).pools (s.addPool m tcgPoolChunkSize).1).size = tcgPoolChunkSize := by
    rw [hlink]
    exact (size_setNext ..).trans (size_addPool_self m s _)
  have hnext : (s.linked m).nextOf (s.addPool m tcgPoolChunkSize).1 = none := by
    rw [hlink]
    exact (congrFun (nextOf_setNext ..) _).trans (update_self ..)
  rw [newPool_eq]
  exact ⟨_, inv_usePool (chunks_single m (Nat.le_refl _) (by rw [hlink]; rfl) (by rw [hlink]) hnext hself)
    (hself.symm ▸ hsize) hround fun b hb => Or.inl (hzero b hb)⟩

/-- A big request that comes first. -/
theorem inv_bigRequest_first (hcur : s.poolCurrent = none) (hbig : tcgPoolChunkSize < size)
    (hround : round.Pairwise Block.Apart) (hzero : ∀ b ∈ round, b.size = 0) :
    ∃ cs, Inv ⟨(tcgMallocInternal m s size).2, ⟨(tcgMallocInternal m s size).1, size⟩ :: round⟩ cs := by
  have hlink : s.linkedBig m size = { (s.addPool m size).2 with poolFirst := some (s.addPool m size).1 }.setNext
      (s.addPool m size).1 none := by
    rw [TCGContext.linkedBig, hcur, link_none (s := (s.addPool m size).2) hcur]
  have hself : ((s.linkedBig m size).pools (s.addPool m size).1).size = size := by
    rw [hlink]
    exact (size_setNext ..).trans (size_addPool_self m s _)
  have hnext : (s.linkedBig m size).nextOf (s.addPool m size).1 = none := by
    rw [hlink]
    exact (congrFun (nextOf_setNext ..) _).trans (update_self ..)
  rw [tcgMallocInternal_big m s hbig]
  exact ⟨_, inv_usePool (chunks_single m (Nat.le_of_lt hbig) (by rw [hlink]; rfl) (by rw [hlink]; rfl) hnext hself)
    (Nat.le_of_eq hself.symm) hround fun b hb => Or.inl (hzero b hb)⟩

/-- A new chunk behind the last one, which is the current one. -/
theorem inv_newPool_last (h : Chunks s (l₁ ++ [c])) (hcur : s.poolCurrent = some c) (hsize : size ≤ tcgPoolChunkSize)
    (hround : round.Pairwise Block.Apart) (hin : ∀ b ∈ round, b.size = 0 ∨ ∃ d ∈ l₁ ++ [c], b.In (s.chunk d)) :
    ∃ cs, Inv ⟨(s.newPool m size).2, ⟨(s.newPool m size).1, size⟩ :: round⟩ cs := by
  have hlink : s.linked m = ((s.addPool m tcgPoolChunkSize).2.setNext (s.addPool m tcgPoolChunkSize).1 none).setNext c
      (some (s.addPool m tcgPoolChunkSize).1) :=
    link_some (s := (s.addPool m tcgPoolChunkSize).2.setNext (s.addPool m tcgPoolChunkSize).1 none) hcur _
  set p := (s.addPool m tcgPoolChunkSize).1 with hp
  have hfresh : p ∉ l₁ ++ [c] := h.fresh m tcgPoolChunkSize
  have hne {d : ℕ} (hd : d ∈ l₁ ++ [c]) : d ≠ p := fun he => hfresh (he ▸ hd)
  have hsizes : ∀ d ∈ l₁ ++ [c], ((s.linked m).pools d).size = (s.pools d).size := by
    intro d hd
    rw [hlink, size_setNext, size_setNext, size_addPool_of_ne (hne hd)]
  have hself : ((s.linked m).pools p).size = tcgPoolChunkSize := by
    rw [hlink, size_setNext, size_setNext, hp, size_addPool_self]
  have hcp : c ≠ p := hne (mem_append_right _ (mem_singleton_self c))
  -- the pointers of the chunks that were there do not change but for the last one
  have hchain : ChainFrom (s.linked m).nextOf (s.linked m).poolFirst (l₁ ++ [c] ++ [p]) := by
    have hold : ChainFrom (update s.nextOf p none) s.poolFirst (l₁ ++ [c]) :=
      h.chain.congr fun d hd => update_of_ne (hne hd) _ _
    have hc : c ∉ l₁ := fun hmem => (nodup_append.1 h.nodup).2.2 c hmem c (mem_singleton_self c) rfl
    have hsnoc := hold.snoc hc (b := p) (update_self ..) hcp
    rw [hlink, nextOf_setNext, nextOf_setNext, nextOf_addPool]
    exact hsnoc
  have hlive : (s.linked m).live = ⟨p, poolHeader + tcgPoolChunkSize⟩ :: s.live := by
    rw [hlink]
    rfl
  rw [newPool_eq]
  refine ⟨_, inv_usePool ⟨h.snoc (Nat.le_refl _) hp hlive hsizes hself, hchain⟩
    (hself.symm ▸ hsize) hround fun b hb => ?_⟩
  rcases hin b hb with hzero | ⟨d, hd, hbd⟩
  · exact Or.inl hzero
  · refine Or.inr ⟨d, hd, ?_⟩
    simpa only [Block.In, TCGContext.chunk, hsizes d hd] using hbd

/-- The blocks of the round when the current chunk is left: they are in the chunks up to it. -/
theorem Inv.left (h : Inv st cs) (hcur : st.ctx.poolCurrent = some c) : ∃ l₁ l₂, cs = l₁ ++ c :: l₂ ∧
    ∀ b ∈ st.round, b.size = 0 ∨ ∃ d ∈ l₁ ++ [c], b.In (st.ctx.chunk d) := by
  obtain ⟨l₁, l₂, hcs, -, hle, hend, hround⟩ := h.current hcur
  refine ⟨l₁, l₂, hcs, fun b hb => ?_⟩
  rcases hround b hb with hzero | ⟨d, hd, hbd⟩ | ⟨hlo, hhi⟩
  · exact Or.inl hzero
  · exact Or.inr ⟨d, mem_append_left _ hd, hbd⟩
  · have htop : b.start + b.size ≤ poolData c + (st.ctx.pools c).size :=
      Nat.le_trans hhi (Nat.le_trans hle (Nat.le_of_eq hend))
    exact Or.inr ⟨c, mem_append_right _ (mem_singleton_self c), hlo, htop⟩

theorem eq_nil_of_next {next : ℕ → Option ℕ} {l : List ℕ} (h : ChainFrom next none l) : l = [] := by
  cases l with
  | nil => rfl
  | cons a l => exact absurd h.1.symm (some_ne_none a)

theorem exists_of_next {next : ℕ → Option ℕ} {l : List ℕ} (h : ChainFrom next (some p) l) : ∃ l', l = p :: l' := by
  cases l with
  | nil => exact absurd h (some_ne_none p)
  | cons a l => exact ⟨l, by rw [some_inj.1 h.1]⟩

/-- **A request that does not fit into the current chunk**, and that is not a big one behind others. -/
theorem inv_internal (h : Inv st cs) (hok : tcgPoolChunkSize < size → st.ctx.poolCurrent = none) :
    ∃ cs', Inv ⟨(tcgMallocInternal m st.ctx size).2, ⟨(tcgMallocInternal m st.ctx size).1, size⟩ :: st.round⟩ cs' := by
  by_cases hbig : tcgPoolChunkSize < size
  · exact inv_bigRequest_first (hok hbig) hbig h.apart (h.fresh (hok hbig)).2.2
  · have hsmall : size ≤ tcgPoolChunkSize := Nat.le_of_not_lt hbig
    have hchain := h.chunks.chain
    unfold tcgMallocInternal
    rw [if_neg hbig]
    cases hcur : st.ctx.poolCurrent with
    | none =>
      have hzero := (h.fresh hcur).2.2
      cases hfirst : st.ctx.poolFirst with
      | none => exact inv_newPool_first hcur hsmall h.apart hzero
      | some p =>
        rw [hfirst] at hchain
        obtain ⟨l, rfl⟩ := exists_of_next hchain
        exact ⟨[] ++ p :: l, inv_usePool h.chunks (Nat.le_trans hsmall (h.chunks.size_le mem_cons_self)) h.apart
          fun b hb => Or.inl (hzero b hb)⟩
    | some c =>
      obtain ⟨l₁, l₂, rfl, hround⟩ := h.left hcur
      have hrest : ChainFrom st.ctx.nextOf (st.ctx.nextOf c) l₂ := hchain.drop
      cases hnext : (st.ctx.pools c).next with
      | none =>
        rw [show st.ctx.nextOf c = none from hnext] at hrest
        obtain rfl := eq_nil_of_next hrest
        simp only [hnext]
        exact inv_newPool_last h.chunks hcur hsmall h.apart hround
      | some p =>
        rw [show st.ctx.nextOf c = some p from hnext] at hrest
        obtain ⟨l₃, rfl⟩ := exists_of_next hrest
        have hchunks := h.chunks
        rw [← singleton_append, ← append_assoc] at hchunks
        simp only [hnext]
        exact ⟨_, inv_usePool hchunks
          (Nat.le_trans hsmall (hchunks.size_le (mem_append_right _ mem_cons_self))) h.apart hround⟩

/-- **A request that fits into the current chunk.** -/
theorem inv_fits (h : Inv st cs) {n : ℕ} (hfit : st.ctx.poolCur + n ≤ st.ctx.poolEnd) :
    Inv ⟨{ st.ctx with poolCur := st.ctx.poolCur + n }, ⟨st.ctx.poolCur, n⟩ :: st.round⟩ cs := by
  refine ⟨⟨⟨h.chunks.nodup, h.chunks.size_le, h.chunks.live, h.chunks.apart⟩, h.chunks.chain⟩,
    pairwise_cons.2 ⟨fun b hb => ?_, h.apart⟩, fun hnone => ?_, fun {c} hcur => ?_⟩
  · cases hcur : st.ctx.poolCurrent with
    | none => exact Or.inr (Or.inl ((h.fresh hcur).2.2 b hb))
    | some c =>
      obtain ⟨l₁, l₂, rfl, hlo, hle, hend, hround⟩ := h.current hcur
      rcases hround b hb with hzero | ⟨d, hd, hbd⟩ | ⟨-, hhi⟩
      · exact Or.inr (Or.inl hzero)
      · have hnew : Block.In ⟨st.ctx.poolCur, n⟩ (st.ctx.chunk c) := ⟨hlo, Nat.le_trans hfit (Nat.le_of_eq hend)⟩
        exact (h.chunks.apart (mem_append_right _ mem_cons_self) (mem_append_left _ hd)
          (h.chunks.not_mem_front hd).symm).of_in hnew hbd
      · exact Or.inr (Or.inr (Or.inr hhi))
  · obtain ⟨hcur, hend, hzero⟩ := h.fresh hnone
    have hn : n = 0 := by omega
    refine ⟨by simp only; omega, hend, fun b hb => ?_⟩
    rcases mem_cons.1 hb with rfl | hb
    · exact hn
    · exact hzero b hb
  · obtain ⟨l₁, l₂, hcs, hlo, hle, hend, hround⟩ := h.current hcur
    refine ⟨l₁, l₂, hcs, Nat.le_trans hlo (Nat.le_add_right _ _), hfit, hend, fun b hb => ?_⟩
    rcases mem_cons.1 hb with rfl | hb
    · exact Or.inr (Or.inr ⟨hlo, Nat.le_refl _⟩)
    · rcases hround b hb with hzero | hd | ⟨hlo', hhi⟩
      · exact Or.inl hzero
      · exact Or.inr (Or.inl hd)
      · exact Or.inr (Or.inr ⟨hlo', Nat.le_trans hhi (Nat.le_add_right _ _)⟩)

/-- **Every call that meets the condition** keeps the invariant. -/
theorem inv_step {long : ℕ} (h : Inv st cs) {op : PoolOp} (hok : st.Ok long op) :
    ∃ cs', Inv (st.step m long op) cs' := by
  cases op with
  | malloc size =>
    unfold PoolState.step tcgMalloc
    by_cases hfit : st.ctx.poolEnd < st.ctx.poolCur + roundLong long size
    · simp only [if_pos hfit]
      exact inv_internal h fun hbig => hok hbig hfit
    · simp only [if_neg hfit]
      exact ⟨cs, inv_fits h (Nat.le_of_not_lt hfit)⟩
  | reset =>
    exact ⟨cs, ⟨⟨h.chunks.nodup, h.chunks.size_le, h.chunks.live, h.chunks.apart⟩, h.chunks.chain⟩, List.Pairwise.nil,
      fun _ => ⟨rfl, rfl, fun _ hb => absurd hb not_mem_nil⟩, fun hsome =>
        absurd hsome.symm (some_ne_none _)⟩

/-- **A big request behind others makes the list cyclic**: the new chunk points to the current one, and that one to
the new one. -/
theorem bigRequest_cyclic {long : ℕ} (h : Inv st cs) {op : PoolOp} (hbad : ¬ st.Ok long op) :
    ¬ (st.step m long op).Good := by
  cases op with
  | reset => exact absurd trivial hbad
  | malloc size fits =>
    simp only [PoolState.Ok, Classical.not_imp] at hbad
    obtain ⟨hbig, hfit, hsome⟩ := hbad
    obtain ⟨c, hcur⟩ := ne_none_iff_exists'.1 hsome
    obtain ⟨l₁, l₂, rfl, -⟩ := h.current hcur
    set p := (st.ctx.addPool m (roundLong long size)).1 with hp
    have hfresh : p ∉ l₁ ++ c :: l₂ := h.chunks.fresh m _
    have hcp : c ≠ p := fun he => hfresh (he ▸ mem_append_right _ mem_cons_self)
    have hstep : (st.step m long (.malloc size fits)).ctx =
        ((st.ctx.linkedBig m (roundLong long size)).usePool p (roundLong long size)).2 := by
      simp only [PoolState.step, tcgMalloc, if_pos hfit, tcgMallocInternal_big m st.ctx hbig, hp]
    have hlink : st.ctx.linkedBig m (roundLong long size) =
        ((st.ctx.addPool m (roundLong long size)).2.setNext c (some p)).setNext p (some c) := by
      rw [TCGContext.linkedBig, hcur, link_some (s := (st.ctx.addPool m (roundLong long size)).2) hcur]
    have hnext : (st.step m long (.malloc size fits)).ctx.nextOf =
        update (update st.ctx.nextOf c (some p)) p (some c) := by
      rw [hstep, ← nextOf_addPool m st.ctx (roundLong long size), ← nextOf_setNext, ← nextOf_setNext, ← hlink]
      rfl
    have hfirst : (st.step m long (.malloc size fits)).ctx.poolFirst = st.ctx.poolFirst := by
      rw [hstep, hlink]
      rfl
    rintro ⟨⟨cs', hchain, -⟩, -⟩
    rw [hnext, hfirst] at hchain
    have hsame : ∀ d ∈ l₁, update (update st.ctx.nextOf c (some p)) p (some c) d =
      st.ctx.nextOf d := by
      intro d hd
      have hdp : d ≠ p := fun he => hfresh (he ▸ mem_append_left _ hd)
      rw [update_of_ne hdp, update_of_ne (h.chunks.not_mem_front hd)]
    obtain ⟨t, ht⟩ := h.chunks.chain.reach hsame hchain
    refine not_chainFrom_cycle (b := p) ?_ (update_self ..) t ht
    rw [update_of_ne hcp, update_self]

theorem GoodRun.good {long : ℕ} {ops : List PoolOp} (h : GoodRun m long st ops) : st.Good := by
  cases ops with
  | nil => exact h
  | cons op ops => exact h.1

theorem goodRun_iff_okRun {long : ℕ} (h : Inv st cs) (ops : List PoolOp) :
    GoodRun m long st ops ↔ OkRun m long st ops := by
  induction ops generalizing st cs with
  | nil => exact ⟨fun _ => trivial, fun _ => h.good⟩
  | cons op ops ih =>
    by_cases hok : st.Ok long op
    · obtain ⟨cs', h'⟩ := inv_step (m := m) h hok
      have hrest := ih h'
      exact ⟨fun hgood => ⟨hok, hrest.1 hgood.2⟩, fun hrun => ⟨h.good, hrest.2 hrun.2⟩⟩
    · exact ⟨fun hgood => absurd hgood.2.good (bigRequest_cyclic h hok), fun hrun => absurd hrun.1 hok⟩

/-- **The pools are in order in every state of a run exactly if no big request comes when there is a current chunk**
that has no room for it. -/
theorem pool_good_iff (m : QemuMalloc) (long : ℕ) (ops : List PoolOp) :
    GoodRun m long .start ops ↔ OkRun m long .start ops :=
  goodRun_iff_okRun inv_start ops

/-- Memory is given out from address 16 on, behind everything that was given out before. -/
def bumpMalloc : QemuMalloc where
  alloc live _ := live.foldr (fun b e => max (b.start + b.size) e) 16
  apart {live n b} hb := by
    refine Or.inr ?_
    induction live with
    | nil => exact absurd hb not_mem_nil
    | cons a live ih =>
      rcases mem_cons.1 hb with rfl | hb
      · exact Nat.le_max_left _ _
      · exact Nat.le_trans (ih hb) (Nat.le_max_right _ _)

/-- A small request, a big one, and a small one that gets the block of the first. -/
def overlapOps : List PoolOp := [.malloc 8 (by decide), .malloc 40000 (by decide), .malloc 8 (by decide)]

theorem pool_overlap :
    (overlapOps.foldl (PoolState.step bumpMalloc 4) .start).round = [⟨32, 8⟩, ⟨32816, 40000⟩, ⟨32, 8⟩] ∧
      ¬ GoodRun bumpMalloc 4 .start overlapOps := by
  have hround :
      (overlapOps.foldl (PoolState.step bumpMalloc 4) .start).round = [⟨32, 8⟩, ⟨32816, 40000⟩, ⟨32, 8⟩] := by rfl
  refine ⟨hround, fun hgood => ?_⟩
  have hpair := hgood.2.2.2.2
  unfold overlapOps at hround
  simp only [foldl_cons, foldl_nil] at hround
  rw [hround] at hpair
  have hapart := (pairwise_cons.1 hpair).1 ⟨32, 8⟩ (by simp)
  exact hapart 32 ⟨⟨by decide, by decide⟩, ⟨by decide, by decide⟩⟩

end Emulator.Tcg
