import Mathlib.Algebra.Group.Nat.Defs
import Emulator.Lib.IntervalTree

/-!
# The map of allocated blocks

`memcheck_malloc_map.c`: a red-black tree of the blocks that the guest has allocated,
guarding areas included. Two blocks compare equal if they intersect, so a new block may
equal several entries at once. `allocmap_insert` then removes one of them and does not look
whether the second `RB_INSERT` succeeds.

* `AllocMapOk`: the entries are disjoint, whatever is done to the map.
* `allocmap_iff`: a sequence of calls does what the header file promises exactly if no
  block that it inserts intersects two entries.
-/

namespace Emulator.Memcheck

open List

/-- `x - 1` of a `target_ulong`. -/
def pred32 (x : ℕ) : ℕ := (x + (2 ^ 32 - 1)) % 2 ^ 32

structure MallocDesc where
  ptr : ℕ
  requestedBytes : ℕ
  prefixSize : ℕ
  suffixSize : ℕ
  libcPid : ℕ
  allocatorPid : ℕ
  avCount : ℕ
deriving DecidableEq

/-- `call_stack` and `call_stack_count` are one list. -/
structure MallocDescEx where
  mallocDesc : MallocDesc
  callStack : List ℕ
  flags : ℕ
deriving DecidableEq

def mallocdescGetUserPtr (desc : MallocDesc) : ℕ := (desc.ptr + desc.prefixSize) % 2 ^ 32

def mallocdescGetAllocSize (desc : MallocDesc) : ℕ :=
  (desc.prefixSize + desc.requestedBytes + desc.suffixSize) % 2 ^ 32

def mallocdescGetAllocEnd (desc : MallocDesc) : ℕ := (desc.ptr + mallocdescGetAllocSize desc) % 2 ^ 32

def mallocdescGetUserAllocEnd (desc : MallocDesc) : ℕ := (mallocdescGetUserPtr desc + desc.requestedBytes) % 2 ^ 32

/-- `RBTMapResult`; `qemu_malloc` does not return if it fails, and so there is no `RBT_MAP_RESULT_ERROR`. -/
inductive RBTMapResult where
  | entryInserted
  | entryAlreadyExists
  | entryReplaced
deriving DecidableEq

abbrev AllocMap := Tree MallocDescEx

def allocmapentryAllocBegins (adesc : MallocDescEx) : ℕ := adesc.mallocDesc.ptr

def allocmapentryAllocEnds (adesc : MallocDescEx) : ℕ := mallocdescGetAllocEnd adesc.mallocDesc

/-- The last byte of the block: `allocmapentry_alloc_ends(adesc) - 1`. -/
def allocLast (adesc : MallocDescEx) : ℕ := pred32 (allocmapentryAllocEnds adesc)

/-- `cmp_rb`: blocks are equal if they intersect in any part. -/
def allocCmpRb (d1 d2 : MallocDescEx) : Ordering :=
  IntervalTree.compare (allocmapentryAllocBegins d1) (allocLast d1) (allocmapentryAllocBegins d2) (allocLast d2)

variable (R : Rebalance MallocDescEx)

/-- The result, the entry that has been replaced, and the map. -/
def allocmapInsertDesc (map : AllocMap) (adesc : MallocDescEx) (replaced : Bool) :
    RBTMapResult × Option MallocDescEx × AllocMap :=
  match R.insert (allocCmpRb adesc) map adesc with
  | (none, map) => (.entryInserted, none, map)
  | (some existing, map) =>
    if ¬ replaced then (.entryAlreadyExists, none, map)
    else (.entryReplaced, some existing, (R.insert (allocCmpRb adesc) (R.remove map existing) adesc).2)

/-- The block that `allocmap_find_entry` looks for. -/
def searchedBlock (address blockSize : ℕ) : MallocDescEx := ⟨⟨address, blockSize, 0, 0, 0, 0, 0⟩, [], 0⟩

def allocmapFindEntry (map : AllocMap) (address blockSize : ℕ) : Option MallocDescEx :=
  map.find (allocCmpRb (searchedBlock address blockSize))

def allocmapInsert (map : AllocMap) (desc : MallocDescEx) (replaced : Bool) :
    RBTMapResult × Option MallocDescEx × AllocMap :=
  allocmapInsertDesc R map desc replaced

def allocmapFind (map : AllocMap) (address blockSize : ℕ) : Option MallocDescEx :=
  allocmapFindEntry map address blockSize

/-- The block that has been pulled, if there was one, and the map. -/
def allocmapPull (map : AllocMap) (address : ℕ) : Option MallocDescEx × AllocMap :=
  match allocmapFindEntry map address 1 with
  | some adesc => (some adesc, R.remove map adesc)
  | none => (none, map)

/-- `allocmap_copy` of the entries that are left; `none` if an entry could not be inserted. -/
def allocmapCopy (dest : AllocMap) (setFlags clearFlags : ℕ) : List MallocDescEx → Option AllocMap
  | [] => some dest
  | entry :: entries =>
    match allocmapInsertDesc R dest
        { entry with flags := (entry.flags - (entry.flags &&& clearFlags)) ||| setFlags } false with
    | (.entryInserted, _, dest) => allocmapCopy dest setFlags clearFlags entries
    | _ => none

/-- A block that is not empty and does not wrap the address space. -/
structure ProperBlock (d : MallocDescEx) : Prop where
  pos : 0 < d.mallocDesc.prefixSize + d.mallocDesc.requestedBytes + d.mallocDesc.suffixSize
  fits : d.mallocDesc.ptr + (d.mallocDesc.prefixSize + d.mallocDesc.requestedBytes + d.mallocDesc.suffixSize) ≤ 2 ^ 32

/-- The address is one of the block's. -/
def InBlock (d : MallocDescEx) (a : ℕ) : Prop :=
  d.mallocDesc.ptr ≤ a ∧
    a < d.mallocDesc.ptr + (d.mallocDesc.prefixSize + d.mallocDesc.requestedBytes + d.mallocDesc.suffixSize)

instance (d : MallocDescEx) (a : ℕ) : Decidable (InBlock d a) := inferInstanceAs (Decidable (_ ∧ _))

/-- The two blocks intersect. -/
def Intersects (d e : MallocDescEx) : Prop := ∃ a, InBlock d a ∧ InBlock e a

theorem ProperBlock.last_eq {d : MallocDescEx} (h : ProperBlock d) : allocLast d =
    d.mallocDesc.ptr + (d.mallocDesc.prefixSize + d.mallocDesc.requestedBytes + d.mallocDesc.suffixSize) - 1 := by
  have h1 := h.pos
  have h2 := h.fits
  unfold allocLast pred32 allocmapentryAllocEnds mallocdescGetAllocEnd mallocdescGetAllocSize
  omega

theorem ProperBlock.inBlock_iff {d : MallocDescEx} (h : ProperBlock d) (a : ℕ) :
    InBlock d a ↔ d.mallocDesc.ptr ≤ a ∧ a ≤ allocLast d := by
  have h1 := h.pos
  rw [h.last_eq]
  unfold InBlock
  omega

theorem ProperBlock.start_le_last {d : MallocDescEx} (h : ProperBlock d) : d.mallocDesc.ptr ≤ allocLast d := by
  have h1 := h.pos
  rw [h.last_eq]
  omega

theorem intersects_iff {d e : MallocDescEx} (hd : ProperBlock d) (he : ProperBlock e) :
    Intersects d e ↔ d.mallocDesc.ptr ≤ allocLast e ∧ e.mallocDesc.ptr ≤ allocLast d := by
  constructor
  · rintro ⟨a, h1, h2⟩
    rw [hd.inBlock_iff] at h1
    rw [he.inBlock_iff] at h2
    omega
  · intro h
    refine ⟨max d.mallocDesc.ptr e.mallocDesc.ptr, (hd.inBlock_iff _).2 ?_, (he.inBlock_iff _).2 ?_⟩
    · have := hd.start_le_last
      omega
    · have := he.start_le_last
      omega

theorem searchedBlock_proper {address size : ℕ} (h : 0 < size) (h' : address + size ≤ 2 ^ 32) :
    ProperBlock (searchedBlock address size) := by
  unfold searchedBlock
  refine ⟨?_, ?_⟩
  · simp only
    omega
  · simp only
    omega

theorem inBlock_searched {address size a : ℕ} :
    InBlock (searchedBlock address size) a ↔ address ≤ a ∧ a < address + size := by
  unfold InBlock searchedBlock
  simp

/-- The map is a search tree of disjoint blocks. -/
structure AllocMapOk (map : AllocMap) : Prop where
  tree : IntervalTree.Ok allocmapentryAllocBegins allocLast map
  proper : ∀ e ∈ map.toList, ProperBlock e

theorem allocMapOk_leaf : AllocMapOk Tree.leaf := ⟨IntervalTree.ok_leaf, fun _ h => absurd h not_mem_nil⟩

variable {R} {map : AllocMap} {d e : MallocDescEx}

namespace AllocMapOk

theorem eq_of_intersects (h : AllocMapOk map) {e e' : MallocDescEx} (he : e ∈ map.toList) (he' : e' ∈ map.toList)
    (hi : Intersects e e') : e = e' := by
  by_contra hne
  have h1 := (intersects_iff (h.proper e he) (h.proper e' he')).1 hi
  have h2 := h.tree.disjoint he he' hne
  unfold allocmapentryAllocBegins at h2
  omega

theorem remove (h : AllocMapOk map) (e : MallocDescEx) :
    AllocMapOk (R.remove map e) ∧ ∀ a, a ∈ (R.remove map e).toList ↔ a ≠ e ∧ a ∈ map.toList := by
  obtain ⟨h1, h2⟩ := h.tree.remove R e
  exact ⟨⟨h1, fun a ha => h.proper a ((h2 a).1 ha).2⟩, h2⟩

/-- A block that intersects no entry is added. -/
theorem insert_new (h : AllocMapOk map) (hd : ProperBlock d) (hf : map.find (allocCmpRb d) = none) :
    AllocMapOk (R.insert (allocCmpRb d) map d).2 ∧
      ∀ a, a ∈ (R.insert (allocCmpRb d) map d).2.toList ↔ a = d ∨ a ∈ map.toList := by
  obtain ⟨h1, h2⟩ := h.tree.insert R (x := d) hd.start_le_last hf
  refine ⟨⟨h1, fun a ha => ?_⟩, h2⟩
  rcases (h2 a).1 ha with rfl | ha
  · exact hd
  · exact h.proper a ha

theorem find_none_iff (h : AllocMapOk map) (hd : ProperBlock d) :
    map.find (allocCmpRb d) = none ↔ ∀ e ∈ map.toList, ¬ Intersects d e := by
  constructor
  · intro hf e he hi
    exact h.tree.find_none hd.start_le_last hf e he ((intersects_iff hd (h.proper e he)).1 hi)
  · intro hn
    exact h.tree.find_eq_none hd.start_le_last fun e he hm =>
      hn e he ((intersects_iff hd (h.proper e he)).2 hm)

theorem find_some (h : AllocMapOk map) (hd : ProperBlock d) (hf : map.find (allocCmpRb d) = some e) :
    e ∈ map.toList ∧ Intersects d e := by
  obtain ⟨h1, h2⟩ := h.tree.find_some hd.start_le_last hf
  exact ⟨h1, (intersects_iff hd (h.proper e h1)).2 h2⟩

/-- An address of an entry is found in it. -/
theorem find_address (h : AllocMapOk map) (he : e ∈ map.toList) {a : ℕ} (ha : InBlock e a) :
    allocmapFind map a 1 = some e := by
  have hpe := h.proper e he
  have hlt : a < 2 ^ 32 := by
    have := hpe.fits
    unfold InBlock at ha
    omega
  have hd : ProperBlock (searchedBlock a 1) := searchedBlock_proper Nat.one_pos hlt
  unfold allocmapFind allocmapFindEntry
  rcases hf : map.find (allocCmpRb (searchedBlock a 1)) with _ | b
  · exact absurd ⟨a, inBlock_searched.2 (by omega), ha⟩ ((h.find_none_iff hd).1 hf e he)
  · obtain ⟨hb, b', h1, h2⟩ := h.find_some hd hf
    rw [inBlock_searched] at h1
    obtain rfl : b' = a := by omega
    rw [h.eq_of_intersects hb he ⟨b', h2, ha⟩]

end AllocMapOk

/-- At most one entry intersects the block. -/
def MeetsOne (map : AllocMap) (d : MallocDescEx) : Prop :=
  ∀ e ∈ map.toList, ∀ e' ∈ map.toList, Intersects d e → Intersects d e' → e = e'

/-- What `allocmap_insert` with a buffer for the replaced entry leaves in the map. -/
inductive Inserted (R : Rebalance MallocDescEx) (map : AllocMap) (d : MallocDescEx) : AllocMap → Prop
  | new {map' : AllocMap} (free : ∀ e ∈ map.toList, ¬ Intersects d e)
      (mem : ∀ a, a ∈ map'.toList ↔ a = d ∨ a ∈ map.toList) : Inserted R map d map'
  | replaced {map' : AllocMap} {e : MallocDescEx} (he : e ∈ map.toList) (hi : Intersects d e)
      (only : ∀ e' ∈ map.toList, Intersects d e' → e' = e)
      (mem : ∀ a, a ∈ map'.toList ↔ a = d ∨ a ≠ e ∧ a ∈ map.toList) : Inserted R map d map'
  | lost {map' : AllocMap} {e e' : MallocDescEx} (he : e ∈ map.toList) (hi : Intersects d e) (he' : e' ∈ map.toList)
      (hi' : Intersects d e') (hne : e' ≠ e) (mem : ∀ a, a ∈ map'.toList ↔ a ≠ e ∧ a ∈ map.toList) :
      Inserted R map d map'

/-- **What an insertion does**: the last case loses the new block. -/
theorem allocmapInsert_cases (h : AllocMapOk map) (hd : ProperBlock d) :
    (allocmapInsert R map d true).1 ≠ .entryAlreadyExists ∧ AllocMapOk (allocmapInsert R map d true).2.2 ∧
      Inserted R map d (allocmapInsert R map d true).2.2 := by
  unfold allocmapInsert allocmapInsertDesc
  rcases hf : map.find (allocCmpRb d) with _ | e
  · obtain ⟨h1, h2⟩ := h.insert_new (R := R) hd hf
    rw [R.insert_of_none hf] at h1 h2 ⊢
    exact ⟨by simp, h1, .new ((h.find_none_iff hd).1 hf) h2⟩
  · obtain ⟨he, hi⟩ := h.find_some hd hf
    obtain ⟨hr, hmem⟩ := h.remove (R := R) e
    rw [R.insert_of_some hf]
    simp only [not_true_eq_false, if_false]
    rcases hf' : (R.remove map e).find (allocCmpRb d) with _ | e'
    · obtain ⟨h1, h2⟩ := hr.insert_new (R := R) hd hf'
      have hnone := (hr.find_none_iff hd).1 hf'
      refine ⟨by simp, h1, .replaced he hi (fun e' he' hi' => ?_) fun a => by rw [h2, hmem]⟩
      by_contra hne
      exact hnone e' ((hmem e').2 ⟨hne, he'⟩) hi'
    · obtain ⟨he', hi'⟩ := hr.find_some hd hf'
      rw [R.insert_of_some hf']
      exact ⟨by simp, hr, .lost he hi ((hmem e').1 he').2 hi' ((hmem e').1 he').1 hmem⟩

/-- A call to the map; `allocmap_insert` is given a buffer for the replaced entry. -/
inductive AllocMapCall where
  | insert (desc : MallocDescEx)
  | pull (address : ℕ)
  | find (address blockSize : ℕ)

namespace AllocMapCall

/-- The block of the call is not empty and does not wrap the address space. -/
def Proper : AllocMapCall → Prop
  | insert desc => ProperBlock desc
  | pull address => ProperBlock (searchedBlock address 1)
  | find address blockSize => ProperBlock (searchedBlock address blockSize)

/-- The map after the call. -/
def run (R : Rebalance MallocDescEx) (map : AllocMap) : AllocMapCall → AllocMap
  | insert desc => (allocmapInsert R map desc true).2.2
  | pull address => (allocmapPull R map address).2
  | find _ _ => map

end AllocMapCall

/-- The entries are pairwise disjoint, and `allocmap_find` finds one that intersects the range if there is one. -/
structure MapGood (map : AllocMap) : Prop where
  disjoint : map.toList.Pairwise fun d e => ¬ Intersects d e
  find : ∀ address size, ProperBlock (searchedBlock address size) →
    (allocmapFind map address size ≠ none ↔ ∃ e ∈ map.toList, Intersects (searchedBlock address size) e) ∧
      ∀ e, allocmapFind map address size = some e → e ∈ map.toList ∧ Intersects (searchedBlock address size) e

/-- After an insertion that succeeds the new block is found at each of its addresses; entries that do not intersect
it are still there. -/
structure InsertGood (R : Rebalance MallocDescEx) (map : AllocMap) (desc : MallocDescEx) : Prop where
  found : (allocmapInsert R map desc true).1 = .entryInserted ∨ (allocmapInsert R map desc true).1 = .entryReplaced →
    ∀ a, InBlock desc a → allocmapFind (allocmapInsert R map desc true).2.2 a 1 = some desc
  kept : ∀ e ∈ map.toList, ¬ Intersects desc e → e ∈ (allocmapInsert R map desc true).2.2.toList

/-- The map does what it should in the call and after it. -/
def CallGood (R : Rebalance MallocDescEx) (map : AllocMap) (c : AllocMapCall) : Prop :=
  MapGood (c.run R map) ∧ ∀ desc, c = .insert desc → InsertGood R map desc

/-- `P` holds of each call of the sequence and the map that it finds. -/
def AllCalls (R : Rebalance MallocDescEx) (P : AllocMap → AllocMapCall → Prop) : AllocMap → List AllocMapCall → Prop
  | _, [] => True
  | map, c :: cs => P map c ∧ AllCalls R P (c.run R map) cs

theorem AllocMapOk.good (h : AllocMapOk map) : MapGood map := by
  refine ⟨?_, fun address size hp => ⟨?_, fun e he => h.find_some hp he⟩⟩
  · refine h.tree.ordered.imp_of_mem fun {d e} hd he hlt hi => ?_
    have := (intersects_iff (h.proper d hd) (h.proper e he)).1 hi
    unfold allocmapentryAllocBegins at hlt
    omega
  · rw [ne_eq, show allocmapFind map address size = none ↔ _ from h.find_none_iff hp]
    simp

theorem run_ok (h : AllocMapOk map) {c : AllocMapCall} (hc : c.Proper) : AllocMapOk (c.run R map) := by
  cases c with
  | insert desc => exact (allocmapInsert_cases h hc).2.1
  | pull address =>
    show AllocMapOk (allocmapPull R map address).2
    unfold allocmapPull
    split
    · exact (h.remove _).1
    · exact h
  | find address blockSize => exact h

/-- An insertion is good exactly if the block does not intersect two entries. -/
theorem insertGood_iff (h : AllocMapOk map) (hd : ProperBlock d) : InsertGood R map d ↔ MeetsOne map d := by
  obtain ⟨hres, hok, hins⟩ := allocmapInsert_cases (R := R) h hd
  have hres' : (allocmapInsert R map d true).1 = .entryInserted ∨
      (allocmapInsert R map d true).1 = .entryReplaced := by
    rcases hr : (allocmapInsert R map d true).1
    · exact .inl rfl
    · exact absurd hr hres
    · exact .inr rfl
  cases hins with
  | new free mem =>
    refine ⟨fun _ e he e' _ hi _ => absurd hi (free e he), fun _ => ⟨fun _ a ha => ?_, fun e he _ => ?_⟩⟩
    · exact hok.find_address ((mem d).2 (.inl rfl)) ha
    · exact (mem e).2 (.inr he)
  | replaced he hi only mem =>
    refine ⟨fun _ e he e' he' hi hi' => (only e he hi).trans (only e' he' hi').symm,
      fun _ => ⟨fun _ a ha => hok.find_address ((mem d).2 (.inl rfl)) ha,
        fun e' he' hi' => (mem e').2 (.inr ⟨?_, he'⟩)⟩⟩
    rintro rfl
    exact hi' hi
  | @lost e e' he hi he' hi' hne mem =>
    refine ⟨fun hgood => ?_, fun hone => absurd (hone e' he' e he hi' hi) hne⟩
    -- the new block would have to be one of the old entries, and they are disjoint
    have hfound := hgood.found hres' d.mallocDesc.ptr ⟨Nat.le_refl _, by have := hd.pos; omega⟩
    have hptr : ProperBlock (searchedBlock d.mallocDesc.ptr 1) :=
      searchedBlock_proper Nat.one_pos (by have := hd.pos; have := hd.fits; omega)
    have hdm := ((mem d).1 (hok.find_some hptr hfound).1).2
    rw [← h.eq_of_intersects hdm he hi, ← h.eq_of_intersects hdm he' hi'] at hne
    exact absurd rfl hne

/-- **When the allocation map keeps its promises**: in a sequence of calls on an empty map, every call is good exactly
if no inserted block intersects two entries at once. -/
theorem allocmap_iff (R : Rebalance MallocDescEx) (cs : List AllocMapCall) (hcs : ∀ c ∈ cs, c.Proper) :
    AllCalls R (CallGood R) Tree.leaf cs ↔
      AllCalls R (fun map c => ∀ desc, c = .insert desc → MeetsOne map desc) Tree.leaf cs := by
  suffices hgen : ∀ map, AllocMapOk map → (AllCalls R (CallGood R) map cs ↔
      AllCalls R (fun map c => ∀ desc, c = .insert desc → MeetsOne map desc) map cs) from hgen _ allocMapOk_leaf
  induction cs with
  | nil => exact fun _ _ => Iff.rfl
  | cons c cs ih =>
    intro map h
    have hc := hcs c (mem_cons_self ..)
    have hok := run_ok (R := R) h hc
    have hstep : CallGood R map c ↔ ∀ desc, c = .insert desc → MeetsOne map desc := by
      refine ⟨fun hg desc hdesc => ?_, fun hone => ⟨hok.good, fun desc hdesc => ?_⟩⟩
      · subst hdesc
        exact (insertGood_iff h hc).1 (hg.2 desc rfl)
      · subst hdesc
        exact (insertGood_iff h hc).2 (hone desc rfl)
    unfold AllCalls
    rw [hstep, ih (fun c hc => hcs c (mem_cons_of_mem _ hc)) _ hok]

/-- A block of 16 bytes with guarding areas of 4 bytes around 8 bytes. -/
def sixteenBytes (ptr : ℕ) : MallocDescEx := ⟨⟨ptr, 8, 4, 4, 1, 1, 0⟩, [], 0⟩

theorem sixteenBytes_proper {ptr : ℕ} (h : ptr + 16 ≤ 2 ^ 32) : ProperBlock (sixteenBytes ptr) := by
  unfold sixteenBytes
  refine ⟨?_, ?_⟩
  · simp only
    omega
  · simp only
    omega

/-- A block that starts in the middle of another one replaces it. -/
theorem allocmap_overlap : AllCalls .spine (CallGood .spine) Tree.leaf
    [.insert (sixteenBytes 256), .insert (sixteenBytes 264), .pull 270] := by
  refine (allocmap_iff .spine _ ?_).2 ⟨?_, ?_, ?_, trivial⟩
  · intro c hc
    simp only [mem_cons, not_mem_nil, or_false] at hc
    rcases hc with rfl | rfl | rfl
    · exact sixteenBytes_proper (by decide)
    · exact sixteenBytes_proper (by decide)
    · exact searchedBlock_proper (by decide) (by decide)
  · intro desc _ e he
    exact absurd he not_mem_nil
  · rintro desc - e he e' he' - -
    obtain rfl := mem_singleton.1 he
    exact (mem_singleton.1 he').symm
  · rintro desc hdesc
    exact absurd hdesc (by simp)

/-- A block that covers the end of one entry and the start of the next is lost. -/
theorem allocmap_fail : ¬ AllCalls .spine (CallGood .spine) Tree.leaf
    [.insert (sixteenBytes 256), .insert (sixteenBytes 272), .insert (sixteenBytes 264)] := by
  rintro ⟨-, -, ⟨-, hgood⟩, -⟩
  have hfound := (hgood _ rfl).found (by decide) 264 (by decide)
  exact absurd hfound (by decide)

end Emulator.Memcheck
