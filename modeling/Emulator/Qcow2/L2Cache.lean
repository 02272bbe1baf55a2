import Emulator.Qcow2.Cluster
import Emulator.Qcow2.RefcountInv

/-!
# The L2 cache

`entry` is the L2 entry of a guest cluster as the file has it.

* `seekL2Table_some`: a table that is found is in the slot that is returned;
* `seekL2Table_none`: else it is in no slot.
-/

namespace Emulator.Qcow2

open BDRVQcowState List

variable (g : Image)

/-- The L2 entry of the guest cluster `k`, `0` if it has no L2 table. -/
def entry (s : BDRVQcowState) (k : ℕ) : ℕ :=
  if s.l1Table (k / g.l2Size) = 0 then 0
  else beRead s.file (clearCopied (s.l1Table (k / g.l2Size)) + 8 * (k % g.l2Size)) 8

variable {g} {s : BDRVQcowState}

theorem isCompressed_clearCopied (v : ℕ) : IsCompressed (clearCopied v) ↔ IsCompressed v := by
  unfold IsCompressed clearCopied
  omega

theorem entry_index_lt {k : ℕ} (hk : k < s.l1Size * g.l2Size) : k / g.l2Size < s.l1Size :=
  (Nat.div_lt_iff_lt_mul g.l2Size_pos).2 hk

/-- `s'` differs from `s` in the L2 cache only. -/
def CacheOnly (s s' : BDRVQcowState) : Prop :=
  s' = { s with
    l2Cache := s'.l2Cache
    l2CacheOffsets := s'.l2CacheOffsets
    l2CacheCounts := s'.l2CacheCounts }

theorem CacheOnly.refl (s : BDRVQcowState) : CacheOnly s s := rfl

variable {s' : BDRVQcowState}

theorem CacheOnly.file (h : CacheOnly s s') : s'.file = s.file := by rw [h]

theorem CacheOnly.entry {s' : BDRVQcowState} (h : CacheOnly s s') : entry g s' = entry g s := by
  rw [h]
  rfl

theorem l2CacheNewEntry_lt (s : BDRVQcowState) : l2CacheNewEntry s < l2CacheSize := by
  have hfold : ∀ (l : List ℕ) (m : ℕ × ℕ), (∀ i ∈ l, i < l2CacheSize) → m.1 < l2CacheSize →
      (l.foldl (fun (m : ℕ × ℕ) i => if s.l2CacheCounts i < m.2 then (i, s.l2CacheCounts i) else m) m).1 <
        l2CacheSize := by
    intro l
    induction l with
    | nil => exact fun m _ hm => hm
    | cons a l ih =>
      intro m hl hm
      rw [foldl_cons]
      refine ih _ (fun i hi => hl i (mem_cons_of_mem _ hi)) ?_
      split_ifs
      · exact hl a mem_cons_self
      · exact hm
  exact hfold _ _ (fun i hi => mem_range.1 hi) (by decide)

theorem seekL2Table_some {l2Offset slot : ℕ} (h : seekL2Table s l2Offset = (some slot, s')) :
    slot < l2CacheSize ∧ s.l2CacheOffsets slot = l2Offset ∧ ∃ counts, s' = { s with l2CacheCounts := counts } := by
  unfold seekL2Table at h
  split at h
  · cases h
  · rename_i i hi
    obtain ⟨rfl, rfl⟩ := Prod.mk.inj h |>.imp Option.some.inj id
    have h1 := List.find?_some hi
    exact ⟨mem_range.1 (mem_of_find?_eq_some hi), (of_decide_eq_true h1).symm, _, rfl⟩

theorem seekL2Table_none {l2Offset : ℕ} (h : seekL2Table s l2Offset = (none, s')) :
    s' = s ∧ ∀ i < l2CacheSize, s.l2CacheOffsets i ≠ l2Offset := by
  unfold seekL2Table at h
  split at h
  · rename_i hi
    refine ⟨(Prod.mk.inj h).2.symm, fun i hlt heq => ?_⟩
    have := List.find?_eq_none.1 hi i (mem_range.2 hlt)
    exact this (decide_eq_true heq.symm)
  · cases h

theorem claimSlot_self (s : BDRVQcowState) (slot l2Offset : ℕ) :
    (claimSlot s slot l2Offset).l2CacheOffsets slot = l2Offset :=
  Function.update_self _ _ _

end Emulator.Qcow2
