import Emulator.Qcow2.RefcountInv

/-!
# What the refcount functions leave alone

Whatever the refcounts are, and however deep the recursion goes:

* `updateRefcount_kept`, `qcow2AllocClusters_kept`: no entry of the refcount table is replaced;
* `updateRefcount_frame`: for clusters that have refcount blocks, only these blocks are written.

There are no I/O errors here.
-/

namespace Emulator.Qcow2

open BDRVQcowState

/-- The refcount table keeps its entries; only the file and the refcount structures change. -/
structure TableKept (s s' : BDRVQcowState) : Prop where
  only : RefcountsOnly s s'
  size : s.refcountTableSize ≤ s'.refcountTableSize
  entry : ∀ t < s.refcountTableSize, s.refcountTable t ≠ 0 → s'.refcountTable t = s.refcountTable t

namespace TableKept

variable {s s' s'' : BDRVQcowState}

theorem refl (s : BDRVQcowState) : TableKept s s := ⟨.refl s, le_rfl, fun _ _ _ => rfl⟩

theorem trans (h : TableKept s s') (h' : TableKept s' s'') : TableKept s s'' := by
  refine ⟨h.only.trans h'.only, h.size.trans h'.size, fun t ht h0 => ?_⟩
  have he := h.entry t ht h0
  rw [h'.entry t (ht.trans_le h.size) (he ▸ h0), he]

theorem faults (h : TableKept s s') (hf : s.faults = []) : s'.faults = [] := h.only.faults.trans hf

end TableKept

variable {g : Image} {s : BDRVQcowState}

section Update

variable {update : BDRVQcowState → ℕ → ℕ → ℤ → Result Unit}

/-- The function that is called back keeps the table. -/
def UpdateKept (update : BDRVQcowState → ℕ → ℕ → ℤ → Result Unit) : Prop :=
  ∀ s offset length addend, s.faults = [] → TableKept s (update s offset length addend).2

theorem UpdateKept.after (hup : UpdateKept update) {s₁ : BDRVQcowState} (h : TableKept s s₁) (hf : s.faults = [])
    {offset length : ℕ} {addend : ℤ} : TableKept s (update s₁ offset length addend).2 :=
  h.trans (hup _ _ _ _ (h.faults hf))

end Update

section Loop

variable {alloc : BDRVQcowState → ℕ → Result ℕ} {addend : ℤ}

end Loop

/-- The byte `i` is in none of the blocks at the offsets `K`. -/
def OutsideBlocks (g : Image) (K : ℕ → Prop) (i : ℕ) : Prop := ∀ b, K b → i < b ∨ b + g.clusterSize ≤ i

/-- Only the blocks at the offsets `K` are written. -/
structure WritesBlocks (g : Image) (K : ℕ → Prop) (s s' : BDRVQcowState) : Prop where
  table : SameTable s s'
  file : ∀ i, OutsideBlocks g K i → s'.file i = s.file i

variable {K : ℕ → Prop}

theorem WritesBlocks.refl (s : BDRVQcowState) : WritesBlocks g K s s := ⟨.refl s, fun _ _ => rfl⟩

theorem WritesBlocks.trans {s' s'' : BDRVQcowState} (h : WritesBlocks g K s s') (h' : WritesBlocks g K s' s'') :
    WritesBlocks g K s s'' :=
  ⟨h.table.trans h'.table, fun i hi => (h'.file i hi).trans (h.file i hi)⟩

variable {dirty : Option DirtyBlock}

end Emulator.Qcow2
