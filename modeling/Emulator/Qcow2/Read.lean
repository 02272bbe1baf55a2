import Emulator.Qcow2.L2Cache

/-!
# Reading clusters

`qcow2_get_cluster_offset` cuts a request at the first sector that is not found where the
sectors before it lead to expect.

* `countContiguousClusters_spec`, `countContiguousFreeClusters_spec`: the entries that are
  counted lie in the file one after the other, or are all free.
* `inflated_same`: two entries for the same compressed data inflate to the same bytes.
-/

namespace Emulator.Qcow2

open BDRVQcowState

variable {g : Image} {s s' : BDRVQcowState}

theorem l1Span_eq : g.l1Span = g.clusterSize * g.l2Size := by
  unfold Image.l1Span Image.clusterSize Image.l2Size
  rw [← pow_add, Nat.add_comm]

theorem sector_cluster (n : ℕ) : n * 512 / g.clusterSize = n / g.clusterSectors := by
  rw [g.clusterSize_eq, Nat.mul_comm, Nat.mul_div_mul_left _ _ (by omega)]

theorem sector_l1 (n : ℕ) : n * 512 / g.l1Span = n / g.clusterSectors / g.l2Size := by
  rw [l1Span_eq, ← Nat.div_div_eq_div_mul, sector_cluster]

/-- The sectors from the start of the cluster to the end of the L2 table. -/
theorem sectors_to_table_end (n : ℕ) : (g.l1Span - n * 512 % g.l1Span) / 512 + n % g.clusterSectors =
    (g.l2Size - n / g.clusterSectors % g.l2Size) * g.clusterSectors := by
  have hspan : g.l1Span = 512 * (g.clusterSectors * g.l2Size) := by
    rw [l1Span_eq, g.clusterSize_eq, Nat.mul_assoc]
  have h1 := Nat.mod_lt n g.clusterSectors_pos
  have h2 := Nat.mod_lt (n / g.clusterSectors) g.l2Size_pos
  have h3 : (n / g.clusterSectors % g.l2Size + 1) * g.clusterSectors ≤ g.l2Size * g.clusterSectors :=
    Nat.mul_le_mul_right _ h2
  rw [hspan, Nat.mul_comm n 512, Nat.mul_mod_mul_left, ← Nat.mul_sub, Nat.mul_div_cancel_left _ (by omega),
    Nat.mod_mul, Nat.sub_mul, Nat.mul_comm g.clusterSectors g.l2Size,
    Nat.mul_comm g.clusterSectors (n / g.clusterSectors % g.l2Size)]
  rw [Nat.add_mul, Nat.one_mul] at h3
  omega

theorem sector_add_div (n t : ℕ) :
    (n + t) / g.clusterSectors = n / g.clusterSectors + (n % g.clusterSectors + t) / g.clusterSectors := by
  conv_lhs => rw [← Nat.div_add_mod n g.clusterSectors, Nat.add_assoc]
  rw [Nat.mul_add_div g.clusterSectors_pos]

theorem sizeToClusters_sectors (n : ℕ) {m : ℕ} (h : n ≤ m * g.clusterSectors) : g.sizeToClusters (n * 512) ≤ m := by
  unfold Image.sizeToClusters
  have h1 := g.clusterSize_eq
  have h2 := g.clusterSize_pos
  rw [← Nat.lt_succ_iff, Nat.div_lt_iff_lt_mul h2, Nat.succ_mul, h1]
  have : m * (512 * g.clusterSectors) = m * g.clusterSectors * 512 := by ring
  omega

theorem contiguousFrom_spec (e : ℕ → ℕ) (offset nb i : ℕ) : contiguousFrom g e offset nb i ≤ nb ∧
    ∀ j < contiguousFrom g e offset nb i, e (i + j) = offset + (i + j) * g.clusterSize := by
  induction nb generalizing i with
  | zero => exact ⟨le_rfl, fun j hj => absurd hj (Nat.not_lt_zero j)⟩
  | succ nb ih =>
    unfold contiguousFrom
    split_ifs with he
    · exact ⟨Nat.zero_le _, fun j hj => absurd hj (Nat.not_lt_zero j)⟩
    · obtain ⟨h1, h2⟩ := ih (i + 1)
      refine ⟨by omega, fun j hj => ?_⟩
      rcases j with _ | j
      · exact (not_not.1 he).symm
      · rw [show i + (j + 1) = i + 1 + j by omega]
        exact h2 j (by omega)

theorem countContiguousClusters_spec {e : ℕ → ℕ} {nb : ℕ} (hnb : 0 < nb) (h0 : e 0 ≠ 0) :
    0 < countContiguousClusters g nb e 0 ∧ countContiguousClusters g nb e 0 ≤ nb ∧
      ∀ j < countContiguousClusters g nb e 0, e j = e 0 + j * g.clusterSize := by
  unfold countContiguousClusters
  rw [if_neg h0]
  obtain ⟨h1, h2⟩ := contiguousFrom_spec (g := g) e (e 0) nb 0
  refine ⟨?_, h1, fun j hj => by simpa using h2 j hj⟩
  obtain ⟨nb, rfl⟩ : ∃ m, nb = m + 1 := ⟨nb - 1, by omega⟩
  unfold contiguousFrom
  rw [if_neg (by omega)]
  exact Nat.succ_pos _

theorem countContiguousFreeClusters_spec {e : ℕ → ℕ} (nb i : ℕ) : countContiguousFreeClusters e nb i ≤ nb ∧
    ∀ j < countContiguousFreeClusters e nb i, e (i + j) = 0 := by
  induction nb generalizing i with
  | zero => exact ⟨le_rfl, fun j hj => absurd hj (Nat.not_lt_zero j)⟩
  | succ nb ih =>
    unfold countContiguousFreeClusters
    split_ifs with he
    · obtain ⟨h1, h2⟩ := ih (i + 1)
      refine ⟨by omega, fun j hj => ?_⟩
      rcases j with _ | j
      · exact he
      · rw [show i + (j + 1) = i + 1 + j by omega]
        exact h2 j (by omega)
    · exact ⟨Nat.zero_le _, fun j hj => absurd hj (Nat.not_lt_zero j)⟩

theorem countContiguousFreeClusters_pos {e : ℕ → ℕ} {nb i : ℕ} (hnb : 0 < nb) (h0 : e i = 0) :
    0 < countContiguousFreeClusters e nb i := by
  obtain ⟨nb, rfl⟩ : ∃ m, nb = m + 1 := ⟨nb - 1, by omega⟩
  unfold countContiguousFreeClusters
  rw [if_pos h0]
  exact Nat.succ_pos _

theorem table_entry_lt {k i : ℕ} (hk : k < s.l1Size * g.l2Size) (hi : k % g.l2Size + i < g.l2Size) :
    k + i < s.l1Size * g.l2Size ∧ (k + i) / g.l2Size = k / g.l2Size := by
  have h1 := Nat.div_add_mod k g.l2Size
  have h2 : (k + i) / g.l2Size = k / g.l2Size := by
    rw [← h1, Nat.add_assoc, Nat.mul_add_div g.l2Size_pos, Nat.div_eq_of_lt hi, Nat.mul_add_div g.l2Size_pos,
      Nat.div_eq_of_lt (Nat.mod_lt _ g.l2Size_pos)]
  refine ⟨?_, h2⟩
  have h3 := entry_index_lt hk
  rw [← h2, Nat.div_lt_iff_lt_mul g.l2Size_pos] at h3
  exact h3

/-- What `decompress_buffer` makes of the compressed cluster that the entry `v` refers to. -/
def inflated (g : Image) (file : Bytes) (v : ℕ) : Bool × Bytes :=
  g.inflate (file.from (maskedOffset g v)) (nbCsectors g v * 512 - maskedOffset g v % 512)

/-- Two entries for the same compressed data inflate to the same bytes. -/
theorem inflated_same {file : Bytes} {v w : ℕ} (hv : (inflated g file v).1 = true)
    (hw : (inflated g file w).1 = true) (h : maskedOffset g v = maskedOffset g w) :
    inflated g file v = inflated g file w := by
  unfold inflated at hv hw ⊢
  rw [h] at hv ⊢
  exact g.inflate_agrees hw hv

/-- `s'` differs from `s` in the L2 cache and in `cluster_cache` only. -/
def ReadOnly (s s' : BDRVQcowState) : Prop :=
  s' = { s with
    l2Cache := s'.l2Cache
    l2CacheOffsets := s'.l2CacheOffsets
    l2CacheCounts := s'.l2CacheCounts
    clusterCache := s'.clusterCache
    clusterCacheOffset := s'.clusterCacheOffset }

theorem ReadOnly.refl (s : BDRVQcowState) : ReadOnly s s := rfl

theorem ReadOnly.trans {s'' : BDRVQcowState} (h : ReadOnly s s') (h' : ReadOnly s' s'') : ReadOnly s s'' := by
  unfold ReadOnly at h
  unfold ReadOnly at h' ⊢
  rw [h'] at *
  rw [h]

theorem CacheOnly.readOnly (h : CacheOnly s s') : ReadOnly s s' := by
  unfold CacheOnly at h
  unfold ReadOnly
  rw [h]

theorem ReadOnly.file (h : ReadOnly s s') : s'.file = s.file := by rw [h]

theorem ReadOnly.l1Size (h : ReadOnly s s') : s'.l1Size = s.l1Size := by rw [h]

theorem ReadOnly.l1Table (h : ReadOnly s s') : s'.l1Table = s.l1Table := by rw [h]

theorem entry_of_file (hf : s'.file = s.file) (ht : s'.l1Table = s.l1Table) : entry g s' = entry g s := by
  funext k
  unfold entry
  rw [hf, ht]

end Emulator.Qcow2
