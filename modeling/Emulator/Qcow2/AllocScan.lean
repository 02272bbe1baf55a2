import Emulator.Qcow2.SnapshotWrite

/-!
# The scan for free clusters

The loop of `alloc_clusters_noref` jumps back to its label behind a cluster that is in use. The `i` inside the loop is
the cluster and not the count, so that `allocScan` has the count and `freeClusterIndex` apart.

The refcount block cache is arbitrary here. `Scanned` says that it is the old one still, or a block as it is in the
file; each cluster is then seen in one of the two (`SeenFree`).

* `Scanned.next`: what one round does;
* `allocScan_run`: the loop ends, behind clusters in a row that were all seen free;
* `allocClustersNoref_scan`: **the clusters that `alloc_clusters_noref` returns are free**, and no refcount changes.
-/

namespace Emulator.Qcow2

open BDRVQcowState

variable {g : Image} {s t : BDRVQcowState}

/-- The refcount block in the cache, if there is one, is as it is in the file. -/
def CacheCoherent (g : Image) (s : BDRVQcowState) : Prop :=
  s.refcountBlockCacheOffset ≠ 0 →
    ∀ i < g.clusterSize, s.refcountBlockCache i = s.file (s.refcountBlockCacheOffset + i)

theorem getRefcount_setFree (hf : s.faults = []) (i c : ℕ) :
    getRefcount g (setFree s i) c = ((getRefcount g s c).1, setFree (getRefcount g s c).2 i) := by
  have hread := bdrvPread_ok hf
  have hread' := bdrvPread_ok (s := setFree s i) hf
  unfold getRefcount loadRefcountBlock
  simp only [hread, hread']
  unfold setFree
  split_ifs <;> rfl

/-- A read leaves the cache as it is, or it loads a block. -/
theorem getRefcount_snd (hf : s.faults = []) (c : ℕ) : (getRefcount g s c).2 = s ∨
    ∃ buf offset, (getRefcount g s c).2 = recache s buf offset ∧ CacheCoherent g (recache s buf offset) := by
  unfold getRefcount loadRefcountBlock
  simp only [bdrvPread_ok hf, if_true]
  split_ifs
  · exact Or.inl rfl
  · exact Or.inl rfl
  · exact Or.inr ⟨_, _, rfl, fun _ _ _ => rfl⟩
  · exact Or.inl rfl

/-- What is read is the refcount in the file when the cache is coherent. -/
theorem getRefcount_fst (hf : s.faults = []) (hc : CacheCoherent g s) (c : ℕ) :
    (getRefcount g s c).1 = storedRefcount g s c := by
  unfold getRefcount storedRefcount refcountIn loadRefcountBlock
  simp only [bdrvPread_ok hf, if_true]
  have hlt := entry_lt (g := g) c
  split_ifs with h1 h2 h3
  · rfl
  · rfl
  · rw [beRead_from]
  · rw [ne_eq, not_not] at h3
    refine beRead_congr fun i hi => ?_
    rw [h3, hc (h3 ▸ h2) _ (by omega), Nat.add_assoc]

/-- Behind the refcount table every cluster is free. -/
theorem lt_of_getRefcount {c : ℕ} (h : (getRefcount g s c).1 ≠ 0) :
    c < s.refcountTableSize * g.blockEntries := by
  by_contra hge
  refine h ?_
  have hdiv : s.refcountTableSize ≤ c / g.blockEntries :=
    (Nat.le_div_iff_mul_le g.blockEntries_pos).2 (by omega)
  unfold getRefcount
  rw [if_pos hdiv]

/-- `t` is `s` after some rounds: only the index and the cache changed, and a cache that changed is coherent. -/
structure Scanned (g : Image) (s t : BDRVQcowState) : Prop where
  same : ∃ buf offset, t = setFree (recache s buf offset) t.freeClusterIndex
  cache : t = setFree s t.freeClusterIndex ∨ CacheCoherent g t

/-- The cluster `c` is free by the cache as it was, or in the file. -/
def SeenFree (g : Image) (s : BDRVQcowState) (c : ℕ) : Prop :=
  (getRefcount g s c).1 = 0 ∨ storedRefcount g s c = 0

theorem Scanned.refl (s : BDRVQcowState) : Scanned g s s :=
  ⟨⟨s.refcountBlockCache, s.refcountBlockCacheOffset, rfl⟩, Or.inl rfl⟩

theorem Scanned.faults (h : Scanned g s t) : t.faults = s.faults := by
  obtain ⟨buf, offset, ht⟩ := h.same
  rw [ht]
  rfl

theorem Scanned.size (h : Scanned g s t) : t.refcountTableSize = s.refcountTableSize := by
  obtain ⟨buf, offset, ht⟩ := h.same
  rw [ht]
  rfl

/-- No refcount in the file changes. -/
theorem Scanned.stored (h : Scanned g s t) (c : ℕ) : storedRefcount g t c = storedRefcount g s c := by
  obtain ⟨buf, offset, ht⟩ := h.same
  rw [ht]
  rfl

theorem Scanned.seen (hf : s.faults = []) (h : Scanned g s t) {c : ℕ} (h0 : (getRefcount g t c).1 = 0) :
    SeenFree g s c := by
  rcases h.cache with ht | hc
  · left
    rw [ht, getRefcount_setFree hf] at h0
    exact h0
  · right
    rw [← h.stored, ← getRefcount_fst (h.faults.trans hf) hc]
    exact h0

theorem Scanned.setFree (h : Scanned g s t) (i : ℕ) : Scanned g s (setFree t i) := by
  obtain ⟨buf, offset, ht⟩ := h.same
  refine ⟨⟨buf, offset, ?_⟩, ?_⟩
  · rw [ht]
    rfl
  · rcases h.cache with hs | hc
    · left
      rw [hs]
      rfl
    · exact Or.inr hc

theorem Scanned.next (hf : s.faults = []) (h : Scanned g s t) (c : ℕ) :
    Scanned g s (getRefcount g t c).2 ∧ (getRefcount g t c).2.freeClusterIndex = t.freeClusterIndex := by
  rcases getRefcount_snd (g := g) (h.faults.trans hf) c with ht | ⟨buf, offset, ht, hc⟩
  · rw [ht]
    exact ⟨h, rfl⟩
  · rw [ht]
    refine ⟨⟨⟨buf, offset, ?_⟩, Or.inr hc⟩, rfl⟩
    obtain ⟨buf', offset', hs⟩ := h.same
    rw [hs]
    rfl

/-- A coherent cache stays coherent. -/
theorem Scanned.coherent (h : Scanned g s t) (hc : CacheCoherent g s) : CacheCoherent g t := by
  rcases h.cache with ht | ht
  · rw [ht]
    exact hc
  · exact ht

theorem allocScan_done {nb k : ℕ} (hnk : nb ≤ k) (fuel : ℕ) : allocScan g nb fuel k t = t := by
  cases fuel with
  | zero => rfl
  | succ fuel => exact if_pos hnk

/-- **One round** looks at the cluster at the index, and the index moves on. -/
theorem allocScan_round (hf : s.faults = []) (h : Scanned g s t) : ∃ refcount u,
    (∀ nb k fuel, k < nb → allocScan g nb (fuel + 1) k t =
      if refcount ≠ 0 then allocScan g nb fuel 0 u else allocScan g nb fuel (k + 1) u) ∧
    Scanned g s u ∧ u.freeClusterIndex = t.freeClusterIndex + 1 ∧
    (refcount ≠ 0 → t.freeClusterIndex < s.refcountTableSize * g.blockEntries) ∧
    (refcount = 0 → SeenFree g s t.freeClusterIndex) := by
  have hmoved := h.setFree (t.freeClusterIndex + 1)
  obtain ⟨hnext, hindex⟩ := hmoved.next hf t.freeClusterIndex
  refine ⟨_, _, fun nb k fuel hk => ?_, hnext, hindex, fun h0 => ?_, hmoved.seen hf⟩
  · rw [allocScan, if_neg (Nat.not_le.2 hk)]
    rfl
  · rw [← hmoved.size]
    exact lt_of_getRefcount h0

/-- **The loop ends, whatever the number of rounds that it may take beyond `n`**, behind clusters in a row that it has
seen free. -/
theorem allocScan_run (hf : s.faults = []) (nb n : ℕ) {k : ℕ} (h : Scanned g s t) (hn : scanRounds g t nb k ≤ n)
    (hk : k ≤ nb) (hkt : k ≤ t.freeClusterIndex)
    (hfree : ∀ c, t.freeClusterIndex - k ≤ c → c < t.freeClusterIndex → SeenFree g s c) :
    ∃ a t', (∀ fuel, n ≤ fuel → allocScan g nb fuel k t = t') ∧ Scanned g s t' ∧ t'.freeClusterIndex = a + nb ∧
      t.freeClusterIndex ≤ a + k ∧ a + k ≤ max t.freeClusterIndex (s.refcountTableSize * g.blockEntries + k) ∧
      ∀ c, a ≤ c → c < a + nb → SeenFree g s c := by
  induction n generalizing t k with
  | zero =>
    -- no round is left, so that the loop condition is false
    have hnk : k = nb := by
      unfold scanRounds at hn
      split_ifs at hn <;> omega
    exact ⟨t.freeClusterIndex - k, t, fun fuel _ => allocScan_done hnk.ge fuel, h, by omega, by omega, by omega,
      fun c h₁ h₂ => hfree c h₁ (by omega)⟩
  | succ n ih =>
    by_cases hnk : nb ≤ k
    · exact ⟨t.freeClusterIndex - k, t, fun fuel _ => allocScan_done hnk fuel, h, by omega, by omega, by omega,
        fun c h₁ h₂ => hfree c h₁ (by omega)⟩
    · obtain ⟨refcount, u, hround, hu, hindex, hused, hseen⟩ := allocScan_round hf h
      have hsize := h.size
      have hsize' := hu.size
      by_cases h0 : refcount = 0
      · have hrounds : scanRounds g u nb (k + 1) ≤ n := by
          unfold scanRounds at hn ⊢
          rw [hindex, hsize']
          rw [hsize] at hn
          split_ifs at hn ⊢ <;> omega
        have hfree' : ∀ c, u.freeClusterIndex - (k + 1) ≤ c → c < u.freeClusterIndex → SeenFree g s c := by
          intro c h₁ h₂
          rw [hindex] at h₁ h₂
          rcases Nat.lt_or_eq_of_le (Nat.le_of_lt_succ h₂) with hc | hc
          · exact hfree c (by omega) hc
          · exact hc ▸ hseen h0
        obtain ⟨a, t', hrun, hs, hend, hle, hmax, hall⟩ := ih hu hrounds (by omega) (by omega) hfree'
        refine ⟨a, t', fun fuel hfuel => ?_, hs, hend, by omega, by omega, hall⟩
        obtain ⟨m, rfl⟩ := Nat.exists_eq_add_of_le' (Nat.one_le_of_lt hfuel)
        rw [hround nb k m (by omega), if_neg (not_not.2 h0)]
        exact hrun m (by omega)
      · -- in use: the count starts again, and the index is one further on
        have hlt := hused h0
        have hrounds : scanRounds g u nb 0 ≤ n := by
          unfold scanRounds at hn ⊢
          rw [hindex, hsize']
          rw [hsize] at hn
          split_ifs at hn ⊢ <;> omega
        obtain ⟨a, t', hrun, hs, hend, hle, hmax, hall⟩ := ih hu hrounds (Nat.zero_le _) (Nat.zero_le _)
          fun c h₁ h₂ => absurd h₂ (by omega)
        refine ⟨a, t', fun fuel hfuel => ?_, hs, hend, by omega, by omega, hall⟩
        obtain ⟨m, rfl⟩ := Nat.exists_eq_add_of_le' (Nat.one_le_of_lt hfuel)
        rw [hround nb k m (by omega), if_pos h0]
        exact hrun m (by omega)

/-- **`alloc_clusters_noref` ends, at clusters in a row that are all free**, the first of them not in front of the old
index and the index then behind them; no refcount changes. The source counts the clusters in an `int`, which holds
`size_to_clusters(size)` below 2^31. -/
theorem allocClustersNoref_scan (g : Image) (s : BDRVQcowState) (size : ℕ) (hf : s.faults = []) :
    ∃ a s', allocClustersNoref g s size = (a * g.clusterSize, s') ∧
      (∀ fuel, scanRounds g s (g.sizeToClusters size) 0 ≤ fuel → allocScan g (g.sizeToClusters size) fuel 0 s = s') ∧
      s.freeClusterIndex ≤ a ∧ a ≤ max s.freeClusterIndex (s.refcountTableSize * g.blockEntries) ∧
      s'.freeClusterIndex = a + g.sizeToClusters size ∧
      (∀ c, a ≤ c → c < a + g.sizeToClusters size → SeenFree g s c) ∧
      (∀ c, storedRefcount g s' c = storedRefcount g s c) ∧
      (CacheCoherent g s → (∀ c, a ≤ c → c < a + g.sizeToClusters size → (getRefcount g s c).1 = 0) ∧
        ∀ c, (getRefcount g s' c).1 = (getRefcount g s c).1) := by
  obtain ⟨a, s', hrun, hs, hend, hle, hmax, hall⟩ := allocScan_run hf (g.sizeToClusters size) _ (Scanned.refl s) le_rfl
    (Nat.zero_le _) (Nat.zero_le _) (fun c h₁ h₂ => absurd h₂ (by omega))
  have hrounds : scanRounds g s (g.sizeToClusters size) 0 ≤
      s.refcountTableSize * g.blockEntries + g.sizeToClusters size + 1 := by
    unfold scanRounds
    split_ifs <;> omega
  refine ⟨a, s', ?_, hrun, hle, hmax, hend, hall, hs.stored, fun hc => ⟨fun c h₁ h₂ => ?_, fun c => ?_⟩⟩
  · unfold allocClustersNoref
    simp only [hrun _ hrounds, hend, Nat.add_sub_cancel]
  · rw [getRefcount_fst hf hc]
    exact (hall c h₁ h₂).elim (fun h0 => getRefcount_fst hf hc c ▸ h0) id
  · rw [getRefcount_fst hf hc, getRefcount_fst (hs.faults.trans hf) (hs.coherent hc), hs.stored]

/-- Two clusters behind the four that are in use. -/
theorem allocClustersNoref_scan_four : ∃ a ≥ 4, (allocClustersNoref smallImage (fourClusterState []) 1024).1 = a * 512 ∧
    ∀ c, a ≤ c → c < a + 2 → (getRefcount smallImage (fourClusterState []) c).1 = 0 := by
  have hc : CacheCoherent smallImage (fourClusterState []) := fun h => absurd rfl h
  obtain ⟨a, s', hret, -, -, -, -, -, -, hfree⟩ := allocClustersNoref_scan smallImage (fourClusterState []) 1024 rfl
  refine ⟨a, ?_, congrArg Prod.fst hret, (hfree hc).1⟩
  by_contra hlt
  have hzero := (hfree hc).1 a le_rfl (Nat.lt_add_of_pos_right (by decide))
  rw [getRefcount_fst rfl hc] at hzero
  have hone : storedRefcount smallImage (fourClusterState []) a = 1 := (fourClusters_count a).trans (if_pos (by omega))
  rw [hone] at hzero
  exact absurd hzero one_ne_zero

end Emulator.Qcow2
