import Emulator.Qcow2.RefcountTable

/-!
# The loop of `update_refcount`

The refcount block cache is written back only when the loop moves on to another block, so
the file lags behind. `flushed` is the file with the cache written back; a round of the
loop sets one refcount in it.

* `getRefcount_ok`, `allocClustersNoref_ok`: reading refcounts only touches the cache;
* `updateClusters_ok`: the loop over clusters whose refcount blocks exist.
-/

namespace Emulator.Qcow2

open BDRVQcowState

variable (g : Image)

/-- The refcount of `c` in the file. -/
def storedRefcount (s : BDRVQcowState) (c : ℕ) : ℕ :=
  refcountIn g s.file s.refcountTable s.refcountTableSize c

/-- The refcount block cache holds a block of the table as it is in the file. -/
structure CacheOk (s : BDRVQcowState) : Prop where
  block : s.refcountBlockCacheOffset ≠ 0 →
    ∃ t < s.refcountTableSize, s.refcountTable t = s.refcountBlockCacheOffset
  coherent : s.refcountBlockCacheOffset ≠ 0 →
    ∀ i < g.clusterSize, s.refcountBlockCache i = s.file (s.refcountBlockCacheOffset + i)

/-- The cache holds the block `d`, changed in its dirty entries. -/
structure DirtyOk (s : BDRVQcowState) (d : DirtyBlock) : Prop where
  index : d.tableIndex < s.refcountTableSize
  table : s.refcountTable d.tableIndex = d.blockOffset
  ne_zero : d.blockOffset ≠ 0
  cached : s.refcountBlockCacheOffset = d.blockOffset
  le : d.firstIndex ≤ d.lastIndex
  lt : d.lastIndex < g.blockEntries
  clean : ∀ i < g.clusterSize, i / 2 < d.firstIndex ∨ d.lastIndex < i / 2 →
    s.refcountBlockCache i = s.file (d.blockOffset + i)

/-- The invariant of the loop. -/
def LoopOk (s : BDRVQcowState) : Option DirtyBlock → Prop
  | none => CacheOk g s
  | some d => DirtyOk g s d

/-- The file once the dirty block is written. -/
def flushed (s : BDRVQcowState) : Option DirtyBlock → Bytes
  | none => s.file
  | some d => s.file.write d.blockOffset g.clusterSize s.refcountBlockCache

/-- `s` with another refcount block in the cache. -/
def recache (s : BDRVQcowState) (buf : Bytes) (offset : ℕ) : BDRVQcowState :=
  { s with refcountBlockCache := buf, refcountBlockCacheOffset := offset }

variable {g} {s : BDRVQcowState} {dirty : Option DirtyBlock}

theorem cacheOk_load {t : ℕ} (ht : t < s.refcountTableSize) :
    CacheOk g (recache s (s.file.from (s.refcountTable t)) (s.refcountTable t)) :=
  ⟨fun _ => ⟨t, ht, rfl⟩, fun _ _ _ => rfl⟩

theorem loadOrNew_ok (hf : s.faults = []) (hc : CacheOk g s) {t : ℕ} (ht : t < s.refcountTableSize)
    (h0 : s.refcountTable t ≠ 0) (update : BDRVQcowState → ℕ → ℕ → ℤ → Result Unit) :
    ∃ buf, loadOrNewRefcountBlock g update s t = (.ok (s.refcountTable t), recache s buf (s.refcountTable t)) ∧
      CacheOk g (recache s buf (s.refcountTable t)) := by
  unfold loadOrNewRefcountBlock loadRefcountBlock
  simp only [if_neg h0, bdrvPread_ok hf, if_true]
  split_ifs with h
  · exact ⟨_, rfl, cacheOk_load ht⟩
  · rw [ne_eq, not_not] at h
    refine ⟨s.refcountBlockCache, by rw [h]; rfl, ?_⟩
    rw [h]
    exact hc

theorem getRefcount_ok (hf : s.faults = []) (hc : CacheOk g s) (c : ℕ) :
    ∃ buf offset, getRefcount g s c = (storedRefcount g s c, recache s buf offset) ∧
      CacheOk g (recache s buf offset) := by
  have hkeep : recache s s.refcountBlockCache s.refcountBlockCacheOffset = s := rfl
  unfold getRefcount storedRefcount refcountIn loadRefcountBlock
  simp only [bdrvPread_ok hf, if_true]
  have hlt := entry_lt (g := g) c
  split_ifs with h1 h2 h3
  · exact ⟨_, _, by rw [hkeep], hkeep ▸ hc⟩
  · exact ⟨_, _, by rw [hkeep], hkeep ▸ hc⟩
  · refine ⟨_, _, ?_, cacheOk_load (Nat.lt_of_not_le h1)⟩
    rw [beRead_from]
    rfl
  · rw [ne_eq, not_not] at h3
    refine ⟨_, _, ?_, hkeep ▸ hc⟩
    rw [hkeep, h3]
    refine Prod.ext ?_ rfl
    refine beRead_congr fun i hi => ?_
    rw [hc.coherent (h3 ▸ h2) _ (by omega), Nat.add_assoc]

/-- `s` with another free cluster index. -/
def setFree (s : BDRVQcowState) (i : ℕ) : BDRVQcowState := { s with freeClusterIndex := i }

variable {c : ℕ}

theorem lt_of_storedRefcount (h : storedRefcount g s c ≠ 0) :
    c < s.refcountTableSize * g.blockEntries := by
  have hb := (hasBlock_of_refcountIn h).1
  exact (Nat.div_lt_iff_lt_mul g.blockEntries_pos).1 hb

/-- The rounds that the loop of `alloc_clusters_noref` may still need. -/
def scanRounds (g : Image) (s : BDRVQcowState) (nb k : ℕ) : ℕ :=
  if s.freeClusterIndex < s.refcountTableSize * g.blockEntries then
    s.refcountTableSize * g.blockEntries - s.freeClusterIndex + nb
  else nb - k

theorem allocScan_ok (nb fuel : ℕ) {k : ℕ} (hf : s.faults = []) (hc : CacheOk g s)
    (hfuel : scanRounds g s nb k ≤ fuel) (hk : k ≤ nb) (hkf : k ≤ s.freeClusterIndex)
    (hfree : ∀ c, s.freeClusterIndex - k ≤ c → c < s.freeClusterIndex → storedRefcount g s c = 0) :
    ∃ buf offset a, allocScan g nb fuel k s = setFree (recache s buf offset) (a + nb) ∧
      CacheOk g (recache s buf offset) ∧ s.freeClusterIndex ≤ a + k ∧
      (∀ c, a ≤ c → c < a + nb → storedRefcount g s c = 0) ∧
      ((∀ c, s.freeClusterIndex ≤ c → c < s.freeClusterIndex + (nb - k) → storedRefcount g s c = 0) →
        a + k = s.freeClusterIndex) := by
  induction fuel generalizing s k with
  | zero =>
    have hnb : nb = k := by
      unfold scanRounds at hfuel
      split_ifs at hfuel <;> omega
    subst hnb
    refine ⟨_, _, s.freeClusterIndex - nb, ?_, hc, by omega, fun c h1 h2 => hfree c h1 (by omega), fun _ => by omega⟩
    rw [Nat.sub_add_cancel hkf]
    rfl
  | succ fuel ih =>
    unfold allocScan
    split_ifs with hnk
    · have hnb : nb = k := le_antisymm hnk hk
      subst hnb
      refine ⟨_, _, s.freeClusterIndex - nb, ?_, hc, by omega, fun c h1 h2 => hfree c h1 (by omega),
        fun _ => by omega⟩
      rw [Nat.sub_add_cancel hkf]
      rfl
    · have hc1 : CacheOk g (setFree s (s.freeClusterIndex + 1)) := ⟨hc.block, hc.coherent⟩
      obtain ⟨buf, offset, hget, hc2⟩ := getRefcount_ok (s := setFree s (s.freeClusterIndex + 1)) hf hc1
        s.freeClusterIndex
      have hget' : getRefcount g { s with freeClusterIndex := s.freeClusterIndex + 1 } s.freeClusterIndex =
        (storedRefcount g s s.freeClusterIndex, recache (setFree s (s.freeClusterIndex + 1)) buf offset) := hget
      simp only [hget']
      split_ifs with h0
      · -- the cluster is in use: start again behind it
        have hlt := lt_of_storedRefcount h0
        obtain ⟨buf', offset', a, hscan, hc3, hle, hzero, -⟩ :=
          ih (s := recache (setFree s (s.freeClusterIndex + 1)) buf offset) (k := 0) hf hc2 (by
            unfold scanRounds recache setFree at *
            simp only at *
            split_ifs at * <;> omega) (Nat.zero_le _) (Nat.zero_le _) (fun c h1 h2 => absurd h1 (by omega))
        refine ⟨buf', offset', a, hscan, ⟨hc3.block, hc3.coherent⟩, ?_, hzero, fun hall => ?_⟩
        · have : s.freeClusterIndex + 1 ≤ a + 0 := hle
          omega
        · exact absurd (hall s.freeClusterIndex le_rfl (by omega)) h0
      · rw [ne_eq, not_not] at h0
        obtain ⟨buf', offset', a, hscan, hc3, hle, hzero, hhere⟩ :=
          ih (s := recache (setFree s (s.freeClusterIndex + 1)) buf offset) (k := k + 1) hf hc2 (by
            unfold scanRounds recache setFree at *
            simp only at *
            split_ifs at * <;> omega) (by omega) (by unfold recache setFree; simp only; omega) (by
            intro c h1 h2
            have h1' : s.freeClusterIndex + 1 - (k + 1) ≤ c := h1
            have h2' : c < s.freeClusterIndex + 1 := h2
            rcases Nat.lt_or_eq_of_le (Nat.le_of_lt_succ h2') with h | h
            · exact hfree c (by omega) h
            · rw [h]; exact h0)
        have hle' : s.freeClusterIndex + 1 ≤ a + (k + 1) := hle
        refine ⟨buf', offset', a, hscan, ⟨hc3.block, hc3.coherent⟩, by omega, hzero, fun hall => ?_⟩
        have hh : a + (k + 1) = s.freeClusterIndex + 1 := hhere fun c h1 h2 => by
          have h1' : s.freeClusterIndex + 1 ≤ c := h1
          have h2' : c < s.freeClusterIndex + 1 + (nb - (k + 1)) := h2
          exact hall c (by omega) (by omega)
        omega

/-- `alloc_clusters_noref` finds free clusters, the first ones it looks at when these are free. -/
theorem allocClustersNoref_ok (hf : s.faults = []) (hc : CacheOk g s) (size : ℕ) :
    ∃ buf offset a, allocClustersNoref g s size =
        (a * g.clusterSize, setFree (recache s buf offset) (a + g.sizeToClusters size)) ∧
      CacheOk g (recache s buf offset) ∧ s.freeClusterIndex ≤ a ∧
      (∀ c, a ≤ c → c < a + g.sizeToClusters size → storedRefcount g s c = 0) ∧
      ((∀ c, s.freeClusterIndex ≤ c → c < s.freeClusterIndex + g.sizeToClusters size →
        storedRefcount g s c = 0) → a = s.freeClusterIndex) := by
  obtain ⟨buf, offset, a, hscan, hc', hle, hzero, hhere⟩ := allocScan_ok (g.sizeToClusters size)
    (s.refcountTableSize * g.blockEntries + g.sizeToClusters size + 1) (k := 0) hf hc
    (by unfold scanRounds; split_ifs <;> omega) (Nat.zero_le _) (Nat.zero_le _)
    (fun c h1 h2 => absurd h1 (by omega))
  refine ⟨buf, offset, a, ?_, hc', hle, hzero, hhere⟩
  unfold allocClustersNoref
  simp only [hscan]
  rw [show (setFree (recache s buf offset) (a + g.sizeToClusters size)).freeClusterIndex - g.sizeToClusters size = a
    from Nat.add_sub_cancel a _]

/-- What the loop of `update_refcount` leaves alone. -/
def SameTable (s s' : BDRVQcowState) : Prop :=
  s' = { s with
    file := s'.file
    refcountBlockCache := s'.refcountBlockCache
    refcountBlockCacheOffset := s'.refcountBlockCacheOffset
    freeClusterIndex := s'.freeClusterIndex }

theorem SameTable.refl (s : BDRVQcowState) : SameTable s s := rfl

theorem SameTable.trans {s s' s'' : BDRVQcowState} (h : SameTable s s') (h' : SameTable s' s'') :
    SameTable s s'' := by
  unfold SameTable at h
  unfold SameTable at h' ⊢
  rw [h'] at *
  rw [h]

variable {s' : BDRVQcowState}

theorem SameTable.table (h : SameTable s s') : s'.refcountTable = s.refcountTable := by
  rw [h]

theorem SameTable.size (h : SameTable s s') : s'.refcountTableSize = s.refcountTableSize := by
  rw [h]

theorem SameTable.offset (h : SameTable s s') :
    s'.refcountTableOffset = s.refcountTableOffset := by
  rw [h]

theorem SameTable.faults (h : SameTable s s') : s'.faults = s.faults := by
  rw [h]

/-- Only whole sectors with dirty entries are written, and that writes the block. -/
theorem writeRefcountBlockEntries_ok (hf : s.faults = []) {d : DirtyBlock} (h : DirtyOk g s d) :
    writeRefcountBlockEntries s d.blockOffset d.firstIndex d.lastIndex =
      (true, { s with file := flushed g s (some d) }) := by
  unfold writeRefcountBlockEntries flushed
  rw [bdrvPwrite_ok hf]
  refine Prod.ext rfl ?_
  have hfile : s.file.write (d.blockOffset + 2 * (d.firstIndex / 256 * 256))
      (2 * ((d.lastIndex + 256) / 256 * 256 - d.firstIndex / 256 * 256))
      (s.refcountBlockCache.from (2 * (d.firstIndex / 256 * 256))) =
      s.file.write d.blockOffset g.clusterSize s.refcountBlockCache := by
    have hle := h.le
    have hlt := h.lt
    have hN := g.blockEntries_eq
    have hcs := g.clusterSize_eq
    -- the last sector written is still in the block
    have hend : (d.lastIndex + 256) / 256 * 256 ≤ g.blockEntries := by omega
    funext i
    by_cases hin : d.blockOffset + 2 * (d.firstIndex / 256 * 256) ≤ i ∧
        i < d.blockOffset + 2 * ((d.lastIndex + 256) / 256 * 256)
    · rw [Bytes.write_of_mem (by omega) (by omega), Bytes.write_of_mem (by omega) (by omega), Bytes.from_apply]
      congr 1
      omega
    · rw [Bytes.write_of_not_mem (by omega)]
      by_cases hblock : d.blockOffset ≤ i ∧ i < d.blockOffset + g.clusterSize
      · rw [Bytes.write_of_mem hblock.1 hblock.2, h.clean (i - d.blockOffset) (by omega) (by omega)]
        congr 1
        omega
      · rw [Bytes.write_of_not_mem (by omega)]
  simp only [hfile]

/-- Once it is written back, the block in the cache is the one in the file. -/
theorem DirtyOk.cacheOk {d : DirtyBlock} (h : DirtyOk g s d) :
    CacheOk g { s with file := flushed g s (some d) } := by
  refine ⟨fun _ => ⟨d.tableIndex, h.index, h.table.trans h.cached.symm⟩, fun _ i hi => ?_⟩
  show _ = flushed g s (some d) (s.refcountBlockCacheOffset + i)
  unfold flushed
  simp only
  rw [h.cached, Bytes.write_of_mem (by omega) (by omega), Nat.add_sub_cancel_left]

/-- The state in which a round reads and changes the refcount: the block of the cluster is in the cache. -/
theorem flushAlloc_ok (hf : s.faults = []) (hl : LoopOk g s dirty)
    (hb : HasBlock g s.refcountTable s.refcountTableSize c)
    (update : BDRVQcowState → ℕ → ℕ → ℤ → Result Unit) :
    ∃ s₁ dirty' s₂, flushBlock s dirty (c / g.blockEntries) = (true, dirty', s₁) ∧
      allocRefcountBlock g update s₁ c = (.ok (s.refcountTable (c / g.blockEntries)), s₂) ∧
      SameTable s s₂ ∧ s₂.freeClusterIndex = s.freeClusterIndex ∧ LoopOk g s₂ dirty' ∧
      s₂.refcountBlockCacheOffset = s.refcountTable (c / g.blockEntries) ∧
      flushed g s₂ dirty' = flushed g s dirty ∧
      (∀ d, dirty' = some d → d.tableIndex = c / g.blockEntries) := by
  have halloc : ∀ s' : BDRVQcowState, SameTable s s' →
      allocRefcountBlock g update s' c = loadOrNewRefcountBlock g update s' (c / g.blockEntries) := by
    intro s' hs
    unfold allocRefcountBlock
    rw [if_neg]
    rw [hs.size]
    have := hb.1
    omega
  cases dirty with
  | none =>
    obtain ⟨buf, hload, hc⟩ := loadOrNew_ok hf hl hb.1 hb.2 update
    refine ⟨s, none, recache s buf _, rfl, ?_, rfl, rfl, hc, rfl, rfl, fun d hd => by cases hd⟩
    rw [halloc s (.refl s), hload]
  | some d =>
    by_cases hd : d.tableIndex = c / g.blockEntries
    · -- the block of the last round is still the right one
      refine ⟨s, some d, s, ?_, ?_, .refl s, rfl, hl, ?_, rfl, ?_⟩
      · unfold flushBlock
        simp only [hd, ne_eq, not_true, if_false]
      · rw [halloc s (.refl s)]
        unfold loadOrNewRefcountBlock
        simp only [if_neg hb.2]
        rw [if_neg]
        rw [hl.cached, ← hl.table, hd]
        exact fun h => h rfl
      · rw [hl.cached, ← hl.table, hd]
      · intro d' hd'
        obtain rfl : d = d' := Option.some.inj hd'
        exact hd
    · have hc := DirtyOk.cacheOk hl
      obtain ⟨buf, hload, hc'⟩ := loadOrNew_ok (s := { s with file := flushed g s (some d) }) hf hc hb.1 hb.2 update
      refine ⟨{ s with file := flushed g s (some d) }, none, recache { s with file := flushed g s (some d) } buf _,
        ?_, ?_, rfl, rfl, hc', rfl, rfl, fun d hd => by cases hd⟩
      · unfold flushBlock
        simp only [ne_eq, hd, not_false_eq_true, if_true, writeRefcountBlockEntries_ok hf hl]
      · rw [halloc { s with file := flushed g s (some d) } rfl, hload]

theorem cacheByte (hl : LoopOk g s dirty) (h0 : s.refcountBlockCacheOffset ≠ 0) {i : ℕ} (hi : i < g.clusterSize) :
    flushed g s dirty (s.refcountBlockCacheOffset + i) = s.refcountBlockCache i := by
  cases dirty with
  | none => exact (CacheOk.coherent hl h0 i hi).symm
  | some d =>
    unfold flushed
    simp only
    rw [hl.cached, Bytes.write_of_mem (by omega) (by omega), Nat.add_sub_cancel_left]

theorem clean_of_loopOk (hl : LoopOk g s dirty) (h0 : s.refcountBlockCacheOffset ≠ 0) {i : ℕ}
    (hi : i < g.clusterSize) (hd : ∀ d, dirty = some d → i / 2 < d.firstIndex ∨ d.lastIndex < i / 2) :
    s.refcountBlockCache i = s.file (s.refcountBlockCacheOffset + i) := by
  cases dirty with
  | none => exact CacheOk.coherent hl h0 i hi
  | some d =>
    rw [hl.cached]
    exact hl.clean i hi (hd d rfl)

theorem flushed_of_not_mem (hl : LoopOk g s dirty) {i : ℕ}
    (hi : i < s.refcountBlockCacheOffset ∨ s.refcountBlockCacheOffset + g.clusterSize ≤ i) :
    flushed g s dirty i = s.file i := by
  cases dirty with
  | none => rfl
  | some d =>
    rw [hl.cached] at hi
    exact Bytes.write_of_not_mem hi

/-- Changing an entry of the cached block changes it in the flushed file. -/
theorem flushed_write (hl : LoopOk g s dirty) (h0 : s.refcountBlockCacheOffset ≠ 0) {j : ℕ}
    (hj : j + 2 ≤ g.clusterSize) (v : Bytes) :
    s.file.write s.refcountBlockCacheOffset g.clusterSize (s.refcountBlockCache.write j 2 v) =
      (flushed g s dirty).write (s.refcountBlockCacheOffset + j) 2 v := by
  funext i
  by_cases hblock : s.refcountBlockCacheOffset ≤ i ∧ i < s.refcountBlockCacheOffset + g.clusterSize
  · obtain ⟨k, rfl⟩ := Nat.exists_eq_add_of_le hblock.1
    rw [Bytes.write_of_mem (by omega) (by omega), Nat.add_sub_cancel_left]
    by_cases hk : j ≤ k ∧ k < j + 2
    · rw [Bytes.write_of_mem hk.1 hk.2, Bytes.write_of_mem (by omega) (by omega)]
      congr 1
      omega
    · rw [Bytes.write_of_not_mem (by omega), Bytes.write_of_not_mem (by omega),
        cacheByte hl h0 (by omega)]
  · rw [Bytes.write_of_not_mem (by omega), Bytes.write_of_not_mem (by omega),
      flushed_of_not_mem hl (by omega)]

/-- The entry of the cluster becomes dirty. -/
theorem extendDirty_ok (hl : LoopOk g s dirty) (hb : HasBlock g s.refcountTable s.refcountTableSize c)
    (hcache : s.refcountBlockCacheOffset = s.refcountTable (c / g.blockEntries))
    (v : Bytes) (f : ℕ) :
    DirtyOk g { s with
        refcountBlockCache := s.refcountBlockCache.write (2 * (c % g.blockEntries)) 2 v
        freeClusterIndex := f }
      (extendDirty dirty (c / g.blockEntries) (s.refcountTable (c / g.blockEntries)) (c % g.blockEntries)) := by
  have hlt := Nat.mod_lt c g.blockEntries_pos
  have h0 : s.refcountBlockCacheOffset ≠ 0 := hcache ▸ hb.2
  cases dirty with
  | none =>
    refine ⟨hb.1, rfl, hb.2, hcache, le_rfl, hlt, fun i hi hd => ?_⟩
    simp only [extendDirty] at hd ⊢
    rw [Bytes.write_of_not_mem (by omega), ← hcache]
    exact clean_of_loopOk hl h0 hi (fun d hd => by cases hd)
  | some d =>
    have hle := hl.le
    have hlast := hl.lt
    refine ⟨hb.1, rfl, hb.2, hcache, ?_, ?_, fun i hi hd => ?_⟩
    · simp only [extendDirty]; omega
    · simp only [extendDirty]; omega
    · simp only [extendDirty] at hd ⊢
      rw [Bytes.write_of_not_mem (by omega), ← hcache]
      refine clean_of_loopOk hl h0 hi (fun d' hd' => ?_)
      obtain rfl : d = d' := Option.some.inj hd'
      omega

/-- **A round sets the refcount of its cluster in the flushed file.** -/
theorem updateCluster_ok (hf : s.faults = []) (hl : LoopOk g s dirty)
    (hb : HasBlock g s.refcountTable s.refcountTableSize c) {addend : ℤ}
    (h0 : 0 ≤ (refcountIn g (flushed g s dirty) s.refcountTable s.refcountTableSize c : ℤ) + addend)
    (h1 : (refcountIn g (flushed g s dirty) s.refcountTable s.refcountTableSize c : ℤ) + addend ≤ 65535)
    (update : BDRVQcowState → ℕ → ℕ → ℤ → Result Unit) :
    ∃ d s', updateCluster g (allocRefcountBlock g update) addend s dirty c = (.ok d, s') ∧ SameTable s s' ∧
      DirtyOk g s' d ∧ d.tableIndex = c / g.blockEntries ∧
      flushed g s' (some d) = setRefcount g s.refcountTable (flushed g s dirty) c
        ((refcountIn g (flushed g s dirty) s.refcountTable s.refcountTableSize c : ℤ) + addend).toNat ∧
      (0 < addend → s'.freeClusterIndex = s.freeClusterIndex) := by
  obtain ⟨s₁, dirty', s₂, hflush, halloc, hsame, hfree, hl₂, hcache, hfl, hidx⟩ := flushAlloc_ok hf hl hb update
  have hb₂ : HasBlock g s₂.refcountTable s₂.refcountTableSize c := by
    rw [hsame.table, hsame.size]; exact hb
  have hcache₂ : s₂.refcountBlockCacheOffset = s₂.refcountTable (c / g.blockEntries) := by
    rw [hsame.table]; exact hcache
  have hne : s₂.refcountBlockCacheOffset ≠ 0 := hcache ▸ hb.2
  have hent := entry_lt (g := g) c
  -- the refcount in the cache is the one of the flushed file
  have hread : refcountIn g (flushed g s dirty) s.refcountTable s.refcountTableSize c =
      beRead s₂.refcountBlockCache (2 * (c % g.blockEntries)) 2 := by
    rw [refcountIn_of_hasBlock hb, ← hcache, ← hfl]
    refine beRead_congr fun i hi => ?_
    rw [Nat.add_assoc, cacheByte hl₂ hne (by omega)]
  rw [hread] at h0 h1 ⊢
  generalize hr : (beRead s₂.refcountBlockCache (2 * (c % g.blockEntries)) 2 : ℤ) + addend = r at h0 h1
  refine ⟨extendDirty dirty' (c / g.blockEntries) (s.refcountTable (c / g.blockEntries)) (c % g.blockEntries),
    { s₂ with
      refcountBlockCache := s₂.refcountBlockCache.write (2 * (c % g.blockEntries)) 2 (be 2 r.toNat)
      freeClusterIndex := if r = 0 ∧ c < s₂.freeClusterIndex then c else s₂.freeClusterIndex }, ?_, ?_, ?_, ?_, ?_, ?_⟩
  · unfold updateCluster
    simp only [hflush, halloc, hr]
    rw [if_neg (by omega)]
    split_ifs <;> rfl
  · exact hsame.trans rfl
  · rw [show s.refcountTable (c / g.blockEntries) = s₂.refcountTable (c / g.blockEntries) by rw [hsame.table]]
    exact extendDirty_ok hl₂ hb₂ hcache₂ (be 2 r.toNat) _
  · cases dirty' <;> rfl
  · unfold setRefcount
    rw [← hcache, ← hfl, ← flushed_write hl₂ hne (by omega)]
    cases dirty' <;> rfl
  · intro hpos
    show (if r = 0 ∧ c < s₂.freeClusterIndex then c else s₂.freeClusterIndex) = _
    rw [if_neg (by omega), hfree]

/-- **The loop over clusters whose blocks exist**: `m` rounds of it. -/
theorem updateClusters_rounds (addend : ℤ) (update : BDRVQcowState → ℕ → ℕ → ℤ → Result Unit) (m n : ℕ)
    (hf : s.faults = []) (hl : LoopOk g s dirty)
    (ha : ∀ t < s.refcountTableSize, g.clusterSize ∣ s.refcountTable t)
    (hi : ∀ t < s.refcountTableSize, ∀ u < s.refcountTableSize,
      s.refcountTable t ≠ 0 → s.refcountTable t = s.refcountTable u → t = u)
    (hb : ∀ d, c ≤ d → d < c + m → HasBlock g s.refcountTable s.refcountTableSize d)
    (hr : ∀ d, c ≤ d → d < c + m →
      0 ≤ (refcountIn g (flushed g s dirty) s.refcountTable s.refcountTableSize d : ℤ) + addend ∧
      (refcountIn g (flushed g s dirty) s.refcountTable s.refcountTableSize d : ℤ) + addend ≤ 65535) :
    ∃ dirty' s', updateClusters g (allocRefcountBlock g update) addend (m + n) s dirty c =
        updateClusters g (allocRefcountBlock g update) addend n s' dirty' (c + m) ∧
      SameTable s s' ∧ LoopOk g s' dirty' ∧
      (m = 0 ∧ dirty' = dirty ∨ 0 < m ∧ ∃ d, dirty' = some d ∧ d.tableIndex = (c + m - 1) / g.blockEntries) ∧
      flushed g s' dirty' = addRefcounts g s.refcountTable s.refcountTableSize addend m (flushed g s dirty) c ∧
      (0 < addend → s'.freeClusterIndex = s.freeClusterIndex) := by
  induction m generalizing s dirty c with
  | zero =>
    refine ⟨dirty, s, ?_, .refl s, hl, .inl ⟨rfl, rfl⟩, rfl, fun _ => rfl⟩
    rw [Nat.zero_add, Nat.add_zero]
  | succ m ih =>
    have hrc := hr c le_rfl (by omega)
    obtain ⟨d, s₁, hround, hsame, hd, hidx, hfl, hfree⟩ := updateCluster_ok hf hl (hb c le_rfl (by omega))
      hrc.1 hrc.2 update
    have hfl' : flushed g s₁ (some d) = setRefcount g s₁.refcountTable (flushed g s dirty) c
        ((refcountIn g (flushed g s dirty) s₁.refcountTable s₁.refcountTableSize c : ℤ) + addend).toNat := by
      rw [hsame.table, hsame.size]; exact hfl
    obtain ⟨dirty', s', hrest, hsame', hl', hidx', hfl'', hfree'⟩ :=
      ih (s := s₁) (c := c + 1) (hsame.faults.trans hf) (show LoopOk g s₁ (some d) from hd)
      (by rw [hsame.table, hsame.size]; exact ha) (by rw [hsame.table, hsame.size]; exact hi)
      (by rw [hsame.table, hsame.size]; exact fun e h1 h2 => hb e (by omega) (by omega))
      (by
        intro e h1 h2
        rw [hfl, hsame.table, hsame.size, refcountIn_setRefcount ha hi (hb c le_rfl (by omega)), if_neg (by omega)]
        exact hr e (by omega) (by omega))
    refine ⟨dirty', s', ?_, hsame.trans hsame', hl', ?_, ?_, fun h => (hfree' h).trans (hfree h)⟩
    · rw [show m + 1 + n = m + n + 1 by omega, updateClusters, hround]
      simp only
      rw [hrest, show c + 1 + m = c + (m + 1) by omega]
    · right
      rcases hidx' with ⟨rfl, h⟩ | ⟨-, d', hd', h⟩
      · exact ⟨one_pos, d, h, hidx⟩
      · refine ⟨by omega, d', hd', ?_⟩
        rw [h]
        congr 1
        omega
    · rw [hfl'', addRefcounts, hfl, hsame.table, hsame.size]

/-- The write after the loop. -/
theorem updateClusters_done (alloc : BDRVQcowState → ℕ → Result ℕ) (addend : ℤ) (hf : s.faults = [])
    (hl : LoopOk g s dirty) (c : ℕ) :
    updateClusters g alloc addend 0 s dirty c = (.ok (), { s with file := flushed g s dirty }) := by
  cases dirty with
  | none => rfl
  | some d =>
    unfold updateClusters
    rw [if_neg hl.ne_zero, writeRefcountBlockEntries_ok hf hl]
    rfl

theorem LoopOk.cacheOk (hl : LoopOk g s dirty) : CacheOk g { s with file := flushed g s dirty } := by
  cases dirty with
  | none => exact hl
  | some d => exact DirtyOk.cacheOk hl

/-- When the loop comes to another block it first writes the last one. -/
theorem updateClusters_switch (alloc : BDRVQcowState → ℕ → Result ℕ) (addend : ℤ) (hf : s.faults = [])
    (hl : LoopOk g s dirty) (n : ℕ) (hd : ∀ d, dirty = some d → d.tableIndex ≠ c / g.blockEntries) :
    updateClusters g alloc addend (n + 1) s dirty c =
      updateClusters g alloc addend (n + 1) { s with file := flushed g s dirty } none c := by
  cases dirty with
  | none => rfl
  | some d =>
    rw [updateClusters, updateClusters]
    unfold updateCluster flushBlock
    simp only [if_pos (hd d rfl), writeRefcountBlockEntries_ok hf hl]

/-- A round that has to make its block goes on as if the block had been there. -/
theorem updateClusters_alloc {alloc : BDRVQcowState → ℕ → Result ℕ} (addend : ℤ) {c b : ℕ}
    (h : alloc s c = (.ok b, s')) (h' : alloc s' c = (.ok b, s')) (n : ℕ) :
    updateClusters g alloc addend (n + 1) s none c = updateClusters g alloc addend (n + 1) s' none c := by
  rw [updateClusters, updateClusters]
  unfold updateCluster flushBlock
  simp only [h, h']

/-- **The loop over clusters whose refcount blocks exist.** -/
theorem updateClusters_ok {Y : ℕ → ℕ} (hf : s.faults = []) (hc : CacheOk g s)
    (h : Blocks g s.file s.refcountTable s.refcountTableSize s.refcountTableOffset Y)
    (update : BDRVQcowState → ℕ → ℕ → ℤ → Result Unit) (addend : ℤ) {n c : ℕ}
    (hb : ∀ d, c ≤ d → d < c + n → HasBlock g s.refcountTable s.refcountTableSize d)
    (hn : ∀ d, c ≤ d → d < c + n → ¬ IsBlock g s.refcountTable s.refcountTableSize d)
    (hr : ∀ d, c ≤ d → d < c + n → 0 ≤ (Y d : ℤ) + addend ∧ (Y d : ℤ) + addend ≤ 65535) :
    ∃ s', updateClusters g (allocRefcountBlock g update) addend n s none c = (.ok (), s') ∧ SameTable s s' ∧
      CacheOk g s' ∧
      s'.file = addRefcounts g s.refcountTable s.refcountTableSize addend n s.file c ∧
      Blocks g s'.file s.refcountTable s.refcountTableSize s.refcountTableOffset (addRange Y c n addend) ∧
      (0 < addend → s'.freeClusterIndex = s.freeClusterIndex) := by
  obtain ⟨dirty, s', hloop, hsame, hl, -, hfl, hfree⟩ := updateClusters_rounds addend update n 0 hf
    (show LoopOk g s none from hc) h.aligned h.inj hb (fun d h1 h2 => by
      show 0 ≤ (refcountIn g s.file _ _ d : ℤ) + addend ∧ (refcountIn g s.file _ _ d : ℤ) + addend ≤ 65535
      rw [h.count d (hn d h1 h2)]
      exact hr d h1 h2)
  refine ⟨{ s' with file := flushed g s' dirty }, ?_, hsame.trans rfl, hl.cacheOk, hfl, ?_, hfree⟩
  · rw [Nat.add_zero] at hloop
    rw [hloop, updateClusters_done _ _ (hsame.faults.trans hf) hl]
  · show Blocks g (flushed g s' dirty) _ _ _ _
    rw [hfl]
    exact h.addRefcounts hb hn (fun d h1 h2 => (hr d h1 h2).2)

end Emulator.Qcow2
