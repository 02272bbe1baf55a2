import Emulator.Qcow2.RefcountUpdate

/-!
# Allocating and freeing clusters

`RefcountsOk` is the invariant of the refcount structures: the stored refcount of every
cluster is `X` of it, where `X` counts the references from outside, and one for the
refcount table and the refcount blocks themselves.

`update_refcount` makes a missing refcount block out of the next free cluster. The new
block has to count its own cluster: `AllocFits` says that it does, and that a refcount
table that has to grow fits in the same block too.

* `qcow2AllocClusters_ok`: allocated clusters had no reference and now have one;
* `qcow2FreeClusters_ok`: freed clusters lose a reference.
-/

namespace Emulator.Qcow2

open BDRVQcowState

variable (g : Image)

/-- The clusters in `K` keep their bytes, apart from the header fields of the refcount table. -/
def Keeps (K : ℕ → Prop) (s s' : BDRVQcowState) : Prop :=
  ∀ i, K (i / g.clusterSize) → i < 48 ∨ 60 ≤ i → s'.file i = s.file i

/-- `s'` differs from `s` in the file and in the refcount structures only. -/
def RefcountsOnly (s s' : BDRVQcowState) : Prop :=
  s' = { s with
    file := s'.file
    refcountTable := s'.refcountTable
    refcountTableOffset := s'.refcountTableOffset
    refcountTableSize := s'.refcountTableSize
    refcountBlockCacheOffset := s'.refcountBlockCacheOffset
    refcountBlockCache := s'.refcountBlockCache
    freeClusterIndex := s'.freeClusterIndex }

/-- `Blocks` for the file and the refcount table of a state. -/
abbrev BlocksOf (s : BDRVQcowState) (Y : ℕ → ℕ) : Prop :=
  Blocks g s.file s.refcountTable s.refcountTableSize s.refcountTableOffset Y

variable {g} {s : BDRVQcowState} {Y : ℕ → ℕ} {K : ℕ → Prop}

theorem RefcountsOnly.refl (s : BDRVQcowState) : RefcountsOnly s s := rfl

theorem RefcountsOnly.trans {s' s'' : BDRVQcowState} (h : RefcountsOnly s s') (h' : RefcountsOnly s' s'') :
    RefcountsOnly s s'' := by
  unfold RefcountsOnly at h
  unfold RefcountsOnly at h' ⊢
  rw [h'] at *
  rw [h]

variable {s' : BDRVQcowState}

theorem RefcountsOnly.faults (h : RefcountsOnly s s') : s'.faults = s.faults := by rw [h]

theorem SameTable.refcountsOnly (h : SameTable s s') : RefcountsOnly s s' := by
  unfold SameTable at h
  unfold RefcountsOnly
  rw [h]

/-! ## Sizes in clusters -/

theorem clustersOf_aligned (a : ℕ) {size : ℕ} (h : 0 < size) :
    clustersOf g (a * g.clusterSize) size = g.sizeToClusters size := by
  have hcs := g.clusterSize_pos
  unfold clustersOf Image.sizeToClusters
  rw [Nat.mul_div_cancel a hcs, show a * g.clusterSize + size - 1 = size - 1 + g.clusterSize * a by
    rw [Nat.mul_comm]; omega, Nat.add_mul_div_left _ _ hcs,
    show size + (g.clusterSize - 1) = size - 1 + g.clusterSize by omega, Nat.add_div_right _ hcs]
  generalize (size - 1) / g.clusterSize = q
  omega

theorem sizeToClusters_mul (n : ℕ) : g.sizeToClusters (n * g.clusterSize) = n := by
  have hcs := g.clusterSize_pos
  unfold Image.sizeToClusters
  rw [Nat.add_comm, Nat.add_mul_div_right _ _ hcs, Nat.div_eq_of_lt (by omega), Nat.zero_add]

theorem sizeToClusters_clusterSize : g.sizeToClusters g.clusterSize = 1 := by
  simpa using sizeToClusters_mul (g := g) 1

theorem sizeToClusters_pos {size : ℕ} (h : 0 < size) : 0 < g.sizeToClusters size :=
  Nat.div_pos (by have := g.clusterSize_pos; omega) g.clusterSize_pos

theorem updateRefcount_aligned (depth a : ℕ) (s : BDRVQcowState) {size : ℕ} (h : 0 < size) (addend : ℤ) :
    updateRefcount g (depth + 1) s (a * g.clusterSize) size addend =
      updateClusters g (allocRefcountBlock g (updateRefcount g depth)) addend (g.sizeToClusters size) s none a := by
  rw [updateRefcount, if_neg (by omega), clustersOf_aligned a h, Nat.mul_div_cancel a g.clusterSize_pos]

/-! ## A new refcount block -/

section
variable {update : BDRVQcowState → ℕ → ℕ → ℤ → Result Unit} {s₁ : BDRVQcowState}

theorem newRefcountBlock_eq {e t : ℕ} (ha : allocClustersNoref g s g.clusterSize = (e, s₁)) (hf : s₁.faults = []) :
    newRefcountBlock g update s t = (.ok e, (update { s₁ with
      file := (s₁.file.write e g.clusterSize fun _ => 0).write (s₁.refcountTableOffset + t * 8) 8 (be 8 e)
      refcountTable := Function.update s₁.refcountTable t e
      refcountBlockCacheOffset := e
      refcountBlockCache := fun _ => 0 } e g.clusterSize 1).2) := by
  simp only [newRefcountBlock, ha, bdrvPwrite, hf, not_true, if_false]

theorem growRefcountTable_eq {e m : ℕ} (hm : ¬ m ≤ s.refcountTableSize)
    (ha : allocClustersNoref g s (grownTableClusters g s m * g.l2Size * 8) = (e, s₁)) (hf : s₁.faults = []) :
    growRefcountTable g update s m = (.ok (), (update (update { s₁ with
      file := (s₁.file.write e (grownTableClusters g s m * g.l2Size * 8)
        (beTable 8 fun i => if i < s.refcountTableSize then s.refcountTable i else 0)).write 48 12
          (refcountTableField e (grownTableClusters g s m))
      refcountTable := fun i => if i < s.refcountTableSize then s.refcountTable i else 0
      refcountTableSize := grownTableClusters g s m * g.l2Size
      refcountTableOffset := e } e (grownTableClusters g s m * g.l2Size * 8) 1).2
        s₁.refcountTableOffset (s₁.refcountTableSize * 8) (-1)).2) := by
  simp only [growRefcountTable, hm, ha, bdrvPwrite, hf, not_true, if_false]

end

/-- **The next free cluster becomes the missing refcount block that counts it.** -/
theorem newRefcountBlock_ok (hf : s.faults = []) (hc : CacheOk g s) (h : BlocksOf g s Y) {t : ℕ}
    (ht : t < s.refcountTableSize) (h0 : s.refcountTable t = 0) (hte : s.freeClusterIndex / g.blockEntries = t)
    (he : s.freeClusterIndex ≠ 0)
    (hnt : ¬ InTable g s.refcountTableOffset s.refcountTableSize s.freeClusterIndex)
    (hlt : s.freeClusterIndex * g.clusterSize < 2 ^ 64) (depth : ℕ) :
    ∃ s', newRefcountBlock g (updateRefcount g (depth + 1)) s t =
        (.ok (s.freeClusterIndex * g.clusterSize), s') ∧
      s'.file = newBlockFile g s.file s.refcountTable s.refcountTableOffset t s.freeClusterIndex ∧
      s'.refcountTable = Function.update s.refcountTable t (s.freeClusterIndex * g.clusterSize) ∧
      s'.refcountTableSize = s.refcountTableSize ∧ s'.refcountTableOffset = s.refcountTableOffset ∧
      s'.refcountBlockCacheOffset = s.freeClusterIndex * g.clusterSize ∧
      CacheOk g s' ∧ RefcountsOnly s s' := by
  have hcs := g.clusterSize_pos
  generalize he' : s.freeClusterIndex = e at *
  have h0e : refcountIn g s.file s.refcountTable s.refcountTableSize e = 0 :=
    refcountIn_of_not_hasBlock fun hb => hb.2 (hte ▸ h0)
  have hnb : ¬ IsBlock g s.refcountTable s.refcountTableSize e := by
    intro hb
    rw [h.blockCount e hb] at h0e
    omega
  obtain ⟨buf, offset, a, halloc, -, -, -, hhere⟩ := allocClustersNoref_ok hf hc g.clusterSize
  have ha : a = e := by
    rw [← he']
    refine hhere fun c h1 h2 => ?_
    rw [sizeToClusters_clusterSize, he'] at h2
    obtain rfl : c = e := by omega
    exact h0e
  subst ha
  -- the state in which `update_refcount` is called for the new block
  obtain ⟨s₂, hs₂⟩ : ∃ s₂, s₂ = { setFree (recache s (fun _ => 0) (a * g.clusterSize)) (a + 1) with
    file := (s.file.write (a * g.clusterSize) g.clusterSize fun _ => 0).write (s.refcountTableOffset + t * 8) 8
      (be 8 (a * g.clusterSize))
    refcountTable := Function.update s.refcountTable t (a * g.clusterSize) } := ⟨_, rfl⟩
  have hc₂ : CacheOk g s₂ := by
    subst hs₂
    refine ⟨fun _ => ⟨t, ht, Function.update_self _ _ _⟩, fun _ i hi => ?_⟩
    show (0 : UInt8) = Bytes.write _ _ _ _ (a * g.clusterSize + i)
    rw [Bytes.write_of_not_mem, Bytes.write_of_mem (by omega) (by omega)]
    by_contra hn
    have hin := inTable_of_byte h (i := a * g.clusterSize + i) (by omega) (by omega)
    rw [byte_cluster_iff (c := a) |>.2 ⟨by omega, by omega⟩] at hin
    exact hnt hin
  have hb₂ : HasBlock g s₂.refcountTable s₂.refcountTableSize a := by
    subst hs₂
    exact hasBlock_update ht he hte
  have hcount : refcountIn g s₂.file s₂.refcountTable s₂.refcountTableSize a = 0 := by
    subst hs₂
    exact (refcountIn_clearedBlock h ht h0 he hnb a hnt).trans h0e
  obtain ⟨dirty, s', hloop, hsame, hl, hidx, hfl, -⟩ :=
    updateClusters_rounds (s := s₂) (c := a) 1 (updateRefcount g depth) 1 0 (by subst hs₂; exact hf)
    (show LoopOk g s₂ none from hc₂) (by subst hs₂; exact aligned_update h) (by subst hs₂; exact inj_update h hnb)
    (fun d h1 h2 => by obtain rfl : d = a := by omega
                       exact hb₂)
    (fun d h1 h2 => by
      obtain rfl : d = a := by omega
      show 0 ≤ (refcountIn g s₂.file _ _ d : ℤ) + 1 ∧ (refcountIn g s₂.file _ _ d : ℤ) + 1 ≤ 65535
      rw [hcount]
      omega)
  have hfile : flushed g s' dirty = newBlockFile g s.file s.refcountTable s.refcountTableOffset t a := by
    rw [hfl]
    show setRefcount g s₂.refcountTable s₂.file a
      ((refcountIn g s₂.file s₂.refcountTable s₂.refcountTableSize a : ℤ) + 1).toNat = _
    rw [hcount, hs₂]
    rfl
  have hupd : updateRefcount g (depth + 1) s₂ (a * g.clusterSize) g.clusterSize 1 =
      (.ok (), { s' with file := flushed g s' dirty }) := by
    rw [updateRefcount_aligned depth a s₂ hcs, sizeToClusters_clusterSize, hloop,
      updateClusters_done _ _ (by rw [hsame.faults, hs₂]; exact hf) hl]
  refine ⟨{ s' with file := flushed g s' dirty }, ?_, hfile, ?_, ?_, ?_, ?_, hl.cacheOk, ?_⟩
  · rw [newRefcountBlock_eq halloc hf, sizeToClusters_clusterSize]
    rw [hs₂] at hupd
    have hsnd := congrArg Prod.snd hupd
    exact Prod.ext rfl hsnd
  · show s'.refcountTable = _
    rw [hsame.table, hs₂]
  · show s'.refcountTableSize = _
    rw [hsame.size, hs₂]
    rfl
  · show s'.refcountTableOffset = _
    rw [hsame.offset, hs₂]
    rfl
  · show s'.refcountBlockCacheOffset = _
    obtain ⟨h10, -⟩ | ⟨-, d, rfl, hd⟩ := hidx
    · omega
    · rw [DirtyOk.cached hl, ← DirtyOk.table hl, hd, Nat.add_sub_cancel, hte, hsame.table, hs₂]
      exact Function.update_self _ _ _
  · have h1 : RefcountsOnly s s₂ := by subst hs₂; rfl
    exact h1.trans (hsame.refcountsOnly.trans rfl)

/-! ## The loop when a block is missing -/

theorem addRange_add (Y : ℕ → ℕ) (c m n : ℕ) (addend : ℤ) :
    addRange (addRange Y c m addend) (c + m) n addend = addRange Y c (m + n) addend := by
  funext d
  unfold addRange
  split_ifs <;> first | rfl | omega

/-- A range of clusters that ends in block `t`, split at the first cluster that block `t` counts. -/
theorem split_at_block {a n t : ℕ} (hpos : 0 < n) (hlast : (a + n - 1) / g.blockEntries = t) :
    ∃ m k, n = m + (k + 1) ∧ (∀ d, a ≤ d → d < a + m → d / g.blockEntries ≠ t) ∧
      ∀ d, a + m ≤ d → d < a + n → d / g.blockEntries = t := by
  have hN := g.blockEntries_pos
  have hl := (Nat.div_eq_iff hN).1 hlast
  refine ⟨t * g.blockEntries - a, n - (t * g.blockEntries - a) - 1, by omega, ?_, ?_⟩
  · intro d h1 h2 h3
    have := (Nat.div_eq_iff hN).1 h3
    omega
  · intro d h1 h2
    rw [Nat.div_eq_iff hN]
    omega

/-- The part of the loop in front of the missing block. -/
theorem updateClusters_first (hf : s.faults = []) (hc : CacheOk g s) (h : BlocksOf g s Y)
    (update : BDRVQcowState → ℕ → ℕ → ℤ → Result Unit) {a m n : ℕ}
    (hb : ∀ d, a ≤ d → d < a + m → HasBlock g s.refcountTable s.refcountTableSize d)
    (hn : ∀ d, a ≤ d → d < a + m → ¬ IsBlock g s.refcountTable s.refcountTableSize d)
    (hr : ∀ d, a ≤ d → d < a + m → Y d + 1 ≤ 65535)
    (hsw : 0 < m → (a + m - 1) / g.blockEntries ≠ (a + m) / g.blockEntries) :
    ∃ s', updateClusters g (allocRefcountBlock g update) 1 (m + (n + 1)) s none a =
        updateClusters g (allocRefcountBlock g update) 1 (n + 1) s' none (a + m) ∧
      SameTable s s' ∧ CacheOk g s' ∧
      s'.file = addRefcounts g s.refcountTable s.refcountTableSize 1 m s.file a ∧
      BlocksOf g s' (addRange Y a m 1) ∧ s'.freeClusterIndex = s.freeClusterIndex := by
  obtain ⟨dirty, s', hloop, hsame, hl, hidx, hfl, hfree⟩ := updateClusters_rounds 1 update m (n + 1) hf
    (show LoopOk g s none from hc) h.aligned h.inj hb (fun d h1 h2 => by
      show 0 ≤ (refcountIn g s.file _ _ d : ℤ) + 1 ∧ (refcountIn g s.file _ _ d : ℤ) + 1 ≤ 65535
      rw [h.count d (hn d h1 h2)]
      have := hr d h1 h2
      omega)
  refine ⟨{ s' with file := flushed g s' dirty }, ?_, hsame.trans rfl, hl.cacheOk, hfl, ?_, hfree one_pos⟩
  · rw [hloop, updateClusters_switch _ _ (hsame.faults.trans hf) hl]
    intro d hd
    rcases hidx with ⟨-, h'⟩ | ⟨hm, d', hd', h'⟩
    · rw [h'] at hd
      cases hd
    · obtain rfl : d' = d := Option.some.inj (hd'.symm.trans hd)
      rw [h']
      exact hsw hm
  · show Blocks g (flushed g s' dirty) s'.refcountTable s'.refcountTableSize s'.refcountTableOffset _
    rw [hfl, hsame.table, hsame.size, hsame.offset]
    exact h.addRefcounts hb hn (fun d h1 h2 => by have := hr d h1 h2; omega)

/-- `alloc_refcount_block` when the block is there and cached. -/
theorem allocRefcountBlock_cached (update : BDRVQcowState → ℕ → ℕ → ℤ → Result Unit) {c : ℕ}
    (hb : HasBlock g s.refcountTable s.refcountTableSize c)
    (hcache : s.refcountBlockCacheOffset = s.refcountTable (c / g.blockEntries)) :
    allocRefcountBlock g update s c = (.ok (s.refcountTable (c / g.blockEntries)), s) := by
  unfold allocRefcountBlock loadOrNewRefcountBlock
  rw [if_neg (by have := hb.1; omega), if_neg hb.2, if_neg (fun h => h hcache.symm)]

/-- **The loop when its last refcount block is missing and the table need not grow.** -/
theorem updateClusters_newBlock (hf : s.faults = []) (hc : CacheOk g s) (h : BlocksOf g s Y) {a n t : ℕ}
    (hpos : 0 < n) (ht : t < s.refcountTableSize) (h0 : s.refcountTable t = 0)
    (hfirst : ∀ d, a ≤ d → d < a + n → d / g.blockEntries ≠ t → HasBlock g s.refcountTable s.refcountTableSize d)
    (hlast : (a + n - 1) / g.blockEntries = t) (hte : s.freeClusterIndex / g.blockEntries = t)
    (hle : a + n ≤ s.freeClusterIndex)
    (hnt : ¬ InTable g s.refcountTableOffset s.refcountTableSize s.freeClusterIndex)
    (hlt : s.freeClusterIndex * g.clusterSize < 2 ^ 64)
    (hn : ∀ d, a ≤ d → d < a + n → ¬ IsBlock g s.refcountTable s.refcountTableSize d)
    (hr : ∀ d, a ≤ d → d < a + n → Y d + 1 ≤ 65535) (depth : ℕ) :
    ∃ s', updateClusters g (allocRefcountBlock g (updateRefcount g (depth + 1))) 1 n s none a = (.ok (), s') ∧
      CacheOk g s' ∧ BlocksOf g s' (addRange Y a n 1) ∧
      s'.refcountTable = Function.update s.refcountTable t (s.freeClusterIndex * g.clusterSize) ∧
      s'.refcountTableSize = s.refcountTableSize ∧ s'.refcountTableOffset = s.refcountTableOffset ∧
      RefcountsOnly s s' ∧
      (∀ i, ¬ IsBlock g s'.refcountTable s'.refcountTableSize (i / g.clusterSize) →
        ¬ InTable g s.refcountTableOffset s.refcountTableSize (i / g.clusterSize) → s'.file i = s.file i) := by
  obtain ⟨m, k, rfl, hm, hmt⟩ := split_at_block (g := g) hpos hlast
  have hat : (a + m) / g.blockEntries = t := hmt (a + m) le_rfl (by omega)
  obtain ⟨s₁, hloop, hsame, hc₁, hfile₁, h₁, hfree₁⟩ := updateClusters_first (n := k) hf hc h
    (updateRefcount g (depth + 1))
    (fun d h1 h2 => hfirst d h1 (by omega) (hm d h1 h2)) (fun d h1 h2 => hn d h1 (by omega))
    (fun d h1 h2 => hr d h1 (by omega))
    (fun hpos heq => hm (a + m - 1) (by omega) (by omega) (heq.trans hat))
  have hf₁ : s₁.faults = [] := hsame.faults.trans hf
  obtain ⟨s₂, hnew, hfile₂, htab₂, hsize₂, hoff₂, hcache₂, hc₂, honly₂⟩ := newRefcountBlock_ok (t := t) hf₁ hc₁ h₁
    (by rw [hsame.size]; exact ht) (by rw [hsame.table]; exact h0) (by rw [hfree₁]; exact hte)
    (by omega) (by rw [hsame.offset, hsame.size, hfree₁]; exact hnt) (by rw [hfree₁]; exact hlt) depth
  rw [hfree₁] at hnew hfile₂ htab₂ hcache₂
  have h₂ : BlocksOf g s₂ (addRange Y a m 1) := by
    unfold BlocksOf
    rw [hfile₂, htab₂, hsize₂, hoff₂]
    exact h₁.newBlock (by rw [hsame.size]; exact ht) (by rw [hsame.table]; exact h0) hte (by omega)
      (by rw [hsame.offset, hsame.size]; exact hnt) hlt
  have hblock₂ : ∀ c, IsBlock g s₂.refcountTable s₂.refcountTableSize c ↔
      IsBlock g s.refcountTable s.refcountTableSize c ∨ c = s.freeClusterIndex := by
    rw [htab₂, hsize₂, hsame.size, hsame.table]
    exact isBlock_update ht h0 (by omega)
  have hhas₂ : ∀ c, c / g.blockEntries = t → HasBlock g s₂.refcountTable s₂.refcountTableSize c := by
    rw [htab₂, hsize₂, hsame.size, hsame.table]
    exact fun c hct => hasBlock_update ht (by omega) hct
  have halloc : allocRefcountBlock g (updateRefcount g (depth + 1)) s₁ (a + m) =
      (.ok (s.freeClusterIndex * g.clusterSize), s₂) := by
    unfold allocRefcountBlock loadOrNewRefcountBlock
    rw [hat, if_neg (by rw [hsame.size]; omega), if_pos (by rw [hsame.table]; exact h0), hnew]
  have halloc₂ : allocRefcountBlock g (updateRefcount g (depth + 1)) s₂ (a + m) =
      (.ok (s.freeClusterIndex * g.clusterSize), s₂) := by
    have hentry : s₂.refcountTable ((a + m) / g.blockEntries) = s.freeClusterIndex * g.clusterSize := by
      rw [htab₂, hat, Function.update_self]
    rw [allocRefcountBlock_cached _ (hhas₂ _ hat) (by rw [hentry, hcache₂]), hentry]
  obtain ⟨s', hrest, hsame', hc', hfile', h', -⟩ := updateClusters_ok (honly₂.faults.trans hf₁) hc₂ h₂
    (updateRefcount g (depth + 1)) 1 (n := k + 1) (c := a + m)
    (fun d h1 h2 => hhas₂ d (hmt d h1 (by omega)))
    (fun d h1 h2 hd => by
      rcases (hblock₂ d).1 hd with hd | hd
      · exact hn d (by omega) (by omega) hd
      · omega)
    (fun d h1 h2 => by
      have := hr d (by omega) (by omega)
      unfold addRange
      rw [if_neg (by omega)]
      omega)
  refine ⟨s', ?_, hc', ?_, ?_, ?_, ?_, ?_, ?_⟩
  · rw [hloop, updateClusters_alloc 1 halloc halloc₂, hrest]
  · unfold BlocksOf
    rw [hsame'.table, hsame'.size, hsame'.offset, ← addRange_add]
    exact h'
  · rw [hsame'.table, htab₂, hsame.table]
  · rw [hsame'.size, hsize₂, hsame.size]
  · rw [hsame'.offset, hoff₂, hsame.offset]
  · exact hsame.refcountsOnly.trans (honly₂.trans hsame'.refcountsOnly)
  · intro i hi hi'
    rw [hsame'.table, hsame'.size] at hi
    have hib : ¬ IsBlock g s.refcountTable s.refcountTableSize (i / g.clusterSize) :=
      fun hb => hi ((hblock₂ _).2 (.inl hb))
    rw [hfile', addRefcounts_of_not_isBlock h₂.aligned
        (fun d h1 h2 => hhas₂ d (hmt d h1 (by omega))) hi, hfile₂]
    rw [htab₂, hsize₂] at hi
    rw [newBlockFile_frame h₁ (by rw [hsame.size]; exact ht) (by rw [hsame.table]; exact h0) hte (by omega) hi
      (by rw [hsame.offset, hsame.size]; exact hi'), hfile₁]
    exact addRefcounts_of_not_isBlock h.aligned (fun d h1 h2 => hfirst d h1 (by omega) (hm d h1 h2)) hib

/-! ## The invariant -/

/-- The references to a cluster, those from the header to the refcount table included. -/
def tableY (g : Image) (s : BDRVQcowState) (X : ℕ → ℕ) : ℕ → ℕ :=
  fun c => if InTable g s.refcountTableOffset s.refcountTableSize c then 1 else X c

/-- The stored refcounts are the references `X` from outside, and one for the refcount structures. -/
structure RefcountsOk (g : Image) (s : BDRVQcowState) (X : ℕ → ℕ) : Prop where
  noFaults : s.faults = []
  cache : CacheOk g s
  blocks : BlocksOf g s (tableY g s X)
  tableFree : ∀ c, InTable g s.refcountTableOffset s.refcountTableSize c → X c = 0
  sizePos : 0 < s.refcountTableSize
  header : 0 < X 0

variable {X : ℕ → ℕ}

theorem RefcountsOk.stored (h : RefcountsOk g s X) {c : ℕ} (hc : 0 < X c) : storedRefcount g s c = X c := by
  have hin : ¬ InTable g s.refcountTableOffset s.refcountTableSize c := fun hin => by
    have := h.tableFree c hin
    omega
  have hY : tableY g s X c = X c := if_neg hin
  have hb : ¬ IsBlock g s.refcountTable s.refcountTableSize c := fun hb => by
    have := h.blocks.blockFree c hb
    omega
  unfold storedRefcount
  rw [h.blocks.count c hb, hY]

/-- A cluster whose stored refcount is zero is used for nothing. -/
theorem RefcountsOk.free (h : RefcountsOk g s X) {c : ℕ} (hc : storedRefcount g s c = 0) :
    ¬ IsBlock g s.refcountTable s.refcountTableSize c ∧
      ¬ InTable g s.refcountTableOffset s.refcountTableSize c ∧ X c = 0 := by
  unfold storedRefcount at hc
  have hb : ¬ IsBlock g s.refcountTable s.refcountTableSize c := fun hb => by
    rw [h.blocks.blockCount c hb] at hc
    omega
  rw [h.blocks.count c hb] at hc
  unfold tableY at hc
  split_ifs at hc with hin
  exact ⟨hb, hin, hc⟩

theorem RefcountsOk.one_le_of_free (h : RefcountsOk g s X) {c : ℕ} (hc : storedRefcount g s c = 0) : 1 ≤ c := by
  rcases Nat.eq_zero_or_pos c with rfl | hpos
  · have := (h.free hc).2.2
    have := h.header
    omega
  · exact hpos

theorem RefcountsOk.used (h : RefcountsOk g s X) {c : ℕ} (hc : 0 < X c) :
    ¬ IsBlock g s.refcountTable s.refcountTableSize c ∧
      ¬ InTable g s.refcountTableOffset s.refcountTableSize c := by
  have hin : ¬ InTable g s.refcountTableOffset s.refcountTableSize c := fun hin => by
    have := h.tableFree c hin
    omega
  refine ⟨fun hb => ?_, hin⟩
  have := h.blocks.blockFree c hb
  unfold tableY at this
  rw [if_neg hin] at this
  omega

/-- The refcount structures in memory are the same. -/
structure SameRefcounts (s s' : BDRVQcowState) : Prop where
  faults : s'.faults = s.faults
  refcountTable : s'.refcountTable = s.refcountTable
  refcountTableOffset : s'.refcountTableOffset = s.refcountTableOffset
  refcountTableSize : s'.refcountTableSize = s.refcountTableSize
  refcountBlockCacheOffset : s'.refcountBlockCacheOffset = s.refcountBlockCacheOffset
  refcountBlockCache : s'.refcountBlockCache = s.refcountBlockCache

/-- Writing to clusters that are referenced from outside does not touch the refcount structures. -/
theorem RefcountsOk.congr (h : RefcountsOk g s X) (hs : SameRefcounts s s')
    (hf : ∀ i, X (i / g.clusterSize) = 0 → s'.file i = s.file i) : RefcountsOk g s' X := by
  have hblock : ∀ i, IsBlock g s.refcountTable s.refcountTableSize (i / g.clusterSize) → s'.file i = s.file i := by
    intro i hi
    refine hf i (Nat.eq_zero_of_not_pos fun hpos => ?_)
    exact (h.used hpos).1 hi
  have hY : tableY g s' X = tableY g s X := by
    unfold tableY
    rw [hs.refcountTableOffset, hs.refcountTableSize]
  obtain ⟨h1, h2, h3, h4, h5, h6⟩ := h
  refine ⟨hs.faults.trans h1, ⟨?_, ?_⟩, ?_, ?_, hs.refcountTableSize ▸ h5, h6⟩
  · rw [hs.refcountBlockCacheOffset, hs.refcountTableSize, hs.refcountTable]
    exact h2.block
  · rw [hs.refcountBlockCacheOffset, hs.refcountBlockCache]
    intro hne i hi
    obtain ⟨t, ht, heq⟩ := h2.block hne
    have hal := Nat.div_mul_cancel (h3.aligned t ht)
    rw [hblock, h2.coherent hne i hi]
    have hcl : (s.refcountBlockCacheOffset + i) / g.clusterSize = s.refcountTable t / g.clusterSize := by
      rw [byte_cluster_iff, ← heq, hal]
      omega
    rw [hcl]
    exact ⟨t, ht, heq ▸ hne, hal.symm⟩
  · unfold BlocksOf
    rw [hY, hs.refcountTable, hs.refcountTableSize, hs.refcountTableOffset]
    refine ⟨fun t ht => ?_, h3.tableAligned, h3.sizeAligned, h3.aligned, h3.inj, h3.notInTable, ?_, ?_, h3.blockFree⟩
    · rw [← h3.tableOnDisk t ht]
      exact beRead_congr fun i hi => hf _ (h4 _ (inTable_of_byte h3 (by omega) (by omega)))
    · intro c hc
      rw [refcountIn_congr h3.aligned hblock, h3.blockCount c hc]
    · intro c hc
      rw [refcountIn_congr h3.aligned hblock, h3.count c hc]
  · rw [hs.refcountTableOffset, hs.refcountTableSize]
    exact h4

/-! ## Growing the refcount table -/

theorem newTableClusters_ge (minSize fuel k : ℕ) (hf : 0 < fuel) (h : minSize ≤ k + fuel) :
    minSize ≤ newTableClusters g minSize fuel k * g.l2Size := by
  induction fuel generalizing k with
  | zero => omega
  | succ fuel ih =>
    unfold newTableClusters
    have hgrow : k + 1 ≤ if k = 0 then 1 else (k * 3 + 1) / 2 := by
      split_ifs <;> omega
    generalize (if k = 0 then 1 else (k * 3 + 1) / 2) = k' at hgrow
    simp only
    split_ifs with hle
    · exact hle
    · have hk' : k' ≤ k' * g.l2Size := Nat.le_mul_of_pos_right _ g.l2Size_pos
      exact ih k' (by omega) (by omega)

theorem grownTableClusters_ge (s : BDRVQcowState) {m : ℕ} (hm : 0 < m) :
    m ≤ grownTableClusters g s m * g.l2Size :=
  newTableClusters_ge m m _ hm (Nat.le_add_left m _)

/-- The references once the table has moved from the clusters at `x` to those at `e`. -/
theorem tableY_moved {x k₀ e k : ℕ} (hfree : ∀ c, x ≤ c → c < x + k₀ → X c = 0)
    (hnew : ∀ c, e ≤ c → c < e + k → tableY g s X c = 0)
    (hs : ∀ c, InTable g s.refcountTableOffset s.refcountTableSize c ↔ x ≤ c ∧ c < x + k₀)
    (hs' : ∀ c, InTable g s'.refcountTableOffset s'.refcountTableSize c ↔ e ≤ c ∧ c < e + k) :
    addRange (addRange (tableY g s X) e k 1) x k₀ (-1) = tableY g s' X := by
  funext c
  have h1 := hfree c
  have h2 := hnew c
  unfold addRange tableY at *
  simp only [hs, hs'] at *
  by_cases hx : x ≤ c ∧ c < x + k₀
  · rw [if_pos hx, if_pos hx] at *
    by_cases he : e ≤ c ∧ c < e + k
    · exact absurd (h2 he.1 he.2) (by omega)
    · rw [if_neg he, if_neg he, h1 hx.1 hx.2]
      rfl
  · rw [if_neg hx, if_neg hx] at *
    by_cases he : e ≤ c ∧ c < e + k
    · rw [if_pos he, if_pos he, h2 he.1 he.2]
      rfl
    · rw [if_neg he, if_neg he]

theorem tableClusters (h : BlocksOf g s Y) :
    ∃ x k, s.refcountTableOffset = x * g.clusterSize ∧ s.refcountTableSize = k * g.l2Size := by
  obtain ⟨x, hx⟩ := h.tableAligned
  obtain ⟨k, hk⟩ := h.sizeAligned
  exact ⟨x, k, by rw [hx, Nat.mul_comm], by rw [hk, Nat.mul_comm]⟩

theorem mul_l2Size_mul (k : ℕ) : k * g.l2Size * 8 = k * g.clusterSize := by
  rw [g.clusterSize_eq_l2Size]
  ring

/-- The state of `grow_refcount_table` once the header points to the new table, `k` clusters from `e` on. -/
def movedTable (g : Image) (s : BDRVQcowState) (e k : ℕ) : BDRVQcowState :=
  { s with
    file := grownFile g s.file s.refcountTable s.refcountTableSize e k (refcountTableField (e * g.clusterSize) k)
    refcountTable := grownTable s.refcountTable s.refcountTableSize
    refcountTableSize := k * g.l2Size
    refcountTableOffset := e * g.clusterSize }

section Moved

variable {e k : ℕ}

theorem movedTable_keeps (h : RefcountsOk g s X) (hzero : ∀ c, e ≤ c → c < e + k → storedRefcount g s c = 0) {i : ℕ}
    (hi : IsBlock g s.refcountTable s.refcountTableSize (i / g.clusterSize) ∨
      0 < X (i / g.clusterSize) ∧ (i < 48 ∨ 60 ≤ i)) :
    (movedTable g s e k).file i = s.file i := by
  refine grownFile_of_not_mem ?_ ?_
  · by_contra hn
    have hfree := h.free (hzero (i / g.clusterSize) (by omega) (by omega))
    rcases hi with hi | ⟨hi, -⟩
    · exact hfree.1 hi
    · omega
  · rcases hi with hi | ⟨-, hi⟩
    · by_contra hn
      have h512 := g.clusterSize_eq
      have hpos := g.clusterSectors_pos
      have h0 : i / g.clusterSize = 0 := Nat.div_eq_of_lt (by omega)
      have hfree := h.blocks.blockFree _ hi
      have hhead := h.header
      rw [h0] at hfree
      unfold tableY at hfree
      split_ifs at hfree
      omega
    · exact hi

theorem movedTable_blocks (h : RefcountsOk g s X) (he : 1 ≤ e) (hk : s.refcountTableSize ≤ k * g.l2Size)
    (hzero : ∀ c, e ≤ c → c < e + k → storedRefcount g s c = 0) :
    BlocksOf g (movedTable g s e k) (tableY g s X) := by
  refine h.blocks.growTable he hk hzero ?_
  have hhead := h.header
  unfold tableY
  split_ifs <;> omega

theorem movedTable_cacheOk (h : RefcountsOk g s X) (hk : s.refcountTableSize ≤ k * g.l2Size)
    (hzero : ∀ c, e ≤ c → c < e + k → storedRefcount g s c = 0) : CacheOk g (movedTable g s e k) := by
  refine ⟨fun hne => ?_, fun hne i hi => ?_⟩
  · obtain ⟨u, hu, hu'⟩ := h.cache.block hne
    exact ⟨u, Nat.lt_of_lt_of_le hu hk, (if_pos hu).trans hu'⟩
  · obtain ⟨u, hu, hu'⟩ := h.cache.block hne
    have hal := Nat.div_mul_cancel (h.blocks.aligned u hu)
    have hcl : (s.refcountBlockCacheOffset + i) / g.clusterSize = s.refcountTable u / g.clusterSize := by
      rw [byte_cluster_iff, ← hu', hal]
      omega
    refine (h.cache.coherent hne i hi).trans (movedTable_keeps h hzero (.inl ?_)).symm
    show IsBlock g _ _ ((s.refcountBlockCacheOffset + i) / g.clusterSize)
    rw [hcl]
    exact ⟨u, hu, hu' ▸ hne, hal.symm⟩

end Moved

/-- **The refcount table grows** when the free clusters at hand take the new table and the block that
counts them. -/
theorem growRefcountTable_ok (h : RefcountsOk g s X) {t k : ℕ} (hst : s.refcountTableSize ≤ t)
    (hk : k = grownTableClusters g s (t + 1)) (hte : s.freeClusterIndex / g.blockEntries = t)
    (hke : (s.freeClusterIndex + k) / g.blockEntries = t)
    (hlt : (s.freeClusterIndex + k) * g.clusterSize < 2 ^ 64) (depth : ℕ) :
    ∃ s', growRefcountTable g (updateRefcount g (depth + 2)) s (t + 1) = (.ok (), s') ∧ RefcountsOk g s' X ∧
      t < s'.refcountTableSize ∧ s'.refcountTable t ≠ 0 ∧
      (∀ c, IsBlock g s'.refcountTable s'.refcountTableSize c ↔
        IsBlock g s.refcountTable s.refcountTableSize c ∨ c = s.freeClusterIndex + k) ∧
      (∀ c, InTable g s'.refcountTableOffset s'.refcountTableSize c ↔
        s.freeClusterIndex ≤ c ∧ c < s.freeClusterIndex + k) ∧
      Keeps g (fun c => 0 < X c) s s' ∧ RefcountsOnly s s' := by
  have hN := g.blockEntries_pos
  have hcs := g.clusterSize_pos
  have hle1 := (Nat.div_eq_iff hN).1 hte
  have hle2 := (Nat.div_eq_iff hN).1 hke
  have hmin : t + 1 ≤ k * g.l2Size := hk ▸ grownTableClusters_ge s (Nat.succ_pos t)
  have hkpos : 0 < k := Nat.pos_of_ne_zero fun hk0 => by rw [hk0] at hmin; omega
  -- every cluster from the free cluster index to the new block is free
  have hzero : ∀ c, s.freeClusterIndex ≤ c → c ≤ s.freeClusterIndex + k → storedRefcount g s c = 0 := by
    intro c h1 h2
    have hct : c / g.blockEntries = t := (Nat.div_eq_iff hN).2 (by omega)
    exact refcountIn_of_not_hasBlock fun hb => by have := hb.1; omega
  obtain ⟨x, k₀, hx, hk₀⟩ := tableClusters h.blocks
  have hin : ∀ c, InTable g s.refcountTableOffset s.refcountTableSize c ↔ x ≤ c ∧ c < x + k₀ := by
    rw [hx, hk₀]
    exact fun c => inTable_iff
  have hk₀pos : 0 < k₀ := Nat.pos_of_ne_zero fun hk0 => by
    have := h.sizePos
    rw [hk₀, hk0] at this
    omega
  generalize he : s.freeClusterIndex = e at *
  have he1 : 1 ≤ e := h.one_le_of_free (hzero e le_rfl (by omega))
  obtain ⟨buf, offset, a, halloc, hc₁, -, -, hhere⟩ := allocClustersNoref_ok h.noFaults h.cache (k * g.l2Size * 8)
  rw [mul_l2Size_mul, sizeToClusters_mul] at hhere halloc
  obtain rfl : a = e := by
    rw [← he]
    exact hhere fun c h1 h2 => hzero c (by omega) (by omega)
  obtain ⟨s₁, hs₁⟩ : ∃ s₁, s₁ = setFree (recache s buf offset) (a + k) := ⟨_, rfl⟩
  have h₁ : RefcountsOk g s₁ X := by
    rw [hs₁]
    exact ⟨h.noFaults, ⟨hc₁.block, hc₁.coherent⟩, h.blocks, h.tableFree, h.sizePos, h.header⟩
  have honly₁ : RefcountsOnly s s₁ := by rw [hs₁]; rfl
  have hgrow : ∀ update, growRefcountTable g update s (t + 1) =
      (.ok (), (update (update (movedTable g s₁ a k) (a * g.clusterSize) (k * g.clusterSize) 1).2
        (x * g.clusterSize) (k₀ * g.clusterSize) (-1)).2) := by
    intro update
    rw [growRefcountTable_eq (by omega) (by rw [← hk, mul_l2Size_mul]; exact halloc)
      (show (setFree (recache s buf offset) (a + k)).faults = [] from h.noFaults), hs₁, ← hk,
      ← mul_l2Size_mul k, ← mul_l2Size_mul k₀, ← hk₀, ← hx]
    rfl
  have hfile₁ : s₁.file = s.file := by rw [hs₁]; rfl
  have htab₁ : s₁.refcountTable = s.refcountTable := by rw [hs₁]; rfl
  have hsize₁ : s₁.refcountTableSize = s.refcountTableSize := by rw [hs₁]; rfl
  have hoff₁ : s₁.refcountTableOffset = s.refcountTableOffset := by rw [hs₁]; rfl
  have hfree₁ : s₁.freeClusterIndex = a + k := by rw [hs₁]; rfl
  have hzero₁ : ∀ c, a ≤ c → c < a + k → storedRefcount g s₁ c = 0 := by
    intro c h1 h2
    unfold storedRefcount
    rw [hfile₁, htab₁, hsize₁]
    exact hzero c h1 (by omega)
  have hY₁ : tableY g s₁ X = tableY g s X := by
    unfold tableY
    rw [hoff₁, hsize₁]
  have hblock₂ : ∀ c, IsBlock g (movedTable g s₁ a k).refcountTable (movedTable g s₁ a k).refcountTableSize c ↔
      IsBlock g s.refcountTable s.refcountTableSize c := by
    rw [← htab₁, ← hsize₁]
    exact isBlock_grownTable (by rw [hsize₁]; omega)
  have hY0 : ∀ c, a ≤ c → c ≤ a + k → tableY g s X c = 0 := by
    intro c h1 h2
    obtain ⟨-, h3, h4⟩ := h.free (hzero c h1 h2)
    unfold tableY
    rw [if_neg h3, h4]
  -- the refcounts of the new table
  obtain ⟨s₃, hupd₃, hc₃, h₃, htab₃, hsize₃, hoff₃, honly₃, hkeep₃⟩ :=
    updateClusters_newBlock (s := movedTable g s₁ a k) (a := a) (n := k) (t := t)
    h₁.noFaults (movedTable_cacheOk h₁ (by rw [hsize₁]; omega) hzero₁)
    (movedTable_blocks h₁ he1 (by rw [hsize₁]; omega) hzero₁) hkpos hmin
    (if_neg (by rw [hsize₁]; omega))
    (fun d h1 h2 hd => absurd ((Nat.div_eq_iff hN).2 (by omega)) hd)
    ((Nat.div_eq_iff hN).2 (by omega)) (show s₁.freeClusterIndex / _ = t by rw [hfree₁]; exact hke)
    (show a + k ≤ s₁.freeClusterIndex by rw [hfree₁])
    (show ¬ InTable g (a * g.clusterSize) (k * g.l2Size) s₁.freeClusterIndex by
      rw [hfree₁, inTable_iff]; omega)
    (show s₁.freeClusterIndex * _ < _ by rw [hfree₁]; exact hlt)
    (fun d h1 h2 hd => (h.free (hzero d h1 (by omega))).1 ((hblock₂ d).1 hd))
    (fun d h1 h2 => by rw [hY₁, hY0 d h1 (by omega)]; omega) depth
  have htab₃' : s₃.refcountTable = Function.update (movedTable g s₁ a k).refcountTable t ((a + k) * g.clusterSize) := by
    rw [htab₃, ← hfree₁]
    rfl
  have hblock₃ : ∀ c, IsBlock g s₃.refcountTable s₃.refcountTableSize c ↔
      IsBlock g s.refcountTable s.refcountTableSize c ∨ c = a + k := by
    intro c
    rw [htab₃', hsize₃, ← hblock₂ c]
    exact isBlock_update hmin (if_neg (by rw [hsize₁]; omega)) (by omega) c
  have hold : ∀ d, x ≤ d → d < x + k₀ → d < a ∨ a + k < d := by
    intro d h1 h2
    by_contra hn
    exact (h.free (hzero d (by omega) (by omega))).2.1 ((hin d).2 ⟨h1, h2⟩)
  have hnb₃ : ∀ d, x ≤ d → d < x + k₀ → ¬ IsBlock g s₃.refcountTable s₃.refcountTableSize d := by
    intro d h1 h2 hd
    rcases (hblock₃ d).1 hd with hd | hd
    · exact h.blocks.notInTable d hd ((hin d).2 ⟨h1, h2⟩)
    · have := hold d h1 h2
      omega
  have hY₃ : ∀ d, x ≤ d → d < x + k₀ → addRange (tableY g s₁ X) a k 1 d = 1 := by
    intro d h1 h2
    have := hold d h1 h2
    unfold addRange
    rw [if_neg (by omega), hY₁]
    exact if_pos ((hin d).2 ⟨h1, h2⟩)
  -- the old table is freed
  obtain ⟨s₄, hupd₄, hsame₄, hc₄, hfile₄, h₄, -⟩ := updateClusters_ok (honly₃.faults.trans h₁.noFaults) hc₃ h₃
    (updateRefcount g (depth + 1)) (-1) (n := k₀) (c := x)
    (fun d h1 h2 => hasBlock_of_refcountIn (show refcountIn g s₃.file _ _ d ≠ 0 by
      rw [h₃.count d (hnb₃ d h1 h2), hY₃ d h1 h2]; omega))
    hnb₃ (fun d h1 h2 => by rw [hY₃ d h1 h2]; omega)
  have hin₄ : ∀ c, InTable g s₄.refcountTableOffset s₄.refcountTableSize c ↔ a ≤ c ∧ c < a + k := by
    rw [hsame₄.offset, hsame₄.size, hoff₃, hsize₃]
    exact fun c => inTable_iff
  have hmoved : addRange (addRange (tableY g s₁ X) a k 1) x k₀ (-1) = tableY g s₄ X := by
    rw [hY₁]
    exact tableY_moved (fun c h1 h2 => h.tableFree c ((hin c).2 ⟨h1, h2⟩)) (fun c h1 h2 => hY0 c h1 (by omega)) hin hin₄
  have honly₄ : RefcountsOnly s s₄ :=
    honly₁.trans ((show RefcountsOnly s₁ (movedTable g s₁ a k) from rfl).trans (honly₃.trans hsame₄.refcountsOnly))
  refine ⟨s₄, ?_, ⟨honly₄.faults.trans h.noFaults, hc₄, ?_, ?_, ?_, h.header⟩, ?_, ?_, ?_, hin₄, ?_, honly₄⟩
  · rw [hgrow, updateRefcount_aligned (depth + 1) a _ (Nat.mul_pos hkpos hcs), sizeToClusters_mul, hupd₃,
      updateRefcount_aligned (depth + 1) x _ (Nat.mul_pos hk₀pos hcs), sizeToClusters_mul, hupd₄]
  · unfold BlocksOf
    rw [hsame₄.table, hsame₄.size, hsame₄.offset, ← hmoved]
    exact h₄
  · intro c hc
    obtain ⟨h1, h2⟩ := (hin₄ c).1 hc
    exact (h.free (hzero c h1 (by omega))).2.2
  · rw [hsame₄.size, hsize₃]
    show 0 < k * g.l2Size
    omega
  · rw [hsame₄.size, hsize₃]
    exact hmin
  · rw [hsame₄.table, htab₃', Function.update_self]
    exact Nat.mul_ne_zero (by omega) hcs.ne'
  · rw [hsame₄.table, hsame₄.size]
    exact hblock₃
  · intro i hi hh
    have hnblock : ¬ IsBlock g s₃.refcountTable s₃.refcountTableSize (i / g.clusterSize) := by
      intro hb
      rcases (hblock₃ _).1 hb with hb | hb
      · have hfree := h.blocks.blockFree _ hb
        unfold tableY at hfree
        split_ifs at hfree
        omega
      · have := (h.free (hzero _ (by omega) hb.le)).2.2
        omega
    rw [hfile₄, addRefcounts_of_not_isBlock h₃.aligned
      (fun d h1 h2 => hasBlock_of_refcountIn (show refcountIn g s₃.file _ _ d ≠ 0 by
        rw [h₃.count d (hnb₃ d h1 h2), hY₃ d h1 h2]; omega)) hnblock, hkeep₃ i hnblock ?_,
      movedTable_keeps h₁ hzero₁ (.inr ⟨hi, hh⟩), hfile₁]
    show ¬ InTable g (a * g.clusterSize) (k * g.l2Size) _
    rw [inTable_iff]
    rintro ⟨h1, h2⟩
    have := (h.free (hzero _ h1 (by omega))).2.2
    omega

/-! ## Allocation -/

/-- The clusters that a larger refcount table takes when the refcount of `c` is set. -/
def tableGrowth (g : Image) (s : BDRVQcowState) (c : ℕ) : ℕ :=
  if s.refcountTableSize ≤ c / g.blockEntries then grownTableClusters g s (c / g.blockEntries + 1) else 0

/-- The refcounts of the `n` clusters from `a` on can be set: a missing refcount block, and the larger
refcount table if there has to be one, come to lie in the range that this block counts, and no offset
reaches the flag bits. -/
structure Fits (g : Image) (s : BDRVQcowState) (a n : ℕ) : Prop where
  block : ∀ c, a ≤ c → c < a + n → ¬ HasBlock g s.refcountTable s.refcountTableSize c →
    (s.freeClusterIndex + tableGrowth g s c) / g.blockEntries = c / g.blockEntries
  blockRoom : ∀ c, a ≤ c → c < a + n → ¬ HasBlock g s.refcountTable s.refcountTableSize c →
    (s.freeClusterIndex + tableGrowth g s c + 1) * g.clusterSize ≤ 2 ^ 62
  room : (a + n) * g.clusterSize ≤ 2 ^ 62

/-- `Fits` for the clusters that `qcow2_alloc_clusters` is going to take (fewer than 2^31: `nb_clusters` is an `int`).
-/
def AllocFits (g : Image) (s : BDRVQcowState) (size : ℕ) : Prop :=
  Fits g (allocClustersNoref g s size).2 ((allocClustersNoref g s size).1 / g.clusterSize) (g.sizeToClusters size)

theorem tableY_addRange {a n : ℕ} {addend : ℤ}
    (h : ∀ c, a ≤ c → c < a + n → ¬ InTable g s.refcountTableOffset s.refcountTableSize c) :
    tableY g s (addRange X a n addend) = addRange (tableY g s X) a n addend := by
  funext c
  simp only [tableY, addRange]
  by_cases hc : a ≤ c ∧ c < a + n
  · rw [if_neg (h c hc.1 hc.2), if_pos hc, if_pos hc, if_neg (h c hc.1 hc.2)]
  · rw [if_neg hc, if_neg hc]

/-- The invariant after the refcounts of a range have been set. -/
theorem RefcountsOk.of_addRange (h : RefcountsOk g s X) {a n : ℕ} {addend : ℤ}
    (hin : ∀ c, a ≤ c → c < a + n → ¬ InTable g s.refcountTableOffset s.refcountTableSize c)
    (hhead : 0 < addRange X a n addend 0) (hf : s'.faults = s.faults) (hc : CacheOk g s')
    (hb : BlocksOf g s' (addRange (tableY g s X) a n addend))
    (hsize : s'.refcountTableSize = s.refcountTableSize)
    (hoff : s'.refcountTableOffset = s.refcountTableOffset) : RefcountsOk g s' (addRange X a n addend) := by
  have hY : tableY g s' (addRange X a n addend) = addRange (tableY g s X) a n addend := by
    rw [← tableY_addRange hin]
    unfold tableY
    rw [hsize, hoff]
  refine ⟨hf.trans h.noFaults, hc, hY ▸ hb, ?_, ?_, hhead⟩
  · intro c hc
    rw [hsize, hoff] at hc
    unfold addRange
    rw [if_neg (fun hr => hin c hr.1 hr.2 hc), h.tableFree c hc]
  · rw [hsize]
    exact h.sizePos

theorem header_addRange {a n : ℕ} {addend : ℤ} (h : 0 < X 0) (ha : 0 ≤ addend) : 0 < addRange X a n addend 0 := by
  unfold addRange
  split_ifs <;> omega

/-- The loop over newly allocated clusters when the refcount table has to grow. -/
theorem updateClusters_grow (h : RefcountsOk g s X) {a n t k : ℕ} (hpos : 0 < n) (hst : s.refcountTableSize ≤ t)
    (hk : k = grownTableClusters g s (t + 1)) (hfci : s.freeClusterIndex = a + n)
    (hfirst : ∀ d, a ≤ d → d < a + n → d / g.blockEntries ≠ t → HasBlock g s.refcountTable s.refcountTableSize d)
    (hlast : (a + n - 1) / g.blockEntries = t) (hke : (s.freeClusterIndex + k) / g.blockEntries = t)
    (hlt : (s.freeClusterIndex + k) * g.clusterSize < 2 ^ 64)
    (hzero : ∀ c, a ≤ c → c < a + n → storedRefcount g s c = 0) (depth : ℕ) :
    ∃ s', updateClusters g (allocRefcountBlock g (updateRefcount g (depth + 2))) 1 n s none a = (.ok (), s') ∧
      RefcountsOk g s' (addRange X a n 1) ∧ Keeps g (fun c => 0 < X c) s s' ∧ RefcountsOnly s s' := by
  have hX : ∀ c, a ≤ c → c < a + n → X c = 0 := fun c h1 h2 => (h.free (hzero c h1 h2)).2.2
  obtain ⟨m, j, rfl, hm, hmt⟩ := split_at_block (g := g) hpos hlast
  have hat : (a + m) / g.blockEntries = t := hmt (a + m) le_rfl (by omega)
  have hfree := fun d h1 h2 => h.free (c := d) (hzero d h1 h2)
  have hY : ∀ d, a ≤ d → d < a + (m + (j + 1)) → tableY g s X d = 0 := by
    intro d h1 h2
    unfold tableY
    rw [if_neg (hfree d h1 h2).2.1, hX d h1 h2]
  -- the clusters in front of the block that is missing
  obtain ⟨s₁, hloop, hsame, hc₁, hfile₁, hb₁, hfree₁⟩ := updateClusters_first (n := j) h.noFaults h.cache h.blocks
    (updateRefcount g (depth + 2)) (fun d h1 h2 => hfirst d h1 (by omega) (hm d h1 h2))
    (fun d h1 h2 => (hfree d h1 (by omega)).1) (fun d h1 h2 => by rw [hY d h1 (by omega)]; omega)
    (fun hpos heq => hm (a + m - 1) (by omega) (by omega) (heq.trans hat))
  have h₁ : RefcountsOk g s₁ (addRange X a m 1) :=
    h.of_addRange (fun c h1 h2 => (hfree c h1 (by omega)).2.1) (header_addRange h.header (by omega))
      hsame.faults hc₁ hb₁
      hsame.size hsame.offset
  have hk₁ : k = grownTableClusters g s₁ (t + 1) := by
    rw [hk]
    unfold grownTableClusters
    rw [hsame.size]
  have hN := g.blockEntries_pos
  have hl := (Nat.div_eq_iff hN).1 hat
  have hl' := (Nat.div_eq_iff hN).1 hke
  obtain ⟨s₂, hgrow, h₂, ht₂, hne₂, hblock₂, hin₂, hkeep₂, honly₂⟩ := growRefcountTable_ok h₁ (t := t) (k := k)
    (by rw [hsame.size]; exact hst) hk₁ (by rw [hfree₁]; exact (Nat.div_eq_iff hN).2 (by omega))
    (by rw [hfree₁]; exact hke) (by rw [hfree₁]; exact hlt) depth
  obtain ⟨buf, hload, hc₃⟩ := loadOrNew_ok h₂.noFaults h₂.cache ht₂ hne₂ (updateRefcount g (depth + 2))
  obtain ⟨s₃, hs₃⟩ : ∃ s₃, s₃ = recache s₂ buf (s₂.refcountTable t) := ⟨_, rfl⟩
  have h₃ : RefcountsOk g s₃ (addRange X a m 1) := by
    rw [hs₃]
    exact ⟨h₂.noFaults, hc₃, h₂.blocks, h₂.tableFree, h₂.sizePos, h₂.header⟩
  have hhas₃ : ∀ d, d / g.blockEntries = t → HasBlock g s₃.refcountTable s₃.refcountTableSize d := by
    rw [hs₃]
    exact fun d hd => ⟨hd ▸ ht₂, hd ▸ hne₂⟩
  have halloc : allocRefcountBlock g (updateRefcount g (depth + 2)) s₁ (a + m) = (.ok (s₂.refcountTable t), s₃) := by
    unfold allocRefcountBlock
    rw [hat, if_pos (by rw [hsame.size]; exact hst), hgrow]
    simp only
    rw [hload, hs₃]
  have halloc₃ : allocRefcountBlock g (updateRefcount g (depth + 2)) s₃ (a + m) = (.ok (s₂.refcountTable t), s₃) := by
    have htab : s₃.refcountTable = s₂.refcountTable := by rw [hs₃]; rfl
    have hcached : s₃.refcountBlockCacheOffset = s₂.refcountTable t := by rw [hs₃]; rfl
    rw [allocRefcountBlock_cached _ (hhas₃ _ hat) (by rw [hat, htab, hcached]), hat, htab]
  have hrest : ∀ d, a + m ≤ d → d < a + m + (j + 1) →
      ¬ IsBlock g s₃.refcountTable s₃.refcountTableSize d ∧ addRange X a m 1 d = 0 := by
    intro d h1 h2
    have hd : addRange X a m 1 d = 0 := by
      unfold addRange
      rw [if_neg (by omega), hX d (by omega) (by omega)]
    refine ⟨fun hb => ?_, hd⟩
    rw [hs₃] at hb
    rcases (hblock₂ d).1 hb with hb | hb
    · rw [hsame.table, hsame.size] at hb
      exact (hfree d (by omega) (by omega)).1 hb
    · rw [hfree₁] at hb
      omega
  have hin₃ : ∀ d, a + m ≤ d → d < a + m + (j + 1) →
      ¬ InTable g s₃.refcountTableOffset s₃.refcountTableSize d := by
    intro d h1 h2 hd
    rw [hs₃] at hd
    have := (hin₂ d).1 hd
    omega
  obtain ⟨s', hupd, hsame', hc', hfile', hb', -⟩ := updateClusters_ok h₃.noFaults h₃.cache h₃.blocks
    (updateRefcount g (depth + 2)) 1 (n := j + 1) (c := a + m) (fun d h1 h2 => hhas₃ d (hmt d h1 (by omega)))
    (fun d h1 h2 => (hrest d h1 h2).1) (fun d h1 h2 => by
      unfold tableY
      rw [if_neg (hin₃ d h1 h2), (hrest d h1 h2).2]
      omega)
  have honly₃ : RefcountsOnly s₂ s₃ := by rw [hs₃]; rfl
  refine ⟨s', ?_, ?_, ?_, ?_⟩
  · rw [hloop, updateClusters_alloc 1 halloc halloc₃, hupd]
  · rw [← addRange_add]
    refine h₃.of_addRange hin₃ (header_addRange h₃.header (by omega)) hsame'.faults hc' ?_ hsame'.size hsame'.offset
    unfold BlocksOf
    rw [hsame'.table, hsame'.size, hsame'.offset]
    exact hb'
  · intro i hi hh
    have hi₁ : 0 < addRange X a m 1 (i / g.clusterSize) := by
      unfold addRange
      split_ifs <;> omega
    have hfile₃ : s₃.file = s₂.file := by rw [hs₃]; rfl
    rw [hfile', addRefcounts_of_not_isBlock h₃.blocks.aligned (fun d h1 h2 => hhas₃ d (hmt d h1 (by omega)))
      (h₃.used hi₁).1, hfile₃, hkeep₂ i hi₁ hh, hfile₁]
    exact addRefcounts_of_not_isBlock h.blocks.aligned (fun d h1 h2 => hfirst d h1 (by omega) (hm d h1 h2))
      (h.used hi).1
  · exact hsame.refcountsOnly.trans (honly₂.trans (honly₃.trans hsame'.refcountsOnly))

/-- `Fits` determines the one block that can be missing. -/
theorem Fits.missing {a n : ℕ} (h : Fits g s a n) (hfci : s.freeClusterIndex = a + n) {c d : ℕ}
    (hc : a ≤ c) (hc' : c < a + n) (hmc : ¬ HasBlock g s.refcountTable s.refcountTableSize c)
    (hd : a ≤ d) (hd' : d < a + n) (hmd : ¬ HasBlock g s.refcountTable s.refcountTableSize d) :
    d / g.blockEntries = c / g.blockEntries := by
  have h1 := h.block c hc hc' hmc
  have h2 := h.block d hd hd' hmd
  have h3 : d / g.blockEntries ≤ c / g.blockEntries := h1 ▸ Nat.div_le_div_right (by omega)
  have h4 : c / g.blockEntries ≤ d / g.blockEntries := h2 ▸ Nat.div_le_div_right (by omega)
  omega

/-- The refcounts of newly found clusters are set. -/
theorem updateRefcount_alloc (h : RefcountsOk g s X) {a size : ℕ} (hpos : 0 < size)
    (hfci : s.freeClusterIndex = a + g.sizeToClusters size) (hfit : Fits g s a (g.sizeToClusters size))
    (hzero : ∀ c, a ≤ c → c < a + g.sizeToClusters size → storedRefcount g s c = 0) (depth : ℕ) :
    ∃ s', updateRefcount g (depth + 3) s (a * g.clusterSize) size 1 = (.ok (), s') ∧
      RefcountsOk g s' (addRange X a (g.sizeToClusters size) 1) ∧ Keeps g (fun c => 0 < X c) s s' ∧
      RefcountsOnly s s' := by
  rw [updateRefcount_aligned (depth + 2) a s hpos]
  have hn := sizeToClusters_pos (g := g) hpos
  generalize g.sizeToClusters size = n at *
  have hcs := g.clusterSize_pos
  have hN := g.blockEntries_pos
  have hfree := fun d h1 h2 => h.free (c := d) (hzero d h1 h2)
  have hY : ∀ d, a ≤ d → d < a + n → tableY g s X d = 0 := by
    intro d h1 h2
    unfold tableY
    rw [if_neg (hfree d h1 h2).2.1, (hfree d h1 h2).2.2]
  by_cases hall : ∀ d, a ≤ d → d < a + n → HasBlock g s.refcountTable s.refcountTableSize d
  · obtain ⟨s', hupd, hsame, hc, hfile, hb, -⟩ := updateClusters_ok h.noFaults h.cache h.blocks
      (updateRefcount g (depth + 2)) 1 hall (fun d h1 h2 => (hfree d h1 h2).1)
      (fun d h1 h2 => by rw [hY d h1 h2]; omega)
    refine ⟨s', hupd, ?_, ?_, hsame.refcountsOnly⟩
    · refine h.of_addRange (fun c h1 h2 => (hfree c h1 h2).2.1) (header_addRange h.header (by omega)) hsame.faults hc ?_
        hsame.size hsame.offset
      unfold BlocksOf
      rw [hsame.table, hsame.size, hsame.offset]
      exact hb
    · intro i hi _
      rw [hfile]
      exact addRefcounts_of_not_isBlock h.blocks.aligned hall (h.used hi).1
  · -- a block is missing, and it is the last one
    push Not at hall
    obtain ⟨c, hc1, hc2, hmiss⟩ := hall
    have hblk := hfit.block c hc1 hc2 hmiss
    have hroom := hfit.blockRoom c hc1 hc2 hmiss
    have hfirst : ∀ d, a ≤ d → d < a + n → d / g.blockEntries ≠ c / g.blockEntries →
        HasBlock g s.refcountTable s.refcountTableSize d := by
      intro d h1 h2 hd
      by_contra hm
      exact hd (hfit.missing hfci hc1 hc2 hmiss h1 h2 hm)
    have h1 := (Nat.div_eq_iff hN).1 hblk
    have h2 := (Nat.div_eq_iff (x := c) hN).1 rfl
    have hlast : (a + n - 1) / g.blockEntries = c / g.blockEntries := (Nat.div_eq_iff hN).2 (by omega)
    have hle64 : ∀ x, (x + 1) * g.clusterSize ≤ 2 ^ 62 → x * g.clusterSize < 2 ^ 64 := by
      intro x hx
      rw [Nat.add_mul] at hx
      omega
    unfold tableGrowth at hblk hroom h1
    split_ifs at hblk hroom h1 with hsize
    · exact updateClusters_grow h hn hsize rfl hfci hfirst hlast hblk (hle64 _ hroom) hzero depth
    · have h0 : s.refcountTable (c / g.blockEntries) = 0 := by
        by_contra h0
        exact hmiss ⟨by omega, h0⟩
      have hfz : storedRefcount g s s.freeClusterIndex = 0 := by
        refine refcountIn_of_not_hasBlock fun hb => hb.2 ?_
        rw [show s.freeClusterIndex / g.blockEntries = c / g.blockEntries from hblk]
        exact h0
      obtain ⟨s', hupd, hc', hb', htab', hsize', hoff', honly', hkeep'⟩ := updateClusters_newBlock h.noFaults h.cache
        h.blocks hn (by omega) h0 hfirst hlast hblk (by omega) (h.free hfz).2.1 (hle64 _ hroom)
        (fun d h1 h2 => (hfree d h1 h2).1) (fun d h1 h2 => by rw [hY d h1 h2]; omega) (depth + 1)
      have h' : RefcountsOk g s' (addRange X a n 1) :=
        h.of_addRange (fun c h1 h2 => (hfree c h1 h2).2.1) (header_addRange h.header (by omega)) honly'.faults hc' hb'
          hsize' hoff'
      refine ⟨s', hupd, h', ?_, honly'⟩
      intro i hi _
      have hi' : 0 < addRange X a n 1 (i / g.clusterSize) := by
        unfold addRange
        split_ifs <;> omega
      exact hkeep' i (h'.used hi').1 (h.used hi).2

/-- **Allocated clusters had no reference before and have one afterwards.** -/
theorem qcow2AllocClusters_ok (h : RefcountsOk g s X) {size : ℕ} (hpos : 0 < size) (hfit : AllocFits g s size) :
    ∃ a s', qcow2AllocClusters g s size = (a * g.clusterSize, s') ∧ 1 ≤ a ∧
      (a + g.sizeToClusters size) * g.clusterSize ≤ 2 ^ 62 ∧
      (∀ c, a ≤ c → c < a + g.sizeToClusters size → X c = 0) ∧
      RefcountsOk g s' (addRange X a (g.sizeToClusters size) 1) ∧ Keeps g (fun c => 0 < X c) s s' ∧
      RefcountsOnly s s' := by
  have hn := sizeToClusters_pos (g := g) hpos
  obtain ⟨buf, offset, a, halloc, hc, -, hzero, -⟩ := allocClustersNoref_ok h.noFaults h.cache size
  unfold AllocFits at hfit
  rw [halloc, Nat.mul_div_cancel a g.clusterSize_pos] at hfit
  obtain ⟨s₁, hs₁⟩ : ∃ s₁, s₁ = setFree (recache s buf offset) (a + g.sizeToClusters size) := ⟨_, rfl⟩
  rw [← hs₁] at halloc hfit
  have h₁ : RefcountsOk g s₁ X := by
    rw [hs₁]
    exact ⟨h.noFaults, ⟨hc.block, hc.coherent⟩, h.blocks, h.tableFree, h.sizePos, h.header⟩
  obtain ⟨s', hupd, h', hkeep, honly⟩ := updateRefcount_alloc h₁ hpos (by rw [hs₁]; rfl) hfit
    (by rw [hs₁]; exact hzero) (updateDepth g s₁ size - 3)
  refine ⟨a, s', ?_, h.one_le_of_free (hzero a le_rfl (by omega)), hfit.room,
    fun c h1 h2 => (h.free (hzero c h1 h2)).2.2, h', ?_, ?_⟩
  · unfold qcow2AllocClusters
    simp only [halloc]
    rw [show updateDepth g s₁ size = updateDepth g s₁ size - 3 + 3 by unfold updateDepth; omega, hupd]
  · have hfile₁ : s₁.file = s.file := by rw [hs₁]; rfl
    exact fun i hi hh => (hkeep i hi hh).trans (by rw [hfile₁])
  · exact (show RefcountsOnly s s₁ by rw [hs₁]; rfl).trans honly

/-! ## Changing the refcounts of clusters in use -/

/-- **The references to clusters in use change by `addend`.** -/
theorem updateRefcount_used (h : RefcountsOk g s X) {offset size : ℕ} (hpos : 0 < size) {addend : ℤ}
    (ha : -1 ≤ addend)
    (hX : ∀ d, offset / g.clusterSize ≤ d → d < offset / g.clusterSize + clustersOf g offset size →
      0 < X d ∧ (X d : ℤ) + addend ≤ 65535)
    (hhead : 0 < addRange X (offset / g.clusterSize) (clustersOf g offset size) addend 0) (depth : ℕ) :
    ∃ s', updateRefcount g (depth + 1) s offset size addend = (.ok (), s') ∧
      RefcountsOk g s' (addRange X (offset / g.clusterSize) (clustersOf g offset size) addend) ∧
      Keeps g (fun c => 0 < X c) s s' ∧ RefcountsOnly s s' := by
  rw [updateRefcount, if_neg (by omega)]
  generalize offset / g.clusterSize = a at *
  generalize clustersOf g offset size = n at *
  have hY : ∀ d, a ≤ d → d < a + n → tableY g s X d = X d := fun d h1 h2 => if_neg (h.used (hX d h1 h2).1).2
  have hb : ∀ d, a ≤ d → d < a + n → HasBlock g s.refcountTable s.refcountTableSize d := by
    intro d h1 h2
    have hd := (hX d h1 h2).1
    have hst := h.stored hd
    exact hasBlock_of_refcountIn (show refcountIn g s.file _ _ d ≠ 0 by
      unfold storedRefcount at hst
      omega)
  obtain ⟨s', hupd, hsame, hc, hfile, hb', -⟩ := updateClusters_ok h.noFaults h.cache h.blocks
    (updateRefcount g depth) addend hb (fun d h1 h2 => (h.used (hX d h1 h2).1).1)
    (fun d h1 h2 => by
      have := hX d h1 h2
      rw [hY d h1 h2]
      omega)
  refine ⟨s', hupd, ?_, ?_, hsame.refcountsOnly⟩
  · refine h.of_addRange (fun c h1 h2 => (h.used (hX c h1 h2).1).2) hhead hsame.faults hc ?_ hsame.size hsame.offset
    unfold BlocksOf
    rw [hsame.table, hsame.size, hsame.offset]
    exact hb'
  · intro i hi _
    rw [hfile]
    exact addRefcounts_of_not_isBlock h.blocks.aligned hb (h.used hi).1

/-- **Freed clusters lose a reference.** -/
theorem qcow2FreeClusters_ok (h : RefcountsOk g s X) {offset size : ℕ} (hpos : 0 < size)
    (hX : ∀ d, offset / g.clusterSize ≤ d → d < offset / g.clusterSize + clustersOf g offset size → 0 < X d)
    (hhead : 0 < addRange X (offset / g.clusterSize) (clustersOf g offset size) (-1) 0) :
    RefcountsOk g (qcow2FreeClusters g s offset size)
      (addRange X (offset / g.clusterSize) (clustersOf g offset size) (-1)) ∧
      Keeps g (fun c => 0 < X c) s (qcow2FreeClusters g s offset size) ∧
      RefcountsOnly s (qcow2FreeClusters g s offset size) := by
  obtain ⟨s', hupd, h', hkeep, honly⟩ := updateRefcount_used h hpos le_rfl
    (fun d h1 h2 => by
      have hd := hX d h1 h2
      have hst := h.stored hd
      have := refcountIn_le (g := g) s.file s.refcountTable s.refcountTableSize d
      unfold storedRefcount at hst
      omega) hhead (updateDepth g s size - 1)
  have heq : qcow2FreeClusters g s offset size = s' := by
    unfold qcow2FreeClusters
    rw [show updateDepth g s size = updateDepth g s size - 1 + 1 by unfold updateDepth; omega, hupd]
  rw [heq]
  exact ⟨h', hkeep, honly⟩

end Emulator.Qcow2
