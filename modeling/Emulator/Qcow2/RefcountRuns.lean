import Emulator.Qcow2.AllocScan

/-!
# Runs of the refcount functions

`RefcountReach` is what the rest of the driver does to an image by way of `qcow2-refcount.c`: it takes clusters,
gives back clusters that are in use, changes the refcount of a cluster in use, and writes to clusters in use. The
references `X` from outside of the refcount structures are counted along.

* `RefcountReach.ok`: `RefcountsOk` is kept, whatever refcount blocks and tables are made on the way;
* `getRefcount_reach`: so `get_refcount` gives the number of references, in every state that is reached;
* `qcow2AllocClusters_reach`: clusters that are handed out have no other use, and no data changes.
-/

namespace Emulator.Qcow2

open BDRVQcowState

variable {g : Image} {s : BDRVQcowState} {X : ℕ → ℕ}

theorem clustersOf_one (c : ℕ) : clustersOf g (c * g.clusterSize) 1 = 1 := by
  have hcs := g.clusterSize_pos
  rw [clustersOf_aligned c Nat.one_pos]
  unfold Image.sizeToClusters
  rw [Nat.add_sub_cancel' hcs, Nat.div_self hcs]

/-- Reading a refcount keeps the invariant. -/
theorem RefcountsOk.getRefcount (h : RefcountsOk g s X) (c : ℕ) :
    ∃ s', getRefcount g s c = (storedRefcount g s c, s') ∧ RefcountsOk g s' X := by
  obtain ⟨buf, offset, hget, hcache⟩ := getRefcount_ok h.noFaults h.cache c
  exact ⟨_, hget, h.noFaults, hcache, h.blocks, h.tableFree, h.sizePos, h.header⟩

/-- **`update_cluster_refcount`** returns the new number of references. -/
theorem updateClusterRefcount_ok (h : RefcountsOk g s X) {c : ℕ} {addend : ℤ} (hc : 0 < X c) (ha : -1 ≤ addend)
    (hmax : (X c : ℤ) + addend ≤ 65535) (hhead : 0 < addRange X c 1 addend 0) :
    ∃ refcount s', updateClusterRefcount g s c addend = (some refcount, s') ∧
      RefcountsOk g s' (addRange X c 1 addend) ∧
        (0 < addRange X c 1 addend c → refcount = addRange X c 1 addend c) := by
  have hdiv : c * g.clusterSize / g.clusterSize = c := Nat.mul_div_cancel c g.clusterSize_pos
  have hupdate := @updateRefcount_used g s X h (c * g.clusterSize) 1 Nat.one_pos addend ha
  rw [hdiv, clustersOf_one] at hupdate
  obtain ⟨s₁, hs₁, hok, -, -⟩ := hupdate (fun d h1 h2 => by
    obtain rfl : d = c := by omega
    exact ⟨hc, hmax⟩) hhead (updateDepth g s 1 - 1)
  obtain ⟨s', hget, hok'⟩ := hok.getRefcount c
  refine ⟨_, s', ?_, hok', hok.stored⟩
  unfold updateClusterRefcount
  rw [show updateDepth g s 1 = updateDepth g s 1 - 1 + 1 by unfold updateDepth; omega, hs₁]
  simp only [hget]

/-- The states that are reached from `s₀`, where the references from outside are `X₀`, and the references there. -/
inductive RefcountReach (g : Image) (s₀ : BDRVQcowState) (X₀ : ℕ → ℕ) : BDRVQcowState → (ℕ → ℕ) → Prop
  | start : RefcountReach g s₀ X₀ s₀ X₀
  | alloc {s : BDRVQcowState} {X : ℕ → ℕ} {size : ℕ} (h : RefcountReach g s₀ X₀ s X) (hpos : 0 < size)
      (hfit : AllocFits g s size) :
      RefcountReach g s₀ X₀ (qcow2AllocClusters g s size).2
        (addRange X ((qcow2AllocClusters g s size).1 / g.clusterSize) (g.sizeToClusters size) 1)
  | free {s : BDRVQcowState} {X : ℕ → ℕ} {offset size : ℕ} (h : RefcountReach g s₀ X₀ s X) (hpos : 0 < size)
      (hused : ∀ c, offset / g.clusterSize ≤ c → c < offset / g.clusterSize + clustersOf g offset size → 0 < X c)
      (hhead : 0 < addRange X (offset / g.clusterSize) (clustersOf g offset size) (-1) 0) :
      RefcountReach g s₀ X₀ (qcow2FreeClusters g s offset size)
        (addRange X (offset / g.clusterSize) (clustersOf g offset size) (-1))
  -- a snapshot is created or deleted
  | update {s : BDRVQcowState} {X : ℕ → ℕ} {c : ℕ} {addend : ℤ} (h : RefcountReach g s₀ X₀ s X) (hused : 0 < X c)
      (hone : addend = 1 ∨ addend = -1) (hmax : (X c : ℤ) + addend ≤ 65535) (hhead : 0 < addRange X c 1 addend 0) :
      RefcountReach g s₀ X₀ (updateClusterRefcount g s c addend).2 (addRange X c 1 addend)
  | write {s : BDRVQcowState} {X : ℕ → ℕ} {offset len : ℕ} {buf : Bytes} (h : RefcountReach g s₀ X₀ s X)
      (hused : ∀ i, offset ≤ i → i < offset + len → 0 < X (i / g.clusterSize)) :
      RefcountReach g s₀ X₀ (s.bdrvPwrite offset len buf).2 X

variable {s₀ : BDRVQcowState} {X₀ : ℕ → ℕ}

theorem RefcountsOk.write (h : RefcountsOk g s X) {offset len : ℕ} (buf : Bytes)
    (hused : ∀ i, offset ≤ i → i < offset + len → 0 < X (i / g.clusterSize)) :
    RefcountsOk g (s.bdrvPwrite offset len buf).2 X := by
  rw [bdrvPwrite_ok h.noFaults]
  refine h.congr ⟨rfl, rfl, rfl, rfl, rfl, rfl⟩ fun i hi => Bytes.write_of_not_mem ?_
  by_contra hin
  have hpos := hused i (by omega) (by omega)
  omega

/-- **Every operation keeps the refcounts exact.** -/
theorem RefcountReach.ok (h₀ : RefcountsOk g s₀ X₀) (h : RefcountReach g s₀ X₀ s X) : RefcountsOk g s X := by
  induction h with
  | start => exact h₀
  | alloc _ hpos hfit ih =>
    obtain ⟨a, s', halloc, -, -, -, hok, -⟩ := qcow2AllocClusters_ok ih hpos hfit
    rw [halloc, Nat.mul_div_cancel a g.clusterSize_pos]
    exact hok
  | free _ hpos hused hhead ih => exact (qcow2FreeClusters_ok ih hpos hused hhead).1
  | update _ hused hone hmax hhead ih =>
    obtain ⟨refcount, s', hupdate, hok, -⟩ := updateClusterRefcount_ok ih hused (by omega) hmax hhead
    rw [hupdate]
    exact hok
  | write _ hused ih => exact ih.write _ hused

/-- **`get_refcount` gives the number of references**, in every state that is reached: one for each cluster of the
refcount table and each refcount block, and `X` for any other. -/
theorem getRefcount_reach (h₀ : RefcountsOk g s₀ X₀) (h : RefcountReach g s₀ X₀ s X) (c : ℕ) :
    (IsBlock g s.refcountTable s.refcountTableSize c ∨ InTable g s.refcountTableOffset s.refcountTableSize c →
      (getRefcount g s c).1 = 1 ∧ X c = 0) ∧
    (¬ (IsBlock g s.refcountTable s.refcountTableSize c ∨ InTable g s.refcountTableOffset s.refcountTableSize c) →
      (getRefcount g s c).1 = X c) := by
  have hok := h.ok h₀
  obtain ⟨s', hget, -⟩ := hok.getRefcount c
  have hstored : (getRefcount g s c).1 = storedRefcount g s c := by rw [hget]
  rw [hstored]
  unfold storedRefcount
  have hfree : IsBlock g s.refcountTable s.refcountTableSize c → X c = 0 := fun hb => by
    by_contra hne
    exact (hok.used (Nat.pos_of_ne_zero hne)).1 hb
  constructor
  · rintro (hb | hin)
    · exact ⟨hok.blocks.blockCount c hb, hfree hb⟩
    · have hb : ¬ IsBlock g s.refcountTable s.refcountTableSize c := fun hb => hok.blocks.notInTable c hb hin
      exact ⟨(hok.blocks.count c hb).trans (if_pos hin), hok.tableFree c hin⟩
  · intro hno
    rw [not_or] at hno
    exact (hok.blocks.count c hno.1).trans (if_neg hno.2)

/-- The cluster behind the four is the first free one. -/
theorem fourClusterState_fits : AllocFits smallImage (fourClusterState []) 512 := by
  have ha : (allocClustersNoref smallImage (fourClusterState []) 512).1 / smallImage.clusterSize = 4 := by
    decide +kernel
  have hn : smallImage.sizeToClusters 512 = 1 := rfl
  have hblock : ∀ c, 4 ≤ c → c < 4 + 1 → HasBlock smallImage
      (allocClustersNoref smallImage (fourClusterState []) 512).2.refcountTable
      (allocClustersNoref smallImage (fourClusterState []) 512).2.refcountTableSize c := by
    intro c h1 h2
    obtain rfl : c = 4 := by omega
    exact ⟨(by decide : 4 / 256 < 64), (by decide : oneBlock (4 / 256) ≠ 0)⟩
  unfold AllocFits
  rw [ha, hn]
  exact ⟨fun c h1 h2 hno => absurd (hblock c h1 h2) hno, fun c h1 h2 hno => absurd (hblock c h1 h2) hno, by decide⟩

/-- A cluster is taken, and a snapshot refers to it. -/
def fourClustersTaken : BDRVQcowState :=
  (updateClusterRefcount smallImage (qcow2AllocClusters smallImage (fourClusterState []) 512).2 3 1).2

theorem fourClustersTaken_refcount : (getRefcount smallImage fourClustersTaken 3).1 = 2 := by
  have hstart : RefcountReach smallImage (fourClusterState []) fourReferences
    (fourClusterState []) fourReferences := .start
  have halloc := hstart.alloc (by decide) fourClusterState_fits
  have ha : (qcow2AllocClusters smallImage (fourClusterState []) 512).1 / smallImage.clusterSize = 4 := by
    decide +kernel
  rw [ha] at halloc
  have hone : (1 : ℤ) = 1 ∨ (1 : ℤ) = -1 := .inl rfl
  have hreach := halloc.update (c := 3) (by decide) hone (by decide) (by decide)
  have hused := (hreach.ok (fourClusterState_refcounts [])).used (c := 3) (by decide)
  exact ((getRefcount_reach (fourClusterState_refcounts []) hreach 3).2 (not_or.2 hused)).trans (by decide)

/-- **Clusters that are handed out have no other use**, in every state that is reached: nothing referred to them, no
refcount block and no part of the refcount table lies there, and the bytes in use stay what they were, apart from the
header fields of the refcount table. -/
theorem qcow2AllocClusters_reach (h₀ : RefcountsOk g s₀ X₀) (h : RefcountReach g s₀ X₀ s X) {size : ℕ}
    (hpos : 0 < size) (hfit : AllocFits g s size) :
    ∃ a s', qcow2AllocClusters g s size = (a * g.clusterSize, s') ∧
      (∀ c, a ≤ c → c < a + g.sizeToClusters size → X c = 0 ∧ (getRefcount g s' c).1 = 1 ∧
        ¬ IsBlock g s'.refcountTable s'.refcountTableSize c ∧
        ¬ InTable g s'.refcountTableOffset s'.refcountTableSize c) ∧
      (∀ i, 0 < X (i / g.clusterSize) → i < 48 ∨ 60 ≤ i → s'.file i = s.file i) := by
  obtain ⟨a, s', halloc, -, -, hfree, hok, hkeeps, -⟩ := qcow2AllocClusters_ok (h.ok h₀) hpos hfit
  refine ⟨a, s', halloc, fun c h1 h2 => ?_, hkeeps⟩
  have hone : addRange X a (g.sizeToClusters size) 1 c = 1 := by
    unfold addRange
    rw [if_pos ⟨h1, h2⟩, hfree c h1 h2]
    rfl
  have hused : 0 < addRange X a (g.sizeToClusters size) 1 c := hone ▸ Nat.one_pos
  obtain ⟨s'', hget, -⟩ := hok.getRefcount c
  refine ⟨hfree c h1 h2, ?_, hok.used hused⟩
  rw [hget, ← hone]
  exact hok.stored hused

theorem qcow2AllocClusters_reach_four : ∃ a s', qcow2AllocClusters smallImage (fourClusterState []) 512 =
    (a * 512, s') ∧ (∀ c, a ≤ c → c < a + 1 → fourReferences c = 0 ∧ (getRefcount smallImage s' c).1 = 1 ∧
      ¬ IsBlock smallImage s'.refcountTable s'.refcountTableSize c ∧
      ¬ InTable smallImage s'.refcountTableOffset s'.refcountTableSize c) ∧
    ∀ i, 0 < fourReferences (i / 512) → i < 48 ∨ 60 ≤ i → s'.file i = fourClusters i :=
  qcow2AllocClusters_reach (fourClusterState_refcounts []) .start (by decide) fourClusterState_fits

end Emulator.Qcow2
