import Emulator.Qcow2.State

/-!
# Refcounts and cluster allocation

The functions of `qcow2-refcount.c`. `update_refcount`, `alloc_refcount_block` and
`grow_refcount_table` call each other; `updateRefcount` carries the depth of that
recursion as its first argument and the two others take the function they call back as a
parameter.
-/

namespace Emulator.Qcow2

open BDRVQcowState

variable (g : Image)

def loadRefcountBlock (s : BDRVQcowState) (refcountBlockOffset : ℕ) : Bool × BDRVQcowState :=
  let (ok, buf, s) := s.bdrvPread refcountBlockOffset
  if ok then
    (true, { s with refcountBlockCache := buf, refcountBlockCacheOffset := refcountBlockOffset })
  else
    (false, { s with refcountBlockCache := buf })

/-- `get_refcount`. The index of the table is an `int` in the source, below 2^31 for every cluster of a file that
`alloc_clusters_noref` can reach. -/
def getRefcount (s : BDRVQcowState) (clusterIndex : ℕ) : ℕ × BDRVQcowState :=
  let refcountTableIndex := clusterIndex / g.blockEntries
  let blockIndex := clusterIndex % g.blockEntries
  if s.refcountTableSize ≤ refcountTableIndex then (0, s)
  else
    let refcountBlockOffset := s.refcountTable refcountTableIndex
    if refcountBlockOffset = 0 then (0, s)
    else if refcountBlockOffset ≠ s.refcountBlockCacheOffset then
      let (ok, s) := loadRefcountBlock s refcountBlockOffset
      -- "better than nothing: return allocated if read error"
      if ok then (beRead s.refcountBlockCache (2 * blockIndex) 2, s) else (1, s)
    else (beRead s.refcountBlockCache (2 * blockIndex) 2, s)

/-- The loop of `alloc_clusters_noref`: `k` free clusters have been seen in a row. -/
def allocScan (nbClusters : ℕ) : ℕ → ℕ → BDRVQcowState → BDRVQcowState
  | 0, _, s => s
  | fuel + 1, k, s =>
    if nbClusters ≤ k then s
    else
      let i := s.freeClusterIndex
      let (refcount, s) := getRefcount g { s with freeClusterIndex := i + 1 } i
      if refcount ≠ 0 then allocScan nbClusters fuel 0 s else allocScan nbClusters fuel (k + 1) s

/-- Past the refcount table every cluster is free, which bounds the number of rounds. -/
def allocClustersNoref (s : BDRVQcowState) (size : ℕ) : ℕ × BDRVQcowState :=
  let nbClusters := g.sizeToClusters size
  let s := allocScan g nbClusters (s.refcountTableSize * g.blockEntries + nbClusters + 1) 0 s
  ((s.freeClusterIndex - nbClusters) * g.clusterSize, s)

/-- The result type of a function that calls `update_refcount`. -/
abbrev Result (α : Type) := Except Errno α × BDRVQcowState

/-- The growth loop of `grow_refcount_table`, in clusters of the table. -/
def newTableClusters (minSize : ℕ) : ℕ → ℕ → ℕ
  | 0, k => k
  | fuel + 1, k =>
    let k := if k = 0 then 1 else (k * 3 + 1) / 2
    if minSize ≤ k * g.l2Size then k else newTableClusters minSize fuel k

/-- The clusters of the table after `grow_refcount_table (bs, min_size)`. -/
def grownTableClusters (s : BDRVQcowState) (minSize : ℕ) : ℕ :=
  newTableClusters g minSize minSize (s.refcountTableSize / g.l2Size)

/-- The 12 header bytes from `refcount_table_offset` on. -/
def refcountTableField (tableOffset clusters : ℕ) : Bytes :=
  fun i => if i < 8 then be 8 tableOffset i else be 4 clusters (i - 8)

def growRefcountTable (update : BDRVQcowState → ℕ → ℕ → ℤ → Result Unit) (s : BDRVQcowState) (minSize : ℕ) :
    Result Unit :=
  if minSize ≤ s.refcountTableSize then (.ok (), s)
  else
    let refcountTableClusters := grownTableClusters g s minSize
    let newTableSize := refcountTableClusters * g.l2Size
    let newTable := fun i => if i < s.refcountTableSize then s.refcountTable i else 0
    let (tableOffset, s) := allocClustersNoref g s (newTableSize * 8)
    let (ok, s) := s.bdrvPwrite tableOffset (newTableSize * 8) (beTable 8 newTable)
    let fail := fun s => (Except.error Errno.eio, (update s tableOffset (newTableSize * 8) (-1)).2)
    if ¬ ok then fail s
    else
      let (ok, s) := s.bdrvPwrite 48 12 (refcountTableField tableOffset refcountTableClusters)
      if ¬ ok then fail s
      else
        let oldTableOffset := s.refcountTableOffset
        let oldTableSize := s.refcountTableSize
        let s := { s with
          refcountTable := newTable
          refcountTableSize := newTableSize
          refcountTableOffset := tableOffset }
        let s := (update s tableOffset (newTableSize * 8) 1).2
        let s := (update s oldTableOffset (oldTableSize * 8) (-1)).2
        (.ok (), s)

/-- The branch of `alloc_refcount_block` that makes a new block. -/
def newRefcountBlock (update : BDRVQcowState → ℕ → ℕ → ℤ → Result Unit) (s : BDRVQcowState)
    (refcountTableIndex : ℕ) : Result ℕ :=
  let (offset, s) := allocClustersNoref g s g.clusterSize
  let s := { s with refcountBlockCache := fun _ => 0 }
  let (ok, s) := s.bdrvPwrite offset g.clusterSize s.refcountBlockCache
  if ¬ ok then (.error .einval, s)
  else
    let s := { s with refcountTable := Function.update s.refcountTable refcountTableIndex offset }
    let (ok, s) := s.bdrvPwrite (s.refcountTableOffset + refcountTableIndex * 8) 8 (be 8 offset)
    if ¬ ok then (.error .einval, s)
    else
      let s := { s with refcountBlockCacheOffset := offset }
      let s := (update s offset g.clusterSize 1).2
      (.ok offset, s)

/-- The second half of `alloc_refcount_block`. -/
def loadOrNewRefcountBlock (update : BDRVQcowState → ℕ → ℕ → ℤ → Result Unit) (s : BDRVQcowState)
    (refcountTableIndex : ℕ) : Result ℕ :=
  let refcountBlockOffset := s.refcountTable refcountTableIndex
  if refcountBlockOffset = 0 then newRefcountBlock g update s refcountTableIndex
  else if refcountBlockOffset ≠ s.refcountBlockCacheOffset then
    let (ok, s) := loadRefcountBlock s refcountBlockOffset
    if ok then (.ok refcountBlockOffset, s) else (.error .eio, s)
  else (.ok refcountBlockOffset, s)

def allocRefcountBlock (update : BDRVQcowState → ℕ → ℕ → ℤ → Result Unit) (s : BDRVQcowState)
    (clusterIndex : ℕ) : Result ℕ :=
  let refcountTableIndex := clusterIndex / g.blockEntries
  if s.refcountTableSize ≤ refcountTableIndex then
    match growRefcountTable g update s (refcountTableIndex + 1) with
    | (.error e, s) => (.error e, s)
    | (.ok (), s) => loadOrNewRefcountBlock g update s refcountTableIndex
  else loadOrNewRefcountBlock g update s refcountTableIndex

/-- Whole sectors of the block are written. -/
def writeRefcountBlockEntries (s : BDRVQcowState) (refcountBlockOffset firstIndex lastIndex : ℕ) :
    Bool × BDRVQcowState :=
  let firstIndex := firstIndex / 256 * 256
  let lastIndex := (lastIndex + 256) / 256 * 256
  s.bdrvPwrite (refcountBlockOffset + 2 * firstIndex) (2 * (lastIndex - firstIndex))
    (s.refcountBlockCache.from (2 * firstIndex))

/-- The block that the loop of `update_refcount` works on and its changed entries, `none` before the first round. -/
structure DirtyBlock where
  tableIndex : ℕ
  blockOffset : ℕ
  firstIndex : ℕ
  lastIndex : ℕ

/-- "Only write refcount block to disk when we are done with it". -/
def flushBlock (s : BDRVQcowState) (dirty : Option DirtyBlock) (tableIndex : ℕ) :
    Bool × Option DirtyBlock × BDRVQcowState :=
  match dirty with
  | none => (true, none, s)
  | some d =>
    if d.tableIndex ≠ tableIndex then
      let (ok, s) := writeRefcountBlockEntries s d.blockOffset d.firstIndex d.lastIndex
      (ok, none, s)
    else (true, some d, s)

/-- `first_index` and `last_index` extended to `block_index`. -/
def extendDirty (dirty : Option DirtyBlock) (tableIndex blockOffset blockIndex : ℕ) : DirtyBlock :=
  match dirty with
  | none => ⟨tableIndex, blockOffset, blockIndex, blockIndex⟩
  | some d => ⟨tableIndex, blockOffset, min blockIndex d.firstIndex, max blockIndex d.lastIndex⟩

/-- One round of the loop of `update_refcount`. -/
def updateCluster (alloc : BDRVQcowState → ℕ → Result ℕ) (addend : ℤ) (s : BDRVQcowState)
    (dirty : Option DirtyBlock) (clusterIndex : ℕ) : Result DirtyBlock :=
  let tableIndex := clusterIndex / g.blockEntries
  let blockIndex := clusterIndex % g.blockEntries
  match flushBlock s dirty tableIndex with
  | (false, _, s) => (.error .eio, s)
  | (true, dirty, s) =>
    match alloc s clusterIndex with
    | (.error e, s) => (.error e, s)
    | (.ok blockOffset, s) =>
      let refcount := (beRead s.refcountBlockCache (2 * blockIndex) 2 : ℤ) + addend
      if refcount < 0 ∨ 0xffff < refcount then (.error .einval, s)
      else
        let s := if refcount = 0 ∧ clusterIndex < s.freeClusterIndex then
            { s with freeClusterIndex := clusterIndex }
          else s
        (.ok (extendDirty dirty tableIndex blockOffset blockIndex),
          { s with refcountBlockCache := s.refcountBlockCache.write (2 * blockIndex) 2 (be 2 refcount.toNat) })

/-- The loop of `update_refcount` over `n` clusters, and the write after it. -/
def updateClusters (alloc : BDRVQcowState → ℕ → Result ℕ) (addend : ℤ) :
    ℕ → BDRVQcowState → Option DirtyBlock → ℕ → Result Unit
  | 0, s, none, _ => (.ok (), s)
  | 0, s, some d, _ =>
    if d.blockOffset = 0 then (.ok (), s)
    else
      let (ok, s) := writeRefcountBlockEntries s d.blockOffset d.firstIndex d.lastIndex
      if ok then (.ok (), s) else (.error .eio, s)
  | n + 1, s, dirty, clusterIndex =>
    match updateCluster g alloc addend s dirty clusterIndex with
    | (.error e, s) => (.error e, s)
    | (.ok d, s) => updateClusters alloc addend n s (some d) (clusterIndex + 1)

/-- The clusters that the bytes from `offset` on for `length` lie in. -/
def clustersOf (offset length : ℕ) : ℕ :=
  (offset + length - 1) / g.clusterSize + 1 - offset / g.clusterSize

def updateRefcount : ℕ → BDRVQcowState → ℕ → ℕ → ℤ → Result Unit
  | 0, s, _, _, _ => (.error .einval, s)
  | depth + 1, s, offset, length, addend =>
    if length = 0 then (.error .einval, s)
    else
      updateClusters g (allocRefcountBlock g (updateRefcount depth)) addend (clustersOf g offset length) s none
        (offset / g.clusterSize)

/-- Every level of the recursion makes a refcount block or a refcount table. -/
def updateDepth (s : BDRVQcowState) (length : ℕ) : ℕ := s.refcountTableSize + g.sizeToClusters length + 8

def qcow2AllocClusters (s : BDRVQcowState) (size : ℕ) : ℕ × BDRVQcowState :=
  let (offset, s) := allocClustersNoref g s size
  (offset, (updateRefcount g (updateDepth g s size) s offset size 1).2)

def qcow2FreeClusters (s : BDRVQcowState) (offset size : ℕ) : BDRVQcowState :=
  (updateRefcount g (updateDepth g s size) s offset size (-1)).2

/-- `update_cluster_refcount`: the refcount afterwards, `none` if it could not be changed. -/
def updateClusterRefcount (s : BDRVQcowState) (clusterIndex : ℕ) (addend : ℤ) : Option ℕ × BDRVQcowState :=
  match updateRefcount g (updateDepth g s 1) s (clusterIndex * g.clusterSize) 1 addend with
  | (.error _, s) => (none, s)
  | (.ok (), s) =>
    let (refcount, s) := getRefcount g s clusterIndex
    (some refcount, s)

/-- `nb_csectors` of a compressed entry. -/
def nbCsectors (clusterOffset : ℕ) : ℕ := clusterOffset / 2 ^ g.csizeShift % 2 ^ (g.clusterBits - 8) + 1

/-- `cluster_offset & s->cluster_offset_mask`. -/
def maskedOffset (clusterOffset : ℕ) : ℕ := clusterOffset % 2 ^ g.csizeShift

end Emulator.Qcow2
