import Emulator.Qcow2.Refcount

/-!
# L2 tables and reading guest clusters

The functions of `qcow2-cluster.c` that reading uses. A pointer into the L2 cache is the number of its slot.
-/

namespace Emulator.Qcow2

open Function BDRVQcowState

variable (g : Image)

/-- The guest bytes that one L1 entry covers: `1 << (s->l2_bits + s->cluster_bits)`. -/
def Image.l1Span : ℕ := 2 ^ (g.l2Bits + g.clusterBits)

/-- The least used slot: the first of those with the smallest count. -/
def l2CacheNewEntry (s : BDRVQcowState) : ℕ :=
  ((List.range l2CacheSize).foldl (fun (m : ℕ × ℕ) i =>
    if s.l2CacheCounts i < m.2 then (i, s.l2CacheCounts i) else m) (0, 0xffffffff)).1

def seekL2Table (s : BDRVQcowState) (l2Offset : ℕ) : Option ℕ × BDRVQcowState :=
  match (List.range l2CacheSize).find? fun i => l2Offset = s.l2CacheOffsets i with
  | none => (none, s)
  | some i =>
    let counts := update s.l2CacheCounts i ((s.l2CacheCounts i + 1) % 2 ^ 32)
    (some i, { s with l2CacheCounts := if counts i = 0xffffffff then fun j => counts j / 2 else counts })

/-- The table in a slot of the cache is filled with `buf`. -/
def fillSlot (s : BDRVQcowState) (slot : ℕ) (buf : Bytes) : BDRVQcowState :=
  { s with l2Cache := s.l2Cache.write (slot * g.clusterSize) g.clusterSize buf }

/-- The slot belongs to the table at `l2Offset` from now on. -/
def claimSlot (s : BDRVQcowState) (slot l2Offset : ℕ) : BDRVQcowState :=
  { s with
    l2CacheOffsets := update s.l2CacheOffsets slot l2Offset
    l2CacheCounts := update s.l2CacheCounts slot 1 }

def l2Load (s : BDRVQcowState) (l2Offset : ℕ) : Option ℕ × BDRVQcowState :=
  match seekL2Table s l2Offset with
  | (some slot, s) => (some slot, s)
  | (none, s) =>
    let minIndex := l2CacheNewEntry s
    let (ok, buf, s) := s.bdrvPread l2Offset
    let s := fillSlot g s minIndex buf
    if ok then (some minIndex, claimSlot s minIndex l2Offset) else (none, s)

/-- `be64_to_cpu (l2_table[l2_index + i])`. -/
def l2Entry (s : BDRVQcowState) (slot l2Index i : ℕ) : ℕ :=
  beRead s.l2Cache (slot * g.clusterSize + 8 * (l2Index + i)) 8

/-- The loop of `count_contiguous_clusters`: the entries from `i` on that follow each other. -/
def contiguousFrom (entry : ℕ → ℕ) (offset : ℕ) : ℕ → ℕ → ℕ
  | 0, _ => 0
  | nb + 1, i => if offset + i * g.clusterSize ≠ entry i then 0 else contiguousFrom entry offset nb (i + 1) + 1

/-- `entry` is the table with the flags of the mask cleared. -/
def countContiguousClusters (nbClusters : ℕ) (entry : ℕ → ℕ) (start : ℕ) : ℕ :=
  if entry 0 = 0 then 0 else contiguousFrom g entry (entry 0) nbClusters start

def countContiguousFreeClusters (entry : ℕ → ℕ) : ℕ → ℕ → ℕ
  | 0, _ => 0
  | nb + 1, i => if entry i = 0 then countContiguousFreeClusters entry nb (i + 1) + 1 else 0

/-- The host offset of a guest offset, `0` if it is not allocated, and the number of sectors from there on that
may be read in one go. -/
def qcow2GetClusterOffset (s : BDRVQcowState) (offset num : ℕ) : ℕ × ℕ × BDRVQcowState :=
  let indexInCluster := offset / 512 % g.clusterSectors
  let nbAvailable := (g.l1Span - offset % g.l1Span) / 512 + indexInCluster
  let nbNeeded := min (num + indexInCluster) nbAvailable
  let l1Index := offset / g.l1Span
  if s.l1Size ≤ l1Index ∨ s.l1Table l1Index = 0 then (0, min nbAvailable nbNeeded - indexInCluster, s)
  else
    match l2Load g s (clearCopied (s.l1Table l1Index)) with
    | (none, s) => (0, num, s)
    | (some slot, s) =>
      let l2Index := offset / g.clusterSize % g.l2Size
      let clusterOffset := l2Entry g s slot l2Index 0
      let nbClusters := g.sizeToClusters (nbNeeded * 512)
      let c :=
        if clusterOffset = 0 then countContiguousFreeClusters (l2Entry g s slot l2Index) nbClusters 0
        else countContiguousClusters g nbClusters (fun i => clearCopied (l2Entry g s slot l2Index i)) 0
      (clearCopied clusterOffset, min (c * g.clusterSectors) nbNeeded - indexInCluster, s)

/-- `qcow2_encrypt_sectors` in the direction of `f`. -/
def encryptSectors (f : ℕ → Bytes → Bytes) (sectorNum : ℕ) (buf : Bytes) : Bytes :=
  fun i => f (sectorNum + i / 512) (buf.from (i / 512 * 512)) (i % 512)

def decryptIfNeeded (sectorNum : ℕ) (buf : Bytes) : Bytes :=
  match g.crypt with
  | none => buf
  | some c => encryptSectors c.dec sectorNum buf

def qcow2DecompressCluster (s : BDRVQcowState) (clusterOffset : ℕ) : Bool × BDRVQcowState :=
  let coffset := maskedOffset g clusterOffset
  if s.clusterCacheOffset = (coffset : ℤ) then (true, s)
  else
    let (ok, buf, s) := s.bdrvPread (coffset / 512 * 512)
    if ¬ ok then (false, s)
    else
      let sectorOffset := coffset % 512
      let (ok, out) := g.inflate (buf.from sectorOffset) (nbCsectors g clusterOffset * 512 - sectorOffset)
      let s := { s with clusterCache := out }
      if ¬ ok then (false, s) else (true, { s with clusterCacheOffset := coffset })

end Emulator.Qcow2
