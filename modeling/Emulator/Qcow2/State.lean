import Emulator.Lib.Bytes

/-!
# The state of an open qcow2 image

`Image` is what `qcow_open` fixes for good, `BDRVQcowState` what changes afterwards: the
bytes of the image file, the in-memory tables and the three caches (L2 tables, one
refcount block, one decompressed cluster). The memory of a cache is kept in file order,
as in the source; the L1 and the refcount table are in cpu order.

`faults` decides which of the next `bdrv_pread` and `bdrv_pwrite` calls on the image file
fail; an empty list is a run without I/O error. `l1TableFreed` says that the memory of the
L1 table has been given back.
-/

namespace Emulator.Qcow2

/-- `QCOW_OFLAG_COMPRESSED` is set. -/
abbrev IsCompressed (v : ℕ) : Prop := v / 2 ^ 62 % 2 = 1

/-- `v & ~QCOW_OFLAG_COPIED` of a 64-bit value. -/
def clearCopied (v : ℕ) : ℕ := v % 2 ^ 63

/-- `v | QCOW_OFLAG_COPIED` of a 64-bit value. -/
def setCopied (v : ℕ) : ℕ := v % 2 ^ 63 + 2 ^ 63

/-- `L2_CACHE_SIZE`. -/
def l2CacheSize : ℕ := 16

inductive Errno where
  | eio
  | einval
  | enoent
deriving DecidableEq, Repr

/-- The AES key of an encrypted image: what `qcow2_encrypt_sectors` makes of the sector of a given number when it is
read. -/
structure Crypt where
  dec : ℕ → Bytes → Bytes

/-- What `qcow_open` fixes for good. `inflate` is `decompress_buffer` for one cluster: whether it succeeds, and
what it leaves in its output buffer. It succeeds where the cluster is full, so that two inputs that begin alike and
both succeed give the same cluster. -/
structure Image where
  clusterBits : ℕ
  minClusterBits : 9 ≤ clusterBits
  maxClusterBits : clusterBits ≤ 16
  crypt : Option Crypt
  inflate : Bytes → ℕ → Bool × Bytes
  inflate_agrees : ∀ {f : Bytes} {n n' : ℕ}, (inflate f n).1 = true → (inflate f n').1 = true →
    inflate f n' = inflate f n

/-- A `decompress_buffer` that always fails is one that an image may have. -/
theorem failing_agrees {f : Bytes} {n n' : ℕ}
    (h : ((fun _ _ => (false, fun _ => 0) : Bytes → ℕ → Bool × Bytes) f n).1 = true)
    (_ : ((fun _ _ => (false, fun _ => 0) : Bytes → ℕ → Bool × Bytes) f n').1 = true) :
    (fun _ _ => (false, fun _ => 0) : Bytes → ℕ → Bool × Bytes) f n' = (fun _ _ => (false, fun _ => 0)) f n :=
  absurd h Bool.false_ne_true

/-- One entry of `s->snapshots`. -/
structure QCowSnapshot where
  l1TableOffset : ℕ
  l1Size : ℕ
  idStr : List UInt8
  name : List UInt8
  vmStateSize : ℕ
  dateSec : ℕ
  dateNsec : ℕ
  vmClockNsec : ℕ

structure BDRVQcowState where
  file : Bytes
  faults : List (Option Bytes)
  l1Size : ℕ
  l1TableOffset : ℕ
  l1Table : ℕ → ℕ
  l1TableFreed : Bool
  l2Cache : Bytes
  l2CacheOffsets : ℕ → ℕ
  l2CacheCounts : ℕ → ℕ
  clusterCache : Bytes
  clusterCacheOffset : ℤ
  refcountTable : ℕ → ℕ
  refcountTableOffset : ℕ
  refcountTableSize : ℕ
  refcountBlockCacheOffset : ℕ
  refcountBlockCache : Bytes
  freeClusterIndex : ℕ
  freeByteOffset : ℕ
  snapshotsOffset : ℕ
  snapshotsSize : ℤ
  snapshots : List QCowSnapshot

namespace Image

variable (g : Image)

def clusterSize : ℕ := 2 ^ g.clusterBits

def clusterSectors : ℕ := 2 ^ (g.clusterBits - 9)

def l2Bits : ℕ := g.clusterBits - 3

def l2Size : ℕ := 2 ^ g.l2Bits

/-- `1 << (s->cluster_bits - REFCOUNT_SHIFT)`: the refcounts in a block. -/
def blockEntries : ℕ := 2 ^ (g.clusterBits - 1)

/-- `size_to_clusters`. The source keeps the result in an `int`: below 2^31 clusters the two are the same. -/
def sizeToClusters (size : ℕ) : ℕ := (size + (g.clusterSize - 1)) / g.clusterSize

def csizeShift : ℕ := 62 - (g.clusterBits - 8)

theorem clusterSectors_pos : 0 < g.clusterSectors := Nat.two_pow_pos _

theorem clusterSize_eq : g.clusterSize = 512 * g.clusterSectors := by
  have h := g.minClusterBits
  unfold clusterSize clusterSectors
  rw [show (512 : ℕ) = 2 ^ 9 from rfl, ← pow_add]
  congr 1
  omega

theorem l2Size_eq : g.l2Size = 64 * g.clusterSectors := by
  have h := g.minClusterBits
  unfold l2Size l2Bits clusterSectors
  rw [show (64 : ℕ) = 2 ^ 6 from rfl, ← pow_add]
  congr 1
  omega

theorem blockEntries_eq : g.blockEntries = 256 * g.clusterSectors := by
  have h := g.minClusterBits
  unfold blockEntries clusterSectors
  rw [show (256 : ℕ) = 2 ^ 8 from rfl, ← pow_add]
  congr 1
  omega

theorem clusterSize_pos : 0 < g.clusterSize := Nat.two_pow_pos _

theorem l2Size_pos : 0 < g.l2Size := Nat.two_pow_pos _

theorem blockEntries_pos : 0 < g.blockEntries := Nat.two_pow_pos _

theorem clusterSize_eq_blockEntries : g.clusterSize = 2 * g.blockEntries := by
  rw [clusterSize_eq, blockEntries_eq]
  omega

theorem clusterSize_eq_l2Size : g.clusterSize = 8 * g.l2Size := by
  rw [clusterSize_eq, l2Size_eq]
  omega

end Image

namespace BDRVQcowState

/-- `bdrv_pread` on the image file: whether it succeeds, and the bytes it leaves in its buffer. -/
def bdrvPread (s : BDRVQcowState) (offset : ℕ) : Bool × Bytes × BDRVQcowState :=
  match s.faults with
  | [] => (true, s.file.from offset, s)
  | none :: fs => (true, s.file.from offset, { s with faults := fs })
  | some garbage :: fs => (false, garbage, { s with faults := fs })

/-- `bdrv_pwrite` on the image file. -/
def bdrvPwrite (s : BDRVQcowState) (offset len : ℕ) (buf : Bytes) : Bool × BDRVQcowState :=
  match s.faults with
  | [] => (true, { s with file := s.file.write offset len buf })
  | none :: fs => (true, { s with file := s.file.write offset len buf, faults := fs })
  | some _ :: fs => (false, { s with faults := fs })

variable {s : BDRVQcowState}

theorem bdrvPread_ok (h : s.faults = []) (offset : ℕ) : s.bdrvPread offset = (true, s.file.from offset, s) := by
  unfold bdrvPread
  rw [h]

theorem bdrvPwrite_ok (h : s.faults = []) (offset len : ℕ) (buf : Bytes) :
    s.bdrvPwrite offset len buf = (true, { s with file := s.file.write offset len buf }) := by
  unfold bdrvPwrite
  rw [h]

end BDRVQcowState

end Emulator.Qcow2
