import Emulator.Block.ByteAccess
import Emulator.Qcow2.Runs

/-!
# An image and its backing device

The AIO read of a qcow2 image whose unallocated sectors are those of a backing device. `Readable` is
what reads need of an image: nothing is assumed of its refcounts.

* `Readable.getClusterOffset_ok`: runs of the driver are allocated or unallocated as a whole.
* `aioRead_ok`: a sector is read as `shownByte` says.
-/

namespace Emulator.Qcow2

open BDRVQcowState Block

variable {σ : Type}

/-- An open image and `bs->backing_hd`. -/
structure Overlay (σ : Type) where
  s : BDRVQcowState
  backingHd : BlockDriverState σ

/-- `bs->total_sectors` of a device. -/
def totalSectors (bs : BlockDriverState σ) : ℕ := bs.device.length.toNat / 512

/-- The bytes of `n` sectors of the backing device. An error of `bdrv_aio_readv` ends the request in the source; here
the round goes on with zeros, and the results are about devices that answer. -/
def readBacking (o : Overlay σ) (sectorNum n : ℕ) : Bytes × Overlay σ :=
  if totalSectors o.backingHd ≤ sectorNum then (fun _ => 0, o)
  else
    match bdrvRead o.backingHd sectorNum n with
    | (.error _, backingHd) => (fun _ => 0, { o with backingHd := backingHd })
    | (.ok buf, backingHd) => (buf, { o with backingHd := backingHd })

/-- A round of `qcow_aio_read_cb` for the `n` sectors that `qcow2_get_cluster_offset` gave. -/
def aioReadRound (g : Image) (o : Overlay σ) (sectorNum n clusterOffset : ℕ) : Option Bytes × Overlay σ :=
  let indexInCluster := sectorNum % g.clusterSectors
  if clusterOffset = 0 then
    let (buf, o) := readBacking o sectorNum n
    (some buf, o)
  else if IsCompressed clusterOffset then
    let (_, s) := qcow2DecompressCluster g o.s clusterOffset
    (some (s.clusterCache.from (indexInCluster * 512)), { o with s := s })
  else if clusterOffset % 512 ≠ 0 then (none, o)
  else
    let (ok, buf, s) := o.s.bdrvPread (clusterOffset + indexInCluster * 512)
    (if ok then some (decryptIfNeeded g sectorNum buf) else none, { o with s := s })

/-- `qcow_aio_readv` up to its completion. -/
def aioRead (g : Image) : ℕ → Overlay σ → ℕ → ℕ → ℕ → Bytes → Option Bytes × Overlay σ
  | 0, o, _, nbSectors, _, buf => (if nbSectors = 0 then some buf else none, o)
  | fuel + 1, o, sectorNum, nbSectors, done, buf =>
    if nbSectors = 0 then (some buf, o)
    else
      let (clusterOffset, n, s) := qcow2GetClusterOffset g o.s (sectorNum * 512) nbSectors
      match aioReadRound g { o with s := s } sectorNum n clusterOffset with
      | (none, o) => (none, o)
      | (some data, o) =>
        aioRead g fuel o (sectorNum + n) (nbSectors - n) (done + n * 512) (buf.write done (n * 512) data)

/-- `qcow_is_allocated`. -/
def qcowIsAllocated (g : Image) (s : BDRVQcowState) (sectorNum nbSectors : ℕ) : Bool × ℕ × BDRVQcowState :=
  let (clusterOffset, n, s) := qcow2GetClusterOffset g s (sectorNum * 512) nbSectors
  (clusterOffset ≠ 0, n, s)

/-- The bytes of a sector of an allocated cluster. -/
def sectorData (g : Image) (s : BDRVQcowState) (sector : ℕ) : Bytes :=
  let clusterOffset := clearCopied (entry g s (sector / g.clusterSectors))
  let indexInCluster := sector % g.clusterSectors
  if IsCompressed clusterOffset then (inflated g s.file clusterOffset).2.from (indexInCluster * 512)
  else decryptIfNeeded g sector (s.file.from (clusterOffset + indexInCluster * 512))

/-- The guest's byte at `x`, where `c` are the bytes of the backing device. -/
def shownByte (g : Image) (s : BDRVQcowState) (c : Bytes) (x : ℕ) : UInt8 :=
  if entry g s (x / 512 / g.clusterSectors) = 0 then c x else sectorData g s (x / 512) (x % 512)

/-- What reads need of an image. -/
structure Readable (g : Image) (s : BDRVQcowState) : Prop where
  noFaults : s.faults = []
  tables : ∀ i < s.l1Size, s.l1Table i ≠ 0 → clearCopied (s.l1Table i) ≠ 0
  entries : ∀ k, DriverEntry g (entry g s k)
  coherent : ∀ i < l2CacheSize, s.l2CacheOffsets i ≠ 0 → ∀ j < g.clusterSize,
    s.l2Cache (i * g.clusterSize + j) = s.file (s.l2CacheOffsets i + j)
  inflates : ∀ k, IsCompressed (entry g s k) → (inflated g s.file (clearCopied (entry g s k))).1 = true
  cached : ∀ k, IsCompressed (entry g s k) →
    s.clusterCacheOffset = (maskedOffset g (clearCopied (entry g s k)) : ℤ) →
    ∀ j < g.clusterSize, s.clusterCache j = (inflated g s.file (clearCopied (entry g s k))).2 j

variable {g : Image} {s s' : BDRVQcowState}

theorem ReadOnly.entry_eq (h : ReadOnly s s') : entry g s' = entry g s := entry_of_file h.file h.l1Table

theorem ReadOnly.shownByte_eq (h : ReadOnly s s') : shownByte g s' = shownByte g s := by
  unfold shownByte sectorData
  rw [h.entry_eq, h.file]

/-- A read that keeps the caches coherent. -/
theorem Readable.readOnly (h : Readable g s) (honly : ReadOnly s s')
    (hcoherent : ∀ i < l2CacheSize, s'.l2CacheOffsets i ≠ 0 → ∀ j < g.clusterSize,
      s'.l2Cache (i * g.clusterSize + j) = s.file (s'.l2CacheOffsets i + j))
    (hcached : ∀ k, IsCompressed (entry g s k) →
      s'.clusterCacheOffset = (maskedOffset g (clearCopied (entry g s k)) : ℤ) →
      ∀ j < g.clusterSize, s'.clusterCache j = (inflated g s.file (clearCopied (entry g s k))).2 j) :
    Readable g s' := by
  have hfaults : s'.faults = s.faults := by rw [honly]
  refine ⟨?_, ?_, ?_, ?_, ?_, ?_⟩
  · rw [hfaults]
    exact h.noFaults
  · rw [honly.l1Size, honly.l1Table]
    exact h.tables
  · rw [honly.entry_eq]
    exact h.entries
  · rw [honly.file]
    exact hcoherent
  · rw [honly.entry_eq, honly.file]
    exact h.inflates
  · rw [honly.entry_eq, honly.file]
    exact hcached

/-- A table is found in the cache or brought into it. -/
theorem Readable.l2Load_ok (h : Readable g s) {i : ℕ} (hi : i < s.l1Size) (h0 : s.l1Table i ≠ 0) :
    ∃ slot s', l2Load g s (clearCopied (s.l1Table i)) = (some slot, s') ∧
      (∀ j < g.l2Size, slotTable g s' slot j = entry g s (i * g.l2Size + j)) ∧ Readable g s' ∧ CacheOnly s s' := by
  -- the entries of a slot that is coherent and belongs to the table
  have hslot : ∀ {s' : BDRVQcowState} {slot : ℕ}, slot < l2CacheSize → CacheOnly s s' → Readable g s' →
      s'.l2CacheOffsets slot = clearCopied (s.l1Table i) →
      ∀ j < g.l2Size, slotTable g s' slot j = entry g s (i * g.l2Size + j) := by
    intro s' slot hlt honly hread hoff j hj
    have hdiv : (i * g.l2Size + j) / g.l2Size = i := by
      rw [Nat.add_comm, Nat.add_mul_div_right _ _ g.l2Size_pos, Nat.div_eq_of_lt hj, Nat.zero_add]
    have hmod : (i * g.l2Size + j) % g.l2Size = j := Nat.mul_add_mod_of_lt hj
    unfold slotTable l2Entry entry
    rw [hdiv, hmod, if_neg h0, Nat.zero_add]
    refine beRead_congr fun b hb => ?_
    have hsize := g.clusterSize_eq_l2Size
    rw [Nat.add_assoc, hread.coherent slot hlt (by rw [hoff]; exact h.tables i hi h0) _ (by omega), hoff, honly.file,
      Nat.add_assoc]
  rcases hseek : seekL2Table s (clearCopied (s.l1Table i)) with ⟨_ | slot, s₁⟩
  · obtain ⟨rfl, -⟩ := seekL2Table_none hseek
    set slot := l2CacheNewEntry s₁ with hslotdef
    set s' := claimSlot (fillSlot g s₁ slot (s₁.file.from (clearCopied (s₁.l1Table i)))) slot
      (clearCopied (s₁.l1Table i))
    have honly : CacheOnly s₁ s' := rfl
    have hread : Readable g s' := by
      refine h.readOnly honly.readOnly (fun k hk hk0 j hj => ?_) h.cached
      simp only [s', claimSlot, fillSlot, Function.update_apply] at hk0 ⊢
      split_ifs at hk0 ⊢ with hks
      · rw [hks, Bytes.write_of_mem (by omega) (by omega), Nat.add_sub_cancel_left, Bytes.from_apply]
      · rw [Bytes.write_of_not_mem, h.coherent k hk hk0 j hj]
        have hdisj := aligned_disjoint (k := g.clusterSize) (Dvd.intro_left k rfl) (Dvd.intro_left slot rfl)
          (fun he => hks (Nat.eq_of_mul_eq_mul_right g.clusterSize_pos he))
        omega
    refine ⟨slot, s', ?_, hslot (l2CacheNewEntry_lt s₁) honly hread (claimSlot_self _ _ _), hread, honly⟩
    unfold l2Load
    rw [hseek]
    simp only [bdrvPread_ok h.noFaults, if_true]
    rfl
  · obtain ⟨hlt, hoff, counts, rfl⟩ := seekL2Table_some hseek
    have honly : CacheOnly s { s with l2CacheCounts := counts } := rfl
    have hread : Readable g { s with l2CacheCounts := counts } := h.readOnly honly.readOnly h.coherent h.cached
    refine ⟨slot, _, ?_, hslot hlt honly hread hoff, hread, honly⟩
    unfold l2Load
    rw [hseek]

/-- **A run of the driver** is `c` clusters, cut at the request, that are all allocated or all not. -/
theorem Readable.getClusterOffset_ok (h : Readable g s) {sector num : ℕ} (hnum : 1 ≤ num)
    (hk : sector / g.clusterSectors < s.l1Size * g.l2Size) :
    ∃ c s', qcow2GetClusterOffset g s (sector * 512) num =
        (clearCopied (entry g s (sector / g.clusterSectors)),
          min (c * g.clusterSectors) (nbNeeded g sector num) - sector % g.clusterSectors, s') ∧
      1 ≤ c ∧ c ≤ g.l2Size - sector / g.clusterSectors % g.l2Size ∧
      (∀ j < c, entry g s (sector / g.clusterSectors + j) = 0 ↔ entry g s (sector / g.clusterSectors) = 0) ∧
      Readable g s' ∧ CacheOnly s s' := by
  have hi : sector / g.clusterSectors / g.l2Size < s.l1Size := entry_index_lt hk
  have hmod := Nat.mod_lt (sector / g.clusterSectors) g.l2Size_pos
  have hdm := Nat.div_add_mod (sector / g.clusterSectors) g.l2Size
  obtain ⟨hpos, hreq, htab⟩ := @nbNeeded_bounds g sector _ hnum
  by_cases h0 : s.l1Table (sector / g.clusterSectors / g.l2Size) = 0
  · have hfree : ∀ j < g.l2Size - sector / g.clusterSectors % g.l2Size,
        entry g s (sector / g.clusterSectors + j) = 0 := by
      intro j hj
      have hsame := (table_entry_lt (s := s) hk (by omega : sector / g.clusterSectors % g.l2Size + j < g.l2Size)).2
      unfold entry
      rw [hsame, if_pos h0]
    have hfirst := hfree 0 (by omega)
    rw [Nat.add_zero] at hfirst
    refine ⟨g.l2Size - sector / g.clusterSectors % g.l2Size, s, ?_, by omega, le_rfl, fun j hj => ?_, h, .refl s⟩
    · rw [getClusterOffset_missing (.inr h0), hfirst, min_eq_right htab]
      rfl
    · exact iff_of_true (hfree j hj) hfirst
  · obtain ⟨slot, s', hload, htable, hread, honly⟩ := h.l2Load_ok hi h0
    have hent : ∀ j, sector / g.clusterSectors % g.l2Size + j < g.l2Size →
        slotTable g s' slot (sector / g.clusterSectors % g.l2Size + j) = entry g s (sector / g.clusterSectors + j) := by
      intro j hj
      rw [htable _ hj, ← Nat.add_assoc, Nat.mul_comm, hdm]
    have hzero := hent 0 (by omega)
    rw [Nat.add_zero, Nat.add_zero] at hzero
    obtain ⟨hc, hcle, hfree, hmapped⟩ := runClusters_spec (g := g)
      (e := fun j => slotTable g s' slot (sector / g.clusterSectors % g.l2Size + j))
      (sizeToClusters_pos (by omega : 0 < nbNeeded g sector num * 512))
      (fun hne => by
        rw [Nat.add_zero, hzero] at hne ⊢
        exact (h.entries _).clear_ne_zero hne)
    have hroom := sizeToClusters_sectors (g := g) _ htab
    refine ⟨_, s', ?_, hc, hcle.trans hroom, fun j hj => ?_, hread, honly⟩
    · rw [getClusterOffset_run (by rw [not_or]; exact ⟨by omega, h0⟩) hload, hzero]
    · have hj' := hent j (by omega)
      dsimp only [Nat.add_zero] at hfree hmapped
      rw [hzero] at hfree hmapped
      constructor
      · intro hj0
        by_contra hne
        have hclear := hmapped hne j hj
        rw [hj', hj0] at hclear
        have hpos0 := Nat.pos_of_ne_zero ((h.entries _).clear_ne_zero hne)
        have hz : clearCopied 0 = 0 := rfl
        omega
      · intro hfirst
        rw [← hj']
        exact hfree hfirst j hj

/-- **`qcow_is_allocated`** at the start of a cluster gives whole clusters. -/
theorem Readable.isAllocated_ok (h : Readable g s) {k : ℕ} (hk : k < s.l1Size * g.l2Size) :
    ∃ c s', qcowIsAllocated g s (k * g.clusterSectors) 65536 =
        (decide (entry g s k ≠ 0), c * g.clusterSectors, s') ∧
      1 ≤ c ∧ c ≤ g.l2Size - k % g.l2Size ∧ (∀ j < c, entry g s (k + j) = 0 ↔ entry g s k = 0) ∧
      Readable g s' ∧ CacheOnly s s' := by
  have hdiv : k * g.clusterSectors / g.clusterSectors = k := Nat.mul_div_cancel k g.clusterSectors_pos
  obtain ⟨c, s', hrun, hc, hcle, hsame, hread, honly⟩ :=
    @Readable.getClusterOffset_ok _ _ h (k * g.clusterSectors) 65536 (by omega) (by rwa [hdiv])
  rw [hdiv] at hrun hcle hsame
  -- a request of 65536 sectors is a number of clusters
  obtain ⟨q, hq⟩ : ∃ q, 65536 = g.clusterSectors * q :=
    pow_dvd_pow 2 (by have := g.maxClusterBits; omega : g.clusterBits - 9 ≤ 16)
  have hqpos : 1 ≤ q := by
    rcases Nat.eq_zero_or_pos q with rfl | hpos
    · omega
    · exact hpos
  have hlen : min (c * g.clusterSectors) (nbNeeded g (k * g.clusterSectors) 65536) -
      k * g.clusterSectors % g.clusterSectors = min c q * g.clusterSectors := by
    unfold nbNeeded
    rw [Nat.mul_mod_left, hdiv, Nat.add_zero, Nat.sub_zero, hq, Nat.mul_comm g.clusterSectors q]
    rw [Nat.mul_min_mul_right, Nat.mul_min_mul_right]
    congr 1
    omega
  refine ⟨min c q, s', ?_, le_min hc hqpos, (min_le_left _ _).trans hcle,
    fun j hj => hsame j (lt_of_lt_of_le hj (min_le_left _ _)), hread, honly⟩
  unfold qcowIsAllocated
  rw [hrun, hlen]
  have hclear : clearCopied (entry g s k) ≠ 0 ↔ entry g s k ≠ 0 := by
    constructor
    · intro hne hz
      rw [hz] at hne
      exact hne rfl
    · exact (h.entries k).clear_ne_zero
  simp only [hclear]

theorem Readable.decompress_ok (h : Readable g s) {k : ℕ} (hc : IsCompressed (entry g s k)) :
    ∃ s', qcow2DecompressCluster g s (clearCopied (entry g s k)) = (true, s') ∧
      (∀ j < g.clusterSize, s'.clusterCache j = (inflated g s.file (clearCopied (entry g s k))).2 j) ∧
      Readable g s' ∧ ReadOnly s s' := by
  unfold qcow2DecompressCluster
  by_cases hco : s.clusterCacheOffset = (maskedOffset g (clearCopied (entry g s k)) : ℤ)
  · exact ⟨s, if_pos hco, h.cached k hc hco, h, .refl s⟩
  · have hinf := h.inflates k hc
    have hfrom : (s.file.from (maskedOffset g (clearCopied (entry g s k)) / 512 * 512)).from
        (maskedOffset g (clearCopied (entry g s k)) % 512) =
        s.file.from (maskedOffset g (clearCopied (entry g s k))) := by
      funext i
      simp only [Bytes.from_apply]
      congr 1
      omega
    simp only [if_neg hco, bdrvPread_ok h.noFaults, not_true, if_false, hfrom]
    unfold inflated at hinf
    rw [hinf]
    have honly : ReadOnly s { s with
        clusterCache := (inflated g s.file (clearCopied (entry g s k))).2
        clusterCacheOffset := maskedOffset g (clearCopied (entry g s k)) } := rfl
    refine ⟨_, rfl, fun j _ => rfl, h.readOnly honly h.coherent ?_, honly⟩
    intro l hl hlo j _
    have hlk : maskedOffset g (clearCopied (entry g s k)) = maskedOffset g (clearCopied (entry g s l)) :=
      Int.ofNat_inj.1 hlo
    exact congrArg (fun r => r.2 j) (inflated_same (h.inflates k hc) (h.inflates l hl) hlk)

/-- The first 512 bytes that `decryptIfNeeded` gives depend on the number of the sector only through it. -/
theorem shownByte_sector (c : Bytes) (sector : ℕ) {i : ℕ} (hi : i < 512) :
    shownByte g s c (512 * sector + i) =
      if entry g s (sector / g.clusterSectors) = 0 then c (512 * sector + i) else sectorData g s sector i := by
  have hdiv : (512 * sector + i) / 512 = sector := by omega
  have hmod : (512 * sector + i) % 512 = i := by omega
  unfold shownByte
  rw [hdiv, hmod]

variable {length : ℕ} {ok : σ → Prop} {content : σ → Bytes} {c : Bytes} {o : Overlay σ}

/-- **A sector is read as it is shown.** -/
theorem aioRead_ok (h : Readable g o.s) (hb : Holds o.backingHd length ok content c) {sector : ℕ}
    (hin : 512 * (sector + 1) ≤ length) (hk : sector / g.clusterSectors < o.s.l1Size * g.l2Size) :
    ∃ buf o', aioRead g 1 o sector 1 0 (fun _ => 0) = (some buf, o') ∧
      (∀ i < 512, buf i = shownByte g o.s c (512 * sector + i)) ∧
      Readable g o'.s ∧ ReadOnly o.s o'.s ∧ Holds o'.backingHd length ok content c := by
  obtain ⟨m, s', hrun, hm, -, -, hread, honly⟩ := @Readable.getClusterOffset_ok _ _ h sector 1 le_rfl hk
  obtain ⟨hpos, hreq, -⟩ := @nbNeeded_bounds g sector 1 le_rfl
  have hone : min (m * g.clusterSectors) (nbNeeded g sector 1) - sector % g.clusterSectors = 1 := by
    have hmod := Nat.mod_lt sector g.clusterSectors_pos
    have hmul : g.clusterSectors ≤ m * g.clusterSectors := Nat.le_mul_of_pos_left _ hm
    omega
  rw [hone] at hrun
  have hentry : entry g s' = entry g o.s := honly.entry
  -- one round reads all of the request
  have hround : ∀ {data : Bytes} {o' : Overlay σ},
      aioReadRound g { o with s := s' } sector 1 (clearCopied (entry g o.s (sector / g.clusterSectors))) =
        (some data, o') →
      aioRead g 1 o sector 1 0 (fun _ => 0) = (some (Bytes.write (fun _ => 0) 0 512 data), o') := by
    intro data o' hdata
    simp only [aioRead, hrun, hdata, Nat.one_ne_zero, if_false, Nat.sub_self, if_true, Nat.one_mul]
  have hwritten : ∀ {data : Bytes} {i : ℕ}, i < 512 → Bytes.write (fun _ => 0) 0 512 data i = data i := by
    intro data i hi
    rw [Bytes.write_of_mem (by omega) (by omega), Nat.sub_zero]
  by_cases hz : entry g o.s (sector / g.clusterSectors) = 0
  · have htotal : sector < totalSectors o.backingHd := by
      have hsize := hb.size
      rw [BitVec.toInt_eq_toNat_cond] at hsize
      have hlt := o.backingHd.device.length.isLt
      unfold totalSectors
      split_ifs at hsize <;> omega
    obtain ⟨buf, b', hbuf, hb', hbytes⟩ := bdrvRead_ok hb sector 1 hin (by omega)
    refine ⟨_, { s := s', backingHd := b' }, @hround buf _ ?_, fun i hi => ?_, hread, honly.readOnly, hb'⟩
    · unfold aioReadRound readBacking
      rw [hz]
      dsimp only
      rw [if_pos (by rfl), if_neg (by omega), hbuf]
    · rw [hwritten hi, shownByte_sector c sector hi, if_pos hz]
      exact hbytes i (by omega)
  · have hclear := (h.entries _).clear_ne_zero hz
    by_cases hcomp : IsCompressed (entry g o.s (sector / g.clusterSectors))
    · have hcomp' := (isCompressed_clearCopied _).2 hcomp
      obtain ⟨s'', hdec, hcache, hread', honly'⟩ := hread.decompress_ok (k := sector / g.clusterSectors)
        (by rwa [hentry])
      rw [hentry] at hdec hcache
      refine ⟨_, { s := s'', backingHd := o.backingHd },
        @hround (s''.clusterCache.from (sector % g.clusterSectors * 512)) _ ?_, fun i hi => ?_, hread',
        honly.readOnly.trans honly', hb⟩
      · unfold aioReadRound
        dsimp only
        rw [if_neg hclear, if_pos hcomp', hdec]
      · have hidx := Nat.mod_lt sector g.clusterSectors_pos
        have hsize := g.clusterSize_eq
        rw [hwritten hi, shownByte_sector c sector hi, if_neg hz]
        unfold sectorData
        rw [if_pos hcomp', Bytes.from_apply, Bytes.from_apply, hcache _ (by omega), honly.file]
    · have hcomp' := (isCompressed_clearCopied _).not.2 hcomp
      have haligned : clearCopied (entry g o.s (sector / g.clusterSectors)) % 512 = 0 := by
        obtain ⟨q, hq⟩ := (((h.entries _).resolve_left hz).resolve_right fun hd => hcomp hd.1).1
        rw [hq, g.clusterSize_eq, Nat.mul_assoc, Nat.mul_mod_right]
      refine ⟨_, { s := s', backingHd := o.backingHd },
        @hround (decryptIfNeeded g sector (s'.file.from
          (clearCopied (entry g o.s (sector / g.clusterSectors)) + sector % g.clusterSectors * 512))) _ ?_,
        fun i hi => ?_, hread, honly.readOnly, hb⟩
      · unfold aioReadRound
        dsimp only
        rw [if_neg hclear, if_neg hcomp', if_neg (by rw [haligned]; simp), bdrvPread_ok hread.noFaults]
        rfl
      · rw [hwritten hi, shownByte_sector c sector hi, if_neg hz]
        unfold sectorData
        rw [if_neg hcomp', honly.file]

theorem oneTable_l1Table (table : ℕ → ℕ) : (oneTable table).l1Table 0 = setCopied 4096 := rfl

theorem oneTable_file (table : ℕ → ℕ) : (oneTable table).file = Bytes.write (fun _ => 0) 4096 65536 (beTable 8 table) :=
  rfl

theorem oneTable_entry {table : ℕ → ℕ} (htable : ∀ i, table i < 2 ^ 64) (k : ℕ) :
    entry g (oneTable table) k = if k < g.l2Size then table k else 0 := by
  have hmax := g.clusterSize_eq_l2Size
  have hsize : g.clusterSize ≤ 65536 := Nat.pow_le_pow_right (by omega) g.maxClusterBits
  unfold entry
  split_ifs with hmissing hk hk
  · rw [Nat.div_eq_of_lt hk, oneTable_l1Table] at hmissing
    exact absurd hmissing (by decide)
  · rfl
  · have hclear : clearCopied (setCopied 4096) = 4096 := by decide
    rw [Nat.div_eq_of_lt hk, Nat.mod_eq_of_lt hk, oneTable_l1Table, hclear, oneTable_file,
      beRead_write_of_subset (by omega) (by omega), Nat.add_sub_cancel_left, beRead_beTable _ (by omega)]
    exact Nat.mod_eq_of_lt (htable k)
  · have hpos : k / g.l2Size ≠ 0 := fun hz => hk (Nat.lt_of_div_eq_zero g.l2Size_pos hz)
    exact absurd (if_neg hpos) hmissing

theorem oneTable_readable {table : ℕ → ℕ} (htable : ∀ i, table i < 2 ^ 64) (hdriver : ∀ i, DriverEntry g (table i))
    (hplain : ∀ i, ¬ IsCompressed (table i)) : Readable g (oneTable table) := by
  have hsize : g.clusterSize ≤ 65536 := Nat.pow_le_pow_right (by omega) g.maxClusterBits
  have hentry : ∀ k, DriverEntry g (entry g (oneTable table) k) ∧ ¬ IsCompressed (entry g (oneTable table) k) := by
    intro k
    rw [oneTable_entry htable]
    split_ifs
    · exact ⟨hdriver k, hplain k⟩
    · exact ⟨.inl rfl, by decide⟩
  refine ⟨rfl, fun i _ h0 => ?_, fun k => (hentry k).1, fun i _ h0 j hj => ?_,
    fun k hc => absurd hc (hentry k).2, fun k hc => absurd hc (hentry k).2⟩
  · have hi : i = 0 := by
      by_contra hne
      exact h0 (if_neg hne)
    rw [hi, oneTable_l1Table]
    decide
  · have hi : i = 0 := by
      by_contra hne
      exact h0 (if_neg hne)
    rw [hi]
    show beTable 8 table (0 * g.clusterSize + j) = Bytes.write (fun _ => 0) 4096 65536 (beTable 8 table) (4096 + j)
    rw [Bytes.write_of_mem (by omega) (by omega), Nat.zero_mul, Nat.zero_add, Nat.add_sub_cancel_left]

end Emulator.Qcow2
