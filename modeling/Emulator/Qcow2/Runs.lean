import Emulator.Qcow2.Read

/-!
# Runs of sectors, for any tables

`qcow2_get_cluster_offset` walks the table that `l2_load` gives it. Nothing is assumed here of the
image: the L1 table is any table, and the L2 table has any entries that the driver writes.

* `getClusterOffset_run`: the run is cut by the request, by the end of the table and by the first
  entry that does not continue it.
* `getClusterOffset_iff`: it is right sector by sector unless a compressed cluster is continued.
-/

namespace Emulator.Qcow2

open BDRVQcowState

variable {g : Image} {s s' : BDRVQcowState}

/-- What the tables say about a sector. -/
inductive Place
  | unallocated
  | host (byte : ℕ)
  | compressed (descriptor : ℕ)
deriving DecidableEq

/-- What an L2 entry without its copied flag says about the sector `i` of its cluster. -/
def entryPlace (v i : ℕ) : Place :=
  if v = 0 then .unallocated else if IsCompressed v then .compressed v else .host (v + 512 * i)

/-- The walk for one sector, `table` being the L2 table of its L1 entry. -/
def sectorPlace (g : Image) (s : BDRVQcowState) (table : ℕ → ℕ) (sector : ℕ) : Place :=
  let l1Index := sector / g.clusterSectors / g.l2Size
  if s.l1Size ≤ l1Index ∨ s.l1Table l1Index = 0 then .unallocated
  else entryPlace (clearCopied (table (sector / g.clusterSectors % g.l2Size))) (sector % g.clusterSectors)

/-- An entry that the driver writes: 0, an ordinary cluster with or without the copied flag, or a compressed one,
whose data is not at the header. -/
def DriverEntry (g : Image) (v : ℕ) : Prop :=
  v = 0 ∨ (g.clusterSize ∣ clearCopied v ∧ clearCopied v ≠ 0 ∧ clearCopied v < 2 ^ 62) ∨
    (IsCompressed v ∧ 0 < maskedOffset g (clearCopied v))

/-- The run `(offset, n)` for a request of `num` sectors says of each of its sectors what the walk says. -/
def RunExact (g : Image) (s : BDRVQcowState) (table : ℕ → ℕ) (sector num offset n : ℕ) : Prop :=
  1 ≤ n ∧ n ≤ num ∧
    ∀ k < n, sectorPlace g s table (sector + k) = entryPlace offset (sector % g.clusterSectors + k)

/-- The next entry of the table looks like the continuation of a compressed cluster, and the request gets there. -/
def ContinuesCompressed (g : Image) (table : ℕ → ℕ) (sector num : ℕ) : Prop :=
  let l2Index := sector / g.clusterSectors % g.l2Size
  IsCompressed (table l2Index) ∧ g.clusterSectors < num + sector % g.clusterSectors ∧ l2Index + 1 < g.l2Size ∧
    clearCopied (table (l2Index + 1)) = clearCopied (table l2Index) + g.clusterSize

/-- The clusters counted, for a table whose entries from `l2Index` on are `e`. -/
def runClusters (g : Image) (e : ℕ → ℕ) (nbClusters : ℕ) : ℕ :=
  if e 0 = 0 then countContiguousFreeClusters e nbClusters 0
  else countContiguousClusters g nbClusters (fun i => clearCopied (e i)) 0

theorem runClusters_spec {e : ℕ → ℕ} {nb : ℕ} (hnb : 0 < nb) (h0 : e 0 ≠ 0 → clearCopied (e 0) ≠ 0) :
    0 < runClusters g e nb ∧ runClusters g e nb ≤ nb ∧
      (e 0 = 0 → ∀ j < runClusters g e nb, e j = 0) ∧
      (e 0 ≠ 0 → ∀ j < runClusters g e nb, clearCopied (e j) = clearCopied (e 0) + j * g.clusterSize) := by
  unfold runClusters
  split_ifs with hz
  · obtain ⟨hle, hfree⟩ := countContiguousFreeClusters_spec (e := e) nb 0
    refine ⟨countContiguousFreeClusters_pos hnb hz, hle, fun _ j hj => ?_, fun hne => absurd hz hne⟩
    have hj' := hfree j hj
    rwa [Nat.zero_add] at hj'
  · obtain ⟨hpos, hle, hmapped⟩ :=
      countContiguousClusters_spec (g := g) (e := fun i => clearCopied (e i)) hnb (h0 hz)
    exact ⟨hpos, hle, fun heq => absurd heq hz, fun _ => hmapped⟩

/-- An entry that continues the first one is counted. -/
theorem two_le_runClusters {e : ℕ → ℕ} {nb : ℕ} (hnb : 2 ≤ nb) (h0 : clearCopied (e 0) ≠ 0)
    (h1 : clearCopied (e 1) = clearCopied (e 0) + g.clusterSize) : 2 ≤ runClusters g e nb := by
  have hz : e 0 ≠ 0 := by
    intro hz
    rw [hz] at h0
    exact h0 rfl
  obtain ⟨nb, rfl⟩ : ∃ m, nb = m + 2 := ⟨nb - 2, by omega⟩
  unfold runClusters countContiguousClusters
  rw [if_neg hz, if_neg h0]
  unfold contiguousFrom
  rw [if_neg (by simp)]
  unfold contiguousFrom
  rw [if_neg (by rw [h1]; simp)]
  omega

/-- The table in a slot of the cache. -/
def slotTable (g : Image) (s : BDRVQcowState) (slot i : ℕ) : ℕ := l2Entry g s slot 0 i

theorem l2Entry_slotTable (slot l2Index i : ℕ) : l2Entry g s slot l2Index i = slotTable g s slot (l2Index + i) := by
  unfold slotTable l2Entry
  rw [Nat.zero_add]

/-- The sectors that are left of the request in the L2 table, counted from the start of the cluster. -/
def nbNeeded (g : Image) (sector num : ℕ) : ℕ :=
  min (num + sector % g.clusterSectors) ((g.l2Size - sector / g.clusterSectors % g.l2Size) * g.clusterSectors)

/-- **The run.** -/
theorem getClusterOffset_run {sector num slot : ℕ}
    (hl1 : ¬ (s.l1Size ≤ sector / g.clusterSectors / g.l2Size ∨ s.l1Table (sector / g.clusterSectors / g.l2Size) = 0))
    (hload : l2Load g s (clearCopied (s.l1Table (sector / g.clusterSectors / g.l2Size))) = (some slot, s')) :
    qcow2GetClusterOffset g s (sector * 512) num =
      (clearCopied (slotTable g s' slot (sector / g.clusterSectors % g.l2Size)),
        min (runClusters g (fun i => slotTable g s' slot (sector / g.clusterSectors % g.l2Size + i))
          (g.sizeToClusters (nbNeeded g sector num * 512)) * g.clusterSectors) (nbNeeded g sector num) -
            sector % g.clusterSectors, s') := by
  unfold qcow2GetClusterOffset
  simp only [Nat.mul_div_cancel sector (show 0 < 512 by omega), sectors_to_table_end, sector_l1, sector_cluster]
  rw [if_neg hl1, hload]
  have hentries : l2Entry g s' slot (sector / g.clusterSectors % g.l2Size) =
      fun i => slotTable g s' slot (sector / g.clusterSectors % g.l2Size + i) :=
    funext fun i => l2Entry_slotTable slot _ i
  dsimp only
  rw [hentries]
  unfold runClusters nbNeeded
  dsimp only [Nat.add_zero]

/-- The run where the table is missing. -/
theorem getClusterOffset_missing {sector num : ℕ}
    (hl1 : s.l1Size ≤ sector / g.clusterSectors / g.l2Size ∨ s.l1Table (sector / g.clusterSectors / g.l2Size) = 0) :
    qcow2GetClusterOffset g s (sector * 512) num = (0, nbNeeded g sector num - sector % g.clusterSectors, s) := by
  unfold qcow2GetClusterOffset
  simp only [Nat.mul_div_cancel sector (show 0 < 512 by omega), sectors_to_table_end, sector_l1, sector_cluster]
  rw [if_pos hl1]
  unfold nbNeeded
  rw [min_comm, min_eq_left (min_le_right _ _)]

/-- The sectors of the table from the start of the cluster on. -/
theorem sector_in_table {sector c k : ℕ} (hc : c ≤ g.l2Size - sector / g.clusterSectors % g.l2Size)
    (hk : sector % g.clusterSectors + k < c * g.clusterSectors) :
    (sector + k) / g.clusterSectors / g.l2Size = sector / g.clusterSectors / g.l2Size ∧
      (sector + k) / g.clusterSectors % g.l2Size =
        sector / g.clusterSectors % g.l2Size + (sector % g.clusterSectors + k) / g.clusterSectors ∧
      (sector % g.clusterSectors + k) / g.clusterSectors < c ∧
      (sector + k) % g.clusterSectors = (sector % g.clusterSectors + k) % g.clusterSectors := by
  have hlt := (Nat.div_lt_iff_lt_mul g.clusterSectors_pos).2 hk
  have hmod := Nat.mod_lt (sector / g.clusterSectors) g.l2Size_pos
  have hdm := Nat.div_add_mod (sector / g.clusterSectors) g.l2Size
  have hsum : sector / g.clusterSectors % g.l2Size + (sector % g.clusterSectors + k) / g.clusterSectors < g.l2Size := by
    omega
  refine ⟨?_, ?_, hlt, ?_⟩
  · rw [sector_add_div, ← hdm, Nat.add_assoc, Nat.mul_add_div g.l2Size_pos, Nat.div_eq_of_lt hsum,
      Nat.mul_add_div g.l2Size_pos, Nat.div_eq_of_lt hmod]
  · rw [sector_add_div, ← hdm, Nat.add_assoc, Nat.mul_add_mod, Nat.mod_eq_of_lt hsum, Nat.mul_add_mod,
      Nat.mod_eq_of_lt hmod]
  · rw [Nat.add_mod sector k, Nat.add_mod (sector % _) k, Nat.mod_mod]

/-- A cluster of a run of ordinary clusters. -/
theorem entryPlace_ordinary {v c i : ℕ} (hv : v ≠ 0) (hc : ¬ IsCompressed v)
    (hc' : ¬ IsCompressed (v + c * g.clusterSize)) :
    entryPlace (v + c * g.clusterSize) (i % g.clusterSectors) =
      entryPlace v (c * g.clusterSectors + i % g.clusterSectors) := by
  unfold entryPlace
  rw [if_neg hv, if_neg hc, if_neg (by omega), if_neg hc', g.clusterSize_eq]
  congr 1
  ring

theorem DriverEntry.clear_ne_zero {v : ℕ} (h : DriverEntry g v) (hv : v ≠ 0) : clearCopied v ≠ 0 := by
  rcases h with h | h | h
  · exact absurd h hv
  · exact h.2.1
  · intro hz
    have hc := (isCompressed_clearCopied v).2 h.1
    rw [hz] at hc
    exact absurd hc (by decide)

/-- No entry is the bare compressed flag. -/
theorem DriverEntry.ne_flag {v : ℕ} (h : DriverEntry g v) : clearCopied v ≠ 2 ^ 62 := by
  intro hflag
  rcases h with h | h | h
  · rw [h] at hflag
    exact absurd hflag (by decide)
  · omega
  · have hmask : maskedOffset g (clearCopied v) = 0 := by
      rw [hflag]
      unfold maskedOffset Image.csizeShift
      exact Nat.mod_eq_zero_of_dvd (pow_dvd_pow 2 (Nat.sub_le _ _))
    omega

/-- A run that starts with an ordinary cluster has ordinary clusters only: the offsets would reach the compressed
flag at an entry that is nothing but the flag. -/
theorem run_ordinary {e : ℕ → ℕ} {c : ℕ} (he : ∀ j < c, DriverEntry g (e j)) (hdvd : g.clusterSize ∣ clearCopied (e 0))
    (hlt : clearCopied (e 0) < 2 ^ 62)
    (hrun : ∀ j < c, clearCopied (e j) = clearCopied (e 0) + j * g.clusterSize) {j : ℕ} (hj : j < c) :
    ¬ IsCompressed (clearCopied (e 0) + j * g.clusterSize) := by
  have hbelow : clearCopied (e 0) + j * g.clusterSize < 2 ^ 62 := by
    induction j with
    | zero =>
      rw [Nat.zero_mul, Nat.add_zero]
      exact hlt
    | succ j ih =>
      have hprev := ih (by omega)
      have hne := (he _ hj).ne_flag
      rw [hrun _ hj] at hne
      -- both sides of the step are multiples of the cluster size
      obtain ⟨m, hm⟩ := hdvd
      obtain ⟨q, hq⟩ : ∃ q, 2 ^ 62 = g.clusterSize * q :=
        pow_dvd_pow 2 (by have := g.maxClusterBits; omega : g.clusterBits ≤ 62)
      have hmq : m + j < q := by
        have hmul : g.clusterSize * (m + j) < g.clusterSize * q := by
          rw [← hq, Nat.mul_add, ← hm, Nat.mul_comm g.clusterSize j]
          exact hprev
        exact Nat.lt_of_mul_lt_mul_left hmul
      have hle : g.clusterSize * (m + (j + 1)) ≤ g.clusterSize * q := Nat.mul_le_mul_left _ (by omega)
      rw [Nat.mul_add, ← hm, ← hq, Nat.mul_comm g.clusterSize (j + 1)] at hle
      exact lt_of_le_of_ne hle hne
  unfold IsCompressed
  omega

theorem two_le_sizeToClusters {n : ℕ} (hn : g.clusterSectors < n) : 2 ≤ g.sizeToClusters (n * 512) := by
  unfold Image.sizeToClusters
  rw [Nat.le_div_iff_mul_le g.clusterSize_pos, g.clusterSize_eq]
  omega

/-- The L1 entry of a sector is beyond the table or 0. -/
def MissingTable (g : Image) (s : BDRVQcowState) (sector : ℕ) : Prop :=
  s.l1Size ≤ sector / g.clusterSectors / g.l2Size ∨ s.l1Table (sector / g.clusterSectors / g.l2Size) = 0

theorem nbNeeded_bounds {sector num : ℕ} (hnum : 1 ≤ num) :
    sector % g.clusterSectors < nbNeeded g sector num ∧ nbNeeded g sector num ≤ num + sector % g.clusterSectors ∧
      nbNeeded g sector num ≤ (g.l2Size - sector / g.clusterSectors % g.l2Size) * g.clusterSectors := by
  have hroom : g.clusterSectors ≤ (g.l2Size - sector / g.clusterSectors % g.l2Size) * g.clusterSectors :=
    Nat.le_mul_of_pos_left _ (Nat.sub_pos_of_lt (Nat.mod_lt _ g.l2Size_pos))
  have hmod := Nat.mod_lt sector g.clusterSectors_pos
  unfold nbNeeded
  omega

theorem missing_exact {sector num : ℕ} (hnum : 1 ≤ num) (hmissing : MissingTable g s sector) (table : ℕ → ℕ) :
    RunExact g s table sector num 0 (nbNeeded g sector num - sector % g.clusterSectors) := by
  obtain ⟨hpos, hreq, htab⟩ := @nbNeeded_bounds g sector _ hnum
  refine ⟨by omega, by omega, ?_⟩
  intro k hk
  obtain ⟨hl1, -, -, -⟩ := @sector_in_table g sector _ k le_rfl (by omega)
  unfold sectorPlace
  dsimp only
  rw [hl1, if_pos (show _ ∨ _ from hmissing)]
  rfl

variable {table : ℕ → ℕ}

/-- The run of `c` clusters, cut at the request. -/
theorem run_exact {sector num c : ℕ} (hnum : 1 ≤ num) (hpresent : ¬ MissingTable g s sector)
    (hentries : ∀ i < g.l2Size, DriverEntry g (table i)) (hc : 0 < c)
    (hroom : c ≤ g.l2Size - sector / g.clusterSectors % g.l2Size)
    (hfree : table (sector / g.clusterSectors % g.l2Size) = 0 →
      ∀ j < c, table (sector / g.clusterSectors % g.l2Size + j) = 0)
    (hmapped : table (sector / g.clusterSectors % g.l2Size) ≠ 0 → ∀ j < c,
      clearCopied (table (sector / g.clusterSectors % g.l2Size + j)) =
        clearCopied (table (sector / g.clusterSectors % g.l2Size)) + j * g.clusterSize)
    (hcompressed : IsCompressed (table (sector / g.clusterSectors % g.l2Size)) →
      min (c * g.clusterSectors) (nbNeeded g sector num) ≤ g.clusterSectors) :
    RunExact g s table sector num (clearCopied (table (sector / g.clusterSectors % g.l2Size)))
      (min (c * g.clusterSectors) (nbNeeded g sector num) - sector % g.clusterSectors) := by
  obtain ⟨hpos, hreq, htab⟩ := @nbNeeded_bounds g sector _ hnum
  have hmod := Nat.mod_lt sector g.clusterSectors_pos
  have hone : g.clusterSectors ≤ c * g.clusterSectors := Nat.le_mul_of_pos_left _ hc
  have hidx := Nat.mod_lt (sector / g.clusterSectors) g.l2Size_pos
  refine ⟨by omega, by omega, ?_⟩
  intro k hk
  have hin : sector % g.clusterSectors + k < c * g.clusterSectors := by omega
  obtain ⟨hl1, hl2, hj, hsec⟩ := sector_in_table hroom hin
  set l2Index := sector / g.clusterSectors % g.l2Size
  set j := (sector % g.clusterSectors + k) / g.clusterSectors with hjdef
  unfold sectorPlace
  rw [hl1, hl2, hsec]
  dsimp only
  rw [if_neg (show ¬ (_ ∨ _) from hpresent)]
  by_cases hzero : table l2Index = 0
  · rw [hfree hzero j hj, hzero]
    rfl
  · have hclear := (hentries l2Index hidx).clear_ne_zero hzero
    by_cases hcomp : IsCompressed (table l2Index)
    · -- a compressed cluster is not left
      have hlt : sector % g.clusterSectors + k < g.clusterSectors := by
        have hcut := hcompressed hcomp
        omega
      have hj0 : j = 0 := Nat.div_eq_of_lt hlt
      rw [hj0, Nat.add_zero, Nat.mod_eq_of_lt hlt]
    · have hent : ∀ i < c, DriverEntry g (table (l2Index + i)) := fun i hi => hentries _ (by omega)
      obtain ⟨hdvd, -, hlt⟩ := ((hentries l2Index hidx).resolve_left hzero).resolve_right fun h => hcomp h.1
      have hordinary : ¬ IsCompressed (clearCopied (table l2Index) + j * g.clusterSize) :=
        run_ordinary (e := fun i => table (l2Index + i)) hent hdvd hlt (hmapped hzero) hj
      rw [hmapped hzero j hj, entryPlace_ordinary hclear (by rwa [isCompressed_clearCopied]) hordinary]
      congr 1
      rw [hjdef, Nat.mul_comm, Nat.div_add_mod]

/-- A run that leaves a compressed cluster is wrong where it does so. -/
theorem not_exact_of_continues {sector num n : ℕ} (hpresent : ¬ MissingTable g s sector)
    (h : ContinuesCompressed g table sector num) (hn : g.clusterSectors < n + sector % g.clusterSectors) :
    ¬ RunExact g s table sector num (clearCopied (table (sector / g.clusterSectors % g.l2Size))) n := by
  obtain ⟨hcomp, -, hnext, hent⟩ := h
  intro hexact
  have hmod := Nat.mod_lt sector g.clusterSectors_pos
  have hpos := g.clusterSectors_pos
  have hsum : sector % g.clusterSectors + (g.clusterSectors - sector % g.clusterSectors) = g.clusterSectors := by omega
  obtain ⟨hl1, hl2, -, -⟩ := @sector_in_table g sector 2
    (g.clusterSectors - sector % g.clusterSectors) (by omega) (by omega)
  rw [hsum, Nat.div_self hpos] at hl2
  have hplace := hexact.2.2 (g.clusterSectors - sector % g.clusterSectors) (by omega)
  have hcomp' := (isCompressed_clearCopied _).2 hcomp
  have hne : clearCopied (table (sector / g.clusterSectors % g.l2Size)) ≠ 0 := by
    intro hz
    rw [hz] at hcomp'
    exact absurd hcomp' (by decide)
  unfold sectorPlace at hplace
  dsimp only at hplace
  rw [hl1, hl2, if_neg (show ¬ (_ ∨ _) from hpresent), hent] at hplace
  have hsize := g.clusterSize_pos
  unfold entryPlace at hplace
  rw [if_neg (by omega), if_neg hne, if_pos hcomp'] at hplace
  split_ifs at hplace
  injection hplace with heq
  omega

/-- **`qcow2_get_cluster_offset` is right sector by sector** exactly if it does not take the entry after a compressed
cluster for its continuation. -/
theorem getClusterOffset_iff {sector num : ℕ} (hnum : 1 ≤ num) {table : ℕ → ℕ}
    (hload : ¬ MissingTable g s sector → ∃ slot s',
      l2Load g s (clearCopied (s.l1Table (sector / g.clusterSectors / g.l2Size))) = (some slot, s') ∧
        table = slotTable g s' slot)
    (hentries : ∀ i < g.l2Size, DriverEntry g (table i)) :
    RunExact g s table sector num (qcow2GetClusterOffset g s (sector * 512) num).1
        (qcow2GetClusterOffset g s (sector * 512) num).2.1 ↔
      MissingTable g s sector ∨ ¬ ContinuesCompressed g table sector num := by
  by_cases hmissing : MissingTable g s sector
  · rw [getClusterOffset_missing hmissing]
    exact iff_of_true (missing_exact hnum hmissing table) (.inl hmissing)
  · obtain ⟨slot, s', hslot, rfl⟩ := hload hmissing
    rw [getClusterOffset_run hmissing hslot]
    obtain ⟨hpos, hreq, htab⟩ := @nbNeeded_bounds g sector _ hnum
    have hidx := Nat.mod_lt (sector / g.clusterSectors) g.l2Size_pos
    set l2Index := sector / g.clusterSectors % g.l2Size with hl2Index
    set table := slotTable g s' slot
    set e := fun i => table (l2Index + i) with he
    have hnb : 0 < g.sizeToClusters (nbNeeded g sector num * 512) := sizeToClusters_pos (by omega)
    have hnbl : g.sizeToClusters (nbNeeded g sector num * 512) ≤ g.l2Size - l2Index :=
      sizeToClusters_sectors _ htab
    obtain ⟨hc, hcle, hfree, hmapped⟩ := runClusters_spec (g := g) (e := e) hnb
      (fun hne => (hentries l2Index hidx).clear_ne_zero hne)
    set c := runClusters g e (g.sizeToClusters (nbNeeded g sector num * 512))
    have hclusters : 0 < g.clusterSectors := g.clusterSectors_pos
    constructor
    · intro hexact
      refine .inr fun hcont => ?_
      obtain ⟨hcomp, hleaves, hnext, hent⟩ := hcont
      -- the walk counts the next entry, so the run leaves the compressed cluster
      have hneeded : g.clusterSectors < nbNeeded g sector num := by
        have htwo : 2 * g.clusterSectors ≤ (g.l2Size - l2Index) * g.clusterSectors :=
          Nat.mul_le_mul_right _ (by omega)
        unfold nbNeeded
        exact lt_min hleaves (lt_of_lt_of_le (by omega) htwo)
      have hclear : clearCopied (table l2Index) ≠ 0 := by
        intro hz
        have hflag := (isCompressed_clearCopied (table l2Index)).2 hcomp
        rw [hz] at hflag
        exact absurd hflag (by decide)
      have hcount : 2 ≤ c := two_le_runClusters (two_le_sizeToClusters hneeded) hclear hent
      have hlong : 2 * g.clusterSectors ≤ c * g.clusterSectors := Nat.mul_le_mul_right _ hcount
      have hrun : g.clusterSectors < min (c * g.clusterSectors) (nbNeeded g sector num) - sector % g.clusterSectors +
          sector % g.clusterSectors := by
        have hmin : g.clusterSectors < min (c * g.clusterSectors) (nbNeeded g sector num) :=
          lt_min (by omega) hneeded
        omega
      exact not_exact_of_continues hmissing ⟨hcomp, hleaves, hnext, hent⟩ hrun hexact
    · intro hnot
      have hcont := hnot.resolve_left hmissing
      refine run_exact hnum hmissing hentries hc (hcle.trans hnbl) hfree hmapped ?_
      intro hcomp
      by_cases hends : num + sector % g.clusterSectors ≤ g.clusterSectors
      · exact (min_le_right _ _).trans (hreq.trans hends)
      · have hone : c ≤ 1 := by
          by_contra htwo
          have hne : table l2Index ≠ 0 := by
            intro hz
            rw [hz] at hcomp
            exact absurd hcomp (by decide)
          have hsecond := hmapped hne 1 (by omega)
          rw [Nat.one_mul] at hsecond
          have hnext : l2Index + 1 < g.l2Size := by
            have htwo' : 2 ≤ g.l2Size - l2Index := by omega
            omega
          exact hcont ⟨hcomp, by omega, hnext, hsecond⟩
        exact (min_le_left _ _).trans (by simpa using Nat.mul_le_mul_right g.clusterSectors hone)

/-- An image with clusters of one sector. -/
def smallImage : Image where
  clusterBits := 9
  minClusterBits := le_rfl
  maxClusterBits := by decide
  crypt := none
  inflate := fun _ _ => (false, fun _ => 0)
  inflate_agrees := @failing_agrees

/-- `table` is the only L2 table of the image, at byte 4096, and in the first slot of the cache. -/
def oneTable (table : ℕ → ℕ) : BDRVQcowState where
  file := Bytes.write (fun _ => 0) 4096 65536 (beTable 8 table)
  faults := []
  l1Size := 1
  l1TableOffset := 512
  l1Table := fun i => if i = 0 then setCopied 4096 else 0
  l1TableFreed := false
  l2Cache := beTable 8 table
  l2CacheOffsets := fun i => if i = 0 then 4096 else 0
  l2CacheCounts := fun i => if i = 0 then 1 else 0
  clusterCache := fun _ => 0
  clusterCacheOffset := -1
  refcountTable := fun _ => 0
  refcountTableOffset := 1024
  refcountTableSize := 64
  refcountBlockCacheOffset := 0
  refcountBlockCache := fun _ => 0
  freeClusterIndex := 0
  freeByteOffset := 0
  snapshotsOffset := 0
  snapshotsSize := 0
  snapshots := []

theorem oneTable_load (table : ℕ → ℕ) : ∃ s', l2Load smallImage (oneTable table) 4096 = (some 0, s') ∧
    s'.l2Cache = beTable 8 table :=
  ⟨_, rfl, rfl⟩

theorem oneTable_slot (htable : ∀ i, table i < 2 ^ 64) {s' : BDRVQcowState}
    (hcache : s'.l2Cache = beTable 8 table) : slotTable g s' 0 = table := by
  funext i
  unfold slotTable l2Entry
  rw [hcache, Nat.zero_mul, Nat.zero_add, Nat.zero_add, beRead_beTable _ (by omega)]
  exact Nat.mod_eq_of_lt (htable i)

/-- Guest clusters 0, 2 and 1 were compressed one after the other, each to 256 bytes. -/
def compressedEntries (i : ℕ) : ℕ :=
  if i = 0 then 2 ^ 62 + 2048 else if i = 1 then 2 ^ 62 + 2560 else if i = 2 then 2 ^ 62 + 2304 else 0

theorem compressedEntries_lt (i : ℕ) : compressedEntries i < 2 ^ 64 := by
  unfold compressedEntries
  split_ifs <;> omega

theorem compressedEntries_driver (i : ℕ) : DriverEntry smallImage (compressedEntries i) := by
  unfold compressedEntries
  split_ifs
  · exact .inr (.inr (by decide +kernel))
  · exact .inr (.inr (by decide +kernel))
  · exact .inr (.inr (by decide +kernel))
  · exact .inl rfl

/-- A request that ends within the compressed cluster. -/
theorem getClusterOffset_iff_within : RunExact smallImage (oneTable compressedEntries) compressedEntries 0 1
    (qcow2GetClusterOffset smallImage (oneTable compressedEntries) (0 * 512) 1).1
    (qcow2GetClusterOffset smallImage (oneTable compressedEntries) (0 * 512) 1).2.1 := by
  obtain ⟨s', hload, hcache⟩ := oneTable_load compressedEntries
  refine (getClusterOffset_iff le_rfl (fun _ => ⟨0, s', hload, ?_⟩) fun i _ => compressedEntries_driver i).2
    (.inr fun hcont => ?_)
  · exact (oneTable_slot compressedEntries_lt hcache).symm
  · exact absurd hcont.2.1 (by decide)

/-- Guest cluster 1 lies one cluster size behind guest cluster 0 in the file: a request for both is answered with the
descriptor of the first and 2 sectors, though a cluster has one. -/
theorem getClusterOffset_overruns :
    (∃ s', l2Load smallImage (oneTable compressedEntries) 4096 = (some 0, s') ∧
      compressedEntries = slotTable smallImage s' 0) ∧
    (∀ i, DriverEntry smallImage (compressedEntries i)) ∧
    (qcow2GetClusterOffset smallImage (oneTable compressedEntries) (0 * 512) 2).1 = 2 ^ 62 + 2048 ∧
    (qcow2GetClusterOffset smallImage (oneTable compressedEntries) (0 * 512) 2).2.1 = 2 ∧
    smallImage.clusterSectors = 1 ∧
    ¬ RunExact smallImage (oneTable compressedEntries) compressedEntries 0 2
      (qcow2GetClusterOffset smallImage (oneTable compressedEntries) (0 * 512) 2).1
      (qcow2GetClusterOffset smallImage (oneTable compressedEntries) (0 * 512) 2).2.1 := by
  have hoffset : (qcow2GetClusterOffset smallImage (oneTable compressedEntries) (0 * 512) 2).1 = 2 ^ 62 + 2048 := by
    decide +kernel
  have hn : (qcow2GetClusterOffset smallImage (oneTable compressedEntries) (0 * 512) 2).2.1 = 2 := by decide +kernel
  obtain ⟨s', hload, hcache⟩ := oneTable_load compressedEntries
  refine ⟨⟨s', hload, (oneTable_slot compressedEntries_lt hcache).symm⟩, compressedEntries_driver, hoffset, hn,
    by decide, fun hexact => ?_⟩
  rw [hoffset, hn] at hexact
  exact absurd (hexact.2.2 1 (by omega)) (by decide +kernel)

end Emulator.Qcow2
