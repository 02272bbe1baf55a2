import Emulator.Qcow2.Overlay

/-!
# Committing an overlay (`block.c`)

`bdrv_commit` asks the format driver for runs of 65536 sectors at most and copies the allocated ones sector by sector.
The runs of the qcow2 driver are whole clusters, so the run with the last cluster may pass the end of the device.

* `bdrvCommit_iff`: the backing device becomes equal to the overlay exactly if no allocated run does.
-/

namespace Emulator.Block

open Qcow2

variable {σ : Type}

/-- A qcow2 image as a device; commits do not write to it. -/
def overlayDriver (g : Image) (write : Overlay σ → ℕ → ℕ → Bytes → Bool × Overlay σ) : BlockDriver (Overlay σ) where
  bdrvRead := fun o sectorNum nbSectors => aioRead g nbSectors o sectorNum nbSectors 0 fun _ => 0
  bdrvWrite := write

/-- The inner loop of `bdrv_commit`: the sectors of a run. -/
def commitRun : ℕ → BlockDriverState (Overlay σ) → ℕ → Except Errno ℕ × BlockDriverState (Overlay σ)
  | 0, bs, i => (.ok i, bs)
  | n + 1, bs, i =>
    match bdrvRead bs i 1 with
    | (.error _, bs) => (.error .eio, bs)
    | (.ok sector, bs) =>
      match bdrvWrite bs.state.backingHd i sector 1 with
      | (.error _, backingHd) => (.error .eio, { bs with state := { bs.state with backingHd := backingHd } })
      | (.ok _, backingHd) => commitRun n { bs with state := { bs.state with backingHd := backingHd } } (i + 1)

/-- The outer loop of `bdrv_commit`, at most `fuel` rounds of it. -/
def commitLoop (g : Image) (total : ℕ) :
    ℕ → BlockDriverState (Overlay σ) → ℕ → Option (Except Errno Unit × BlockDriverState (Overlay σ))
  | 0, _, _ => none
  | fuel + 1, bs, i =>
    if total ≤ i then some (.ok (), bs)
    else
      let (allocated, n, s) := qcowIsAllocated g bs.state.s i 65536
      let bs := { bs with state := { bs.state with s := s } }
      if allocated then
        match commitRun n bs i with
        | (.error e, bs) => some (.error e, bs)
        | (.ok i, bs) => commitLoop g total fuel bs i
      else commitLoop g total fuel bs (i + n)

/-- `bdrv_commit` of an image that has a backing device. `qcow_make_empty` does nothing and returns 0. -/
def bdrvCommit (g : Image) (fuel : ℕ) (bs : BlockDriverState (Overlay σ)) :
    Option (Except Errno Unit × BlockDriverState (Overlay σ)) :=
  match bs.drv with
  | none => some (.error .enomedium, bs)
  | some _ => if bs.readOnly then some (.error .eacces, bs) else commitLoop g (Qcow2.totalSectors bs) fuel bs 0

/-- A writable overlay and a backing device of `total` sectors, whose bytes are `c`, without I/O errors. -/
structure Committable (g : Image) (total : ℕ) (ok : σ → Prop) (content : σ → Bytes) (c : Bytes)
    (bs : BlockDriverState (Overlay σ)) : Prop where
  drv : ∃ write, bs.drv = some (overlayDriver g write)
  inserted : bs.device.inserted = true
  growable : bs.device.growable = false
  size : bs.device.length.toInt = ((512 * total : ℕ) : ℤ)
  writable : bs.readOnly = false
  readable : Readable g bs.state.s
  /-- The L1 table covers the device. -/
  covers : ∀ sector < total, sector / g.clusterSectors < bs.state.s.l1Size * g.l2Size
  backing : Holds bs.state.backingHd (512 * total) ok content c

/-- No cluster of the last L2 table lies behind the end of the device: the VM state starts with the next table. -/
def EndFree (g : Image) (total : ℕ) (s : BDRVQcowState) : Prop :=
  g.clusterSectors ∣ total → total / g.clusterSectors % g.l2Size ≠ 0 → entry g s (total / g.clusterSectors) = 0

/-- `bdrv_commit` returns 0, the backing device is what the overlay showed, and the overlay shows the same. -/
def Commits (g : Image) (total : ℕ) (ok : σ → Prop) (content : σ → Bytes) (c : Bytes)
    (bs : BlockDriverState (Overlay σ)) : Prop :=
  ∃ fuel bs', bdrvCommit g fuel bs = some (.ok (), bs') ∧
    Holds bs'.state.backingHd (512 * total) ok content (shownByte g bs.state.s c) ∧
    ∀ x < 512 * total, shownByte g bs'.state.s (content bs'.state.backingHd.state) x = shownByte g bs.state.s c x

variable {g : Image} {total : ℕ} {ok : σ → Prop} {content : σ → Bytes} {c c' : Bytes}
  {bs bs₀ : BlockDriverState (Overlay σ)} {length : ℕ} {b : BlockDriverState σ}

theorem Holds.congr (h : Holds b length ok content c) (hc : ∀ x < length, c x = c' x) : Holds b length ok content c' :=
  ⟨h.toOpen, fun x hx => (h.bytes x hx).trans (hc x hx)⟩

/-- The bytes of the backing device when `i` sectors have been committed. -/
def committedTo (g : Image) (s : BDRVQcowState) (c : Bytes) (i : ℕ) : Bytes :=
  fun x => if x < 512 * i then shownByte g s c x else c x

/-- The state of the loop at the sector `i`. -/
structure CommitAt (g : Image) (total : ℕ) (ok : σ → Prop) (content : σ → Bytes) (c : Bytes)
    (bs₀ : BlockDriverState (Overlay σ)) (i : ℕ) (bs : BlockDriverState (Overlay σ)) : Prop where
  drv : ∃ write, bs.drv = some (overlayDriver g write)
  device : bs.device = bs₀.device
  readable : Readable g bs.state.s
  only : ReadOnly bs₀.state.s bs.state.s
  backing : Holds bs.state.backingHd (512 * total) ok content (committedTo g bs₀.state.s c i)

theorem committedTo_of_le (s : BDRVQcowState) {i : ℕ} (h : total ≤ i) :
    ∀ x < 512 * total, committedTo g s c i x = shownByte g s c x := fun x hx => if_pos (by omega)

/-- An allocated sector does not depend on the backing device. -/
theorem shownByte_allocated {s : BDRVQcowState} {i t : ℕ} (ht : t < 512) (h : entry g s (i / g.clusterSectors) ≠ 0) :
    shownByte g s c (512 * i + t) = shownByte g s c' (512 * i + t) := by
  rw [shownByte_sector c i ht, shownByte_sector c' i ht, if_neg h, if_neg h]

theorem committedTo_write (s : BDRVQcowState) {i : ℕ} {buf : Bytes}
    (hbuf : ∀ t < 512, buf t = shownByte g s c (512 * i + t)) (x : ℕ) :
    (committedTo g s c i).write (512 * i) (512 * 1) buf x = committedTo g s c (i + 1) x := by
  unfold Bytes.write committedTo
  split_ifs with hin hlt hlt hlt'
  · rw [hbuf _ (by omega), Nat.add_sub_cancel' hin.1]
  · omega
  · rfl
  · omega
  · omega
  · rfl

/-- Unallocated sectors are committed by doing nothing. -/
theorem committedTo_skip (s : BDRVQcowState) {i n : ℕ}
    (h : ∀ sector, i ≤ sector → sector < i + n → entry g s (sector / g.clusterSectors) = 0) (x : ℕ) :
    committedTo g s c i x = committedTo g s c (i + n) x := by
  unfold committedTo
  split_ifs with hlt hlt' hlt'
  · rfl
  · omega
  · have hfree := h (x / 512) (by omega) (by omega)
    unfold shownByte
    rw [if_pos hfree]
  · rfl

variable {i k n m : ℕ}

theorem CommitAt.move (h : CommitAt g total ok content c bs₀ i bs) {j : ℕ}
    (hbytes : ∀ x, committedTo g bs₀.state.s c i x = committedTo g bs₀.state.s c j x) :
    CommitAt g total ok content c bs₀ j bs :=
  ⟨h.drv, h.device, h.readable, h.only, h.backing.congr fun x _ => hbytes x⟩

/-- A sector of an allocated cluster is copied. -/
theorem CommitAt.copy (hc : Committable g total ok content c bs₀) (h : CommitAt g total ok content c bs₀ i bs)
    (hi : i < total) (halloc : entry g bs₀.state.s (i / g.clusterSectors) ≠ 0) :
    ∃ sector bs₁ b bs₂, bdrvRead bs i 1 = (.ok sector, bs₁) ∧ bdrvWrite bs₁.state.backingHd i sector 1 = (.ok (), b) ∧
      bs₂ = { bs₁ with state := { bs₁.state with backingHd := b } } ∧
        CommitAt g total ok content c bs₀ (i + 1) bs₂ := by
  obtain ⟨write, hdrv⟩ := h.drv
  have hlen := bs.device.length.toInt_lt
  rw [h.device, hc.size] at hlen
  have hcheck : bdrvCheckRequest bs.device (BitVec.ofNat 64 i) (BitVec.ofNat 32 1) = none := by
    rw [h.device]
    exact (bdrvCheckRequest_sectors hc.inserted hc.growable hc.size (by omega) (by omega)).mpr (by omega)
  have hentry : entry g bs.state.s = entry g bs₀.state.s := h.only.entry_eq
  obtain ⟨buf, o, hread, hbuf, hreadable, honly, hback⟩ :=
    aioRead_ok h.readable h.backing (show 512 * (i + 1) ≤ _ by omega)
    (by rw [h.only.l1Size]; exact hc.covers i hi)
  obtain ⟨b, hwrite, hb⟩ := bdrvWrite_ok hback i 1 buf (by omega) (by omega)
  refine ⟨buf, { bs with state := o }, b, { bs with state := { o with backingHd := b } }, ?_, hwrite, rfl,
    ⟨write, hdrv⟩, h.device, hreadable, h.only.trans honly, ?_⟩
  · unfold bdrvRead
    rw [hdrv]
    dsimp only
    rw [hcheck]
    simp only [overlayDriver, hread]
  · refine hb.congr fun x _ => committedTo_write _ (fun t ht => ?_) x
    rw [hbuf t ht, h.only.shownByte_eq]
    exact shownByte_allocated ht halloc

/-- A run inside the device. -/
theorem commitRun_ok (hc : Committable g total ok content c bs₀) (h : CommitAt g total ok content c bs₀ i bs)
    (hin : i + n ≤ total)
    (halloc : ∀ sector, i ≤ sector → sector < i + n → entry g bs₀.state.s (sector / g.clusterSectors) ≠ 0) :
    ∃ bs', commitRun n bs i = (.ok (i + n), bs') ∧ CommitAt g total ok content c bs₀ (i + n) bs' := by
  induction n generalizing i bs with
  | zero => exact ⟨bs, rfl, h⟩
  | succ n ih =>
    obtain ⟨sector, bs₁, b, bs₂, hread, hwrite, rfl, hnext⟩ := h.copy hc (by omega) (halloc i le_rfl (by omega))
    obtain ⟨bs', hrun, h'⟩ := ih hnext (by omega) fun sector hlo hhi => halloc sector (by omega) (by omega)
    rw [show i + 1 + n = i + (n + 1) by omega] at hrun h'
    refine ⟨bs', ?_, h'⟩
    unfold commitRun
    rw [hread]
    dsimp only
    rw [hwrite]
    exact hrun

/-- A run that passes the end of the device fails there. -/
theorem commitRun_fails (hc : Committable g total ok content c bs₀) (h : CommitAt g total ok content c bs₀ i bs)
    (hi : i ≤ total) (hpast : total < i + n)
    (halloc : ∀ sector, i ≤ sector → sector < i + n → entry g bs₀.state.s (sector / g.clusterSectors) ≠ 0) :
    ∃ bs', commitRun n bs i = (.error .eio, bs') := by
  induction n generalizing i bs with
  | zero => omega
  | succ n ih =>
    unfold commitRun
    rcases Nat.lt_or_ge i total with hlt | hge
    · obtain ⟨sector, bs₁, b, bs₂, hread, hwrite, rfl, hnext⟩ := h.copy hc hlt (halloc i le_rfl (by omega))
      obtain ⟨bs', hrun⟩ := ih hnext (by omega) (by omega) fun sector hlo hhi => halloc sector (by omega) (by omega)
      rw [hread]
      dsimp only
      rw [hwrite]
      exact ⟨bs', hrun⟩
    · -- the request check rejects the sector at the end
      obtain ⟨write, hdrv⟩ := h.drv
      have hlen := bs.device.length.toInt_lt
      rw [h.device, hc.size] at hlen
      have hreject : bdrvCheckRequest bs.device (BitVec.ofNat 64 i) (BitVec.ofNat 32 1) ≠ none := by
        rw [h.device]
        intro hpass
        have hfits := (bdrvCheckRequest_sectors hc.inserted hc.growable hc.size (by omega) (by omega)).mp hpass
        omega
      obtain ⟨e, he⟩ := Option.ne_none_iff_exists'.1 hreject
      have hread : bdrvRead bs i 1 = (.error .eio, bs) := by
        unfold bdrvRead
        rw [hdrv]
        dsimp only
        rw [he]
      rw [hread]
      exact ⟨bs, rfl⟩

/-- The next run at the cluster `k`, and the state after the question. -/
theorem CommitAt.nextRun (hc : Committable g total ok content c bs₀)
    (h : CommitAt g total ok content c bs₀ (k * g.clusterSectors) bs) (hk : k * g.clusterSectors < total) :
    ∃ m s', qcowIsAllocated g bs.state.s (k * g.clusterSectors) 65536 =
        (decide (entry g bs₀.state.s k ≠ 0), m * g.clusterSectors, s') ∧
      1 ≤ m ∧ m ≤ g.l2Size - k % g.l2Size ∧
      (∀ sector, k * g.clusterSectors ≤ sector → sector < k * g.clusterSectors + m * g.clusterSectors →
        (entry g bs₀.state.s (sector / g.clusterSectors) = 0 ↔ entry g bs₀.state.s k = 0)) ∧
      CommitAt g total ok content c bs₀ (k * g.clusterSectors) { bs with state := { bs.state with s := s' } } := by
  have hcov := hc.covers _ hk
  rw [Nat.mul_div_cancel k g.clusterSectors_pos, ← h.only.l1Size] at hcov
  obtain ⟨m, s', hrun, hm, hmle, hsame, hread, honly⟩ := h.readable.isAllocated_ok hcov
  rw [h.only.entry_eq] at hrun hsame
  refine ⟨m, s', hrun, hm, hmle, fun sector hlo hhi => ?_,
    h.drv, h.device, hread, h.only.trans honly.readOnly, h.backing⟩
  obtain ⟨j, rfl⟩ := Nat.exists_eq_add_of_le hlo
  have hj : j / g.clusterSectors < m := (Nat.div_lt_iff_lt_mul g.clusterSectors_pos).2 (by omega)
  rw [Nat.mul_comm k, Nat.mul_add_div g.clusterSectors_pos]
  exact hsame _ hj

/-- An allocated run does not pass the end of a device of whole clusters. -/
theorem run_inside (hend : EndFree g total bs₀.state.s)
    (hlast : g.clusterSectors ∣ total ∨ entry g bs₀.state.s (total / g.clusterSectors) = 0)
    (hk : k * g.clusterSectors < total) (hm : m ≤ g.l2Size - k % g.l2Size)
    (halloc : ∀ sector, k * g.clusterSectors ≤ sector → sector < k * g.clusterSectors + m * g.clusterSectors →
      entry g bs₀.state.s (sector / g.clusterSectors) ≠ 0) : k * g.clusterSectors + m * g.clusterSectors ≤ total := by
  by_contra hpast
  have hne := halloc total hk.le (by omega)
  have hdvd := hlast.resolve_right hne
  -- the cluster behind the end is in the table of the run
  obtain ⟨q, rfl⟩ := hdvd
  have hq : g.clusterSectors * q / g.clusterSectors = q := Nat.mul_div_cancel_left q g.clusterSectors_pos
  have hkq : k < q := by
    rw [Nat.mul_comm k] at hk
    exact Nat.lt_of_mul_lt_mul_left hk
  have hqm : q < k + m := by
    have hlt : g.clusterSectors * q < g.clusterSectors * (k + m) := by
      rw [Nat.mul_add, Nat.mul_comm g.clusterSectors k, Nat.mul_comm g.clusterSectors m]
      omega
    exact Nat.lt_of_mul_lt_mul_left hlt
  refine hne (hend (Dvd.intro q rfl) ?_)
  rw [hq]
  have hmod := Nat.mod_lt k g.l2Size_pos
  have hsplit := Nat.div_add_mod k g.l2Size
  obtain ⟨d, rfl⟩ := Nat.exists_eq_add_of_lt hkq
  rw [← hsplit, show g.l2Size * (k / g.l2Size) + k % g.l2Size + d + 1 =
    g.l2Size * (k / g.l2Size) + (k % g.l2Size + d + 1) by omega, Nat.mul_add_mod, Nat.mod_eq_of_lt (by omega)]
  omega

theorem commitLoop_ok (hc : Committable g total ok content c bs₀) (hend : EndFree g total bs₀.state.s)
    (hlast : g.clusterSectors ∣ total ∨ entry g bs₀.state.s (total / g.clusterSectors) = 0) (d : ℕ)
    (hd : total - k * g.clusterSectors ≤ d) (h : CommitAt g total ok content c bs₀ (k * g.clusterSectors) bs) :
    ∃ fuel i bs', commitLoop g total fuel bs (k * g.clusterSectors) = some (.ok (), bs') ∧ total ≤ i ∧
      CommitAt g total ok content c bs₀ i bs' := by
  induction d generalizing k bs with
  | zero => exact ⟨1, _, bs, if_pos (by omega), by omega, h⟩
  | succ d ih =>
    rcases Nat.lt_or_ge (k * g.clusterSectors) total with hk | hk
    · obtain ⟨m, s', hrun, hm, hmle, hsame, h'⟩ := h.nextRun hc hk
      have hpos : g.clusterSectors ≤ m * g.clusterSectors := Nat.le_mul_of_pos_left _ hm
      have hcs := g.clusterSectors_pos
      have hnext : k * g.clusterSectors + m * g.clusterSectors = (k + m) * g.clusterSectors := (Nat.add_mul _ _ _).symm
      by_cases hfree : entry g bs₀.state.s k = 0
      · have hskip := h'.move (committedTo_skip bs₀.state.s fun sector hlo hhi => (hsame sector hlo hhi).2 hfree)
        rw [hnext] at hskip
        obtain ⟨fuel, i, bs', hloop, hi, hdone⟩ := ih (by rw [← hnext]; omega) hskip
        refine ⟨fuel + 1, i, bs', ?_, hi, hdone⟩
        unfold commitLoop
        rw [if_neg (by omega), hrun]
        simp only [ne_eq, hfree, not_true_eq_false, decide_false, Bool.false_eq_true, if_false, hnext]
        exact hloop
      · have halloc : ∀ sector, k * g.clusterSectors ≤ sector →
            sector < k * g.clusterSectors + m * g.clusterSectors →
            entry g bs₀.state.s (sector / g.clusterSectors) ≠ 0 :=
          fun sector hlo hhi hz => hfree ((hsame sector hlo hhi).1 hz)
        obtain ⟨bs₁, hcopy, h₁⟩ := commitRun_ok hc h' (run_inside hend hlast hk hmle halloc) halloc
        rw [hnext] at hcopy h₁
        obtain ⟨fuel, i, bs', hloop, hi, hdone⟩ := ih (by rw [← hnext]; omega) h₁
        refine ⟨fuel + 1, i, bs', ?_, hi, hdone⟩
        unfold commitLoop
        rw [if_neg (by omega), hrun]
        simp only [ne_eq, hfree, not_false_eq_true, decide_true, if_true, hcopy]
        exact hloop
    · exact ⟨1, _, bs, if_pos hk, hk, h⟩

/-- If the last cluster is allocated and is not full, the loop ends with an error. -/
theorem commitLoop_fails (hc : Committable g total ok content c bs₀) (hpart : ¬ g.clusterSectors ∣ total)
    (hlast : entry g bs₀.state.s (total / g.clusterSectors) ≠ 0) (fuel : ℕ) (hk : k ≤ total / g.clusterSectors)
    (h : CommitAt g total ok content c bs₀ (k * g.clusterSectors) bs) (bs' : BlockDriverState (Overlay σ)) :
    commitLoop g total fuel bs (k * g.clusterSectors) ≠ some (.ok (), bs') := by
  induction fuel generalizing k bs with
  | zero => exact fun hnone => absurd hnone (by simp [commitLoop])
  | succ fuel ih =>
    have hlow : k * g.clusterSectors ≤ total / g.clusterSectors * g.clusterSectors := Nat.mul_le_mul_right _ hk
    have hfloor := Nat.div_mul_le_self total g.clusterSectors
    have hne : total / g.clusterSectors * g.clusterSectors ≠ total := fun heq => hpart (Dvd.intro_left _ heq)
    have hlt : k * g.clusterSectors < total := by omega
    obtain ⟨m, s', hrun, hm, hmle, hsame, h'⟩ := h.nextRun hc hlt
    have hnext : k * g.clusterSectors + m * g.clusterSectors = (k + m) * g.clusterSectors := (Nat.add_mul _ _ _).symm
    -- a run that stays in front of the last cluster
    have hbefore : k * g.clusterSectors + m * g.clusterSectors ≤ total → k + m ≤ total / g.clusterSectors := by
      rw [hnext]
      exact (Nat.le_div_iff_mul_le g.clusterSectors_pos).2
    unfold commitLoop
    rw [if_neg (by omega), hrun]
    by_cases hfree : entry g bs₀.state.s k = 0
    · have hskip := h'.move (committedTo_skip bs₀.state.s fun sector hlo hhi => (hsame sector hlo hhi).2 hfree)
      have hin : k * g.clusterSectors + m * g.clusterSectors ≤ total := by
        by_contra hpast
        exact hlast ((hsame total hlt.le (by omega)).2 hfree)
      rw [hnext] at hskip
      simp only [ne_eq, hfree, not_true_eq_false, decide_false, Bool.false_eq_true, if_false, hnext]
      exact ih (hbefore hin) hskip
    · have halloc : ∀ sector, k * g.clusterSectors ≤ sector →
          sector < k * g.clusterSectors + m * g.clusterSectors →
          entry g bs₀.state.s (sector / g.clusterSectors) ≠ 0 :=
        fun sector hlo hhi hz => hfree ((hsame sector hlo hhi).1 hz)
      simp only [ne_eq, hfree, not_false_eq_true, decide_true, if_true]
      rcases Nat.lt_or_ge total (k * g.clusterSectors + m * g.clusterSectors) with hpast | hin
      · obtain ⟨bs₁, hcopy⟩ := commitRun_fails hc h' hlt.le hpast halloc
        rw [hcopy]
        simp
      · obtain ⟨bs₁, hcopy, h₁⟩ := commitRun_ok hc h' hin halloc
        rw [hnext] at hcopy h₁
        rw [hcopy]
        exact ih (hbefore hin) h₁

theorem Committable.start (hc : Committable g total ok content c bs) : CommitAt g total ok content c bs 0 bs := by
  refine ⟨hc.drv, rfl, hc.readable, .refl _, hc.backing.congr fun x _ => ?_⟩
  unfold committedTo
  rw [if_neg (by omega)]

theorem Committable.commit_eq (hc : Committable g total ok content c bs) (fuel : ℕ) :
    bdrvCommit g fuel bs = commitLoop g total fuel bs (0 * g.clusterSectors) := by
  obtain ⟨write, hdrv⟩ := hc.drv
  have htotal : Qcow2.totalSectors bs = total := by
    have hsize := hc.size
    have hlt := bs.device.length.isLt
    rw [BitVec.toInt_eq_toNat_cond] at hsize
    unfold Qcow2.totalSectors
    split_ifs at hsize <;> omega
  unfold bdrvCommit
  rw [hdrv, hc.writable, htotal, Nat.zero_mul]
  simp

/-- **Committing an overlay** makes the backing device equal to it exactly if the device is a whole number of clusters
or its last cluster is not allocated. -/
theorem bdrvCommit_iff (hc : Committable g total ok content c bs) (hend : EndFree g total bs.state.s) :
    Commits g total ok content c bs ↔
      g.clusterSectors ∣ total ∨ entry g bs.state.s (total / g.clusterSectors) = 0 := by
  have hstart := hc.start
  rw [← Nat.zero_mul g.clusterSectors] at hstart
  constructor
  · rintro ⟨fuel, bs', hcommit, -⟩
    by_contra hnot
    rw [not_or] at hnot
    rw [hc.commit_eq] at hcommit
    exact commitLoop_fails hc hnot.1 hnot.2 fuel (Nat.zero_le _) hstart bs' hcommit
  · intro hlast
    obtain ⟨fuel, i, bs', hloop, hi, hdone⟩ := commitLoop_ok hc hend hlast _ le_rfl hstart
    have hback := hdone.backing.congr (committedTo_of_le bs.state.s hi)
    refine ⟨fuel, bs', ?_, hback, fun x hx => ?_⟩
    · rw [hc.commit_eq]
      exact hloop
    · rw [hdone.only.shownByte_eq]
      unfold shownByte
      split_ifs with hfree
      · rw [hback.bytes x hx]
        unfold shownByte
        rw [if_pos hfree]
      · rfl

/-- An image with clusters of two sectors. -/
def pairImage : Image where
  clusterBits := 10
  minClusterBits := by decide
  maxClusterBits := by decide
  crypt := none
  inflate := fun _ _ => (false, fun _ => 0)
  inflate_agrees := @failing_agrees

/-- The first cluster is allocated. -/
def firstCluster (i : ℕ) : ℕ := if i = 0 then setCopied 8192 else 0

/-- An overlay of `length` bytes with its first cluster allocated, over a raw image of the same length. -/
def smallOverlay (length : BitVec 64) : BlockDriverState (Overlay Bytes) where
  drv := some (overlayDriver pairImage fun o _ _ _ => (false, o))
  device := ⟨true, false, length⟩
  readOnly := false
  state := ⟨oneTable firstCluster, ⟨some rawDriver, ⟨true, false, length⟩, false, fun i => UInt8.ofNat i⟩⟩

theorem firstCluster_readable : Readable pairImage (oneTable firstCluster) := by
  refine oneTable_readable (fun i => ?_) (fun i => ?_) fun i => ?_
  · unfold firstCluster
    split_ifs <;> decide
  · unfold firstCluster
    split_ifs
    · exact .inr (.inl (by decide))
    · exact .inl rfl
  · unfold firstCluster
    split_ifs <;> decide

theorem firstCluster_entry (k : ℕ) : entry pairImage (oneTable firstCluster) k = firstCluster k := by
  rw [oneTable_entry fun i => by unfold firstCluster; split_ifs <;> decide]
  split_ifs with hk
  · rfl
  · have hne : k ≠ 0 := by
      rintro rfl
      exact hk pairImage.l2Size_pos
    exact (if_neg hne).symm

theorem smallOverlay_committable {total : ℕ} (hle : total ≤ 2) :
    Committable pairImage total (fun _ => True) id (fun i => UInt8.ofNat i)
      (smallOverlay (BitVec.ofNat 64 (512 * total))) := by
  have hsize : (BitVec.ofNat 64 (512 * total)).toInt = ((512 * total : ℕ) : ℤ) := by
    rw [BitVec.toInt_ofNat']
    exact Int.bmod_eq_of_le (by omega) (by omega)
  have hopen : Open (smallOverlay (BitVec.ofNat 64 (512 * total))).state.backingHd (512 * total) (fun _ => True) id :=
    ⟨⟨rawDriver, rfl, rawDriver_lawful _⟩, rfl, rfl, hsize, Dvd.intro _ rfl, rfl, trivial⟩
  refine ⟨⟨_, rfl⟩, rfl, rfl, hsize, rfl, firstCluster_readable, fun sector hs => ?_, hopen, fun _ _ => rfl⟩
  have hone : sector / pairImage.clusterSectors = 0 := Nat.div_eq_of_lt (lt_of_lt_of_le hs hle)
  rw [hone]
  show 0 < 1 * pairImage.l2Size
  decide

theorem smallOverlay_endFree (total : ℕ) : EndFree pairImage total (oneTable firstCluster) := by
  intro _ hmod
  rw [firstCluster_entry]
  refine if_neg fun hz => hmod ?_
  rw [hz, Nat.zero_mod]

/-- Two sectors are a whole cluster. -/
theorem bdrvCommit_iff_whole :
    Commits pairImage 2 (fun _ => True) id (fun i => UInt8.ofNat i) (smallOverlay (BitVec.ofNat 64 (512 * 2))) :=
  (bdrvCommit_iff (smallOverlay_committable le_rfl) (smallOverlay_endFree 2)).2 (.inl (by decide))

/-- An overlay of one sector with clusters of two. -/
theorem bdrvCommit_past_end :
    Committable pairImage 1 (fun _ => True) id (fun i => UInt8.ofNat i) (smallOverlay (BitVec.ofNat 64 (512 * 1))) ∧
      EndFree pairImage 1 (oneTable firstCluster) ∧
      ¬ Commits pairImage 1 (fun _ => True) id (fun i => UInt8.ofNat i) (smallOverlay (BitVec.ofNat 64 (512 * 1))) := by
  have hc := @smallOverlay_committable 1 (by omega)
  refine ⟨hc, smallOverlay_endFree 1, ?_⟩
  rintro ⟨fuel, bs', hcommit, -⟩
  have hstart := hc.start
  rw [← Nat.zero_mul pairImage.clusterSectors] at hstart
  have hlast : entry pairImage (oneTable firstCluster) (1 / pairImage.clusterSectors) ≠ 0 := by
    rw [firstCluster_entry]
    decide
  rw [hc.commit_eq] at hcommit
  exact commitLoop_fails hc (by decide) hlast fuel (Nat.zero_le _) hstart bs' hcommit

end Emulator.Block
