import Emulator.Qcow2.Refcount

/-!
# The refcounts stored in the image file

`refcountIn` is the refcount that the blocks in the file give to a cluster. `Blocks` says
that these refcounts are one for the blocks themselves and a given `Y` for every other
cluster.

* `refcountIn_setRefcount`: writing one refcount changes that refcount only;
* `Blocks.addRefcounts`: so does the loop of `update_refcount` for a range of clusters;
* `Blocks.newBlock`: a new refcount block may be added;
* `Blocks.growTable`: the refcount table may move to free clusters.
-/

namespace Emulator.Qcow2

open Function

variable (g : Image)

/-- The refcount of `c` in the blocks that `table` points to. -/
def refcountIn (file : Bytes) (table : ℕ → ℕ) (size c : ℕ) : ℕ :=
  if size ≤ c / g.blockEntries then 0
  else if table (c / g.blockEntries) = 0 then 0
  else beRead file (table (c / g.blockEntries) + 2 * (c % g.blockEntries)) 2

/-- The cluster `c` has an entry in a refcount block. -/
def HasBlock (table : ℕ → ℕ) (size c : ℕ) : Prop :=
  c / g.blockEntries < size ∧ table (c / g.blockEntries) ≠ 0

/-- The cluster `c` is a refcount block. -/
def IsBlock (table : ℕ → ℕ) (size c : ℕ) : Prop :=
  ∃ t < size, table t ≠ 0 ∧ table t = c * g.clusterSize

/-- The cluster `c` holds a part of the refcount table. -/
def InTable (offset size c : ℕ) : Prop :=
  offset ≤ c * g.clusterSize ∧ c * g.clusterSize < offset + 8 * size

instance (offset size c : ℕ) : Decidable (InTable g offset size c) := inferInstanceAs (Decidable (_ ∧ _))

/-- The refcount of `c` becomes `v`. -/
def setRefcount (table : ℕ → ℕ) (file : Bytes) (c v : ℕ) : Bytes :=
  file.write (table (c / g.blockEntries) + 2 * (c % g.blockEntries)) 2 (be 2 v)

/-- `addend` is added to the refcounts of `n` clusters. -/
def addRefcounts (table : ℕ → ℕ) (size : ℕ) (addend : ℤ) : ℕ → Bytes → ℕ → Bytes
  | 0, file, _ => file
  | n + 1, file, c =>
    addRefcounts table size addend n
      (setRefcount g table file c ((refcountIn g file table size c : ℤ) + addend).toNat) (c + 1)

/-- The refcounts in the file are one for the refcount blocks and `Y` for the other clusters. -/
structure Blocks (file : Bytes) (table : ℕ → ℕ) (size offset : ℕ) (Y : ℕ → ℕ) : Prop where
  tableOnDisk : ∀ t < size, beRead file (offset + 8 * t) 8 = table t
  tableAligned : g.clusterSize ∣ offset
  sizeAligned : g.l2Size ∣ size
  aligned : ∀ t < size, g.clusterSize ∣ table t
  inj : ∀ t < size, ∀ u < size, table t ≠ 0 → table t = table u → t = u
  notInTable : ∀ c, IsBlock g table size c → ¬ InTable g offset size c
  blockCount : ∀ c, IsBlock g table size c → refcountIn g file table size c = 1
  count : ∀ c, ¬ IsBlock g table size c → refcountIn g file table size c = Y c
  blockFree : ∀ c, IsBlock g table size c → Y c = 0

variable {g}
variable {file : Bytes} {table : ℕ → ℕ} {size offset : ℕ} {Y : ℕ → ℕ}

theorem aligned_disjoint {k a b : ℕ} (ha : k ∣ a) (hb : k ∣ b) (hne : a ≠ b) : a + k ≤ b ∨ b + k ≤ a := by
  obtain ⟨x, rfl⟩ := ha
  obtain ⟨y, rfl⟩ := hb
  rcases Nat.lt_trichotomy x y with h | h | h
  · left
    calc k * x + k = k * (x + 1) := by ring
      _ ≤ k * y := Nat.mul_le_mul_left k h
  · exact absurd (by rw [h]) hne
  · right
    calc k * y + k = k * (y + 1) := by ring
      _ ≤ k * x := Nat.mul_le_mul_left k h

/-- The place of an entry in its block. -/
theorem entry_lt (c : ℕ) : 2 * (c % g.blockEntries) + 2 ≤ g.clusterSize := by
  have h := Nat.mod_lt c g.blockEntries_pos
  rw [g.clusterSize_eq_blockEntries]
  omega

theorem eq_of_div_mod {k c d : ℕ} (hd : c / k = d / k) (hm : c % k = d % k) : c = d := by
  rw [← Nat.div_add_mod c k, ← Nat.div_add_mod d k, hd, hm]

theorem byte_cluster_iff {i c : ℕ} :
    i / g.clusterSize = c ↔ c * g.clusterSize ≤ i ∧ i < c * g.clusterSize + g.clusterSize := by
  rw [Nat.div_eq_iff g.clusterSize_pos]
  have := g.clusterSize_pos
  omega

theorem inTable_iff {x k c : ℕ} : InTable g (x * g.clusterSize) (k * g.l2Size) c ↔ x ≤ c ∧ c < x + k := by
  have hsz : 8 * (k * g.l2Size) = k * g.clusterSize := by rw [g.clusterSize_eq_l2Size]; ring
  unfold InTable
  rw [hsz, ← Nat.add_mul]
  exact and_congr (Nat.mul_le_mul_right_iff g.clusterSize_pos) (Nat.mul_lt_mul_right g.clusterSize_pos)

theorem isBlock_of_hasBlock (ha : ∀ t < size, g.clusterSize ∣ table t) {c : ℕ} (h : HasBlock g table size c) :
    IsBlock g table size (table (c / g.blockEntries) / g.clusterSize) :=
  ⟨c / g.blockEntries, h.1, h.2, (Nat.div_mul_cancel (ha _ h.1)).symm⟩

theorem refcountIn_of_hasBlock {c : ℕ} (h : HasBlock g table size c) :
    refcountIn g file table size c =
      beRead file (table (c / g.blockEntries) + 2 * (c % g.blockEntries)) 2 := by
  unfold refcountIn
  rw [if_neg (by have := h.1; omega), if_neg h.2]

theorem refcountIn_of_not_hasBlock {c : ℕ} (h : ¬ HasBlock g table size c) :
    refcountIn g file table size c = 0 := by
  unfold refcountIn
  split_ifs with h1 h2
  · rfl
  · rfl
  · exact absurd ⟨by omega, h2⟩ h

theorem hasBlock_of_refcountIn {c : ℕ} (h : refcountIn g file table size c ≠ 0) : HasBlock g table size c := by
  by_contra hn
  exact h (refcountIn_of_not_hasBlock hn)

theorem refcountIn_le (file : Bytes) (table : ℕ → ℕ) (size c : ℕ) : refcountIn g file table size c ≤ 65535 := by
  by_cases h : HasBlock g table size c
  · rw [refcountIn_of_hasBlock h]
    have := beRead_lt file (table (c / g.blockEntries) + 2 * (c % g.blockEntries)) 2
    omega
  · rw [refcountIn_of_not_hasBlock h]
    omega

/-- A file that agrees on the refcount blocks has the same refcounts. -/
theorem refcountIn_congr {file' : Bytes} (ha : ∀ t < size, g.clusterSize ∣ table t)
    (h : ∀ i, IsBlock g table size (i / g.clusterSize) → file' i = file i) (c : ℕ) :
    refcountIn g file' table size c = refcountIn g file table size c := by
  by_cases hb : HasBlock g table size c
  · rw [refcountIn_of_hasBlock hb, refcountIn_of_hasBlock hb]
    refine beRead_congr fun i hi => h _ ?_
    have he := entry_lt (g := g) c
    rw [byte_cluster_iff.2 ⟨?_, ?_⟩]
    · exact isBlock_of_hasBlock ha hb
    · rw [Nat.div_mul_cancel (ha _ hb.1)]; omega
    · rw [Nat.div_mul_cancel (ha _ hb.1)]; omega
  · rw [refcountIn_of_not_hasBlock hb, refcountIn_of_not_hasBlock hb]

/-- **Writing one refcount changes that refcount only.** -/
theorem refcountIn_setRefcount (ha : ∀ t < size, g.clusterSize ∣ table t)
    (hi : ∀ t < size, ∀ u < size, table t ≠ 0 → table t = table u → t = u) {c : ℕ}
    (hc : HasBlock g table size c) (v c' : ℕ) :
    refcountIn g (setRefcount g table file c v) table size c' =
      if c' = c then v % 65536 else refcountIn g file table size c' := by
  unfold setRefcount
  split_ifs with h
  · subst h
    rw [refcountIn_of_hasBlock hc, beRead_write_be, show (256 : ℕ) ^ 2 = 65536 from rfl]
  · by_cases hb : HasBlock g table size c'
    · rw [refcountIn_of_hasBlock hb, refcountIn_of_hasBlock hb]
      refine beRead_write_of_disjoint ?_
      have h1 := entry_lt (g := g) c
      have h2 := entry_lt (g := g) c'
      by_cases ht : c' / g.blockEntries = c / g.blockEntries
      · have hm : c' % g.blockEntries ≠ c % g.blockEntries := fun hm => h (eq_of_div_mod ht hm)
        rw [ht]
        omega
      · have hne : table (c' / g.blockEntries) ≠ table (c / g.blockEntries) :=
          fun heq => ht (hi _ hb.1 _ hc.1 hb.2 heq)
        have := aligned_disjoint (ha _ hb.1) (ha _ hc.1) hne
        omega
    · rw [refcountIn_of_not_hasBlock hb, refcountIn_of_not_hasBlock hb]

theorem setRefcount_of_not_isBlock (ha : ∀ t < size, g.clusterSize ∣ table t) {c : ℕ}
    (hc : HasBlock g table size c) {i : ℕ} (hi : ¬ IsBlock g table size (i / g.clusterSize)) (v : ℕ) :
    setRefcount g table file c v i = file i := by
  unfold setRefcount
  refine Bytes.write_of_not_mem ?_
  by_contra hn
  refine hi ?_
  have he := entry_lt (g := g) c
  rw [byte_cluster_iff.2 ⟨?_, ?_⟩]
  · exact isBlock_of_hasBlock ha hc
  · rw [Nat.div_mul_cancel (ha _ hc.1)]; omega
  · rw [Nat.div_mul_cancel (ha _ hc.1)]; omega

theorem refcountIn_addRefcounts (ha : ∀ t < size, g.clusterSize ∣ table t)
    (hi : ∀ t < size, ∀ u < size, table t ≠ 0 → table t = table u → t = u) {addend : ℤ} {n c : ℕ}
    (hb : ∀ d, c ≤ d → d < c + n → HasBlock g table size d)
    (hr : ∀ d, c ≤ d → d < c + n → (refcountIn g file table size d : ℤ) + addend ≤ 65535) (c' : ℕ) :
    refcountIn g (addRefcounts g table size addend n file c) table size c' =
      if c ≤ c' ∧ c' < c + n then ((refcountIn g file table size c' : ℤ) + addend).toNat
      else refcountIn g file table size c' := by
  induction n generalizing file c with
  | zero => rw [addRefcounts, if_neg (by omega)]
  | succ n ih =>
    have hset : ∀ c', refcountIn g (setRefcount g table file c
        ((refcountIn g file table size c : ℤ) + addend).toNat) table size c' = _ :=
      refcountIn_setRefcount ha hi (hb c le_rfl (by omega)) _
    have hlt : ((refcountIn g file table size c : ℤ) + addend).toNat % 65536 =
        ((refcountIn g file table size c : ℤ) + addend).toNat := by
      have := hr c le_rfl (by omega)
      omega
    rw [addRefcounts, ih (fun d h1 h2 => hb d (by omega) (by omega)) ?_, hset c']
    · by_cases h : c' = c
      · subst h
        rw [if_neg (by omega), if_pos rfl, if_pos (by omega), hlt]
      · rw [if_neg h]
        exact if_congr (by omega) rfl rfl
    · intro d h1 h2
      rw [hset d, if_neg (by omega)]
      exact hr d (by omega) (by omega)

theorem addRefcounts_of_not_isBlock (ha : ∀ t < size, g.clusterSize ∣ table t) {addend : ℤ} {n c : ℕ}
    (hb : ∀ d, c ≤ d → d < c + n → HasBlock g table size d) {i : ℕ}
    (hi : ¬ IsBlock g table size (i / g.clusterSize)) :
    addRefcounts g table size addend n file c i = file i := by
  induction n generalizing file c with
  | zero => rfl
  | succ n ih =>
    rw [addRefcounts, ih (fun d h1 h2 => hb d (by omega) (by omega)),
      setRefcount_of_not_isBlock ha (hb c le_rfl (by omega)) hi]

/-- `addend` more references to each of the `n` clusters from `c` on. -/
def addRange (Y : ℕ → ℕ) (c n : ℕ) (addend : ℤ) : ℕ → ℕ :=
  fun d => if c ≤ d ∧ d < c + n then ((Y d : ℤ) + addend).toNat else Y d

theorem inTable_of_byte (h : Blocks g file table size offset Y) {i : ℕ} (h1 : offset ≤ i)
    (h2 : i < offset + 8 * size) : InTable g offset size (i / g.clusterSize) := by
  obtain ⟨x, hx⟩ := h.tableAligned
  have hd : x ≤ i / g.clusterSize := by
    rw [Nat.le_div_iff_mul_le g.clusterSize_pos, Nat.mul_comm]
    omega
  have hm := Nat.div_mul_le_self i g.clusterSize
  refine ⟨?_, by omega⟩
  calc offset = x * g.clusterSize := by rw [hx, Nat.mul_comm]
    _ ≤ i / g.clusterSize * g.clusterSize := Nat.mul_le_mul_right _ hd

theorem Blocks.addRefcounts (h : Blocks g file table size offset Y) {addend : ℤ} {n c : ℕ}
    (hb : ∀ d, c ≤ d → d < c + n → HasBlock g table size d)
    (hn : ∀ d, c ≤ d → d < c + n → ¬ IsBlock g table size d)
    (hr : ∀ d, c ≤ d → d < c + n → (Y d : ℤ) + addend ≤ 65535) :
    Blocks g (addRefcounts g table size addend n file c) table size offset (addRange Y c n addend) := by
  have hcount := refcountIn_addRefcounts h.aligned h.inj hb
    (fun d h1 h2 => by rw [h.count d (hn d h1 h2)]; exact hr d h1 h2)
  refine ⟨?_, h.tableAligned, h.sizeAligned, h.aligned, h.inj, h.notInTable, ?_, ?_, ?_⟩
  · intro t ht
    rw [← h.tableOnDisk t ht]
    refine beRead_congr fun i hi => addRefcounts_of_not_isBlock h.aligned hb fun hblock => ?_
    exact h.notInTable _ hblock (inTable_of_byte h (by omega) (by omega))
  · intro d hd
    rw [hcount d, if_neg (fun hdc => hn d hdc.1 hdc.2 hd), h.blockCount d hd]
  · intro d hd
    rw [hcount d, h.count d hd]
    rfl
  · intro d hd
    unfold addRange
    rw [if_neg (fun hdc => hn d hdc.1 hdc.2 hd), h.blockFree d hd]

/-- The file after `alloc_refcount_block` has made the cluster `e` the block `t`. -/
def newBlockFile (g : Image) (file : Bytes) (table : ℕ → ℕ) (offset t e : ℕ) : Bytes :=
  setRefcount g (update table t (e * g.clusterSize))
    ((file.write (e * g.clusterSize) g.clusterSize fun _ => 0).write (offset + t * 8) 8
      (be 8 (e * g.clusterSize))) e 1

theorem isBlock_update {t e : ℕ} (ht : t < size) (h0 : table t = 0) (he : e ≠ 0) (c : ℕ) :
    IsBlock g (update table t (e * g.clusterSize)) size c ↔ IsBlock g table size c ∨ c = e := by
  have hcs := g.clusterSize_pos
  constructor
  · rintro ⟨u, hu, hne, heq⟩
    rw [update_apply] at hne heq
    split_ifs at hne heq with hut
    · exact .inr (Nat.eq_of_mul_eq_mul_right hcs heq).symm
    · exact .inl ⟨u, hu, hne, heq⟩
  · rintro (⟨u, hu, hne, heq⟩ | rfl)
    · have hut : u ≠ t := fun hut => hne (hut ▸ h0)
      exact ⟨u, hu, by rwa [update_of_ne hut], by rwa [update_of_ne hut]⟩
    · refine ⟨t, ht, ?_, ?_⟩
      · rw [update_self]
        exact Nat.mul_ne_zero he hcs.ne'
      · rw [update_self]

section NewBlock

variable {t e : ℕ}

/-- The refcounts after the new block is cleared and entered in the table. -/
theorem refcountIn_clearedBlock (h : Blocks g file table size offset Y) (ht : t < size) (h0 : table t = 0)
    (he : e ≠ 0) (hnb : ¬ IsBlock g table size e) (c : ℕ) (hnt : ¬ InTable g offset size e) :
    refcountIn g ((file.write (e * g.clusterSize) g.clusterSize fun _ => 0).write (offset + t * 8) 8
      (be 8 (e * g.clusterSize))) (update table t (e * g.clusterSize)) size c =
      refcountIn g file table size c := by
  have hcs := g.clusterSize_pos
  -- the entry of the table is not in a block
  have hout : ∀ i, i < offset + t * 8 ∨ offset + t * 8 + 8 ≤ i ∨ InTable g offset size (i / g.clusterSize) := by
    intro i
    by_cases hi : offset + t * 8 ≤ i ∧ i < offset + t * 8 + 8
    · exact .inr (.inr (inTable_of_byte h (by omega) (by omega)))
    · omega
  by_cases hc : c / g.blockEntries = t
  · have hb : ¬ HasBlock g table size c := fun hb => hb.2 (hc ▸ h0)
    have hb' : HasBlock g (update table t (e * g.clusterSize)) size c := by
      refine ⟨hc ▸ ht, ?_⟩
      rw [hc, update_self]
      exact Nat.mul_ne_zero he hcs.ne'
    rw [refcountIn_of_not_hasBlock hb, refcountIn_of_hasBlock hb', hc, update_self]
    refine beRead_zero fun i hi => ?_
    have hlt := entry_lt (g := g) c
    have hin : (e * g.clusterSize + 2 * (c % g.blockEntries) + i) / g.clusterSize = e :=
      byte_cluster_iff.2 ⟨by omega, by omega⟩
    rw [Bytes.write_of_not_mem, Bytes.write_of_mem (by omega) (by omega)]
    rcases hout (e * g.clusterSize + 2 * (c % g.blockEntries) + i) with h1 | h1 | h1
    · exact .inl h1
    · exact .inr h1
    · exact absurd (hin ▸ h1) hnt
  · have htab : update table t (e * g.clusterSize) (c / g.blockEntries) = table (c / g.blockEntries) :=
      update_of_ne hc _ _
    have hfile : refcountIn g ((file.write (e * g.clusterSize) g.clusterSize fun _ => 0).write
        (offset + t * 8) 8 (be 8 (e * g.clusterSize))) table size c = refcountIn g file table size c := by
      refine refcountIn_congr h.aligned (fun i hi => ?_) c
      rw [Bytes.write_of_not_mem, Bytes.write_of_not_mem]
      · by_contra hn
        have hin : i / g.clusterSize = e := byte_cluster_iff.2 ⟨by omega, by omega⟩
        exact hnb (hin ▸ hi)
      · rcases hout i with h1 | h1 | h1
        · exact .inl h1
        · exact .inr h1
        · exact absurd h1 (h.notInTable _ hi)
    rw [← hfile]
    unfold refcountIn
    rw [htab]

theorem aligned_update (h : Blocks g file table size offset Y) :
    ∀ u < size, g.clusterSize ∣ update table t (e * g.clusterSize) u := by
  intro u hu
  rw [update_apply]
  split_ifs
  · exact Dvd.intro_left e rfl
  · exact h.aligned u hu

theorem inj_update (h : Blocks g file table size offset Y) (hnb : ¬ IsBlock g table size e) :
    ∀ u < size, ∀ v < size, update table t (e * g.clusterSize) u ≠ 0 →
      update table t (e * g.clusterSize) u = update table t (e * g.clusterSize) v → u = v := by
  intro u hu v hv hne heq
  rw [update_apply] at hne heq
  rw [update_apply] at heq
  split_ifs at hne heq with h1 h2 h2
  · rw [h1, h2]
  · exact absurd ⟨v, hv, heq ▸ hne, heq.symm⟩ hnb
  · exact absurd ⟨u, hu, hne, heq⟩ hnb
  · exact h.inj u hu v hv hne heq

theorem hasBlock_update (ht : t < size) (he : e ≠ 0) {c : ℕ} (hc : c / g.blockEntries = t) :
    HasBlock g (update table t (e * g.clusterSize)) size c := by
  refine ⟨hc ▸ ht, ?_⟩
  rw [hc, update_self]
  exact Nat.mul_ne_zero he g.clusterSize_pos.ne'

/-- **A cluster that the missing block counts may become that block.** -/
theorem Blocks.newBlock (h : Blocks g file table size offset Y) (ht : t < size) (h0 : table t = 0)
    (hte : e / g.blockEntries = t) (he : e ≠ 0) (hnt : ¬ InTable g offset size e)
    (hlt : e * g.clusterSize < 2 ^ 64) :
    Blocks g (newBlockFile g file table offset t e) (update table t (e * g.clusterSize)) size offset Y := by
  have h0e : refcountIn g file table size e = 0 := refcountIn_of_not_hasBlock fun hb => hb.2 (hte ▸ h0)
  have hnb : ¬ IsBlock g table size e := by
    intro hb
    rw [h.blockCount e hb] at h0e
    omega
  have hblock : ∀ c, IsBlock g (update table t (e * g.clusterSize)) size c ↔ _ := isBlock_update ht h0 he
  have hcount : ∀ c, refcountIn g (newBlockFile g file table offset t e)
      (update table t (e * g.clusterSize)) size c =
      if c = e then 1 else refcountIn g file table size c := by
    intro c
    unfold newBlockFile
    rw [refcountIn_setRefcount (aligned_update h) (inj_update h hnb) (hasBlock_update ht he hte),
      refcountIn_clearedBlock h ht h0 he hnb c hnt]
  refine ⟨?_, h.tableAligned, h.sizeAligned, aligned_update h, inj_update h hnb, ?_, ?_, ?_, ?_⟩
  · intro u hu
    have hin : ∀ i < 8, InTable g offset size ((offset + 8 * u + i) / g.clusterSize) := fun i hi =>
      inTable_of_byte h (by omega) (by omega)
    have hset : beRead (newBlockFile g file table offset t e) (offset + 8 * u) 8 =
        beRead ((file.write (e * g.clusterSize) g.clusterSize fun _ => 0).write (offset + t * 8) 8
          (be 8 (e * g.clusterSize))) (offset + 8 * u) 8 := by
      refine beRead_congr fun i hi => setRefcount_of_not_isBlock (aligned_update h) (hasBlock_update ht he hte) ?_ 1
      rw [hblock]
      rintro (hb | hb)
      · exact h.notInTable _ hb (hin i hi)
      · exact hnt (hb ▸ hin i hi)
    rw [hset, update_apply]
    split_ifs with hut
    · rw [show offset + 8 * u = offset + t * 8 by rw [hut]; ring, beRead_write_be]
      exact Nat.mod_eq_of_lt (by simpa using hlt)
    · rw [beRead_write_of_disjoint (by omega), ← h.tableOnDisk u hu]
      refine beRead_congr fun i hi => Bytes.write_of_not_mem ?_
      by_contra hn
      have hie : (offset + 8 * u + i) / g.clusterSize = e := byte_cluster_iff.2 ⟨by omega, by omega⟩
      exact hnt (hie ▸ hin i hi)
  · intro c hc
    rcases (hblock c).1 hc with hb | rfl
    · exact h.notInTable c hb
    · exact hnt
  · intro c hc
    rw [hcount c]
    split_ifs with hce
    · rfl
    · exact h.blockCount c (((hblock c).1 hc).resolve_right hce)
  · intro c hc
    have hce : c ≠ e := fun hce => hc ((hblock c).2 (.inr hce))
    rw [hcount c, if_neg hce, h.count c fun hb => hc ((hblock c).2 (.inl hb))]
  · intro c hc
    rcases (hblock c).1 hc with hb | rfl
    · exact h.blockFree c hb
    · rw [← h.count c hnb, h0e]

theorem newBlockFile_frame (h : Blocks g file table size offset Y) (ht : t < size) (h0 : table t = 0)
    (hte : e / g.blockEntries = t) (he : e ≠ 0) {i : ℕ}
    (hi : ¬ IsBlock g (update table t (e * g.clusterSize)) size (i / g.clusterSize))
    (hi' : ¬ InTable g offset size (i / g.clusterSize)) :
    newBlockFile g file table offset t e i = file i := by
  unfold newBlockFile
  rw [setRefcount_of_not_isBlock (aligned_update h) (hasBlock_update ht he hte) hi, Bytes.write_of_not_mem,
    Bytes.write_of_not_mem]
  · by_contra hn
    exact hi ((isBlock_update ht h0 he _).2 (.inr (byte_cluster_iff.2 ⟨by omega, by omega⟩)))
  · by_contra hn
    exact hi' (inTable_of_byte h (by omega) (by omega))

end NewBlock

/-- The entries of the larger table. -/
def grownTable (table : ℕ → ℕ) (size : ℕ) : ℕ → ℕ := fun i => if i < size then table i else 0

section Grow

variable {e k : ℕ} {field : Bytes}

theorem isBlock_grownTable (hk : size ≤ k * g.l2Size) (c : ℕ) :
    IsBlock g (grownTable table size) (k * g.l2Size) c ↔ IsBlock g table size c := by
  unfold grownTable
  constructor
  · rintro ⟨t, -, hne, heq⟩
    simp only at hne heq
    split_ifs at hne heq with hts
    · exact ⟨t, hts, hne, heq⟩
    · exact absurd rfl hne
  · rintro ⟨t, ht, hne, heq⟩
    exact ⟨t, by omega, by simpa only [if_pos ht] using hne, by simpa only [if_pos ht] using heq⟩

theorem refcountIn_grownTable (hk : size ≤ k * g.l2Size) (c : ℕ) :
    refcountIn g file (grownTable table size) (k * g.l2Size) c = refcountIn g file table size c := by
  by_cases h : c / g.blockEntries < size
  · unfold refcountIn grownTable
    rw [if_pos h]
    exact if_congr (by omega) rfl rfl
  · rw [refcountIn_of_not_hasBlock fun hb => h hb.1, refcountIn_of_not_hasBlock fun hb => hb.2 (if_neg h)]

/-- The file after `grow_refcount_table` has written the table to the cluster `e` and the header. -/
def grownFile (g : Image) (file : Bytes) (table : ℕ → ℕ) (size e k : ℕ) (field : Bytes) : Bytes :=
  (file.write (e * g.clusterSize) (k * g.l2Size * 8) (beTable 8 (grownTable table size))).write 48 12 field

theorem grownFile_of_not_mem {i : ℕ} (hi : i / g.clusterSize < e ∨ e + k ≤ i / g.clusterSize)
    (hh : i < 48 ∨ 60 ≤ i) : grownFile g file table size e k field i = file i := by
  unfold grownFile
  rw [Bytes.write_of_not_mem (by omega), Bytes.write_of_not_mem]
  have hsz : k * g.l2Size * 8 = k * g.clusterSize := by rw [g.clusterSize_eq_l2Size]; ring
  rcases hi with hi | hi
  · left
    exact (Nat.div_lt_iff_lt_mul g.clusterSize_pos).1 hi
  · right
    rw [hsz, ← Nat.add_mul]
    exact (Nat.le_div_iff_mul_le g.clusterSize_pos).1 hi

/-- **The refcount table may move to clusters that are free.** -/
theorem Blocks.growTable (h : Blocks g file table size offset Y) (he : 1 ≤ e) (hk : size ≤ k * g.l2Size)
    (hfree : ∀ c, e ≤ c → c < e + k → refcountIn g file table size c = 0) (hhead : 0 < Y 0) :
    Blocks g (grownFile g file table size e k field) (grownTable table size) (k * g.l2Size)
      (e * g.clusterSize) Y := by
  have hcs := g.clusterSize_pos
  have h512 : 512 ≤ g.clusterSize := by
    rw [g.clusterSize_eq]
    have := g.clusterSectors_pos
    omega
  have hsz : 8 * (k * g.l2Size) = k * g.clusterSize := by rw [g.clusterSize_eq_l2Size]; ring
  have hblock : ∀ c, IsBlock g (grownTable table size) _ c ↔ IsBlock g table size c := isBlock_grownTable hk
  -- no block lies where the table or the header field is written
  have hkeep : ∀ i, IsBlock g table size (i / g.clusterSize) → grownFile g file table size e k field i = file i := by
    intro i hi
    refine grownFile_of_not_mem ?_ ?_
    · by_contra hn
      have := h.blockCount _ hi
      rw [hfree _ (by omega) (by omega)] at this
      omega
    · by_contra hn
      have h0 : i / g.clusterSize = 0 := Nat.div_eq_of_lt (by omega)
      have := h.blockFree _ hi
      rw [h0] at this
      omega
  refine ⟨?_, Dvd.intro_left e rfl, Dvd.intro_left k rfl, ?_, ?_, ?_, ?_, ?_, ?_⟩
  · intro t ht
    have hge : g.clusterSize ≤ e * g.clusterSize := Nat.le_mul_of_pos_left _ he
    unfold grownFile
    rw [beRead_write_of_disjoint (by omega), beRead_write_of_subset (by omega) (by omega), Nat.add_sub_cancel_left,
      beRead_beTable _ (by omega)]
    refine Nat.mod_eq_of_lt ?_
    unfold grownTable
    split_ifs with hts
    · rw [← h.tableOnDisk t hts]
      exact beRead_lt _ _ _
    · exact Nat.pow_pos (by omega)
  · intro t ht
    unfold grownTable
    split_ifs with hts
    · exact h.aligned t hts
    · exact Dvd.intro 0 rfl
  · intro t ht u hu hne heq
    unfold grownTable at hne heq
    split_ifs at hne heq with h1 h2 h2
    · exact h.inj t h1 u h2 hne heq
    · exact absurd heq hne
    · exact absurd rfl hne
    · exact absurd rfl hne
  · intro c hc hin
    have hc' := (hblock c).1 hc
    obtain ⟨h1, h2⟩ := inTable_iff.1 hin
    have := h.blockCount c hc'
    rw [hfree c h1 h2] at this
    omega
  · intro c hc
    rw [refcountIn_grownTable hk, refcountIn_congr h.aligned hkeep, h.blockCount c ((hblock c).1 hc)]
  · intro c hc
    rw [refcountIn_grownTable hk, refcountIn_congr h.aligned hkeep, h.count c fun hb => hc ((hblock c).2 hb)]
  · exact fun c hc => h.blockFree c ((hblock c).1 hc)

end Grow

end Emulator.Qcow2
