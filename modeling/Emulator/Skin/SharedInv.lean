import Emulator.Skin.Shared

/-!
# Sharing does not show

* `FamilyOk`: every count is at least the number of pointers (`Counted`), every region that is not a rectangle is
  well formed;
* `Sets`: what a call does to the value of its region, and to no other; one lemma for every function of the API;
* `translate_moves`: a translation moves its region and no other.
-/

namespace Emulator.Skin.Shared

open Function Option

def Region.held (region : Region) : Option ℕ :=
  match region.runs with
  | .store s => some s
  | _ => none

/-- The count of a store, 0 if it is not allocated. -/
def Heap.count (h : Heap) (s : ℕ) : ℤ := (h.stores s).elim 0 RunStore.refcount

def Heap.runs (h : Heap) (s : ℕ) : Option (List Band) := (h.stores s).map RunStore.runs

@[simp] theorem Heap.count_put (h : Heap) (s : ℕ) (st : RunStore) :
    (h.put s st).count = update h.count s st.refcount := by
  funext t
  by_cases hts : t = s
  · subst hts
    simp [Heap.count, Heap.put]
  · simp [Heap.count, Heap.put, update_of_ne hts]

@[simp] theorem Heap.runs_put (h : Heap) (s : ℕ) (st : RunStore) :
    (h.put s st).runs = update h.runs s (some st.runs) := by
  funext t
  by_cases hts : t = s
  · subst hts
    simp [Heap.runs, Heap.put]
  · simp [Heap.runs, Heap.put, update_of_ne hts]

@[simp] theorem Heap.next_put (h : Heap) (s : ℕ) (st : RunStore) : (h.put s st).next = h.next := rfl

@[simp] theorem alloc_count (h : Heap) (runs : List Band) : (runstoreAlloc h runs).1.count = update h.count h.next 1 :=
  Heap.count_put h h.next ⟨1, runs⟩

@[simp] theorem alloc_runs (h : Heap) (runs : List Band) :
    (runstoreAlloc h runs).1.runs = update h.runs h.next (some runs) :=
  Heap.runs_put h h.next ⟨1, runs⟩

/-- A region is read through its own store only. -/
theorem readRegion_congr {h h' : Heap} {region : Region} (hs : ∀ s, region.held = some s → h'.runs s = h.runs s) :
    readRegion h' region = readRegion h region := by
  obtain ⟨bounds, runs⟩ := region
  cases runs with
  | empty => rfl
  | rect => rfl
  | store s =>
    have he := hs s rfl
    unfold Heap.runs at he
    cases h1 : h'.stores s <;> cases h2 : h.stores s <;> simp_all [readRegion]

/-- The value of a region is marked as the region is. -/
theorem value_marks {ι : Type} {f : Family ι} {r : ι} {v : SkinRegion} (hv : f.value r = some v) :
    v.bounds = (f.regions r).bounds ∧ (v.runs = .empty ↔ (f.regions r).runs = .empty) := by
  unfold Family.value readRegion at hv
  cases hr : (f.regions r).runs with
  | empty =>
    simp only [hr, Option.some.injEq] at hv
    simp [← hv]
  | rect =>
    simp only [hr, Option.some.injEq] at hv
    simp [← hv]
  | store s =>
    simp only [hr, map_eq_some_iff] at hv
    obtain ⟨st, -, rfl⟩ := hv
    simp

structure FamilyOk {ι : Type} (f : Family ι) : Prop where
  counted : Counted (fun r => (f.regions r).held) f.heap.count
  fresh : ∀ s, f.heap.next ≤ s → f.heap.stores s = none
  ok : ∀ r v, f.value r = some v → v.runs ≠ .rect → RegionOk v

theorem start_ok {ι : Type} : FamilyOk (Family.start : Family ι) where
  counted := by
    intro s holders hall
    have hnone : holders = ∅ := by
      apply Finset.eq_empty_of_forall_notMem
      intro i hi
      simpa [Family.start, Region.held] using hall i hi
    simp [hnone, Family.start, Heap.count]
  fresh _ _ := rfl
  ok r v hv _ := by
    simp only [Family.value, Family.start, readRegion, Option.some.injEq] at hv
    subst hv
    rfl

variable {ι : Type}

/-- `f'` is `f` with the value `v` for the region `r`. -/
structure Sets (f f' : Family ι) (r : ι) (v : SkinRegion) : Prop where
  ok : FamilyOk f'
  value : f'.value r = some v
  frame : ∀ q, q ≠ r → f'.value q = f.value q

theorem Sets.trans {f f1 f' : Family ι} {r : ι} {v1 v : SkinRegion} (h1 : Sets f f1 r v1) (h : Sets f1 f' r v) :
    Sets f f' r v :=
  ⟨h.ok, h.value, fun q hq => (h.frame q hq).trans (h1.frame q hq)⟩

/-- A call that does nothing. -/
theorem FamilyOk.sets_self {f : Family ι} (hf : FamilyOk f) {r : ι} {v : SkinRegion} (hv : f.value r = some v) :
    Sets f f r v :=
  ⟨hf, hv, fun _ _ => rfl⟩

theorem FamilyOk.allocated {f : Family ι} (hf : FamilyOk f) {r : ι} {s : ℕ} (hr : (f.regions r).held = some s) :
    ∃ st, f.heap.stores s = some st ∧ 1 ≤ st.refcount := by
  have h1 := hf.counted.one_le hr
  unfold Heap.count at h1
  cases hs : f.heap.stores s with
  | none => simp [hs] at h1
  | some st => exact ⟨st, rfl, by simpa [hs] using h1⟩

theorem FamilyOk.exists_value {f : Family ι} (hf : FamilyOk f) (r : ι) : ∃ v, f.value r = some v := by
  unfold Family.value
  cases hr : f.regions r with
  | mk bounds runs =>
    cases runs with
    | empty => exact ⟨_, rfl⟩
    | rect => exact ⟨_, rfl⟩
    | store s =>
      obtain ⟨st, hs, -⟩ := hf.allocated (r := r) (s := s) (by rw [hr]; rfl)
      exact ⟨⟨bounds, .complex st.runs⟩, by simp [readRegion, hs]⟩

/-- No region points to a store that is still to be allocated. -/
theorem FamilyOk.not_next {f : Family ι} (hf : FamilyOk f) (r : ι) : (f.regions r).held ≠ some f.heap.next := by
  intro hr
  obtain ⟨st, hs, -⟩ := hf.allocated hr
  rw [hf.fresh _ le_rfl] at hs
  exact nomatch hs

/-- A store whose count is at least 1 is not freed, and its count stays. -/
theorem unrefp_eq {h : Heap} {s : ℕ} {st : RunStore} (hs : h.stores s = some st) (h1 : 1 ≤ st.refcount) :
    runstoreUnrefp h s = some h := by
  simp [runstoreUnrefp, hs, show ¬ st.refcount ≤ 0 by omega]

variable [DecidableEq ι]

/-- A new value for one region, with what the other regions read left as it is. -/
theorem FamilyOk.sets {f : Family ι} (hf : FamilyOk f) {r : ι} {region : Region} (heap : Heap) {v : SkinRegion}
    (hc : Counted (update (fun q => (f.regions q).held) r region.held) heap.count)
    (hfresh : ∀ s, heap.next ≤ s → heap.stores s = none) (hv : readRegion heap region = some v)
    (hok : v.runs ≠ .rect → RegionOk v)
    (hframe : ∀ q, q ≠ r → ∀ s, (f.regions q).held = some s → heap.runs s = f.heap.runs s) :
    Sets f { f.set r region with heap := heap } r v := by
  have hval : Family.value { f.set r region with heap := heap } r = some v := by
    simpa [Family.value, Family.set] using hv
  have hother : ∀ q, q ≠ r → Family.value { f.set r region with heap := heap } q = f.value q := by
    intro q hq
    simp only [Family.value, Family.set, update_of_ne hq]
    exact readRegion_congr (hframe q hq)
  refine ⟨⟨?_, hfresh, ?_⟩, hval, hother⟩
  · have he : (fun q => ((f.set r region).regions q).held) = update (fun q => (f.regions q).held) r region.held := by
      funext q
      by_cases hq : q = r
      · subst hq
        simp [Family.set]
      · simp [Family.set, update_of_ne hq]
    simpa only [he] using hc
  · intro q w hw hne
    by_cases hq : q = r
    · subst hq
      obtain rfl : v = w := Option.some.inj (hval.symm.trans hw)
      exact hok hne
    · exact hf.ok q w ((hother q hq).symm.trans hw) hne

theorem FamilyOk.set_plain {f : Family ι} (hf : FamilyOk f) (r : ι) {region : Region} {v : SkinRegion}
    (hheld : region.held = none) (hv : readRegion f.heap region = some v) (hok : v.runs ≠ .rect → RegionOk v) :
    Sets f (f.set r region) r v := by
  refine hf.sets f.heap ?_ hf.fresh hv hok fun _ _ _ _ => rfl
  rw [hheld]
  exact hf.counted.release r

theorem initEmpty_sets {f : Family ι} (hf : FamilyOk f) (r : ι) :
    Sets f (skinRegionInitEmpty f r) r Skin.skinRegionInitEmpty :=
  hf.set_plain r rfl rfl fun _ => rfl

theorem init_sets {f : Family ι} (hf : FamilyOk f) (r : ι) (x1 y1 x2 y2 : ℤ) :
    Sets f (skinRegionInit f r x1 y1 x2 y2) r (Skin.skinRegionInit x1 y1 x2 y2) := by
  unfold skinRegionInit Skin.skinRegionInit
  split_ifs
  · exact initEmpty_sets hf r
  · exact hf.set_plain r rfl rfl fun hne => absurd rfl hne

theorem initRect_sets {f : Family ι} (hf : FamilyOk f) (r : ι) (rect : Option SkinRect) :
    Sets f (skinRegionInitRect f r rect) r (Skin.skinRegionInitRect rect) := by
  cases rect with
  | none => exact initEmpty_sets hf r
  | some rect =>
    simp only [skinRegionInitRect, Skin.skinRegionInitRect]
    split_ifs
    · exact initEmpty_sets hf r
    · exact hf.set_plain r rfl rfl fun hne => absurd rfl hne

theorem initBox_sets {f : Family ι} (hf : FamilyOk f) (r : ι) (box : Option SkinBox) :
    Sets f (skinRegionInitBox f r box) r (Skin.skinRegionInitBox box) := by
  cases box with
  | none => exact initEmpty_sets hf r
  | some b => exact init_sets hf r b.x1 b.y1 b.x2 b.y2

theorem initCopy_sets {f f' : Family ι} (hf : FamilyOk f) {r src : ι} {v : SkinRegion} (hv : f.value src = some v)
    (hrun : skinRegionInitCopy f r (some src) = some f') : Sets f f' r (Skin.skinRegionInitCopy v) := by
  unfold Family.value readRegion at hv
  unfold skinRegionInitCopy at hrun
  cases hsrc : (f.regions src).runs with
  | empty =>
    simp only [hsrc, Option.some.injEq] at hv hrun
    subst hv hrun
    exact initEmpty_sets hf r
  | rect =>
    simp only [hsrc, Option.some.injEq] at hv hrun
    subst hv hrun
    refine hf.set_plain r ?_ ?_ fun hne => absurd rfl hne
    · simp [Region.held, hsrc]
    · simp [readRegion, hsrc, Skin.skinRegionInitCopy]
  | store s =>
    have hheld : (f.regions src).held = some s := by simp [Region.held, hsrc]
    obtain ⟨st, hs, -⟩ := hf.allocated hheld
    have hvs : f.value src = some v := by simpa only [Family.value, readRegion] using hv
    simp only [hsrc, hs, map_some, Option.some.injEq] at hv
    subst hv
    -- the one way to fail is a count that is already the largest `int`
    have hmax : st.refcount ≠ 2147483647 := by
      intro he
      simp [hsrc, runstoreRef, hs, he] at hrun
    simp only [hsrc, runstoreRef, hs, bind_eq_bind, bind_some, if_neg hmax, Option.some.injEq] at hrun
    subst hrun
    have hcount : f.heap.count s = st.refcount := by simp [Heap.count, hs]
    have hruns : (f.heap.put s { st with refcount := st.refcount + 1 }).runs = f.heap.runs := by
      rw [Heap.runs_put, update_eq_self_iff]
      simp [Heap.runs, hs]
    refine hf.sets _ ?_ ?_ ?_ (fun hne => hf.ok src _ hvs hne) fun _ _ _ _ => by rw [hruns]
    · rw [hheld, Heap.count_put, ← hcount]
      exact hf.counted.acquire r s
    · intro t ht
      have hts : t ≠ s := by
        rintro rfl
        rw [hf.fresh t ht] at hs
        exact nomatch hs
      simpa [Heap.put, update_of_ne hts] using hf.fresh t ht
    · rw [readRegion_congr (h := f.heap) fun _ _ => by rw [hruns]]
      exact hvs

theorem reset_eq {f : Family ι} (hf : FamilyOk f) (r : ι) : skinRegionReset f r = some (skinRegionInitEmpty f r) := by
  unfold skinRegionReset
  cases hr : (f.regions r).runs with
  | empty => rfl
  | rect => rfl
  | store s =>
    obtain ⟨st, hs, h1⟩ := hf.allocated (r := r) (s := s) (by simp [Region.held, hr])
    simp only [unrefp_eq hs h1, bind_eq_bind, bind_some]

/-- A region that is copied to itself is emptied. -/
theorem copy_sets {f f' : Family ι} (hf : FamilyOk f) {r src : ι} {v : SkinRegion} (hv : f.value src = some v)
    (hrun : skinRegionCopy f r (some src) = some f') :
    Sets f f' r (if src = r then Skin.skinRegionInitEmpty else Skin.skinRegionInitCopy v) := by
  have hreset := initEmpty_sets hf r
  unfold skinRegionCopy at hrun
  rw [reset_eq hf, bind_eq_bind, bind_some] at hrun
  by_cases hsr : src = r
  · subst hsr
    rw [if_pos rfl]
    exact hreset.trans (initCopy_sets hreset.ok hreset.value hrun)
  · rw [if_neg hsr]
    exact hreset.trans (initCopy_sets hreset.ok ((hreset.frame src hsr).trans hv) hrun)

/-- **The store that `runstore_edit` gives** has the runs of the old one and no other region points to it. -/
theorem runstoreEdit_ok {f : Family ι} (hf : FamilyOk f) {r : ι} {s : ℕ} (hr : (f.regions r).held = some s) :
    ∃ heap s' st, runstoreEdit f.heap s = some (heap, s') ∧ heap.stores s' = some st ∧
      f.heap.runs s = some st.runs ∧ Counted (update (fun q => (f.regions q).held) r (some s')) heap.count ∧
      (∀ t, heap.next ≤ t → heap.stores t = none) ∧
      ∀ q, q ≠ r → ∀ t, (f.regions q).held = some t → t ≠ s' ∧ heap.runs t = f.heap.runs t := by
  obtain ⟨st, hs, -⟩ := hf.allocated hr
  have hruns : f.heap.runs s = some st.runs := by simp [Heap.runs, hs]
  have hcount : f.heap.count s = st.refcount := by simp [Heap.count, hs]
  by_cases h1 : st.refcount = 1
  · refine ⟨f.heap, s, st, by simp [runstoreEdit, hs, h1], hs, hruns, ?_, hf.fresh, ?_⟩
    · rw [update_eq_self_iff.2 hr.symm]
      exact hf.counted
    · intro q hq t ht
      refine ⟨?_, rfl⟩
      rintro rfl
      exact hq (hf.counted.sole (hcount.trans h1) ht hr)
  · have hsn : s ≠ f.heap.next := fun he => hf.not_next r (he ▸ hr)
    refine ⟨(runstoreAlloc f.heap st.runs).1.put s { st with refcount := st.refcount - 1 }, f.heap.next, ⟨1, st.runs⟩,
      by simp [runstoreEdit, hs, h1, runstoreAlloc], ?_, hruns, ?_, ?_, ?_⟩
    · simp [Heap.put, runstoreAlloc, update_of_ne hsn.symm]
    · -- `r` lets `s` go and is the first to point to the new store
      have hdrop := hf.counted.drop hr
      have hfree : ∀ j, update (fun q => (f.regions q).held) r none j ≠ some f.heap.next := by
        intro j
        by_cases hj : j = r
        · subst hj
          simp
        · simpa [update_of_ne hj] using hf.not_next j
      have halloc := hdrop.alloc r hfree
      rw [Heap.count_put, alloc_count, ← hcount, update_comm hsn.symm]
      simpa using halloc
    · intro t ht
      have ht' : f.heap.next + 1 ≤ t := ht
      have hts : t ≠ s := by
        rintro rfl
        rw [hf.fresh t (by omega)] at hs
        exact nomatch hs
      simp only [Heap.put, runstoreAlloc, update_of_ne hts, update_of_ne (show t ≠ f.heap.next by omega)]
      exact hf.fresh t (by omega)
    · intro q _ t ht
      have htn : t ≠ f.heap.next := fun he => hf.not_next q (he ▸ ht)
      refine ⟨htn, ?_⟩
      rw [Heap.runs_put, alloc_runs, update_comm hsn.symm, update_of_ne htn, ← hruns]
      exact congrFun (update_eq_self s f.heap.runs) t

/-- The corners of the bounds are coordinates of the runs. -/
theorem corners_inRun {r : SkinRect} {bands : List Band} {dx dy : ℤ} (hco : Coalesced bands)
    (h : IsBox r fun x y => ∃ b ∈ bands, Covers b x y)
    (hfit : ∀ b ∈ bands, InRun (b.ytop + dy) ∧ InRun (b.ybot + dy) ∧
      ∀ s ∈ b.spans, InRun (s.1 + dx) ∧ InRun (s.2 + dx)) : RectInRun (skinRectTranslate r dx dy) := by
  simp only [RectInRun, skinRectTranslate]
  refine ⟨?_, ?_, ?_, ?_⟩
  · obtain ⟨y, b, hb, -, -, s, hs, h1, h2⟩ := h.left
    have hb3 := (h.band hco hb).2.2 s hs
    have he : s.1 + dx = r.x + dx := by omega
    exact he ▸ ((hfit b hb).2.2 s hs).1
  · obtain ⟨y, b, hb, -, -, s, hs, h1, h2⟩ := h.right
    have hb3 := (h.band hco hb).2.2 s hs
    have he : s.2 + dx = r.x + dx + r.w := by omega
    exact he ▸ ((hfit b hb).2.2 s hs).2
  · obtain ⟨x, b, hb, h1, h2, -⟩ := h.top
    have hb1 := (h.band hco hb).1
    have he : b.ytop + dy = r.y + dy := by omega
    exact he ▸ (hfit b hb).1
  · obtain ⟨x, b, hb, h1, h2, -⟩ := h.bot
    have hb2 := (h.band hco hb).2.1
    have he : b.ybot + dy = r.y + dy + r.h := by omega
    exact he ▸ (hfit b hb).2.1

/-- **`skin_region_translate`** succeeds and computes the value of its region. -/
theorem translate_sets {f : Family ι} (hf : FamilyOk f) {r : ι} {v : SkinRegion} (hv : f.value r = some v) {dx dy : ℤ}
    (hfit : TranslateFits f r dx dy) :
    ∃ f', skinRegionTranslate f r dx dy = some f' ∧ Sets f f' r (Skin.skinRegionTranslate v dx dy) := by
  have hv' := hv
  unfold Family.value readRegion at hv
  unfold skinRegionTranslate
  cases hr : (f.regions r).runs with
  | empty =>
    simp only [hr, Option.some.injEq] at hv
    subst hv
    exact ⟨f, rfl, hf.sets_self hv'⟩
  | rect =>
    simp only [hr, Option.some.injEq] at hv
    subst hv
    exact ⟨_, rfl, hf.set_plain r rfl rfl fun hne => absurd rfl hne⟩
  | store s =>
    have hheld : (f.regions r).held = some s := by simp [Region.held, hr]
    obtain ⟨heap, s', st, hedit, hs', hruns, hc, hfresh, hframe⟩ := runstoreEdit_ok hf hheld
    have hv2 : v = ⟨(f.regions r).bounds, .complex st.runs⟩ := by
      obtain ⟨st0, hs0, -⟩ := hf.allocated hheld
      simp only [hr, hs0, map_some, Option.some.injEq] at hv
      simp only [Heap.runs, hs0, map_some, Option.some.injEq] at hruns
      rw [← hv, hruns]
    subst hv2
    have hok := hf.ok r _ hv' (by simp)
    have hin : RectInRun (skinRectTranslate (f.regions r).bounds dx dy) :=
      corners_inRun hok.1 hok.2 (hfit _ hv' _ rfl)
    simp only [hedit, hs', bind_eq_bind, bind_some]
    refine ⟨_, rfl, hf.sets _ ?_ ?_ ?_ (fun _ => translate_ok hok hin) ?_⟩
    · have hsame : update heap.count s' st.refcount = heap.count := by simp [update_eq_self_iff, Heap.count, hs']
      rw [Heap.count_put, hsame]
      exact hc
    · intro t ht
      have hts : t ≠ s' := by
        rintro rfl
        rw [hfresh t ht] at hs'
        exact nomatch hs'
      simpa [Heap.put, update_of_ne hts] using hfresh t ht
    · simp [readRegion, Heap.put, Skin.skinRegionTranslate, translateRuns]
    · intro q hq t ht
      obtain ⟨h1, h2⟩ := hframe q hq t ht
      rw [Heap.runs_put, update_of_ne h1, h2]

theorem makeResult_sets {f : Family ι} (hf : FamilyOk f) (r : ι) {v : SkinRegion} (hok : RegionOk v) :
    Sets f { f.set r (makeResult f.heap v).2 with heap := (makeResult f.heap v).1 } r v ∧
      ∀ s, s ≠ f.heap.next → (makeResult f.heap v).1.stores s = f.heap.stores s := by
  obtain ⟨bounds, runs⟩ := v
  cases runs with
  | empty => exact ⟨hf.set_plain r rfl rfl fun _ => hok, fun _ _ => rfl⟩
  | rect => exact ⟨hf.set_plain r rfl rfl fun _ => hok, fun _ _ => rfl⟩
  | complex bands =>
    have hstores : ∀ s, s ≠ f.heap.next → (runstoreAlloc f.heap bands).1.stores s = f.heap.stores s :=
      fun s hs => update_of_ne hs _ _
    refine ⟨hf.sets (runstoreAlloc f.heap bands).1 ?_ ?_ ?_ (fun _ => hok) ?_, hstores⟩
    · rw [alloc_count]
      exact hf.counted.alloc r fun q => hf.not_next q
    · intro s hs
      have hs' : f.heap.next + 1 ≤ s := hs
      rw [hstores s (by omega)]
      exact hf.fresh s (by omega)
    · simp [makeResult, readRegion, runstoreAlloc, Heap.put]
    · intro q _ s hs
      have hsn : s ≠ f.heap.next := fun he => hf.not_next q (he ▸ hs)
      rw [alloc_runs, update_of_ne hsn]

/-- **The region operator**: its result has a store of its own, and the old store of `r` stays. -/
theorem regionOperator_sets {f f' : Family ι} (hf : FamilyOk f) (wanted : Wanted) {r r2 : ι} {v v2 : SkinRegion}
    (hv : f.value r = some v) (hv2 : f.value r2 = some v2) (hok : RegionOk v) (hok2 : RegionOk v2)
    (hne : v.runs ≠ .empty) (hne2 : v2.runs ≠ .empty) (hrun : regionOperator wanted f r r2 = some f') :
    Sets f f' r (Skin.regionOperator wanted v v2) := by
  obtain ⟨hsets, hstores⟩ := makeResult_sets hf r (regionOperator_ok wanted hok hok2 hne hne2)
  unfold regionOperator at hrun
  simp only [hv, hv2, bind_eq_bind, bind_some] at hrun
  cases hr : (f.regions r).runs with
  | empty =>
    simp only [hr, Option.some.injEq] at hrun
    exact hrun ▸ hsets
  | rect =>
    simp only [hr, Option.some.injEq] at hrun
    exact hrun ▸ hsets
  | store s =>
    have hheld : (f.regions r).held = some s := by simp [Region.held, hr]
    obtain ⟨st, hs, h1⟩ := hf.allocated hheld
    rw [← hstores s fun he => hf.not_next r (he ▸ hheld)] at hs
    simp only [hr, unrefp_eq hs h1, bind_some, Option.some.injEq] at hrun
    exact hrun ▸ hsets

section Operators

variable {f f' : Family ι} {r r2 : ι} {v v2 : SkinRegion}

theorem intersect_sets (hf : FamilyOk f) (hv : f.value r = some v) (hv2 : f.value r2 = some v2)
    (hfit : OperandsFit f r r2) (hrun : skinRegionIntersect f r r2 = some f') :
    Sets f f' r (Skin.skinRegionIntersect v v2).1 := by
  obtain ⟨hb, he⟩ := value_marks hv
  obtain ⟨hb2, he2⟩ := value_marks hv2
  unfold skinRegionIntersect at hrun
  unfold Skin.skinRegionIntersect
  simp only [← hb, ← hb2, ← he, ← he2] at hrun
  split_ifs at hrun with h1 h3
  · cases hrun
    rcases h1 with h1 | h1
    · rw [if_pos h1]
      exact hf.sets_self hv
    · split_ifs
      · exact hf.sets_self hv
      · exact hf.sets_self hv
  · cases hrun
    rw [not_or] at h1
    rw [if_neg h1.1, if_neg h1.2, if_pos h3]
    exact initEmpty_sets hf r
  · rw [not_or] at h1
    rw [if_neg h1.1, if_neg h1.2, if_neg h3]
    exact regionOperator_sets hf _ hv hv2 (hfit.1 v hv) (hfit.2 v2 hv2) h1.1 h1.2 hrun

theorem substract_sets (hf : FamilyOk f) (hv : f.value r = some v) (hv2 : f.value r2 = some v2)
    (hfit : OperandsFit f r r2) (hrun : skinRegionSubstract f r r2 = some f') :
    Sets f f' r (Skin.skinRegionSubstract v v2) := by
  obtain ⟨hb, he⟩ := value_marks hv
  obtain ⟨hb2, he2⟩ := value_marks hv2
  unfold skinRegionSubstract at hrun
  unfold Skin.skinRegionSubstract
  simp only [← hb, ← hb2, ← he, ← he2] at hrun
  split_ifs at hrun ⊢ with h1 h3
  · cases hrun
    exact hf.sets_self hv
  · cases hrun
    exact initEmpty_sets hf r
  · rw [not_or] at h1
    exact regionOperator_sets hf _ hv hv2 (hfit.1 v hv) (hfit.2 v2 hv2) h1.1 h1.2 hrun

/-- The copy into an empty region, which may be the region itself. -/
theorem copy_sets_empty (hf : FamilyOk f) (hv : f.value r = some v) (hv2 : f.value r2 = some v2)
    (hempty : v.runs = .empty) (hrun : skinRegionCopy f r (some r2) = some f') :
    Sets f f' r (Skin.skinRegionCopy v v2) := by
  have h := copy_sets hf hv2 hrun
  by_cases hr : r2 = r
  · subst hr
    obtain rfl : v = v2 := Option.some.inj (hv.symm.trans hv2)
    rw [if_pos rfl] at h
    simpa [Skin.skinRegionCopy, Skin.skinRegionInitCopy, hempty] using h
  · rwa [if_neg hr] at h

theorem union_sets (hf : FamilyOk f) (hv : f.value r = some v) (hv2 : f.value r2 = some v2)
    (hfit : OperandsFit f r r2) (hrun : skinRegionUnion f r r2 = some f') :
    Sets f f' r (Skin.skinRegionUnion v v2) := by
  obtain ⟨-, he⟩ := value_marks hv
  obtain ⟨-, he2⟩ := value_marks hv2
  unfold skinRegionUnion at hrun
  unfold Skin.skinRegionUnion
  simp only [← he, ← he2] at hrun
  split_ifs at hrun ⊢ with h1 h2
  · exact copy_sets_empty hf hv hv2 h1 hrun
  · cases hrun
    exact hf.sets_self hv
  · exact regionOperator_sets hf _ hv hv2 (hfit.1 v hv) (hfit.2 v2 hv2) h1 h2 hrun

theorem xor_sets (hf : FamilyOk f) (hv : f.value r = some v) (hv2 : f.value r2 = some v2)
    (hfit : OperandsFit f r r2) (hrun : skinRegionXor f r r2 = some f') :
    Sets f f' r (Skin.skinRegionXor v v2) := by
  obtain ⟨hb, he⟩ := value_marks hv
  obtain ⟨hb2, he2⟩ := value_marks hv2
  unfold skinRegionXor at hrun
  unfold Skin.skinRegionXor
  simp only [← hb, ← hb2, ← he, ← he2] at hrun
  split_ifs at hrun ⊢ with h1 h2 h3
  · exact copy_sets_empty hf hv hv2 h1 hrun
  · cases hrun
    exact hf.sets_self hv
  · cases hrun
    exact initEmpty_sets hf r
  · exact regionOperator_sets hf _ hv hv2 (hfit.1 v hv) (hfit.2 v2 hv2) h1 h2 hrun

end Operators

/-- A swap renames the regions. -/
theorem swap_ok {f : Family ι} (hf : FamilyOk f) (r r2 : ι) :
    FamilyOk (skinRegionSwap f r r2) ∧ ∀ q, (skinRegionSwap f r r2).value q = f.value (Equiv.swap r r2 q) := by
  have hregions : ∀ q, (skinRegionSwap f r r2).regions q = f.regions (Equiv.swap r r2 q) := by
    intro q
    by_cases h2 : q = r2
    · subst h2
      simp [skinRegionSwap, Family.set]
    · by_cases h1 : q = r
      · subst h1
        simp [skinRegionSwap, Family.set, update_of_ne h2]
      · simp [skinRegionSwap, Family.set, update_of_ne h2, update_of_ne h1, Equiv.swap_apply_of_ne_of_ne h1 h2]
  have hvalue : ∀ q, (skinRegionSwap f r r2).value q = f.value (Equiv.swap r r2 q) := by
    intro q
    simp only [Family.value, hregions]
    rfl
  refine ⟨⟨?_, hf.fresh, ?_⟩, hvalue⟩
  · simp only [hregions]
    exact hf.counted.comp (Equiv.swap r r2).toEmbedding
  · intro q v hv
    rw [hvalue] at hv
    exact hf.ok _ v hv

/-- **Every call keeps the invariant.** -/
theorem Op.run_ok {f f' : Family ι} (hf : FamilyOk f) {op : Op ι} (hfit : op.Fits f) (hrun : op.run f = some f') :
    FamilyOk f' := by
  have hval := hf.exists_value
  cases op with
  | initEmpty r => cases hrun; exact (initEmpty_sets hf r).ok
  | init r x1 y1 x2 y2 => cases hrun; exact (init_sets hf r x1 y1 x2 y2).ok
  | initRect r rect => cases hrun; exact (initRect_sets hf r rect).ok
  | initBox r box => cases hrun; exact (initBox_sets hf r box).ok
  | initCopy r src =>
    cases src with
    | none => cases hrun; exact (initEmpty_sets hf r).ok
    | some src =>
      obtain ⟨v, hv⟩ := hval src
      exact (initCopy_sets hf hv hrun).ok
  | reset r =>
    cases (reset_eq hf r).symm.trans hrun
    exact (initEmpty_sets hf r).ok
  | copy r src =>
    cases src with
    | none =>
      simp only [Op.run, skinRegionCopy, reset_eq hf, bind_eq_bind, bind_some] at hrun
      cases hrun
      exact (initEmpty_sets (initEmpty_sets hf r).ok r).ok
    | some src =>
      obtain ⟨v, hv⟩ := hval src
      exact (copy_sets hf hv hrun).ok
  | translate r dx dy =>
    obtain ⟨v, hv⟩ := hval r
    obtain ⟨f1, h1, hsets⟩ := translate_sets hf hv hfit
    cases h1.symm.trans hrun
    exact hsets.ok
  | swap r r2 => cases hrun; exact (swap_ok hf r r2).1
  | intersect r r2 =>
    obtain ⟨⟨v, hv⟩, ⟨v2, hv2⟩⟩ := And.intro (hval r) (hval r2)
    exact (intersect_sets hf hv hv2 hfit hrun).ok
  | union r r2 =>
    obtain ⟨⟨v, hv⟩, ⟨v2, hv2⟩⟩ := And.intro (hval r) (hval r2)
    exact (union_sets hf hv hv2 hfit hrun).ok
  | substract r r2 =>
    obtain ⟨⟨v, hv⟩, ⟨v2, hv2⟩⟩ := And.intro (hval r) (hval r2)
    exact (substract_sets hf hv hv2 hfit hrun).ok
  | xor r r2 =>
    obtain ⟨⟨v, hv⟩, ⟨v2, hv2⟩⟩ := And.intro (hval r) (hval r2)
    exact (xor_sets hf hv hv2 hfit hrun).ok

/-- **Every family that the API makes satisfies the invariant.** -/
theorem Reached.ok {f : Family ι} (h : Reached f) : FamilyOk f := by
  induction h with
  | start => exact start_ok
  | step _ _ hfit hrun ih => exact Op.run_ok ih hfit hrun

/-- `skin_region_contains`. -/
def skinRegionContains (f : Family ι) (r : ι) (x y : ℤ) : Option Bool :=
  (f.value r).map fun v => Skin.skinRegionContains v x y

/-- A band that is moved, where no coordinate leaves its range. -/
def shiftBand (dx dy : ℤ) (b : Band) : Band := ⟨b.ytop + dy, b.ybot + dy, b.spans.map fun s => (s.1 + dx, s.2 + dx)⟩

theorem runsFindY_shift (dx dy : ℤ) (bands : List Band) (y : ℤ) :
    runsFindY (bands.map (shiftBand dx dy)) (y + dy) = (runsFindY bands y).map (shiftBand dx dy) := by
  induction bands with
  | nil => rfl
  | cons b bands ih =>
    simp only [List.map_cons, runsFindY, shiftBand, add_lt_add_iff_right]
    split_ifs
    · rfl
    · rfl
    · exact ih

theorem spansContain_shift {dx : ℤ} {spans : List Span} (hs : ∀ s ∈ spans, SpanOk s ∧ InRun (s.2 + dx)) (x : ℤ) :
    spansContain (spans.map fun s => (s.1 + dx, s.2 + dx)) (x + dx) = spansContain spans x := by
  induction spans with
  | nil => rfl
  | cons s spans ih =>
    obtain ⟨⟨-, -, h1⟩, -, h2⟩ := hs s List.mem_cons_self
    unfold RUN_MAX at h1 h2
    simp only [List.map_cons, spansContain, add_lt_add_iff_right]
    -- neither right end is read as the sentinel
    rw [if_neg (show ¬ s.2 + dx = SKIN_REGION_SENTINEL by unfold SKIN_REGION_SENTINEL; omega),
      if_neg (show ¬ s.2 = SKIN_REGION_SENTINEL by unfold SKIN_REGION_SENTINEL; omega),
      ih fun t ht => hs t (List.mem_cons_of_mem _ ht)]

theorem runsFindY_mem {bands : List Band} {y : ℤ} {b : Band} (h : runsFindY bands y = some b) : b ∈ bands := by
  induction bands with
  | nil => exact nomatch h
  | cons c bands ih =>
    simp only [runsFindY] at h
    split_ifs at h
    · obtain rfl := Option.some.inj h
      exact List.mem_cons_self
    · exact List.mem_cons_of_mem _ (ih h)

/-- **The pixels of a translated region.** -/
theorem translate_contains {v : SkinRegion} (hok : v.runs ≠ .rect → RegionOk v) {dx dy : ℤ}
    (hfit : ∀ bands, v.runs = .complex bands → ∀ b ∈ bands, InRun (b.ytop + dy) ∧ InRun (b.ybot + dy) ∧
      ∀ s ∈ b.spans, InRun (s.1 + dx) ∧ InRun (s.2 + dx)) (x y : ℤ) :
    Skin.skinRegionContains (Skin.skinRegionTranslate v dx dy) (x + dx) (y + dy) = Skin.skinRegionContains v x y := by
  obtain ⟨bounds, runs⟩ := v
  cases runs with
  | empty => rfl
  | rect => simp [Skin.skinRegionContains, Skin.skinRegionTranslate, skinRectContains, skinRectTranslate]
  | complex bands =>
    obtain ⟨hco, hbox⟩ := hok (by simp)
    have hfit := hfit bands rfl
    have hmap := translate_runs hco hbox (corners_inRun hco hbox hfit)
    simp only [Skin.skinRegionContains, Skin.skinRegionTranslate, hmap]
    have hfind := runsFindY_shift dx dy bands y
    unfold shiftBand at hfind
    rw [hfind]
    cases hy : runsFindY bands y with
    | none => rfl
    | some b =>
      have hb := runsFindY_mem hy
      exact spansContain_shift (fun s hs => ⟨(hco.band b hb).spans s hs, ((hfit b hb).2.2 s hs).2⟩) x

/-- **A translation moves a region and nothing else**, whatever shares its store. The bounds of an empty region
stay zero. -/
theorem translate_moves {f : Family ι} (h : Reached f) (r : ι) {dx dy : ℤ} (hfit : TranslateFits f r dx dy) :
    ∃ f', skinRegionTranslate f r dx dy = some f' ∧
      (∀ x y, ∃ inside, skinRegionContains f r x y = some inside ∧
        skinRegionContains f' r (x + dx) (y + dy) = some inside) ∧
      (f'.regions r).bounds =
        (if (f.regions r).runs = .empty then ⟨0, 0, 0, 0⟩ else skinRectTranslate (f.regions r).bounds dx dy) ∧
      ∀ q, q ≠ r → ∃ v, f.value q = some v ∧ f'.value q = some v := by
  have hf := h.ok
  obtain ⟨v, hv⟩ := hf.exists_value r
  obtain ⟨f', hrun, hsets⟩ := translate_sets hf hv hfit
  refine ⟨f', hrun, ?_, ?_, ?_⟩
  · intro x y
    refine ⟨Skin.skinRegionContains v x y, by simp [skinRegionContains, hv], ?_⟩
    simp [skinRegionContains, hsets.value, translate_contains (hf.ok r v hv) (hfit v hv) x y]
  · obtain ⟨hb, he⟩ := value_marks hv
    rw [← (value_marks hsets.value).1, ← hb]
    unfold Skin.skinRegionTranslate
    split
    · rename_i hempty
      rw [if_pos (he.1 hempty)]
      have hzero := hf.ok r v hv (by simp [hempty])
      unfold RegionOk at hzero
      rwa [hempty] at hzero
    · rename_i hrect
      rw [if_neg fun hr => by simp [he.2 hr] at hrect]
    · rename_i bands hcomplex
      rw [if_neg fun hr => by simp [he.2 hr] at hcomplex]
  · intro q hq
    obtain ⟨w, hw⟩ := hf.exists_value q
    exact ⟨w, hw, (hsets.frame q hq).trans hw⟩

/-- A union of two rectangles in the region 0, with a copy in the region 2 that shares its store. -/
def sharedUnion : Option (Family ℕ) := do
  let f ← Op.run (skinRegionInit (skinRegionInit Family.start 0 0 0 2 2) 1 1 1 3 3) (.union 0 1)
  Op.run f (.initCopy 2 (some 0))

theorem translate_moves_sharedUnion : ∃ f : Family ℕ, sharedUnion = some f ∧ (f.regions 0).runs = .store 0 ∧
    (f.regions 2).runs = .store 0 ∧ ∃ f', skinRegionTranslate f 0 3 4 = some f' ∧
      (∀ x y, ∃ inside, skinRegionContains f 0 x y = some inside ∧
        skinRegionContains f' 0 (x + 3) (y + 4) = some inside) ∧
      (f'.regions 0).bounds =
        (if (f.regions 0).runs = .empty then ⟨0, 0, 0, 0⟩ else skinRectTranslate (f.regions 0).bounds 3 4) ∧
      ∀ q, q ≠ 0 → ∃ v, f.value q = some v ∧ f'.value q = some v := by
  have h1 : Reached (skinRegionInit Family.start 0 0 0 2 2) := Reached.start.step (.init 0 0 0 2 2) trivial rfl
  have h2 := h1.step (.init 1 1 1 3 3) trivial rfl
  have hin : ∀ x, 0 ≤ x ∧ x ≤ 3 → InRun x := by
    intro x hx
    unfold InRun RUN_MIN RUN_MAX
    omega
  have hrects : OperandsFit (skinRegionInit (skinRegionInit Family.start 0 0 0 2 2) 1 1 1 3 3) 0 1 := by
    constructor
    · rintro _ ⟨rfl⟩
      exact (init_ok ⟨hin 0 (by omega), hin 0 (by omega), hin 2 (by omega), hin 2 (by omega)⟩ :)
    · rintro _ ⟨rfl⟩
      exact (init_ok ⟨hin 1 (by omega), hin 1 (by omega), hin 3 (by omega), hin 3 (by omega)⟩ :)
  obtain ⟨f, hf⟩ := isSome_iff_exists.1 (show sharedUnion.isSome = true by decide +kernel)
  have hvalue : sharedUnion.bind (fun f => f.value 0) =
      some ⟨⟨0, 0, 3, 3⟩, .complex [⟨0, 1, [(0, 2)]⟩, ⟨1, 2, [(0, 3)]⟩, ⟨2, 3, [(1, 3)]⟩]⟩ := by decide +kernel
  have hruns : sharedUnion.map (fun f => ((f.regions 0).runs, (f.regions 2).runs)) = some (.store 0, .store 0) := by
    decide +kernel
  rw [hf] at hvalue hruns
  unfold sharedUnion at hf
  obtain ⟨f1, hrun1, hrun2⟩ := bind_eq_some_iff.1 hf
  have h4 := (h2.step (.union 0 1) hrects hrun1).step (.initCopy 2 (some 0)) trivial hrun2
  obtain ⟨hr0, hr2⟩ := Prod.mk.inj (Option.some.inj hruns)
  refine ⟨f, by rw [← hf]; rfl, hr0, hr2, translate_moves h4 0 ?_⟩
  intro v hv bands hbands
  obtain rfl : _ = v := Option.some.inj (hvalue.symm.trans hv)
  obtain rfl : _ = bands := Runs.complex.inj hbands
  unfold InRun RUN_MIN RUN_MAX
  decide

/-- The bounds of an empty region do not move. -/
theorem translate_emptyBounds : ¬ ∀ (f : Family ℕ) (r : ℕ) (dx dy : ℤ), Reached f → TranslateFits f r dx dy →
    ∃ f', skinRegionTranslate f r dx dy = some f' ∧
      (f'.regions r).bounds = skinRectTranslate (f.regions r).bounds dx dy := by
  intro h
  have hfit : TranslateFits (Family.start : Family ℕ) 0 1 0 := by
    rintro v ⟨rfl⟩ bands hb
    exact nomatch hb
  obtain ⟨f', hrun, hb⟩ := h Family.start 0 1 0 .start hfit
  cases hrun
  exact absurd hb (by decide)

end Emulator.Skin.Shared
