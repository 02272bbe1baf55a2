import Emulator.Lib.BinarySearch
import Emulator.Lib.Cells
import Mathlib.Data.List.GetD

/-!
# The sorted address array

`addrarray_check` and `addrarray_add` of `memcheck_common.h`. An address that is added gets its place from where the
binary search ended. The indices are integers, as the bound of a search may be -1, and a new array has no values at
first: an element that is not there, or has no value, is not read.

* `addrarrayAdd_new`: the place is the one that keeps the array sorted;
* `addrArray_sortedSet`: **the array is the sorted set of what was added**, whatever the order.
-/

namespace Emulator.Memcheck

open Lib List Option

/-- `addr` is the array with its elements; a pointer that is not set yet has none. -/
structure AddrArray where
  addr : Cells (Option ℕ)
  num : ℕ

/-- `addr & ~1`. -/
def clearThumb (addr : ℕ) : ℕ := addr >>> 1 <<< 1

/-- `addrarray_check`. The sum `m_min + m_max` of the search is an `int` in the source: it holds the bounds of an
array of up to 2^30 addresses. -/
def addrarrayCheck (addrArray : AddrArray) (addr : ℕ) : Option ℤ :=
  if addrArray.num ≠ 0 then
    (search addrArray.addr.loadAt (clearThumb addr) 0 (addrArray.num - 1)).map fun
      | .found _ => 1
      | .past _ => 0
  else some 0

/-- What `addrarray_add` does behind its loop, which left the upper bound `mMax`. -/
def addrarrayExpand (addrArray : AddrArray) (addr : ℕ) (mMax : ℤ) : Option AddrArray :=
  let mMax := (if mMax < 0 then 0 else mMax).toNat
  (if mMax ≠ 0 then (Cells.fresh (addrArray.num + 1)).copy 0 addrArray.addr 0 mMax
    else some (Cells.fresh (addrArray.num + 1))).bind fun newArr =>
  (addrArray.addr.load mMax).bind fun last =>
  (if last < addr then (newArr.store mMax (some last)).map (·, mMax + 1) else some (newArr, mMax)).bind
    fun (newArr, mMax) =>
  (newArr.store mMax (some addr)).bind fun newArr =>
  (if mMax < addrArray.num then newArr.copy (mMax + 1) addrArray.addr mMax (addrArray.num - mMax)
    else some newArr).map fun newArr => ⟨newArr, addrArray.num + 1⟩

def addrarrayAdd (addrArray : AddrArray) (addr : ℕ) : Option (AddrArray × ℤ) :=
  let addr := clearThumb addr
  if addrArray.num = 0 then
    ((Cells.fresh 1).store 0 (some addr)).map fun arr => (⟨arr, addrArray.num + 1⟩, 1)
  else
    (search addrArray.addr.loadAt addr 0 (addrArray.num - 1)).bind fun
      | .found _ => some (addrArray, -1)
      | .past mMax => (addrarrayExpand addrArray addr mMax).map (·, 1)

/-- The array whose elements are those of `l`, and that has no others. -/
def AddrArray.of (l : List ℕ) : AddrArray := ⟨Cells.row (l.map some), l.length⟩

variable {l l₁ l₂ : List ℕ} {addr : ℕ}

theorem increasing_of (hs : l.Pairwise (· < ·)) :
    Increasing (AddrArray.of l).addr.loadAt (fun i => l.getD i.toNat 0) 0 ((AddrArray.of l).num - 1) := by
  have hnum : ((AddrArray.of l).num : ℤ) = l.length := rfl
  constructor
  · intro i h₀ h₁
    rw [Cells.loadAt, if_pos h₀, AddrArray.of, Cells.load_row (by omega), getD_eq_getElem]
  · intro i j h₀ hij hj
    have hi' : i.toNat < l.length := by omega
    have hj' : j.toNat < l.length := by omega
    rw [getD_eq_getElem _ _ hi', getD_eq_getElem _ _ hj']
    exact pairwise_iff_getElem.1 hs _ _ hi' hj' (by omega)

/-- **The search for an address that is there.** -/
theorem search_mem (hs : l.Pairwise (· < ·)) (hmem : addr ∈ l) :
    ∃ m, search (AddrArray.of l).addr.loadAt addr 0 ((AddrArray.of l).num - 1) = some (.found m) := by
  obtain ⟨i, hi, rfl⟩ := getElem_of_mem hmem
  have hnum : ((AddrArray.of l).num : ℤ) = l.length := rfl
  refine ⟨i, search_found (increasing_of hs) (Int.natCast_nonneg i) (by omega) ?_⟩
  rw [Int.toNat_natCast, getD_eq_getElem]

/-- **The search for one that is not** ends between those that are less and those that are greater. -/
theorem search_not_mem (hs : l.Pairwise (· < ·)) (hmem : addr ∉ l) :
    ∃ l₁ l₂, l = l₁ ++ l₂ ∧ (∀ x ∈ l₁, x < addr) ∧ (∀ x ∈ l₂, addr < x) ∧
      search (AddrArray.of l).addr.loadAt addr 0 ((AddrArray.of l).num - 1) = some (.past (l₁.length - 1)) := by
  have hnum : ((AddrArray.of l).num : ℤ) = l.length := rfl
  have hne : ∀ i : ℤ, 0 ≤ i → i ≤ (AddrArray.of l).num - 1 → l.getD i.toNat 0 ≠ addr := by
    intro i h₀ h₁ heq
    rw [getD_eq_getElem _ _ (show i.toNat < l.length by omega)] at heq
    exact hmem (heq ▸ getElem_mem _)
  obtain ⟨r, hr, h₁, h₂, h₃, h₄⟩ := search_past (increasing_of hs) (by omega) hne
  have hlen : (l.take (r + 1).toNat).length = (r + 1).toNat := by
    rw [length_take]
    omega
  refine ⟨l.take (r + 1).toNat, l.drop (r + 1).toNat, (take_append_drop _ _).symm, ?_, ?_, ?_⟩
  · intro x hx
    obtain ⟨i, hi, rfl⟩ := getElem_of_mem hx
    have hlt := h₃ i (Int.natCast_nonneg i) (by omega)
    rw [Int.toNat_natCast, getD_eq_getElem _ _ (by omega)] at hlt
    rwa [getElem_take]
  · intro x hx
    obtain ⟨i, hi, rfl⟩ := getElem_of_mem hx
    rw [length_drop] at hi
    have hlt := h₄ ((r + 1).toNat + i : ℕ) (by omega) (by omega)
    rw [Int.toNat_natCast, getD_eq_getElem _ _ (by omega)] at hlt
    rwa [getElem_drop]
  · rw [hr, hlen]
    congr 2
    omega

/-- The copy of the first elements, which is left out if there are none. -/
theorem expand_copy (hl : l = l₁ ++ l₂) :
    (if l₁.length ≠ 0 then (Cells.fresh (l.length + 1)).copy 0 (AddrArray.of l).addr 0 l₁.length
      else some (Cells.fresh (l.length + 1))) = some ((Cells.fresh (l.length + 1)).overlay 0 (l₁.map some)) := by
  subst hl
  by_cases h : l₁.length ≠ 0
  · have hload : ∀ i (hi : i < l₁.length), (AddrArray.of (l₁ ++ l₂)).addr.load (0 + i) = some l₁[i] := by
      intro i hi
      rw [Nat.zero_add, AddrArray.of, Cells.load_row (by rw [length_append]; omega), getElem_append_left hi]
    rw [if_pos h, Cells.copy_eq hload ((Cells.room_fresh _).mono le_rfl (by rw [length_append]; omega))]
  · rw [if_neg h, eq_nil_of_length_eq_zero (not_not.1 h), map_nil, Cells.overlay_nil]

/-- The elements in front of the new one are copied, the last of them on its own. -/
theorem expand_front (hl : l = l₁ ++ l₂) (h₁ : ∀ x ∈ l₁, x < addr) (h₂ : ∀ x ∈ l₂, addr < x) (hne : l ≠ []) :
    addrarrayExpand (AddrArray.of l) addr (l₁.length - 1) =
      (((Cells.fresh (l.length + 1)).overlay 0 (l₁.map some)).store l₁.length (some addr)).bind fun newArr =>
        (if l₁.length < l.length then newArr.copy (l₁.length + 1) (AddrArray.of l).addr l₁.length (l.length - l₁.length)
          else some newArr).map fun newArr => ⟨newArr, l.length + 1⟩ := by
  have hnum : (AddrArray.of l).num = l.length := rfl
  unfold addrarrayExpand
  rcases eq_nil_or_concat' l₁ with rfl | ⟨front, last, rfl⟩
  · -- the search went below the first element, which is greater
    rw [nil_append] at hl
    subst hl
    obtain ⟨first, rest, rfl⟩ := exists_cons_of_ne_nil hne
    have hfirst : ¬ first < addr := (h₂ first mem_cons_self).not_gt
    have hload : (AddrArray.of (first :: rest)).addr.load 0 = some first := Cells.load_row (Nat.zero_lt_succ _)
    have hmax : (if ((([] : List ℕ).length : ℤ) - 1 < 0) then 0 else (([] : List ℕ).length : ℤ) - 1).toNat = 0 := rfl
    simp only [hmax, hnum]
    simp only [ne_eq, not_true_eq_false, if_false, bind_some, hload, hfirst, length_nil, map_nil,
      Cells.overlay_nil]
  · have hmax : (if (((front ++ [last]).length : ℤ) - 1 < 0) then 0 else ((front ++ [last]).length : ℤ) - 1).toNat =
        front.length := by
      rw [length_append, length_singleton, if_neg (by omega)]
      omega
    have hlast : last < addr := h₁ last (mem_append_right _ (mem_singleton_self last))
    have hload : (AddrArray.of l).addr.load front.length = some last := by
      rw [AddrArray.of, hl, Cells.load_row (by simp)]
      simp
    have hshort : front.length + 1 ≤ l.length + 1 := by
      rw [hl, length_append, length_append, length_singleton]
      omega
    have hstore : ((Cells.fresh (l.length + 1)).overlay 0 (front.map some)).store front.length (some last) =
        some ((Cells.fresh (l.length + 1)).overlay 0 ((front ++ [last]).map some)) := by
      rw [Cells.store_eq _ ((Cells.room_fresh _).overlay _ (Nat.zero_le _) hshort),
        Cells.overlay_next _ (by rw [length_map, Nat.zero_add]), map_append, map_singleton]
    have hcopy := expand_copy (hl.trans (append_assoc front [last] l₂))
    simp only [hmax, hnum]
    simp only [hcopy, bind_some, hload, hlast, if_true, hstore, map_some, length_append,
      length_singleton]

/-- **The new array has the address at its place.** -/
theorem addrarrayExpand_eq (hl : l = l₁ ++ l₂) (h₁ : ∀ x ∈ l₁, x < addr) (h₂ : ∀ x ∈ l₂, addr < x) (hne : l ≠ []) :
    addrarrayExpand (AddrArray.of l) addr (l₁.length - 1) = some (AddrArray.of (l₁ ++ addr :: l₂)) := by
  have hlen : l.length = l₁.length + l₂.length := by rw [hl, length_append]
  have hroom : (Cells.fresh (l.length + 1) : Cells (Option ℕ)).Room 0 (l.length + 1) := Cells.room_fresh _
  have hof : (AddrArray.of (l₁ ++ addr :: l₂)) =
      ⟨(Cells.fresh (l.length + 1)).overlay 0 ((l₁ ++ addr :: l₂).map some), l.length + 1⟩ := by
    have hlen' : (l₁ ++ addr :: l₂).length = l.length + 1 := by
      rw [length_append, length_cons, hlen, Nat.add_assoc]
    rw [AddrArray.of, hlen', ← Cells.fresh_overlay, hlen']
  rw [expand_front hl h₁ h₂ hne, Cells.store_eq _ (hroom.overlay _ (Nat.zero_le _) (by omega)), bind_some,
    Cells.overlay_next _ (by rw [length_map, Nat.zero_add]), hof]
  by_cases h : l₁.length < l.length
  · have hload : ∀ i (hi : i < l₂.length), (AddrArray.of l).addr.load (l₁.length + i) = some l₂[i] := by
      intro i hi
      rw [AddrArray.of, hl, Cells.load_row (by rw [length_append]; omega), getElem_append_right (by omega)]
      simp
    rw [if_pos h, show l.length - l₁.length = l₂.length by omega,
      Cells.copy_eq hload ((hroom.overlay).mono (Nat.zero_le _) (by omega)), map_some,
      Cells.overlay_next _ (by simp)]
    simp
  · rw [if_neg h, eq_nil_of_length_eq_zero (show l₂.length = 0 by omega)]
    simp

/-- **An address that is there** changes nothing. -/
theorem addrarrayAdd_mem (hs : l.Pairwise (· < ·)) (hmem : clearThumb addr ∈ l) :
    addrarrayAdd (AddrArray.of l) addr = some (AddrArray.of l, -1) := by
  obtain ⟨m, hm⟩ := search_mem hs hmem
  have hnum : (AddrArray.of l).num ≠ 0 := (length_pos_of_mem hmem).ne'
  unfold addrarrayAdd
  rw [if_neg hnum, hm]
  rfl

/-- **An address that is not** gets its place. -/
theorem addrarrayAdd_new (hs : l.Pairwise (· < ·)) (hmem : clearThumb addr ∉ l) :
    ∃ l₁ l₂, l = l₁ ++ l₂ ∧ (∀ x ∈ l₁, x < clearThumb addr) ∧ (∀ x ∈ l₂, clearThumb addr < x) ∧
      addrarrayAdd (AddrArray.of l) addr = some (AddrArray.of (l₁ ++ clearThumb addr :: l₂), 1) := by
  obtain ⟨l₁, l₂, hl, h₁, h₂, hsearch⟩ := search_not_mem hs hmem
  refine ⟨l₁, l₂, hl, h₁, h₂, ?_⟩
  unfold addrarrayAdd
  by_cases hne : l = []
  · obtain ⟨rfl, rfl⟩ := append_eq_nil_iff.1 (hl.symm.trans hne)
    have hfresh := Cells.fresh_overlay [clearThumb addr]
    rw [length_singleton, map_singleton] at hfresh
    subst hne
    have hnum : (AddrArray.of []).num = 0 := rfl
    simp only [if_pos hnum, Cells.store_eq _ (Cells.room_fresh 1 0 le_rfl Nat.zero_lt_one), hfresh, map_some]
    rfl
  · have hnum : (AddrArray.of l).num ≠ 0 := (length_pos_of_ne_nil hne).ne'
    simp only [if_neg hnum, hsearch, bind_some, addrarrayExpand_eq hl h₁ h₂ hne, map_some]

theorem addrarrayCheck_eq (hs : l.Pairwise (· < ·)) (addr : ℕ) :
    addrarrayCheck (AddrArray.of l) addr = some (if clearThumb addr ∈ l then 1 else 0) := by
  unfold addrarrayCheck
  by_cases hmem : clearThumb addr ∈ l
  · obtain ⟨m, hm⟩ := search_mem hs hmem
    have hnum : (AddrArray.of l).num ≠ 0 := (length_pos_of_mem hmem).ne'
    rw [if_pos hnum, hm, if_pos hmem]
    rfl
  · obtain ⟨l₁, l₂, -, -, -, hsearch⟩ := search_not_mem hs hmem
    rw [if_neg hmem]
    by_cases hnum : (AddrArray.of l).num ≠ 0
    · rw [if_pos hnum, hsearch]
      rfl
    · rw [if_neg hnum]

/-- The calls in turn, with what they return. -/
def addrarrayAddAll : AddrArray → List ℕ → Option (AddrArray × List ℤ)
  | addrArray, [] => some (addrArray, [])
  | addrArray, addr :: addrs =>
    (addrarrayAdd addrArray addr).bind fun (addrArray, r) =>
      (addrarrayAddAll addrArray addrs).map fun (addrArray, rs) => (addrArray, r :: rs)

/-- What a call returns after the addresses `before`. -/
def added (before : List ℕ) (addr : ℕ) : ℤ := if clearThumb addr ∈ before.map clearThumb then -1 else 1

/-- `l` is the sorted set of the addresses. -/
structure SortedSet (l addrs : List ℕ) : Prop where
  sorted : l.Pairwise (· < ·)
  mem_iff {x} : x ∈ l ↔ x ∈ addrs.map clearThumb

theorem SortedSet.add {addrs : List ℕ} (h : SortedSet l addrs) (addr : ℕ) :
    ∃ l', addrarrayAdd (AddrArray.of l) addr = some (AddrArray.of l', added addrs addr) ∧
      SortedSet l' (addrs ++ [addr]) ∧
      (clearThumb addr ∈ l → l' = l) := by
  have hmem_iff := h.mem_iff (x := clearThumb addr)
  by_cases hmem : clearThumb addr ∈ l
  · refine ⟨l, ?_, ⟨h.sorted, fun {x} => ?_⟩, fun _ => rfl⟩
    · rw [addrarrayAdd_mem h.sorted hmem, added, if_pos (hmem_iff.1 hmem)]
    · rw [map_append, mem_append, ← h.mem_iff, map_singleton, mem_singleton]
      constructor
      · exact Or.inl
      · rintro (hx | rfl)
        · exact hx
        · exact hmem
  · obtain ⟨l₁, l₂, rfl, h₁, h₂, hadd⟩ := addrarrayAdd_new h.sorted hmem
    refine ⟨l₁ ++ clearThumb addr :: l₂, ?_, ⟨?_, fun {x} => ?_⟩, fun hin => absurd hin hmem⟩
    · rw [hadd, added, if_neg (mt hmem_iff.2 hmem)]
    · obtain ⟨hs₁, hs₂, hcross⟩ := pairwise_append.1 h.sorted
      refine pairwise_append.2 ⟨hs₁, pairwise_cons.2 ⟨h₂, hs₂⟩, fun x hx y hy => ?_⟩
      rcases mem_cons.1 hy with rfl | hy
      · exact h₁ x hx
      · exact hcross x hx y hy
    · have hx := h.mem_iff (x := x)
      rw [mem_append] at hx
      rw [map_append, mem_append, mem_append, ← hx, mem_cons, map_singleton,
        mem_singleton]
      tauto

/-- What the calls return. -/
def addedAll : (before : List ℕ) → List ℕ → List ℤ
  | _, [] => []
  | before, addr :: addrs => added before addr :: addedAll (before ++ [addr]) addrs

/-- **Any calls**, from an array that is a sorted set. -/
theorem SortedSet.addAll {before : List ℕ} (h : SortedSet l before) (addrs : List ℕ) :
    ∃ l', addrarrayAddAll (AddrArray.of l) addrs = some (AddrArray.of l', addedAll before addrs) ∧
      SortedSet l' (before ++ addrs) := by
  induction addrs generalizing l before with
  | nil =>
    rw [append_nil]
    exact ⟨l, rfl, h⟩
  | cons addr addrs ih =>
    obtain ⟨l', hadd, h', -⟩ := h.add addr
    obtain ⟨l'', hall, h''⟩ := ih h'
    rw [append_assoc, singleton_append] at h''
    refine ⟨l'', ?_, h''⟩
    rw [addrarrayAddAll, hadd, bind_some]
    simp only [hall, map_some]
    rfl

/-- **The array is the sorted set of the addresses**, with bit 0 cleared. No call reads or writes an element that is
not there; a call returns -1 exactly when the address was there before, and then it leaves the array as it is. -/
theorem addrArray_sortedSet (addrs : List ℕ) :
    ∃ l, addrarrayAddAll (AddrArray.of []) addrs = some (AddrArray.of l, addedAll [] addrs) ∧ SortedSet l addrs ∧
      (∀ addr, ∃ l', addrarrayAdd (AddrArray.of l) addr = some (AddrArray.of l', added addrs addr) ∧
        SortedSet l' (addrs ++ [addr]) ∧ (added addrs addr = -1 → l' = l)) ∧
      ∀ addr, addrarrayCheck (AddrArray.of l) addr =
        some (if clearThumb addr ∈ addrs.map clearThumb then 1 else 0) := by
  have hempty : SortedSet [] [] := ⟨List.Pairwise.nil, Iff.rfl⟩
  obtain ⟨l, hall, h⟩ := hempty.addAll addrs
  rw [nil_append] at h
  refine ⟨l, hall, h, fun addr => ?_, fun addr => ?_⟩
  · obtain ⟨l', hadd, h', hsame⟩ := h.add addr
    refine ⟨l', hadd, h', fun hold => hsame (h.mem_iff.2 ?_)⟩
    by_contra hnew
    rw [added, if_neg hnew] at hold
    omega
  · simp only [addrarrayCheck_eq h.sorted, h.mem_iff]

/-- An odd address is the even one below it. -/
example : addedAll [] [0x8001, 0x9000, 0x8000, 0x7000] = [1, 1, -1, 1] := by decide

end Emulator.Memcheck
