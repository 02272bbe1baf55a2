import Mathlib.Data.List.Induction
import Emulator.Memcheck.MallocMap

/-!
# The map of mapped modules

`memcheck_mmrange_map.c` and the handlers of the mmap and munmap events of the current
process. `memcheck_unmap` pulls one mapping that the range meets and puts back what is left
of it, as if the range were a part of the mapping or the mapping a part of the range.

* `mmrange_follows`: as long as that is so, the map says of every address what the latest
  event that covers it says.
-/

namespace Emulator.Memcheck

open List

structure MMRangeDesc where
  mapStart : ℕ
  mapEnd : ℕ
  execOffset : ℕ
  path : String
deriving DecidableEq

def mmrangedescGetModuleOffset (rdesc : MMRangeDesc) (address : ℕ) : ℕ :=
  (address + 2 ^ 32 - rdesc.mapStart + rdesc.execOffset) % 2 ^ 32

abbrev MMRangeMap := Tree MMRangeDesc

/-- `map_end - 1`. -/
def mapLast (rdesc : MMRangeDesc) : ℕ := pred32 rdesc.mapEnd

/-- `cmp_rb`: ranges are equal if they intersect in any part. -/
def mmrangeCmpRb (d1 d2 : MMRangeDesc) : Ordering :=
  IntervalTree.compare d1.mapStart (mapLast d1) d2.mapStart (mapLast d2)

variable (R : Rebalance MMRangeDesc)

/-- The result, the entry that has been replaced, and the map. -/
def mmrangemapInsertDesc (map : MMRangeMap) (rdesc : MMRangeDesc) (replaced : Bool) :
    RBTMapResult × Option MMRangeDesc × MMRangeMap :=
  match R.insert (mmrangeCmpRb rdesc) map rdesc with
  | (none, map) => (.entryInserted, none, map)
  | (some existing, map) =>
    if ¬ replaced then (.entryAlreadyExists, none, map)
    else (.entryReplaced, some existing, (R.insert (mmrangeCmpRb rdesc) (R.remove map existing) rdesc).2)

/-- The range that `mmrangemap_find_entry` looks for. -/
def searchedRange (start mapEnd : ℕ) : MMRangeDesc := ⟨start, mapEnd, 0, ""⟩

def mmrangemapFindEntry (map : MMRangeMap) (start mapEnd : ℕ) : Option MMRangeDesc :=
  map.find (mmrangeCmpRb (searchedRange start mapEnd))

def mmrangemapInsert (map : MMRangeMap) (desc : MMRangeDesc) (replaced : Bool) :
    RBTMapResult × Option MMRangeDesc × MMRangeMap :=
  mmrangemapInsertDesc R map desc replaced

def mmrangemapFind (map : MMRangeMap) (start mapEnd : ℕ) : Option MMRangeDesc :=
  mmrangemapFindEntry map start mapEnd

/-- The entry that has been pulled, if there was one, and the map. -/
def mmrangemapPull (map : MMRangeMap) (start mapEnd : ℕ) : Option MMRangeDesc × MMRangeMap :=
  match mmrangemapFindEntry map start mapEnd with
  | some rdesc => (some rdesc, R.remove map rdesc)
  | none => (none, map)

/-- `mmrangemap_copy` of the entries that are left; `none` if an entry could not be inserted. -/
def mmrangemapCopy (dest : MMRangeMap) : List MMRangeDesc → Option MMRangeMap
  | [] => some dest
  | entry :: entries =>
    match mmrangemapInsertDesc R dest entry false with
    | (.entryInserted, _, dest) => mmrangemapCopy dest entries
    | _ => none

/-- `procdesc_find_mapentry` on the map of the process. -/
def procdescFindMapentry (map : MMRangeMap) (addr : ℕ) : Option MMRangeDesc :=
  mmrangemapFind map addr ((addr + 1) % 2 ^ 32)

/-- `memcheck_unmap` on the map of the current process. -/
def memcheckUnmap (map : MMRangeMap) (vstart vend : ℕ) : MMRangeMap :=
  match mmrangemapPull R map vstart vend with
  | (none, map) => map
  | (some desc, map) =>
    if vstart ≤ desc.mapStart ∧ desc.mapEnd ≤ vend then map
    else if desc.mapStart = vstart then
      (mmrangemapInsert R map { desc with
        execOffset := (desc.execOffset + (vend + 2 ^ 32 - desc.mapStart)) % 2 ^ 32
        mapStart := vend } false).2.2
    else if desc.mapEnd = vend then (mmrangemapInsert R map { desc with mapEnd := vstart } false).2.2
    else
      let tail := { desc with
        mapStart := vend
        execOffset := (vend + 2 ^ 32 - desc.mapStart + desc.execOffset) % 2 ^ 32 }
      let map := (mmrangemapInsert R map tail false).2.2
      (mmrangemapInsert R map { desc with mapEnd := vstart } false).2.2

/-- `memcheck_mmap_exepath` on the map of the current process. -/
def memcheckMmapExepath (map : MMRangeMap) (vstart vend execOffset : ℕ) (path : String) : MMRangeMap :=
  (mmrangemapInsert R (memcheckUnmap R map vstart vend) ⟨vstart, vend, execOffset, path⟩ true).2.2

/-- A range that is not empty. -/
def ProperRange (vstart vend : ℕ) : Prop := vstart < vend ∧ vend < 2 ^ 32

/-- The entry and the range have an address in common. -/
def Meets (e : MMRangeDesc) (vstart vend : ℕ) : Prop := e.mapStart < vend ∧ vstart < e.mapEnd

theorem mapLast_eq {e : MMRangeDesc} (h : ProperRange e.mapStart e.mapEnd) : mapLast e = e.mapEnd - 1 := by
  unfold ProperRange at h
  unfold mapLast pred32
  omega

/-- The map is a search tree of disjoint ranges. -/
structure MMRangeMapOk (map : MMRangeMap) : Prop where
  tree : IntervalTree.Ok MMRangeDesc.mapStart mapLast map
  proper : ∀ e ∈ map.toList, ProperRange e.mapStart e.mapEnd

variable {R} {map : MMRangeMap} {d e : MMRangeDesc} {vstart vend a : ℕ}

namespace MMRangeMapOk

theorem leaf : MMRangeMapOk Tree.leaf := ⟨IntervalTree.ok_leaf, fun _ h => absurd h not_mem_nil⟩

theorem disjoint (h : MMRangeMapOk map) {e e' : MMRangeDesc} (he : e ∈ map.toList) (he' : e' ∈ map.toList)
    (hne : e ≠ e') : e.mapEnd ≤ e'.mapStart ∨ e'.mapEnd ≤ e.mapStart := by
  have h1 := h.tree.disjoint he he' hne
  have h2 := h.proper e he
  have h3 := h.proper e' he'
  rw [mapLast_eq h2, mapLast_eq h3] at h1
  unfold ProperRange at h2 h3
  omega

theorem remove (h : MMRangeMapOk map) (e : MMRangeDesc) :
    MMRangeMapOk (R.remove map e) ∧ ∀ a, a ∈ (R.remove map e).toList ↔ a ≠ e ∧ a ∈ map.toList := by
  obtain ⟨h1, h2⟩ := h.tree.remove R e
  exact ⟨⟨h1, fun a ha => h.proper a ((h2 a).1 ha).2⟩, h2⟩

theorem find_none_iff (h : MMRangeMapOk map) (hd : ProperRange d.mapStart d.mapEnd) :
    map.find (mmrangeCmpRb d) = none ↔ ∀ e ∈ map.toList, ¬ Meets e d.mapStart d.mapEnd := by
  have hle : d.mapStart ≤ mapLast d := by
    rw [mapLast_eq hd]
    unfold ProperRange at hd
    omega
  have hmeets : ∀ e ∈ map.toList, (d.mapStart ≤ mapLast e ∧ e.mapStart ≤ mapLast d ↔ Meets e d.mapStart d.mapEnd) := by
    intro e he
    have h1 := h.proper e he
    rw [mapLast_eq hd, mapLast_eq h1]
    unfold ProperRange at h1 hd
    unfold Meets
    omega
  constructor
  · intro hf e he hm
    exact h.tree.find_none hle hf e he ((hmeets e he).2 hm)
  · intro hn
    exact h.tree.find_eq_none hle fun e he hm => hn e he ((hmeets e he).1 hm)

theorem find_some (h : MMRangeMapOk map) (hd : ProperRange d.mapStart d.mapEnd)
    (hf : map.find (mmrangeCmpRb d) = some e) : e ∈ map.toList ∧ Meets e d.mapStart d.mapEnd := by
  have hle : d.mapStart ≤ mapLast d := by
    rw [mapLast_eq hd]
    unfold ProperRange at hd
    omega
  obtain ⟨h1, h2⟩ := h.tree.find_some hle hf
  have h3 := h.proper e h1
  refine ⟨h1, ?_⟩
  rw [mapLast_eq hd, mapLast_eq h3] at h2
  unfold ProperRange at h3 hd
  unfold Meets
  omega

/-- A range that meets no entry is added, whether or not there is a buffer for a replaced one. -/
theorem insert_new (h : MMRangeMapOk map) (hd : ProperRange d.mapStart d.mapEnd)
    (hn : ∀ e ∈ map.toList, ¬ Meets e d.mapStart d.mapEnd) (replaced : Bool) :
    MMRangeMapOk (mmrangemapInsert R map d replaced).2.2 ∧
      ∀ a, a ∈ (mmrangemapInsert R map d replaced).2.2.toList ↔ a = d ∨ a ∈ map.toList := by
  have hf := (h.find_none_iff hd).2 hn
  have hle : d.mapStart ≤ mapLast d := by
    rw [mapLast_eq hd]
    unfold ProperRange at hd
    omega
  obtain ⟨h1, h2⟩ := h.tree.insert R (x := d) hle hf
  unfold mmrangemapInsert mmrangemapInsertDesc
  have hcmp : (fun a => IntervalTree.compare d.mapStart (mapLast d) a.mapStart (mapLast a)) = mmrangeCmpRb d := rfl
  simp only [hcmp, R.insert_of_none hf] at h1 h2
  rw [R.insert_of_none hf]
  refine ⟨⟨h1, fun a ha => ?_⟩, h2⟩
  rcases (h2 a).1 ha with rfl | ha
  · exact hd
  · exact h.proper a ha

/-- What is found for an address. -/
theorem mapentry_iff (h : MMRangeMapOk map) (ha : a < 2 ^ 32) :
    procdescFindMapentry map a = some e ↔ e ∈ map.toList ∧ e.mapStart ≤ a ∧ a < e.mapEnd := by
  have hlast : mapLast (searchedRange a ((a + 1) % 2 ^ 32)) = a := by
    unfold mapLast pred32 searchedRange
    simp only
    omega
  have hcmp : mmrangeCmpRb (searchedRange a ((a + 1) % 2 ^ 32)) =
      fun e => IntervalTree.compare a a e.mapStart (mapLast e) := by
    funext e
    unfold mmrangeCmpRb
    rw [hlast]
    rfl
  have hin : ∀ e ∈ map.toList, (a ≤ mapLast e ∧ e.mapStart ≤ a ↔ e.mapStart ≤ a ∧ a < e.mapEnd) := by
    intro e he
    have h1 := h.proper e he
    rw [mapLast_eq h1]
    unfold ProperRange at h1
    omega
  unfold procdescFindMapentry mmrangemapFind mmrangemapFindEntry
  rw [hcmp]
  constructor
  · intro hf
    obtain ⟨h1, h2⟩ := h.tree.find_some (Nat.le_refl a) hf
    exact ⟨h1, (hin e h1).1 h2⟩
  · rintro ⟨he, hm⟩
    rcases hf : map.find fun e => IntervalTree.compare a a e.mapStart (mapLast e) with _ | e'
    · exact absurd ((hin e he).2 hm) (h.tree.find_none (Nat.le_refl a) hf e he)
    · obtain ⟨h1, h2⟩ := h.tree.find_some (Nat.le_refl a) hf
      have h3 := (hin e' h1).1 h2
      by_contra hne
      have := h.disjoint h1 he fun heq => hne (heq ▸ hf)
      omega

theorem mapentry_none_iff (h : MMRangeMapOk map) (ha : a < 2 ^ 32) :
    procdescFindMapentry map a = none ↔ ∀ e ∈ map.toList, ¬ (e.mapStart ≤ a ∧ a < e.mapEnd) := by
  constructor
  · intro hf e he hm
    rw [(h.mapentry_iff ha).2 ⟨he, hm⟩] at hf
    exact absurd hf (by simp)
  · intro hn
    rcases hf : procdescFindMapentry map a with _ | e
    · rfl
    · obtain ⟨h1, h2⟩ := (h.mapentry_iff ha).1 hf
      exact absurd h2 (hn e h1)

end MMRangeMapOk

/-- The range meets at most one mapping, and one of the two is a part of the other. -/
structure Nested (map : MMRangeMap) (vstart vend : ℕ) : Prop where
  one : ∀ e ∈ map.toList, ∀ e' ∈ map.toList, Meets e vstart vend → Meets e' vstart vend → e = e'
  inside : ∀ e ∈ map.toList, Meets e vstart vend →
    vstart ≤ e.mapStart ∧ e.mapEnd ≤ vend ∨ e.mapStart ≤ vstart ∧ vend ≤ e.mapEnd

/-- What is left of a mapping without the range: the entries that say the same as `e` outside the range. -/
structure Pieces (e : MMRangeDesc) (vstart vend : ℕ) (ps : List MMRangeDesc) : Prop where
  proper : ∀ p ∈ ps, ProperRange p.mapStart p.mapEnd
  part : ∀ p ∈ ps, e.mapStart ≤ p.mapStart ∧ p.mapEnd ≤ e.mapEnd ∧ ¬ Meets p vstart vend
  cover : ∀ a, e.mapStart ≤ a → a < e.mapEnd → ¬ (vstart ≤ a ∧ a < vend) → ∃ p ∈ ps, p.mapStart ≤ a ∧ a < p.mapEnd
  same : ∀ p ∈ ps, p.path = e.path ∧ ∀ a, p.mapStart ≤ a → a < p.mapEnd →
    mmrangedescGetModuleOffset p a = mmrangedescGetModuleOffset e a

/-- The mapping from `vend` on. -/
def tailOf (e : MMRangeDesc) (vend : ℕ) : MMRangeDesc :=
  { e with execOffset := (e.execOffset + (vend + 2 ^ 32 - e.mapStart)) % 2 ^ 32, mapStart := vend }

/-- The mapping up to `vstart`. -/
def headOf (e : MMRangeDesc) (vstart : ℕ) : MMRangeDesc := { e with mapEnd := vstart }

theorem tailOf_pieces (hpe : ProperRange e.mapStart e.mapEnd) (h1 : vstart ≤ e.mapStart)
    (h2 : e.mapStart < vend) (h3 : vend < e.mapEnd) : Pieces e vstart vend [tailOf e vend] := by
  unfold ProperRange at hpe
  refine ⟨?_, ?_, ?_, ?_⟩
  · simp only [mem_singleton, forall_eq]
    exact ⟨h3, hpe.2⟩
  · simp only [mem_singleton, forall_eq]
    refine ⟨by unfold tailOf; simp only; omega, Nat.le_refl _, ?_⟩
    unfold Meets tailOf
    simp only
    omega
  · intro a ha1 ha2 ha3
    exact ⟨_, mem_singleton_self _, by unfold tailOf; simp only; omega⟩
  · simp only [mem_singleton, forall_eq]
    refine ⟨rfl, fun a ha1 ha2 => ?_⟩
    unfold tailOf at ha1 ha2 ⊢
    unfold mmrangedescGetModuleOffset
    simp only at ha1 ha2 ⊢
    omega

theorem headOf_pieces (hp : ProperRange vstart vend) (h1 : e.mapStart < vstart)
    (h2 : vstart < e.mapEnd) (h3 : e.mapEnd ≤ vend) : Pieces e vstart vend [headOf e vstart] := by
  unfold ProperRange at hp
  refine ⟨?_, ?_, ?_, ?_⟩
  · simp only [mem_singleton, forall_eq]
    exact ⟨h1, show vstart < 2 ^ 32 by omega⟩
  · simp only [mem_singleton, forall_eq]
    refine ⟨Nat.le_refl _, by unfold headOf; simp only; omega, ?_⟩
    unfold Meets headOf
    simp only
    omega
  · intro a ha1 ha2 ha3
    exact ⟨_, mem_singleton_self _, by unfold headOf; simp only; omega⟩
  · simp only [mem_singleton, forall_eq]
    exact ⟨rfl, fun a _ _ => rfl⟩

/-- A range inside a mapping leaves both ends of it. -/
theorem both_pieces (hp : ProperRange vstart vend) (hpe : ProperRange e.mapStart e.mapEnd) (h1 : e.mapStart < vstart)
    (h2 : vend < e.mapEnd) : Pieces e vstart vend [headOf e vstart, tailOf e vend] := by
  unfold ProperRange at hp hpe
  refine ⟨?_, ?_, ?_, ?_⟩
  · simp only [mem_cons, not_mem_nil, or_false, forall_eq_or_imp, forall_eq]
    exact ⟨⟨h1, show vstart < 2 ^ 32 by omega⟩, ⟨h2, hpe.2⟩⟩
  · simp only [mem_cons, not_mem_nil, or_false, forall_eq_or_imp, forall_eq]
    unfold Meets headOf tailOf
    simp only
    omega
  · intro a ha1 ha2 ha3
    simp only [mem_cons, not_mem_nil, or_false, exists_eq_or_imp, exists_eq_left]
    unfold headOf tailOf
    simp only
    omega
  · simp only [mem_cons, not_mem_nil, or_false, forall_eq_or_imp, forall_eq]
    refine ⟨⟨rfl, fun a _ _ => rfl⟩, rfl, fun a ha1 ha2 => ?_⟩
    unfold tailOf at ha1 ha2 ⊢
    unfold mmrangedescGetModuleOffset
    simp only at ha1 ha2 ⊢
    omega

/-- The map without the mapping that met the range, and with what is left of it. -/
structure Unmapped (map : MMRangeMap) (vstart vend : ℕ) (map' : MMRangeMap) : Prop where
  ok : MMRangeMapOk map'
  mem : (map' = map ∧ ∀ e ∈ map.toList, ¬ Meets e vstart vend) ∨
    ∃ e ps, e ∈ map.toList ∧ Meets e vstart vend ∧ Pieces e vstart vend ps ∧
      (∀ e' ∈ map.toList, Meets e' vstart vend → e' = e) ∧
      ∀ x, x ∈ map'.toList ↔ x ∈ ps ∨ x ≠ e ∧ x ∈ map.toList

theorem memcheckUnmap_ok (h : MMRangeMapOk map) (hp : ProperRange vstart vend) (hn : Nested map vstart vend) :
    Unmapped map vstart vend (memcheckUnmap R map vstart vend) := by
  have hs : ProperRange (searchedRange vstart vend).mapStart (searchedRange vstart vend).mapEnd := hp
  unfold memcheckUnmap mmrangemapPull mmrangemapFindEntry
  rcases hf : map.find (mmrangeCmpRb (searchedRange vstart vend)) with _ | e
  · exact ⟨h, .inl ⟨rfl, (h.find_none_iff hs).1 hf⟩⟩
  · obtain ⟨he, hm⟩ := h.find_some hs hf
    obtain ⟨hr, hmem⟩ := h.remove (R := R) e
    have hpe := h.proper e he
    have honly : ∀ e' ∈ map.toList, Meets e' vstart vend → e' = e := fun e' he' hm' => hn.one e' he' e he hm' hm
    -- a piece of the mapping meets none of the other mappings
    have hfree : ∀ p : MMRangeDesc, e.mapStart ≤ p.mapStart → p.mapEnd ≤ e.mapEnd →
        ∀ x ∈ (R.remove map e).toList, ¬ Meets x p.mapStart p.mapEnd := by
      intro p h1 h2 x hx hmx
      have h3 := h.disjoint ((hmem x).1 hx).2 he ((hmem x).1 hx).1
      unfold Meets at hmx
      omega
    have hm' : e.mapStart < vend ∧ vstart < e.mapEnd := hm
    unfold ProperRange at hp hpe
    simp only
    split_ifs with h1 h2 h3
    · refine ⟨hr, .inr ⟨e, [], he, hm, ⟨by simp, by simp, fun a _ _ _ => ?_, by simp⟩, honly, fun x => by simp [hmem]⟩⟩
      omega
    · have hin := (hn.inside e he hm).resolve_left h1
      have hps : Pieces e vstart vend [tailOf e vend] := tailOf_pieces hpe (by omega) hm'.1 (by omega)
      obtain ⟨hok, hmem'⟩ := hr.insert_new (R := R) (hps.proper _ (mem_singleton_self _))
        (hfree _ (hps.part _ (mem_singleton_self _)).1 (hps.part _ (mem_singleton_self _)).2.1) false
      exact ⟨hok, .inr ⟨e, _, he, hm, hps, honly, fun x => by rw [mem_singleton, ← hmem]; exact hmem' x⟩⟩
    · have hin := (hn.inside e he hm).resolve_left h1
      have hps := headOf_pieces (e := e) hp (by omega) hm'.2 (by omega)
      obtain ⟨hok, hmem'⟩ := hr.insert_new (R := R) (hps.proper _ (mem_singleton_self _))
        (hfree _ (hps.part _ (mem_singleton_self _)).1 (hps.part _ (mem_singleton_self _)).2.1) false
      exact ⟨hok, .inr ⟨e, _, he, hm, hps, honly, fun x => by rw [mem_singleton, ← hmem]; exact hmem' x⟩⟩
    · have hin := (hn.inside e he hm).resolve_left h1
      have hps := both_pieces (e := e) hp hpe (by omega) (by omega)
      have ht := hps.part (tailOf e vend) (by simp)
      have hh := hps.part (headOf e vstart) (by simp)
      obtain ⟨hok, hmem'⟩ := hr.insert_new (R := R) (hps.proper (tailOf e vend) (by simp))
        (hfree _ ht.1 ht.2.1) false
      obtain ⟨hok', hmem''⟩ := hok.insert_new (R := R) (hps.proper (headOf e vstart) (by simp)) (fun x hx => by
        rcases (hmem' x).1 hx with rfl | hx
        · unfold Meets tailOf headOf
          simp only
          omega
        · exact hfree _ hh.1 hh.2.1 x hx) false
      have htail : tailOf e vend = { e with
          mapStart := vend
          execOffset := (vend + 2 ^ 32 - e.mapStart + e.execOffset) % 2 ^ 32 } := by
        unfold tailOf
        rw [Nat.add_comm e.execOffset]
      rw [← htail]
      refine ⟨hok', .inr ⟨e, _, he, hm, hps, honly, fun x => ?_⟩⟩
      rw [mem_cons, mem_singleton, or_assoc, ← hmem, ← hmem']
      exact hmem'' x

inductive MapEvent where
  | mmapExepath (vstart vend execOffset : ℕ) (path : String)
  | unmap (vstart vend : ℕ)

namespace MapEvent

def range : MapEvent → ℕ × ℕ
  | mmapExepath vstart vend _ _ => (vstart, vend)
  | unmap vstart vend => (vstart, vend)

/-- The handler of the event. -/
def run (R : Rebalance MMRangeDesc) (map : MMRangeMap) : MapEvent → MMRangeMap
  | mmapExepath vstart vend execOffset path => memcheckMmapExepath R map vstart vend execOffset path
  | unmap vstart vend => memcheckUnmap R map vstart vend

end MapEvent

/-- What is mapped at an address: where its mapping starts, the offset there, and the path. -/
abbrev Mapped := Option (ℕ × ℕ × String)

/-- What the latest of the events that cover the address says of it. -/
def latest (evs : List MapEvent) (a : ℕ) : Mapped :=
  evs.foldl (fun m ev => if ev.range.1 ≤ a ∧ a < ev.range.2 then
    match ev with
    | .mmapExepath vstart _ execOffset path => some (vstart, execOffset, path)
    | .unmap _ _ => none
    else m) none

/-- The descriptor found for the address is that of the mapping, and its offset the one at the address. -/
def Agrees (map : MMRangeMap) (a : ℕ) : Mapped → Prop
  | none => procdescFindMapentry map a = none
  | some (vstart, execOffset, path) => ∃ desc, procdescFindMapentry map a = some desc ∧ desc.path = path ∧
      mmrangedescGetModuleOffset desc a = (execOffset + a - vstart) % 2 ^ 32

/-- Nothing is mapped in the range any more. -/
theorem Unmapped.free {map' : MMRangeMap} (hu : Unmapped map vstart vend map') :
    ∀ x ∈ map'.toList, ¬ Meets x vstart vend := by
  rcases hu.mem with ⟨rfl, hn⟩ | ⟨e, ps, -, -, hps, honly, hmem⟩
  · exact hn
  · intro x hx
    rcases (hmem x).1 hx with hx | ⟨hne, hx⟩
    · exact (hps.part x hx).2.2
    · exact fun hm => hne (honly x hx hm)

/-- Outside the range everything is mapped as before. -/
theorem Unmapped.agrees {map' : MMRangeMap} (hu : Unmapped map vstart vend map') (h : MMRangeMapOk map)
    (ha : a < 2 ^ 32) (hout : ¬ (vstart ≤ a ∧ a < vend)) {m : Mapped} (hag : Agrees map a m) : Agrees map' a m := by
  rcases hu.mem with ⟨rfl, -⟩ | ⟨e, ps, he, hm, hps, honly, hmem⟩
  · exact hag
  · cases m with
    | none =>
      refine (hu.ok.mapentry_none_iff ha).2 fun x hx hxa => ?_
      have hnone := (h.mapentry_none_iff ha).1 hag
      rcases (hmem x).1 hx with hx | ⟨-, hx⟩
      · have := hps.part x hx
        exact hnone e he ⟨by omega, by omega⟩
      · exact hnone x hx hxa
    | some m =>
      obtain ⟨d, hd, hpath, hoff⟩ := hag
      obtain ⟨hdm, hda⟩ := (h.mapentry_iff ha).1 hd
      by_cases hde : d = e
      · subst hde
        obtain ⟨p, hp, hpa⟩ := hps.cover a hda.1 hda.2 hout
        have hsame := hps.same p hp
        exact ⟨p, (hu.ok.mapentry_iff ha).2 ⟨(hmem p).2 (.inl hp), hpa⟩, hsame.1.trans hpath,
          (hsame.2 a hpa.1 hpa.2).trans hoff⟩
      · exact ⟨d, (hu.ok.mapentry_iff ha).2 ⟨(hmem d).2 (.inr ⟨hde, hdm⟩), hda⟩, hpath, hoff⟩

theorem Unmapped.none {map' : MMRangeMap} (hu : Unmapped map vstart vend map') (ha : a < 2 ^ 32)
    (hin : vstart ≤ a ∧ a < vend) : procdescFindMapentry map' a = none := by
  refine (hu.ok.mapentry_none_iff ha).2 fun x hx hxa => hu.free x hx ?_
  unfold Meets
  omega

/-- One event: the map agrees with the latest event again. -/
theorem event_agrees (h : MMRangeMapOk map) {evs : List MapEvent} {ev : MapEvent}
    (hag : ∀ a < 2 ^ 32, Agrees map a (latest evs a)) (hp : ProperRange ev.range.1 ev.range.2)
    (hn : Nested map ev.range.1 ev.range.2) :
    MMRangeMapOk (ev.run R map) ∧ ∀ a < 2 ^ 32, Agrees (ev.run R map) a (latest (evs ++ [ev]) a) := by
  have hu := memcheckUnmap_ok (R := R) h hp hn
  unfold latest
  simp only [foldl_append, foldl_cons, foldl_nil]
  cases ev with
  | unmap vstart vend =>
    refine ⟨hu.ok, fun a ha => ?_⟩
    split_ifs with hin
    · exact hu.none ha hin
    · exact hu.agrees h ha hin (hag a ha)
  | mmapExepath vstart vend execOffset path =>
    obtain ⟨hok, hmem⟩ := hu.ok.insert_new (R := R) (d := ⟨vstart, vend, execOffset, path⟩) hp hu.free true
    refine ⟨hok, fun a ha => ?_⟩
    split_ifs with hin
    · refine ⟨⟨vstart, vend, execOffset, path⟩, (hok.mapentry_iff ha).2 ⟨(hmem _).2 (.inl rfl), hin⟩, rfl, ?_⟩
      simp only [MapEvent.range] at hin hp
      unfold ProperRange at hp
      unfold mmrangedescGetModuleOffset
      simp only
      omega
    · have hold := hu.agrees h ha hin (hag a ha)
      unfold latest at hold
      -- the new mapping does not cover the address
      have hsame : ∀ x, procdescFindMapentry (memcheckUnmap R map vstart vend) a = some x →
          procdescFindMapentry (memcheckMmapExepath R map vstart vend execOffset path) a = some x := fun x hx =>
        (hok.mapentry_iff ha).2 ⟨(hmem x).2 (.inr ((hu.ok.mapentry_iff ha).1 hx).1), ((hu.ok.mapentry_iff ha).1 hx).2⟩
      revert hold
      generalize List.foldl _ _ evs = m
      intro hold
      cases m with
      | none =>
        refine (hok.mapentry_none_iff ha).2 fun x hx hxa => ?_
        rcases (hmem x).1 hx with rfl | hx
        · exact hin hxa
        · exact (hu.ok.mapentry_none_iff ha).1 hold x hx hxa
      | some m =>
        obtain ⟨d, hd, hrest⟩ := hold
        exact ⟨d, hsame d hd, hrest⟩

/-- The map after a sequence of events. -/
def mapAfter (R : Rebalance MMRangeDesc) (evs : List MapEvent) : MMRangeMap :=
  evs.foldl (fun map ev => ev.run R map) Tree.leaf

theorem mapAfter_append (R : Rebalance MMRangeDesc) (evs : List MapEvent) (ev : MapEvent) :
    mapAfter R (evs ++ [ev]) = ev.run R (mapAfter R evs) := by
  unfold mapAfter
  rw [foldl_append]
  rfl

/-- **The map follows mmap and munmap** in every run in which each event meets at most one mapping, and that one is a
part of the event's range or has it as a part. -/
theorem mmrange_follows (R : Rebalance MMRangeDesc) (evs : List MapEvent)
    (hp : ∀ ev ∈ evs, ProperRange ev.range.1 ev.range.2)
    (hn : ∀ pre ev post, evs = pre ++ ev :: post → Nested (mapAfter R pre) ev.range.1 ev.range.2) :
    ∀ pre, pre <+: evs → ∀ a < 2 ^ 32, Agrees (mapAfter R pre) a (latest pre a) := by
  suffices hinv : ∀ pre, pre <+: evs →
      MMRangeMapOk (mapAfter R pre) ∧ ∀ a < 2 ^ 32, Agrees (mapAfter R pre) a (latest pre a) from
    fun pre hpre => (hinv pre hpre).2
  intro pre
  induction pre using List.reverseRecOn with
  | nil =>
    refine fun _ => ⟨.leaf, fun a ha => ?_⟩
    exact (MMRangeMapOk.leaf.mapentry_none_iff ha).2 fun x hx => absurd hx not_mem_nil
  | append_singleton pre ev ih =>
    rintro ⟨post, hpost⟩
    rw [append_assoc, singleton_append] at hpost
    obtain ⟨hok, hag⟩ := ih ⟨ev :: post, hpost⟩
    rw [mapAfter_append]
    exact event_agrees hok hag (hp ev (hpost ▸ by simp)) (hn pre ev post hpost.symm)

/-- A library is mapped, and a page in the middle of it is unmapped. -/
theorem mmrange_follows_hole :
    Agrees (mapAfter .spine [.mmapExepath 4096 16384 0 "libc.so", .unmap 8192 12288]) 8192
      (latest [.mmapExepath 4096 16384 0 "libc.so", .unmap 8192 12288] 8192) := by
  refine mmrange_follows .spine _ ?_ ?_ _ (prefix_refl _) 8192 (by decide)
  · intro ev hev
    simp only [mem_cons, not_mem_nil, or_false] at hev
    rcases hev with rfl | rfl <;> exact ⟨by decide, by decide⟩
  · intro pre ev post heq
    rcases pre with _ | ⟨p, _ | ⟨q, pre⟩⟩
    · exact ⟨fun e he => absurd he not_mem_nil, fun e he => absurd he not_mem_nil⟩
    · obtain ⟨rfl, rfl, -⟩ : p = .mmapExepath 4096 16384 0 "libc.so" ∧ ev = .unmap 8192 12288 ∧ post = [] := by
        simpa [eq_comm] using heq
      refine ⟨fun e he e' he' _ _ => ?_, fun e he _ => ?_⟩
      · exact (mem_singleton.1 he).trans (mem_singleton.1 he').symm
      · obtain rfl := mem_singleton.1 he
        exact .inr ⟨by decide, by decide⟩
    · exact absurd (congrArg List.length heq) (by simp)

/-- Two libraries side by side; of a range that covers both only one is unmapped. -/
theorem mmrange_fail : ¬ Agrees
    (mapAfter .spine [.mmapExepath 4096 8192 0 "libc.so", .mmapExepath 8192 12288 0 "libm.so", .unmap 4096 12288]) 8192
    (latest [.mmapExepath 4096 8192 0 "libc.so", .mmapExepath 8192 12288 0 "libm.so", .unmap 4096 12288] 8192) := by
  rw [show latest [.mmapExepath 4096 8192 0 "libc.so", .mmapExepath 8192 12288 0 "libm.so", .unmap 4096 12288] 8192 =
    none by decide]
  show ¬ procdescFindMapentry _ 8192 = none
  decide

end Emulator.Memcheck
