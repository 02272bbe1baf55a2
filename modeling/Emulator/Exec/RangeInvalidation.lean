import Emulator.Exec.PageRange
import Emulator.Exec.TbLink

/-!
# What a page range invalidation is for

The blocks with an octet in the range are to be invalidated, each one once, and the lists of the others are to stay as
they are.

* `afterCalls_none`, `afterCalls_some`: the lists after the calls, with and without an interrupt.
* `meets_of_hit`, `hit_of_meets`: the blocks that are hit against those that meet the range.
* `tbInvalidatePhysPageRange_iff`: when a call is right.
-/

namespace Emulator.Exec

open Blocks TbState List

variable {s s' : TbState} {L : TbLists} {t : ℕ} {start last : TargetUlong}

theorem foldl_drop_ring (calls : List ℕ) : ∀ (L : TbLists) (ring : ℕ → List JmpField),
    calls.foldl TbLists.drop { L with ring := ring } =
      { calls.foldl TbLists.drop L with ring := fun u => (ring u).filter (·.1 ∉ calls) } := by
  induction calls with
  | nil =>
    intro L ring
    simp
  | cons t calls ih =>
    intro L ring
    have hring : ∀ u, (ringsDrop ring t u).filter (·.1 ∉ calls) = (ring u).filter (·.1 ∉ t :: calls) := by
      intro u
      rw [ringsDrop, filter_filter]
      refine filter_congr fun f _ => ?_
      by_cases hft : f.1 = t
      · simp [hft]
      · simp [hft]
    simp only [foldl_cons]
    rw [show TbLists.drop { L with ring := ring } t = { L.drop t with ring := ringsDrop ring t } from rfl, ih]
    simp only [hring]

theorem ring_foldl_drop (L : TbLists) (calls : List ℕ) (u : ℕ) :
    (calls.foldl TbLists.drop L).ring u = (L.ring u).filter (·.1 ∉ calls) :=
  congrFun (congrArg TbLists.ring (foldl_drop_ring calls L L.ring)) u

theorem afterCalls_none (calls : List ℕ) : ∀ L : TbLists, L.afterCalls none calls = calls.foldl TbLists.drop L := by
  induction calls with
  | nil => exact fun _ => rfl
  | cons t calls ih => exact fun L => ih (L.drop t)

/-- The first call may interrupt the CPU, which unchains the block `c`. -/
theorem afterCalls_some (L : TbLists) (c t : ℕ) (calls : List ℕ) :
    L.afterCalls (some c) (t :: calls) = { (t :: calls).foldl TbLists.drop L with
      ring := fun u => (ringsUnchained (L.drop t).live (L.drop t).ring c u).filter (·.1 ∉ calls) } := by
  rw [TbLists.afterCalls, afterCalls_none]
  exact foldl_drop_ring calls (L.drop t) _

/-- **What a call is for.** It ends, `tb_phys_invalidate` is called once for each block with an octet in the range and
for no other, and the lists are the old ones without these blocks. -/
def RangeRight (s : TbState) (L : TbLists) (start last : TargetUlong) (fuel : ℕ) : Prop :=
  ∃ s' calls, s.tbInvalidatePhysPageRange fuel start last false = some (s', calls) ∧ calls.Nodup ∧
    (∀ t, t ∈ calls ↔ t ∈ L.live ∧ (s.tb t).Meets start last) ∧ TbsOK s' (calls.foldl TbLists.drop L) ∧
    ∀ u, (s'.tb u).toTbCode = (s.tb u).toTbCode

/-- The states and ranges for which it is. -/
structure RangeCond (s : TbState) (L : TbLists) (start last : TargetUlong) : Prop where
  /-- No block is hit under both of its tags. -/
  once : ∀ t ∈ L.live, ¬ HitTwice s.tb start last (pageIndex start) t
  /-- No block meets the range with code up to the end of the address space, unless its second page is hit. -/
  top : start < last → ∀ t ∈ L.live, OnPage (s.tb t) 0 (pageIndex start) → (s.tb t).ReachesTop →
    last ≤ tbStart (s.tb t) 0 ∨ OnPage (s.tb t) 1 (pageIndex start) ∧ TbHit s.tb start last (t, 1)
  /-- An empty range is not inside the code of a block. -/
  nonempty : start = last → hitsOf s L start last = []
  /-- An interrupt that is pending does not unchain a jump between blocks that stay. -/
  quiet : ∀ c t calls, s.interrupted = some c → hitsOf s L start last = t :: calls → ∀ u ∈ L.live, u ∉ t :: calls →
    ∀ f ∈ L.ring u, f.1 ∉ t :: calls → ¬ EdgeReach Prod.fst (Chained (L.drop t).live (L.drop t).ring) c f.1

/-- A live block that is hit meets the range. -/
theorem meets_of_hit (h : TbsOK s L) (hlt : start < last) (hpage : InPage start last)
    (hhit : t ∈ hitsOf s L start last) : (s.tb t).Meets start last := by
  obtain ⟨hlive, n, hon, hn⟩ := (mem_hitsOf h).1 hhit
  refine (meets_iff (h.placed t hlive) hlt hpage).2 ?_
  fin_cases n
  · exact .inl ⟨hon, .inl hn⟩
  · exact .inr ⟨hon, hn⟩

/-- A live block that meets the range is hit, if its code does not go to the end of the address space. -/
theorem hit_of_meets (h : TbsOK s L) (hlt : start < last) (hpage : InPage start last) (ht : t ∈ L.live)
    (htop : OnPage (s.tb t) 0 (pageIndex start) → (s.tb t).ReachesTop →
      last ≤ tbStart (s.tb t) 0 ∨ OnPage (s.tb t) 1 (pageIndex start) ∧ TbHit s.tb start last (t, 1))
    (hmeets : (s.tb t).Meets start last) : t ∈ hitsOf s L start last := by
  refine (mem_hitsOf h).2 ⟨ht, ?_⟩
  rcases (meets_iff (h.placed t ht) hlt hpage).1 hmeets with ⟨hon, hhit | ⟨hreach, hbelow⟩⟩ | ⟨hon, hhit⟩
  · exact ⟨0, hon, hhit⟩
  · rcases htop hon hreach with hle | ⟨hon1, hhit1⟩
    · exact absurd (BitVec.le_def.1 hle) (Nat.not_le.2 hbelow)
    · exact ⟨1, hon1, hhit1⟩
  · exact ⟨1, hon, hhit⟩

/-- The jump lists of one state are determined. -/
theorem ring_unique {L' : TbLists} (h : TbsOK s L) (h' : TbsOK s L') (ht : t ∈ L.live) (ht' : t ∈ L'.live) :
    L.ring t = L'.ring t := (h.jumps.lists.loop t ht).unique (h'.jumps.lists.loop t ht')

/-- The lists after the calls are those without the blocks, if no other jump is unchained. -/
theorem afterCalls_ok {calls : List ℕ} (h : TbsOK s' (L.afterCalls s.interrupted calls))
    (hquiet : ∀ c t rest, s.interrupted = some c → calls = t :: rest → ∀ u ∈ L.live, u ∉ t :: rest →
      ∀ f ∈ L.ring u, f.1 ∉ t :: rest → ¬ EdgeReach Prod.fst (Chained (L.drop t).live (L.drop t).ring) c f.1) :
    TbsOK s' (calls.foldl TbLists.drop L) := by
  cases hint : s.interrupted with
  | none =>
    rw [hint, afterCalls_none] at h
    exact h
  | some c =>
    rw [hint] at h
    cases calls with
    | nil => exact h
    | cons t rest =>
      have hlive : ∀ u, u ∈ (L.afterCalls (some c) (t :: rest)).live → u ∈ L.live ∧ u ∉ t :: rest :=
        fun u hu => (afterCalls_live (some c)).1 hu
      have hring : ∀ u ∈ (L.afterCalls (some c) (t :: rest)).live,
          (L.afterCalls (some c) (t :: rest)).ring u = ((t :: rest).foldl TbLists.drop L).ring u := by
        intro u hu
        obtain ⟨hul, hur⟩ := hlive u hu
        rw [afterCalls_some, ring_foldl_drop]
        simp only [ringsUnchained, TbLists.drop, ringsDrop, filter_filter]
        refine filter_congr fun f hf => ?_
        by_cases hkeep : f.1 ∈ t :: rest
        · rcases mem_cons.1 hkeep with hft | hfr
          · simp [hft]
          · simp [hfr]
        · have hreach := hquiet c t rest hint rfl u hul hur f hf hkeep
          rw [mem_cons, not_or] at hkeep
          simp only [TbLists.drop] at hreach
          simp [hkeep.1, hkeep.2, hreach]
      have hok := h.congr_ring hring
      rw [afterCalls_some] at hok
      exact hok

/-- Conversely, no jump between blocks that stay has been unchained. -/
theorem quiet_of_ok {calls : List ℕ} {c t : ℕ} {rest : List ℕ} (h : TbsOK s' (L.afterCalls s.interrupted calls))
    (hright : TbsOK s' (calls.foldl TbLists.drop L)) (hint : s.interrupted = some c)
      (hcalls : calls = t :: rest) {u : ℕ}
    (hu : u ∈ L.live) (hur : u ∉ t :: rest) {f : JmpField} (hf : f ∈ L.ring u) (hfr : f.1 ∉ t :: rest) :
    ¬ EdgeReach Prod.fst (Chained (L.drop t).live (L.drop t).ring) c f.1 := by
  subst hcalls
  rw [hint] at h
  have hlive : u ∈ (L.afterCalls (some c) (t :: rest)).live := (afterCalls_live (some c)).2 ⟨hu, hur⟩
  have hlive' : u ∈ ((t :: rest).foldl TbLists.drop L).live := by
    rw [afterCalls_some] at hlive
    exact hlive
  have hring := ring_unique h hright hlive hlive'
  rw [ring_foldl_drop] at hring
  have hmem : f ∈ (L.ring u).filter (·.1 ∉ t :: rest) := mem_filter.2 ⟨hf, by simpa using hfr⟩
  rw [← hring, afterCalls_some] at hmem
  simpa using (mem_filter.1 (mem_filter.1 hmem).1).2

/-- **When a call is right.** For every well-formed set of live blocks and every range inside one page, a call that is
not a write of the CPU does what it is for exactly under the four conditions. -/
theorem tbInvalidatePhysPageRange_iff (h : TbsOK s L) (hle : start ≤ last) (hpage : InPage start last) :
    (∃ N, ∀ fuel ≥ N, RangeRight s L start last fuel) ↔ RangeCond s L start last := by
  have hno : ∀ {access : Bool}, access = false → access = true → s.cpuSingleEnv.isSome :=
    fun hf ht => by simp [hf] at ht
  constructor
  · rintro ⟨N, hright⟩
    obtain ⟨fuel, hN, hfuel⟩ : ∃ fuel, fuel ≥ N ∧ 2 * L.live.card < fuel :=
      ⟨N + (2 * L.live.card + 1), by omega, by omega⟩
    obtain ⟨s', calls, hrun, hnodup, hcalls, hok, -⟩ := hright fuel hN
    have honce : ∀ t ∈ L.live, ¬ HitTwice s.tb start last (pageIndex start) t := by
      intro t ht htwice
      rw [tbInvalidatePhysPageRange_twice h ht htwice false hfuel] at hrun
      cases hrun
    obtain ⟨s₁, hrun₁, hok₁, -, -⟩ := tbInvalidatePhysPageRange_ok h honce (hno rfl) hfuel
    rw [hrun] at hrun₁
    obtain ⟨rfl, rfl⟩ := Prod.mk.inj (Option.some.inj hrun₁)
    refine ⟨honce, fun hlt t ht hon hreach => ?_, fun heq => ?_, fun c t rest hint hhits u hu hur f hf hfr => ?_⟩
    · by_cases hbelow : last ≤ tbStart (s.tb t) 0
      · exact .inl hbelow
      · have hmeets : (s.tb t).Meets start last := by
          refine (meets_iff (h.placed t ht) hlt hpage).2 (.inl ⟨hon, .inr ⟨hreach, ?_⟩⟩)
          rw [BitVec.le_def] at hbelow
          omega
        obtain ⟨-, n, hon', hhit⟩ := (mem_hitsOf h).1 ((hcalls t).2 ⟨ht, hmeets⟩)
        fin_cases n
        · exact absurd hreach ((tbHit_first (h.placed t ht) hon.2).1 hhit).2.2
        · exact .inr ⟨hon', hhit⟩
    · refine eq_nil_iff_forall_not_mem.2 fun t ht => ?_
      obtain ⟨k, -, hge, hlt⟩ := ((hcalls t).1 ht).2
      rw [heq] at hge
      omega
    · exact quiet_of_ok hok₁ hok hint hhits hu hur hf hfr
  · intro hcond
    refine ⟨2 * L.live.card + 1, fun fuel hfuel => ?_⟩
    obtain ⟨s', hrun, hok, hcode, -⟩ := tbInvalidatePhysPageRange_ok h hcond.once (hno rfl) hfuel
    refine ⟨s', hitsOf s L start last, hrun, ?_, fun t => ?_, afterCalls_ok hok hcond.quiet, hcode⟩
    · exact nodup_hitTbs (h.pageNodup _) fun t ht => hcond.once t ((h.mem_page _ t).1 ht).1
    · by_cases hlt : start < last
      · constructor
        · exact fun ht => ⟨((mem_hitsOf h).1 ht).1, meets_of_hit h hlt hpage ht⟩
        · rintro ⟨ht, hmeets⟩
          exact hit_of_meets h hlt hpage ht (hcond.top hlt t ht) hmeets
      · have heq : start = last := by
          rw [BitVec.lt_def] at hlt
          rw [BitVec.le_def] at hle
          exact BitVec.eq_of_toNat_eq (by omega)
        rw [hcond.nonempty heq]
        refine ⟨fun ht => absurd ht not_mem_nil, ?_⟩
        rintro ⟨-, k, -, hge, hlt⟩
        rw [heq] at hge
        omega

/-- A block that spans two pages, and one that does not. -/
def spanningCode : TbCode := ⟨0x8300, 0x102, 0, fun _ => 0xffff, fun _ => 0⟩

def shortCode : TbCode := ⟨0x8300, 0x10, 0, fun _ => 0xffff, fun _ => 0⟩

/-- Both pages of the block are the same physical page, and the range is the whole page. -/
theorem tbInvalidatePhysPageRange_mappedTwice :
    ∃ s L, (unlinked spanningCode).tbLinkPhys 0 0x1300 0x1000 = some s ∧ TbsOK s L ∧ L.live = {0} ∧
      (0x1000#32 ≤ 0x1400#32 ∧ InPage 0x1000 0x1400) ∧ (s.tb 0).Meets 0x1000 0x1400 ∧
      ¬ ∃ N, ∀ fuel ≥ N, RangeRight s L 0x1000 0x1400 fuel := by
  have hlinkable : Linkable spanningCode 0x1300 0x1000 := ⟨by decide, by decide, by decide, by decide, by decide⟩
  obtain ⟨s, hrun, hok, hby⟩ := tbLinkPhys_ok (unlinked_ok spanningCode) (t := 0) (by simp [TbLists.empty]) hlinkable
  have hpage : ∀ n, (s.tb 0).pageAddr n = 0x1000 := by
    intro n
    rw [congrArg TbCode.pageAddr hby.code]
    fin_cases n <;> rfl
  have hpc : (s.tb 0).pc = 0x8300 := congrArg TbCode.pc hby.code
  have hsize : (s.tb 0).size = 0x102 := congrArg TbCode.size hby.code
  have htwice : HitTwice s.tb 0x1000 0x1400 (pageIndex 0x1000) 0 := by
    refine ⟨⟨⟨?_, ?_⟩, ?_⟩, ⟨?_, ?_⟩, ?_⟩
    all_goals simp only [TbHit, tbEnd, tbStart, hpage, hpc, hsize]
    all_goals decide
  refine ⟨s, _, hrun, hok, rfl, ⟨by decide, fun _ => by decide⟩, ⟨0, by rw [hsize]; decide, ?_⟩, ?_⟩
  · simp only [TbCode.octetAddr, hpc, hpage]
    decide
  · rintro ⟨N, hright⟩
    obtain ⟨s', calls, hcall, -⟩ := hright (N + 3) (by omega)
    have hnone : s.tbInvalidatePhysPageRange (N + 3) 0x1000 0x1400 false = none :=
      tbInvalidatePhysPageRange_twice hok (Finset.mem_insert_self 0 _) htwice false
        (by simp [TbLists.insert, TbLists.empty])
    rw [hnone] at hcall
    cases hcall

theorem tbInvalidatePhysPageRange_iff_short :
    ∃ s L, (unlinked shortCode).tbLinkPhys 0 0x1300 (-1) = some s ∧ L.live = {0} ∧
      ∃ N, ∀ fuel ≥ N, RangeRight s L 0x1304 0x1308 fuel := by
  have hlinkable : Linkable shortCode 0x1300 (-1) := ⟨by decide, by decide, by decide, by decide, by decide⟩
  obtain ⟨s, hrun, hok, hby⟩ := tbLinkPhys_ok (unlinked_ok shortCode) (t := 0) (by simp [TbLists.empty]) hlinkable
  have hpage : (s.tb 0).pageAddr 1 = -1 := by
    rw [congrArg TbCode.pageAddr hby.code]
    rfl
  have hlow : ¬ (s.tb 0).ReachesTop := by
    rw [TbCode.ReachesTop, congrArg TbCode.pageAddr hby.code, congrArg TbCode.pc hby.code,
      congrArg TbCode.size hby.code]
    decide
  have hquiet : s.interrupted = none := by
    cases henv : s.cpuSingleEnv <;> simp [interrupted, henv, hby.cpus, unlinked]
  have hlive : ∀ t ∈ (TbLists.empty.insert s.tb 0 (tbPhysHashFunc 0x1300)).live, t = 0 := by
    simp [TbLists.insert, TbLists.empty]
  refine ⟨s, _, hrun, rfl, (tbInvalidatePhysPageRange_iff hok (by decide) (fun _ => by decide)).2
    ⟨fun t ht htwice => ?_, fun _ t ht _ hreach => ?_, fun heq => ?_, fun c t calls hint => ?_⟩⟩
  · rw [hlive t ht] at htwice
    exact htwice.2.1.1 hpage
  · rw [hlive t ht] at hreach
    exact absurd hreach hlow
  · exact absurd heq (by decide)
  · rw [hquiet] at hint
    cases hint

end Emulator.Exec
