import Emulator.Exec.JumpList

/-!
# A block leaves the jump graph

The part of `tb_phys_invalidate` about jumps: the jumps of the block are taken out of their lists, and the jumps to it
become exits.

* `tbJmpRemove_ok`, `suppressJumps_ok`: the two loops.
* `JumpsOK.drop`: what is left is a well-formed jump graph of the other blocks.
-/

namespace Emulator.Exec

open Function Blocks JumpLists List

variable {b : Blocks} {live : Finset ℕ} {ring : ℕ → List JmpField} {steps : ℕ}

theorem tbJmpRemove_ok (h : JumpLists b.jmpAt live ring) (hsteps : 2 * live.card < steps) {tb : ℕ} (htb : tb ∈ live)
    (n : Fin 2) : ∃ b', b.tbJmpRemove steps tb n = some b' ∧ JumpLists b'.jmpAt live (ringsWithout ring (tb, .next n)) ∧
      b.SameCode b' ∧ (∀ a, (b' a).tbNext = (b a).tbNext) ∧
      ∀ a n, (b a).jmpNext n = none → (b' a).jmpNext n = none := by
  by_cases hfree : ∀ t, ¬ Chained live ring (tb, .next n) t
  · have hnone : ((b tb).jmpNext n).isNone := by
      rw [jmpAt_next]
      exact (h.isNone_iff htb n).2 hfree
    refine ⟨b, ?_, h.congr fun t ht => ?_, .rfl, fun a => rfl, fun a n hnull => hnull⟩
    · rw [tbJmpRemove, if_pos hnone]
    · exact (erase_of_not_mem fun hmem => hfree t ⟨ht, hmem⟩).symm
  · push Not at hfree
    obtain ⟨t, ht, hmem⟩ := hfree
    obtain ⟨l, r, hring⟩ := append_of_mem hmem
    have hsome : ¬ ((b tb).jmpNext n).isNone := by
      rw [jmpAt_next, h.isNone_iff htb]
      exact fun hfree => hfree t ⟨ht, hmem⟩
    have hjmp : ((b.setJmp (l.getLastD (t, .first)) ((b tb).jmpNext n)).setJmp (tb, .next n) none).jmpAt =
        update (update b.jmpAt (l.getLastD (t, .first)) (b.jmpAt (tb, .next n)))
          (tb, .next n) none := by
      rw [jmpAt_setJmp, jmpAt_setJmp, jmpAt_next]
    refine ⟨(b.setJmp (l.getLastD (t, .first)) ((b tb).jmpNext n)).setJmp (tb, .next n) none, ?_,
      h.unlink ht hring hjmp, (sameCode_setJmp _ _).trans (sameCode_setJmp _ _), fun a => ?_, fun a m hnull => ?_⟩
    · rw [tbJmpRemove, if_neg hsome, h.findLink_round ht hring hsteps]
      rfl
    · rw [tbNext_setJmp, tbNext_setJmp]
    · exact h.unlink_null ht hring hjmp hnull

/-- The last loop: the jumps of a list become exits. It reads each pointer before it clears the field. -/
theorem suppressJumps_ok {h : ℕ} {l : List JmpField} :
    ∀ {fuel : ℕ} {b : Blocks}, (∀ x r, l = x :: r → Path b.jmpAt x r (h, .first)) → l.Nodup → (∀ g ∈ l, g.2 ≠ .first) →
      l.length < fuel →
      ∃ b', b.suppressJumps fuel (some (l.headD (h, .first))) = some b' ∧ b.SameCode b' ∧
        (∀ g, b'.jmpAt g = if g ∈ l then none else b.jmpAt g) ∧
        ∀ a n, (b' a).tbNext n = if (a, .next n) ∈ l then (b a).tcPtr + (b a).tbNextOffset n else (b a).tbNext n := by
  induction l with
  | nil =>
    intro fuel b _ _ _ hfuel
    obtain ⟨m, rfl⟩ := Nat.exists_eq_succ_of_ne_zero (show fuel ≠ 0 by omega)
    exact ⟨b, rfl, .rfl, fun g => by simp, fun a n => by simp⟩
  | cons x l ih =>
    intro fuel b hpath hnd hl hfuel
    obtain ⟨m, rfl⟩ := Nat.exists_eq_succ_of_ne_zero (show fuel ≠ 0 by omega)
    obtain ⟨a, tag⟩ := x
    obtain ⟨n, rfl⟩ : ∃ n, tag = .next n := by
      cases tag with
      | first => exact absurd rfl (hl _ mem_cons_self)
      | next n => exact ⟨n, rfl⟩
    obtain ⟨hxl, hnd'⟩ := nodup_cons.1 hnd
    have hx := hpath _ l rfl
    have hread : (b a).jmpNext n = some (l.headD (h, .first)) := by
      rw [jmpAt_next]
      cases l with
      | nil => exact hx
      | cons y l => exact hx.1
    obtain ⟨b₁, hb₁⟩ : ∃ b₁, b₁ = (b.tbResetJump a n).setJmp (a, .next n) none := ⟨_, rfl⟩
    have hjmp₁ : b₁.jmpAt = update b.jmpAt (a, .next n) none := by
      rw [hb₁, jmpAt_setJmp, jmpAt_tbResetJump]
    have hcode₁ : b.SameCode b₁ := hb₁ ▸ (sameCode_tbSetJmpTarget _ _ _).trans (sameCode_setJmp _ _)
    have hnext₁ : ∀ c m, (b₁ c).tbNext m =
        if c = a ∧ m = n then (b a).tcPtr + (b a).tbNextOffset n else (b c).tbNext m := by
      intro c m
      rw [hb₁, tbNext_setJmp, tbResetJump, tbNext_tbSetJmpTarget]
    have hpath₁ : ∀ y r, l = y :: r → Path b₁.jmpAt y r (h, .first) := by
      rintro y r rfl
      refine hx.2.congr fun z hz => ?_
      rw [hjmp₁, update_of_ne]
      rintro rfl
      exact hxl hz
    obtain ⟨b', hrun, hcode, hjmp, hnext⟩ := ih hpath₁ hnd' (fun g hg => hl g (mem_cons_of_mem _ hg))
      (show l.length < m by simpa using hfuel)
    refine ⟨b', ?_, hcode₁.trans hcode, fun g => ?_, fun c m => ?_⟩
    · rw [headD_cons, suppressJumps, hread, ← hb₁]
      exact hrun
    · rw [hjmp, hjmp₁]
      by_cases hg : g = (a, .next n)
      · subst hg
        simp
      · simp [hg]
    · rw [hnext, hnext₁, congrArg TbCode.tcPtr (hcode₁.code c), congrArg TbCode.tbNextOffset (hcode₁.code c)]
      by_cases hc : c = a ∧ m = n
      · obtain ⟨rfl, rfl⟩ := hc
        simp
      · have hne : (c, JmpTag.next m) ≠ (a, .next n) := by
          simpa using hc
        simp [hc, hne]

/-- The lists without the block `tb`. -/
def ringsDrop (ring : ℕ → List JmpField) (tb : ℕ) (t : ℕ) : List JmpField := (ring t).filter (·.1 ≠ tb)

/-- Without its two jumps a block is in no list. -/
theorem ringsWithout_both (h : JumpLists b.jmpAt live ring) (tb : ℕ) {t : ℕ} (ht : t ∈ live) :
    ringsWithout (ringsWithout ring (tb, .next 0)) (tb, .next 1) t = ringsDrop ring tb t := by
  have hnd := h.nodup_ring ht
  rw [ringsWithout, ringsWithout, (hnd.erase _).erase_eq_filter, hnd.erase_eq_filter, filter_filter, ringsDrop]
  refine filter_congr fun f hf => ?_
  have htag := (h.source t ht f hf).2
  obtain ⟨a, tag⟩ := f
  cases tag with
  | first => exact absurd rfl htag
  | next n =>
    rw [Bool.eq_iff_iff]
    fin_cases n <;> simp

/-- **The block leaves.** Its own jumps are not chained, and the jumps to it are exits. -/
theorem JumpsOK.drop (h : JumpsOK b live ring) (hsteps : 2 * live.card < steps) {tb : ℕ} (htb : tb ∈ live) :
    ∃ b₁ b₂ b₃, b.tbJmpRemove steps tb 0 = some b₁ ∧ b₁.tbJmpRemove steps tb 1 = some b₂ ∧
      b₂.suppressJumps steps (b₂ tb).jmpFirst = some b₃ ∧
      JumpsOK (b₃.setJmp (tb, .first) (some (tb, .first))) (live.erase tb) (ringsDrop ring tb) ∧
      b.SameCode (b₃.setJmp (tb, .first) (some (tb, .first))) ∧
      (∀ n, ((b₃.setJmp (tb, .first) (some (tb, .first))) tb).jmpNext n = none) ∧
      ∀ a n, (b a).jmpNext n = none → ((b₃.setJmp (tb, .first) (some (tb, .first))) a).jmpNext n = none := by
  obtain ⟨b₁, hrun₁, hlists₁, hcode₁, hnext₁, hnull₁⟩ := tbJmpRemove_ok h.lists hsteps htb 0
  obtain ⟨b₂, hrun₂, hlists₂, hcode₂, hnext₂, hnull₂⟩ := tbJmpRemove_ok hlists₁ hsteps htb 1
  have hlists := hlists₂.congr fun t ht => ringsWithout_both h.lists tb ht
  have hcode := hcode₁.trans hcode₂
  have hloop := hlists.loop tb htb
  have hfirst : (b₂ tb).jmpFirst = some ((ringsDrop ring tb tb).headD (tb, .first)) := by
    have hpath := hloop.path
    cases hring : ringsDrop ring tb tb with
    | nil =>
      rw [hring] at hpath
      exact hpath
    | cons x l =>
      rw [hring] at hpath
      exact hpath.1
  have hpath : ∀ x r, ringsDrop ring tb tb = x :: r → Path b₂.jmpAt x r (tb, .first) := by
    intro x r hring
    have hpath := hloop.path
    rw [hring] at hpath
    exact hpath.2
  have hlen := hlists.length_le htb
  obtain ⟨b₃, hrun₃, hcode₃, hjmp₃, hnext₃⟩ :=
    suppressJumps_ok hpath (hlists.nodup_ring htb) (fun g hg => (hlists.source tb htb g hg).2)
      (show (ringsDrop ring tb tb).length < steps by omega)
  have hcode' : b.SameCode (b₃.setJmp (tb, .first) (some (tb, .first))) :=
    (hcode.trans hcode₃).trans (sameCode_setJmp _ _)
  -- a jump of another block is suppressed or as before
  have hjmp : ∀ g, g.1 ≠ tb → (b₃.setJmp (tb, .first) (some (tb, .first))).jmpAt g =
      if g ∈ ringsDrop ring tb tb then none else b₂.jmpAt g := by
    intro g hg
    rw [jmpAt_setJmp, update_of_ne, hjmp₃]
    rintro rfl
    exact hg rfl
  have hsource : ∀ t ∈ live, ∀ f ∈ ringsDrop ring tb t, f.1 ≠ tb := by
    intro t _ f hf
    simpa using (mem_filter.1 hf).2
  have hlive : ∀ t ∈ live.erase tb, t ≠ tb ∧ t ∈ live := fun t ht => Finset.mem_erase.1 ht
  have hchained : ∀ f t, Chained (live.erase tb) (ringsDrop ring tb) f t → Chained live ring f t := by
    rintro f t ⟨ht, hf⟩
    exact ⟨(hlive t ht).2, (mem_filter.1 hf).1⟩
  have htarget : ∀ a n, (b₃.setJmp (tb, .first) (some (tb, .first)) a).tbNext n =
      if (a, .next n) ∈ ringsDrop ring tb tb then (b a).tcPtr + (b a).tbNextOffset n else (b a).tbNext n := by
    intro a n
    rw [tbNext_setJmp, hnext₃, congrArg TbCode.tcPtr (hcode.code a),
      congrArg TbCode.tbNextOffset (hcode.code a), hnext₂,
      hnext₁]
  refine ⟨b₁, b₂, b₃, hrun₁, hrun₂, hfirst ▸ hrun₃, ⟨⟨fun t ht => ?_, fun t ht f hf => ?_, fun t ht u hu htu => ?_,
    fun a ha n hfree => ?_⟩, fun a n t ht => ?_, fun a ha n hfree hoff => ?_⟩, hcode', fun n => ?_, fun a n hnull => ?_⟩
  · obtain ⟨hne, ht⟩ := hlive t ht
    refine (hlists.loop t ht).frame fun x hx => ?_
    have hx1 : x.1 ≠ tb := by
      rcases mem_cons.1 hx with rfl | hx
      · exact hne
      · exact hsource t ht x hx
    rw [hjmp x hx1, if_neg]
    intro hmem
    rcases mem_cons.1 hx with rfl | hx
    · exact hlists.head_notMem htb hmem
    · exact hlists.disjoint t ht tb htb hne hx hmem
  · obtain ⟨-, ht⟩ := hlive t ht
    have hf' := hlists.source t ht f hf
    exact ⟨Finset.mem_erase.2 ⟨hsource t ht f hf, hf'.1⟩, hf'.2⟩
  · exact hlists.disjoint t (hlive t ht).2 u (hlive u hu).2 htu
  · obtain ⟨hne, ha⟩ := hlive a ha
    rw [hjmp _ hne]
    split_ifs with hmem
    · rfl
    · refine hlists.free a ha n fun t ht hf => ?_
      by_cases htt : t = tb
      · exact hmem (htt ▸ hf)
      · exact hfree t (Finset.mem_erase.2 ⟨htt, ht⟩) hf
  · obtain ⟨hne, htl⟩ := hlive t ht.1
    rw [htarget, congrArg TbCode.tcPtr (hcode'.code t), if_neg]
    · exact h.target a n t (hchained _ t ht)
    · exact fun hmem => hlists.disjoint t htl tb htb hne ht.2 hmem
  · obtain ⟨hne, ha⟩ := hlive a ha
    rw [congrArg TbCode.tbNextOffset (hcode'.code a)] at hoff
    rw [htarget, congrArg TbCode.tcPtr (hcode'.code a), congrArg TbCode.tbNextOffset (hcode'.code a)]
    split_ifs with hmem
    · rfl
    · refine h.own a ha n (fun t ht => ?_) hoff
      by_cases htt : t = tb
      · refine hmem (mem_filter.2 ⟨?_, by simpa using hne⟩)
        rw [← htt]
        exact ht.2
      · exact hfree t ⟨Finset.mem_erase.2 ⟨htt, ht.1⟩, mem_filter.2 ⟨ht.2, by simpa using hne⟩⟩
  · rw [jmpAt_next, jmpAt_setJmp, update_of_ne (by simp), hjmp₃]
    split_ifs with hmem
    · rfl
    · refine hlists.free tb htb n fun t ht hf => ?_
      exact hsource t ht _ hf rfl
  · rw [jmpAt_next, jmpAt_setJmp, update_of_ne (by simp), hjmp₃]
    split_ifs with hmem
    · rfl
    · exact hnull₂ a n (hnull₁ a n hnull)

end Emulator.Exec
