import Emulator.Exec.JumpList
import Emulator.Lib.EdgeRemoval

/-!
# Unchaining for an interrupt

`tb_reset_jump_recursive` unchains a block from the blocks that it can go on with, so that the CPU
comes back from translated code. There may be any cycles among the jumps and the traversal has no marks; each
call takes a jump out of its list before it goes on at the target.

* `tbResetJumpRecursive2_step`: one jump is taken out.
* `tbResetJumpRecursive_clears`: by induction on the number of chained jumps.
* `tbResetJumpRecursive_unchains`: it ends, and exactly the jumps of the blocks that can be reached are unchained.
-/

namespace Emulator.Exec

open Blocks JumpLists List

variable {b b' : Blocks} {live : Finset ℕ} {ring : ℕ → List JmpField} {steps : ℕ}

/-- The jump lists without the jumps `gone`. -/
def ringsDiff (ring : ℕ → List JmpField) (gone : List JmpField) (t : ℕ) : List JmpField := (ring t).diff gone

theorem chained_ringsDiff (h : JumpLists b.jmpAt live ring) (gone : List JmpField) (f : JmpField) (t : ℕ) :
    Chained live (ringsDiff ring gone) f t ↔ edgesWithout (Chained live ring) {g | g ∈ gone} f t := by
  rw [Chained, edgesWithout, Chained, and_assoc]
  refine and_congr_right fun ht => ?_
  rw [ringsDiff, (h.nodup_ring ht).mem_sdiff_iff]
  rfl

/-- The number of chained jumps. -/
def numChained (live : Finset ℕ) (ring : ℕ → List JmpField) : ℕ := ∑ t ∈ live, (ring t).length

theorem numChained_without {f : JmpField} {t : ℕ} (hf : Chained live ring f t) :
    numChained live (ringsWithout ring f) < numChained live ring := by
  refine Finset.sum_lt_sum (fun u _ => ?_) ⟨t, hf.1, ?_⟩
  · exact (erase_sublist).length_le
  · rw [ringsWithout, length_erase_of_mem hf.2]
    have := length_pos_of_mem hf.2
    omega

theorem numChained_diff (gone : List JmpField) : numChained live (ringsDiff ring gone) ≤ numChained live ring :=
  Finset.sum_le_sum fun _ _ => (diff_sublist _ _).length_le

/-- The fields of `tb_jmp_remove` and `tb_reset_jump_recursive2` that are set when a jump is taken out. -/
theorem JumpsOK.unlink (h : JumpsOK b live ring) {tb t : ℕ} {n : Fin 2} {l r : List JmpField} (ht : t ∈ live)
    (hring : ring t = l ++ (tb, .next n) :: r)
    (hb' : b' = ((b.setJmp (l.getLastD (t, .first)) ((b tb).jmpNext n)).setJmp (tb, .next n) none).tbResetJump tb n) :
    JumpsOK b' live (ringsWithout ring (tb, .next n)) ∧ b.SameCode b' ∧
      (∀ a m, (a, .next m) ≠ (tb, JmpTag.next n) → (b' a).tbNext m = (b a).tbNext m) ∧
      (b' tb).tbNext n = (b tb).tcPtr + (b tb).tbNextOffset n ∧
      ∀ a m, (b a).jmpNext m = none → (b' a).jmpNext m = none := by
  have hcode : b.SameCode b' := by
    rw [hb', tbResetJump]
    exact ((sameCode_setJmp _ _).trans (sameCode_setJmp _ _)).trans (sameCode_tbSetJmpTarget _ _ _)
  have hown : ∀ a, (b' a).tcPtr = (b a).tcPtr ∧ (b' a).tbNextOffset = (b a).tbNextOffset := by
    intro a
    exact ⟨congrArg TbCode.tcPtr (hcode.code a), congrArg TbCode.tbNextOffset (hcode.code a)⟩
  have hjmp : b'.jmpAt = Function.update (Function.update b.jmpAt (l.getLastD (t, .first)) (b.jmpAt (tb, .next n)))
      (tb, .next n) none := by
    rw [hb', jmpAt_tbResetJump, jmpAt_setJmp, jmpAt_setJmp, jmpAt_next]
  have hlists : JumpLists b'.jmpAt live (ringsWithout ring (tb, .next n)) := h.lists.unlink ht hring hjmp
  have htarget : ∀ a m, (b' a).tbNext m =
      if a = tb ∧ m = n then (b tb).tcPtr + (b tb).tbNextOffset n else (b a).tbNext m := by
    intro a m
    have hsame := (sameCode_setJmp (b := b) (l.getLastD (t, .first)) ((b tb).jmpNext n)).trans
      (sameCode_setJmp (tb, .next n) none)
    rw [hb', tbResetJump, tbNext_tbSetJmpTarget, tbNext_setJmp, tbNext_setJmp]
    rw [congrArg TbCode.tcPtr (hsame.code tb), congrArg TbCode.tbNextOffset (hsame.code tb)]
  have hothers : ∀ a m, (a, .next m) ≠ (tb, JmpTag.next n) → (b' a).tbNext m = (b a).tbNext m := by
    intro a m hne
    rw [htarget, if_neg]
    rintro ⟨rfl, rfl⟩
    exact hne rfl
  have hself : (b' tb).tbNext n = (b tb).tcPtr + (b tb).tbNextOffset n := by
    rw [htarget, if_pos ⟨rfl, rfl⟩]
  refine ⟨⟨hlists, ?_, ?_⟩, hcode, hothers, hself, fun a m hnull => h.lists.unlink_null ht hring hjmp hnull⟩
  · rintro a m u ⟨hu, hmem⟩
    obtain ⟨hmem, hne⟩ := (h.lists.mem_ringsWithout hu).1 hmem
    rw [hothers a m hne, (hown u).1]
    exact h.target a m u ⟨hu, hmem⟩
  · intro a ha m hfree hoff
    rw [(hown a).1, (hown a).2]
    rw [(hown a).2] at hoff
    by_cases hne : (a, JmpTag.next m) = (tb, .next n)
    · simp only [Prod.mk.injEq, JmpTag.next.injEq] at hne
      obtain ⟨rfl, rfl⟩ := hne
      exact hself
    · rw [hothers a m hne]
      refine h.own a ha m (fun u hu => hfree u ⟨hu.1, ?_⟩) hoff
      exact (h.lists.mem_ringsWithout hu.1).2 ⟨hu.2, hne⟩

/-- A jump that is chained is taken out of its list, and the call goes on at its target. -/
theorem tbResetJumpRecursive2_step (h : JumpsOK b live ring) (hsteps : 2 * live.card < steps) {tb t : ℕ} {n : Fin 2}
    (hchained : Chained live ring (tb, .next n) t) (recur : Blocks → ℕ → Option Blocks) :
    ∃ b₁, b.tbResetJumpRecursive2 recur steps tb n = recur b₁ t ∧ JumpsOK b₁ live (ringsWithout ring (tb, .next n)) ∧
      b.SameCode b₁ ∧ (∀ a m, (a, .next m) ≠ (tb, JmpTag.next n) → (b₁ a).tbNext m = (b a).tbNext m) ∧
      (b₁ tb).tbNext n = (b tb).tcPtr + (b tb).tbNextOffset n ∧
      ∀ a m, (b a).jmpNext m = none → (b₁ a).jmpNext m = none := by
  obtain ⟨ht, hmem⟩ := hchained
  have htb : tb ∈ live := (h.lists.source t ht _ hmem).1
  obtain ⟨l, r, hring⟩ := append_of_mem hmem
  obtain ⟨last, hlast, hhead⟩ := h.lists.findLink_head ht hring hsteps
  have hsome : ¬ ((b tb).jmpNext n).isNone := by
    rw [jmpAt_next, h.lists.isNone_iff htb]
    exact fun hfree => hfree t ⟨ht, hmem⟩
  refine ⟨_, ?_, h.unlink ht hring rfl⟩
  rw [tbResetJumpRecursive2, if_neg hsome, hlast]
  simp only [Option.bind_eq_bind, Option.bind_some, hhead, h.lists.findLink_jump ht hring hsteps]

/-- What a call leaves: the jumps `gone` are unchained, which were behind the block `a`. -/
structure UnchainedBy (b b' : Blocks) (live : Finset ℕ) (ring : ℕ → List JmpField) (a : ℕ) (gone : List JmpField) :
    Prop where
  jumps : JumpsOK b' live (ringsDiff ring gone)
  sameCode : b.SameCode b'
  others : ∀ c n, (c, .next n) ∉ gone → (b' c).tbNext n = (b c).tbNext n
  exits : ∀ c n, (c, .next n) ∈ gone → (b' c).tbNext n = (b c).tcPtr + (b c).tbNextOffset n
  nulls : ∀ c n, (b c).jmpNext n = none → (b' c).jmpNext n = none
  cleared : Cleared Prod.fst (Chained live ring) a {f | f ∈ gone}

theorem UnchainedBy.refl (h : JumpsOK b live ring) (a : ℕ) : UnchainedBy b b live ring a [] where
  jumps := h
  sameCode := .rfl
  others _ _ _ := rfl
  exits _ _ hf := absurd hf not_mem_nil
  nulls _ _ hnull := hnull
  cleared := by
    have hempty : {f : JmpField | f ∈ ([] : List JmpField)} = ∅ := by simp
    rw [hempty]
    exact .empty

theorem ringsDiff_append (gone gone' : List JmpField) :
    ringsDiff (ringsDiff ring gone) gone' = ringsDiff ring (gone ++ gone') := by
  funext t
  exact (diff_append _ _ _).symm

/-- Two calls for one block, one after the other. -/
theorem UnchainedBy.append {b'' : Blocks} {a : ℕ} {gone gone' : List JmpField} (hlists : JumpLists b.jmpAt live ring)
    (h : UnchainedBy b b' live ring a gone) (h' : UnchainedBy b' b'' live (ringsDiff ring gone) a gone') :
    UnchainedBy b b'' live ring a (gone ++ gone') where
  jumps := ringsDiff_append gone gone' ▸ h'.jumps
  sameCode := h.sameCode.trans h'.sameCode
  others c n hc := by
    rw [mem_append, not_or] at hc
    exact (h'.others c n hc.2).trans (h.others c n hc.1)
  exits c n hc := by
    have hcode := h.sameCode.code c
    by_cases hmem : (c, JmpTag.next n) ∈ gone'
    · rw [h'.exits c n hmem, congrArg TbCode.tcPtr hcode, congrArg TbCode.tbNextOffset hcode]
    · rw [h'.others c n hmem]
      exact h.exits c n ((mem_append.1 hc).resolve_right hmem)
  nulls c n hnull := h'.nulls c n (h.nulls c n hnull)
  cleared := by
    have hset : {f | f ∈ gone ++ gone'} = {f | f ∈ gone} ∪ {f | f ∈ gone'} := by
      ext f
      simp
    have hrest := h'.cleared
    rw [show Chained live (ringsDiff ring gone) = edgesWithout (Chained live ring) {g | g ∈ gone} from
      funext fun f => funext fun t => propext (chained_ringsDiff hlists gone f t)] at hrest
    rw [hset]
    exact h.cleared.append hrest

/-- One jump is taken out, and then what is behind its target. -/
theorem UnchainedBy.edge {b₁ : Blocks} {a t : ℕ} {n : Fin 2} {gone : List JmpField}
    (hlists : JumpLists b.jmpAt live ring) (hchained : Chained live ring (a, .next n) t) (hcode : b.SameCode b₁)
    (hothers : ∀ c m, (c, .next m) ≠ (a, JmpTag.next n) → (b₁ c).tbNext m = (b c).tbNext m)
    (hself : (b₁ a).tbNext n = (b a).tcPtr + (b a).tbNextOffset n)
    (hnulls : ∀ c m, (b c).jmpNext m = none → (b₁ c).jmpNext m = none)
    (h : UnchainedBy b₁ b' live (ringsWithout ring (a, .next n)) t gone)
    (hstart : ∀ g u, g.1 = t → Chained live (ringsWithout ring (a, .next n)) g u → g ∈ gone) :
    UnchainedBy b b' live ring a ((a, .next n) :: gone) where
  jumps := by
    rw [show ringsDiff ring ((a, .next n) :: gone) = ringsDiff (ringsWithout ring (a, .next n)) gone from
      funext fun u => diff_cons _ _ _]
    exact h.jumps
  sameCode := hcode.trans h.sameCode
  others c m hc := by
    rw [mem_cons, not_or] at hc
    exact (h.others c m hc.2).trans (hothers c m hc.1)
  exits c m hc := by
    by_cases hmem : (c, JmpTag.next m) ∈ gone
    · rw [h.exits c m hmem, congrArg TbCode.tcPtr (hcode.code c), congrArg TbCode.tbNextOffset (hcode.code c)]
    · rw [h.others c m hmem]
      have heq := (mem_cons.1 hc).resolve_right hmem
      simp only [Prod.mk.injEq, JmpTag.next.injEq] at heq
      obtain ⟨rfl, rfl⟩ := heq
      exact hself
  nulls c m hnull := h.nulls c m (hnulls c m hnull)
  cleared := by
    have hwithout : Chained live (ringsWithout ring (a, .next n)) =
      edgesWithout (Chained live ring) {(a, .next n)} := by
      funext g u
      refine propext ⟨fun hg => ?_, fun hg => ⟨hg.1.1, (hlists.mem_ringsWithout hg.1.1).2 ⟨hg.1.2, hg.2⟩⟩⟩
      obtain ⟨hmem, hne⟩ := (hlists.mem_ringsWithout hg.1).1 hg.2
      exact ⟨⟨hg.1, hmem⟩, hne⟩
    have hset : {f | f ∈ (a, JmpTag.next n) :: gone} = insert (a, JmpTag.next n) {f | f ∈ gone} := by
      ext f
      simp
    have hrest := h.cleared
    rw [hwithout] at hrest hstart
    rw [hset]
    exact hrest.edge rfl (fun u => ⟨fun hu => hlists.chained_unique hu hchained, fun hu => hu ▸ hchained⟩) hstart

/-- **The traversal.** By induction on the depth of the calls, which is bounded by the number of chained jumps. -/
theorem tbResetJumpRecursive_clears (hsteps : 2 * live.card < steps) (fuel : ℕ) :
    ∀ (b : Blocks) (ring : ℕ → List JmpField), JumpsOK b live ring → ∀ tb ∈ live, numChained live ring < fuel →
      ∃ b' gone, tbResetJumpRecursive fuel steps b tb = some b' ∧ UnchainedBy b b' live ring tb gone ∧
        ∀ g u, g.1 = tb → Chained live ring g u → g ∈ gone := by
  induction fuel with
  | zero => intro b ring _ tb _ hfuel; omega
  | succ fuel ih =>
    intro b ring h tb htb hfuel
    -- what the call for one of the two jumps does
    have hone : ∀ (b : Blocks) (ring : ℕ → List JmpField) (n : Fin 2), JumpsOK b live ring →
      numChained live ring < fuel + 1 →
        ∃ b' gone, b.tbResetJumpRecursive2 (tbResetJumpRecursive fuel steps) steps tb n = some b' ∧
          UnchainedBy b b' live ring tb gone ∧ ∀ u, Chained live ring (tb, .next n) u → (tb, .next n) ∈ gone := by
      intro b ring n h hfuel
      by_cases hfree : ∀ t, ¬ Chained live ring (tb, .next n) t
      · refine ⟨b, [], ?_, .refl h tb, fun u hu => absurd hu (hfree u)⟩
        rw [tbResetJumpRecursive2, if_pos]
        rw [jmpAt_next]
        exact (h.lists.isNone_iff htb n).2 hfree
      · push Not at hfree
        obtain ⟨t, hchained⟩ := hfree
        obtain ⟨b₁, hrun, h₁, hcode, hothers, hself, hnulls⟩ :=
          tbResetJumpRecursive2_step h hsteps hchained (tbResetJumpRecursive fuel steps)
        have hless := numChained_without hchained
        obtain ⟨b', gone, hcall, hby, hstart⟩ := ih b₁ _ h₁ t hchained.1 (by omega)
        refine ⟨b', _, hrun.trans hcall, .edge h.lists hchained hcode hothers hself hnulls hby hstart, fun u _ => ?_⟩
        exact mem_cons_self
    obtain ⟨b₁, gone₁, hrun₁, hby₁, hgone₁⟩ := hone b ring 0 h hfuel
    have hless : numChained live (ringsDiff ring gone₁) ≤ numChained live ring := numChained_diff gone₁
    obtain ⟨b₂, gone₂, hrun₂, hby₂, hgone₂⟩ := hone b₁ (ringsDiff ring gone₁) 1 hby₁.jumps (by omega)
    refine ⟨b₂, gone₁ ++ gone₂, ?_, hby₁.append h.lists hby₂, ?_⟩
    · rw [tbResetJumpRecursive, hrun₁]
      exact hrun₂
    · rintro ⟨c, tag⟩ u rfl hg
      cases tag with
      | first => exact absurd rfl (h.lists.source u hg.1 _ hg.2).2
      | next n =>
        by_cases hmem : (c, JmpTag.next n) ∈ gone₁
        · exact mem_append_left _ hmem
        · refine mem_append_right _ ?_
          have hleft := (chained_ringsDiff h.lists gone₁ _ u).2 ⟨hg, hmem⟩
          fin_cases n
          · exact absurd (hgone₁ u hg) hmem
          · exact hgone₂ u hleft

open Classical in
/-- The jump lists without the jumps of the blocks that can be reached from `tb`. -/
noncomputable def ringsUnchained (live : Finset ℕ) (ring : ℕ → List JmpField) (tb : ℕ) (t : ℕ) : List JmpField :=
  (ring t).filter fun f => ¬ EdgeReach Prod.fst (Chained live ring) tb f.1

/-- With enough fuel a call ends, and gone are the jumps of the blocks that can be reached. -/
theorem tbResetJumpRecursive_ok (h : JumpsOK b live ring) {tb : ℕ} (htb : tb ∈ live) {fuel : ℕ}
    (hfuel : 2 * live.card < fuel) (hsteps : 2 * live.card < steps) :
    ∃ b' gone, tbResetJumpRecursive fuel steps b tb = some b' ∧ UnchainedBy b b' live ring tb gone ∧
      (∀ f t, Chained live ring f t → (f ∈ gone ↔ EdgeReach Prod.fst (Chained live ring) tb f.1)) ∧
      JumpsOK b' live (ringsUnchained live ring tb) := by
  have hnum : numChained live ring < fuel := Nat.lt_of_le_of_lt h.lists.sum_length_le hfuel
  obtain ⟨b', gone, hrun, hby, hstart⟩ := tbResetJumpRecursive_clears hsteps fuel b ring h tb htb hnum
  have hgone : ∀ f t, Chained live ring f t → (f ∈ gone ↔ EdgeReach Prod.fst (Chained live ring) tb f.1) :=
    fun f t hf => hby.cleared.mem_iff hstart hf
  refine ⟨b', gone, hrun, hby, hgone, hby.jumps.congr fun t ht => ?_⟩
  rw [ringsDiff, (h.lists.nodup_ring ht).sdiff_eq_filter]
  refine filter_congr fun f hf => ?_
  rw [← hgone f t ⟨ht, hf⟩]
  simp

open Classical in
/-- **Unchaining ends and is complete.** From any well-formed jump graph, all blocks that can be reached from `tb` over
chained jumps lose the jumps that they have chained, which are exits again; the jump lists are the old ones without
these jumps, in the old order, and nothing else of any block changes. -/
theorem tbResetJumpRecursive_unchains (h : JumpsOK b live ring) {tb : ℕ} (htb : tb ∈ live) {fuel : ℕ}
    (hfuel : 2 * live.card < fuel) (hsteps : 2 * live.card < steps) :
    ∃ b', tbResetJumpRecursive fuel steps b tb = some b' ∧
      JumpsOK b' live (fun t => (ring t).filter fun f => ¬ EdgeReach Prod.fst (Chained live ring) tb f.1) ∧
      (∀ a ∈ live, EdgeReach Prod.fst (Chained live ring) tb a → ∀ n, (b' a).jmpNext n = none ∧
        ((b a).jmpNext n ≠ none → (b' a).tbNext n = (b a).tcPtr + (b a).tbNextOffset n)) ∧
      (∀ a, ¬ EdgeReach Prod.fst (Chained live ring) tb a → (b' a).tbNext = (b a).tbNext) ∧ b.SameCode b' := by
  obtain ⟨b', gone, hrun, hby, hgone, hjumps⟩ := tbResetJumpRecursive_ok h htb hfuel hsteps
  refine ⟨b', hrun, hjumps, fun a ha hreach n => ⟨?_, fun hsome => ?_⟩, fun a hreach => ?_, hby.sameCode⟩
  · refine hjumps.lists.free a ha n fun t ht hmem => ?_
    have hkeep := (mem_filter.1 hmem).2
    simp only [decide_not, Bool.not_eq_true', decide_eq_false_iff_not] at hkeep
    exact hkeep hreach
  · obtain ⟨t, hchained⟩ : ∃ t, Chained live ring (a, .next n) t := by
      by_contra hfree
      push Not at hfree
      have hnone := (h.lists.isNone_iff ha n).2 hfree
      rw [← jmpAt_next, Option.isNone_iff_eq_none] at hnone
      exact hsome hnone
    exact hby.exits a n ((hgone _ t hchained).2 hreach)
  · funext n
    exact hby.others a n fun hmem => hreach (hby.cleared.reach _ hmem)

/-- Blocks that are not linked. -/
def freshBlocks : Blocks := fun tb =>
  ⟨⟨.ofNat 32 (16 * tb), 8, 100 * tb, fun n => 20 + n, fun _ => 0⟩, ⟨none, fun _ => none⟩,
    ⟨fun _ => 0, fun _ => none, none⟩⟩

/-- Two blocks that jump to each other, the second one also to itself. -/
def twoBlocks : Blocks :=
  let b := (freshBlocks.linkJumps 0).linkJumps 1
  ((b.tbAddJump 0 0 1).tbAddJump 1 0 0).tbAddJump 1 1 1

def twoRings (t : ℕ) : List JmpField := if t = 0 then [(1, .next 0)] else [(1, .next 1), (0, .next 0)]

theorem twoBlocks_ok : JumpsOK twoBlocks {1, 0} twoRings := by
  have hnone : JumpsOK freshBlocks ∅ (fun _ => []) := .empty _ _
  have hlinked : JumpsOK ((freshBlocks.linkJumps 0).linkJumps 1) {1, 0} _ := (hnone.link (by decide)).link (by decide)
  have hjumps : JumpsOK twoBlocks {1, 0} _ :=
    ((hlinked.addJump (by decide) (by decide)).addJump (by decide) (by decide)).addJump (by decide) (by decide)
  exact hjumps.congr (by decide)

theorem tbResetJumpRecursive_unchains_twoBlocks :
    ∃ b', tbResetJumpRecursive 5 5 twoBlocks 0 = some b' ∧ (b' 0).jmpNext 0 = none ∧ (b' 1).jmpNext 1 = none ∧
      (b' 0).tbNext 0 = 20 ∧ (b' 1).tbNext 1 = 121 := by
  have hlive : 0 ∈ ({1, 0} : Finset ℕ) := by decide
  have hfuel : 2 * ({1, 0} : Finset ℕ).card < 5 := by decide
  obtain ⟨b', hrun, -, hreached, -, -⟩ := tbResetJumpRecursive_unchains twoBlocks_ok hlive hfuel hfuel
  have hedge : EdgeReach Prod.fst (Chained {1, 0} twoRings) 0 1 := .single ⟨(0, .next 0), rfl, by decide, by decide⟩
  have hzero := hreached 0 (by decide) .refl 0
  have hone := hreached 1 (by decide) hedge 1
  exact ⟨b', hrun, hzero.1, hone.1, hzero.2 (by decide), hone.2 (by decide)⟩

end Emulator.Exec
