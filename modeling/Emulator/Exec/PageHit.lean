import Emulator.Exec.TbInvariant
import Emulator.Exec.Unchain

/-!
# A block that is hit

`tb_invalidate_phys_page_range` invalidates a block while a CPU may be executing, and then interrupts the CPU again if
it has an interrupt.

* `TbState.cpuInterrupt_ok`: the block that the CPU is executing is unchained.
* `TbState.invalidateHit_ok`: a block that is hit leaves all its lists.
* `TbState.invalidateHit_dead`: a block that is not live is searched for behind the end of its hash chain.
-/

namespace Emulator.Exec

open Function Blocks Option

variable {s s' : TbState} {L : TbLists} {i t : ℕ}

/-- The block that is unchained by the call of `cpu_interrupt`. -/
def TbState.interrupted (s : TbState) : Option ℕ := do
  let env ← s.cpuSingleEnv
  let c ← (s.cpus env).currentTb
  if (s.cpus env).interruptRequest ≠ 0 ∧ ¬ s.useIcount then some c else none

/-- The lists when the block `c` is unchained. -/
noncomputable def TbLists.unchain (L : TbLists) (c : ℕ) : TbLists := { L with ring := ringsUnchained L.live L.ring c }

/-- What is left of the lists after the block `t` has been hit. -/
noncomputable def TbLists.afterHit (L : TbLists) (interrupted : Option ℕ) (t : ℕ) : TbLists :=
  match interrupted with
  | none => L.drop t
  | some c => (L.drop t).unchain c

/-- A block without chained jumps stays as it is. -/
theorem tbResetJumpRecursive_null {b : Blocks} {c fuel steps : ℕ} (hnull : ∀ n, (b c).jmpNext n = none)
    (hfuel : 0 < fuel) :
    tbResetJumpRecursive fuel steps b c = some b := by
  obtain ⟨m, rfl⟩ := Nat.exists_eq_succ_of_ne_zero (show fuel ≠ 0 by omega)
  have hstep : ∀ n, b.tbResetJumpRecursive2 (tbResetJumpRecursive m steps) steps c n = some b := by
    intro n
    rw [tbResetJumpRecursive2, if_pos]
    rw [hnull n]
    rfl
  rw [tbResetJumpRecursive, hstep 0]
  exact hstep 1

/-- From a block that is not live no other one can be reached. -/
theorem ringsUnchained_dead {next : JmpField → Option JmpField} {live : Finset ℕ} {ring : ℕ → List JmpField}
    (h : JumpLists next live ring) {c : ℕ} (hc : c ∉ live) : ∀ t ∈ live, ring t = ringsUnchained live ring c t := by
  classical
  intro t ht
  have hreach : ∀ x, EdgeReach Prod.fst (Chained live ring) c x → x = c := by
    intro x hx
    induction hx with
    | refl => rfl
    | tail _ hstep ih =>
      obtain ⟨f, hf, hchained⟩ := hstep
      exact absurd (ih ▸ hf ▸ (h.source _ hchained.1 f hchained.2).1) hc
  refine (List.filter_eq_self.2 fun f hf => ?_).symm
  refine decide_eq_true fun hr => hc ?_
  rw [← hreach _ hr]
  exact (h.source t ht f hf).1

namespace TbState

/-- What `cpu_interrupt` does for a CPU that executes the block `c`. -/
theorem cpuInterrupt_ok (h : TbsOK s L) {fuel env c : ℕ} (hc : (s.cpus env).currentTb = some c)
    (hfuel : 2 * L.live.card < fuel) :
    ∃ s', s.cpuInterrupt fuel env (s.cpus env).interruptRequest = some s' ∧
      TbsOK s' (if s.useIcount then L else L.unchain c) ∧
      (∀ u, (s'.tb u).toTbCode = (s.tb u).toTbCode) ∧ (∀ u, (s'.tb u).toTbPhysLinks = (s.tb u).toTbPhysLinks) ∧
      s'.pageFind = s.pageFind ∧ s'.cpuSingleEnv = s.cpuSingleEnv ∧ s'.useIcount = s.useIcount ∧
      (¬ s.useIcount → (s'.cpus env).currentTb = none) ∧ s'.physRamDirty = s.physRamDirty := by
  have hcpu : { s.cpus env with interruptRequest := (s.cpus env).interruptRequest ||| (s.cpus env).interruptRequest } =
      s.cpus env := by
    rw [BitVec.or_self]
  have hsame : { s with cpus := update s.cpus env (s.cpus env) } = s := by simp
  have hclear : (s.cpus env).interruptRequest &&& ~~~ (s.cpus env).interruptRequest = 0 := by
    ext j hj
    simp
  rw [cpuInterrupt]
  simp only [hcpu, hsame, hclear, ne_eq, not_true_eq_false, and_false, if_false]
  by_cases hicount : s.useIcount
  · refine ⟨_, if_pos hicount, ?_, fun _ => rfl, fun _ => rfl, rfl, rfl, rfl, fun hn => absurd hicount hn, rfl⟩
    rw [if_pos hicount]
    refine h.setCpus rfl fun e u hu => h.current e u ?_
    by_cases he : e = env
    · subst he
      simpa using hu
    · simpa [he] using hu
  · rw [if_neg hicount, if_neg hicount, cpuUnlinkTb, hc]
    have hcpus : ∀ e u, (update s.cpus env { s.cpus env with currentTb := none } e).currentTb = some u →
        u ∈ L.live ∨ ∀ n, (s.tb u).jmpNext n = none := by
      intro e u hu
      by_cases he : e = env
      · subst he
        simp at hu
      · exact h.current e u (by simpa [he] using hu)
    have hquiet : TbsOK (s.setCurrentTb env none) L := h.setCpus rfl hcpus
    by_cases hlive : c ∈ L.live
    · obtain ⟨b', gone, hrun, hby, -, hjumps⟩ := tbResetJumpRecursive_ok h.jumps hlive hfuel hfuel
      refine ⟨{ s.setCurrentTb env none with tb := b' }, ?_, ?_, hby.sameCode.code, hby.sameCode.physLinks, rfl,
        rfl, rfl,
        fun _ => by simp [setCurrentTb], rfl⟩
      · simp only [setCurrentTb, hrun, bind_eq_bind, bind_some]
        rfl
      · exact hquiet.setJumps rfl hby.sameCode hjumps fun u _ n => hby.nulls u n
    · have hnull := (h.current env c hc).resolve_left hlive
      refine ⟨s.setCurrentTb env none, ?_, ?_, fun _ => rfl, fun _ => rfl, rfl, rfl, rfl, fun _ =>
        by simp [setCurrentTb], rfl⟩
      · simp only [setCurrentTb, tbResetJumpRecursive_null hnull (show 0 < fuel by omega), bind_eq_bind,
          bind_some]
        rfl
      · exact hquiet.congr_ring (ringsUnchained_dead h.jumps.lists hlive)

/-- A block that is not live is not in its hash chain, and the search runs into the null pointer. -/
theorem tbPhysInvalidate_dead (h : TbsOK s L) (ht : t ∉ L.live) {fuel : ℕ} (hfuel : 2 * L.live.card < fuel)
    (pageAddr : TargetUlong) : s.tbPhysInvalidate fuel t pageAddr = none := by
  have hlen := h.length_hashes_le (i := tbPhysHashFunc (s.physPc t))
  have hend : walk s.hashRead .inr (fun a => some (a == t)) fuel (.inl (tbPhysHashFunc (s.physPc t))) = some none := by
    refine h.hash.walk_end trivial (by omega) fun a ha => beq_eq_false_iff_ne.2 ?_
    rintro rfl
    exact ht ((h.mem_hash _ a).1 ha).1
  simp only [tbPhysInvalidate, tbRemove, hend, bind_eq_bind, bind_some, bind_none]

theorem invalidateHit_dead (h : TbsOK s L) (ht : t ∉ L.live) {fuel : ℕ} (hfuel : 2 * L.live.card < fuel) :
    s.invalidateHit fuel t = none := by
  cases henv : s.cpuSingleEnv with
  | none =>
    rw [invalidateHit, henv]
    exact tbPhysInvalidate_dead h ht hfuel (-1)
  | some env =>
    have hok : TbsOK (s.setCurrentTb env none) L := by
      refine h.setCpus rfl fun e u hu => ?_
      by_cases he : e = env
      · subst he
        simp at hu
      · exact h.current e u (by simpa [he] using hu)
    rw [invalidateHit, henv]
    simp only [tbPhysInvalidate_dead hok ht hfuel, bind_eq_bind, bind_none]

/-- What a hit leaves alone. -/
structure HitBy (s s' : TbState) (t : ℕ) (onPage : ℕ → Prop) : Prop where
  code : ∀ u, (s'.tb u).toTbCode = (s.tb u).toTbCode
  pageNext : (s'.tb t).pageNext = (s.tb t).pageNext
  pages : ∀ i, (s'.pageFind i).isSome = (s.pageFind i).isSome
  env : s'.cpuSingleEnv = s.cpuSingleEnv
  dirty : s'.physRamDirty = s.physRamDirty
  dropped : ∀ i, onPage i → s'.bitmapOf i = none
  bitmap : ∀ i, ¬ onPage i → s'.bitmapOf i = s.bitmapOf i

/-- **A block is hit.** It leaves its lists, and no CPU is to be interrupted any more. -/
theorem invalidateHit_ok (h : TbsOK s L) (ht : t ∈ L.live) {fuel : ℕ} (hfuel : 2 * L.live.card < fuel) :
    ∃ s', s.invalidateHit fuel t = some s' ∧ TbsOK s' (L.afterHit s.interrupted t) ∧ s'.interrupted = none ∧
      HitBy s s' t (t ∈ L.pages ·) := by
  cases henv : s.cpuSingleEnv with
  | none =>
    obtain ⟨s', hrun, hok, hby⟩ := tbPhysInvalidate_ok h ht hfuel
    have hnone : s.interrupted = none := by simp [interrupted, henv]
    refine ⟨s', ?_, ?_, ?_, ⟨hby.code, hby.pageNext, hby.pages, hby.env, hby.dirty, hby.dropped, hby.bitmap⟩⟩
    · rw [invalidateHit, henv]
      exact hrun
    · rw [hnone]
      exact hok
    · simp [interrupted, hby.env, henv]
  | some env =>
    obtain ⟨saved, hsaved⟩ : ∃ saved, (s.cpus env).currentTb = saved := ⟨_, rfl⟩
    obtain ⟨s₀, hs₀⟩ : ∃ s₀, s.setCurrentTb env none = s₀ := ⟨_, rfl⟩
    have hok₀ : TbsOK s₀ L := by
      refine h.setCpus hs₀.symm fun e u hu => ?_
      by_cases he : e = env
      · subst he
        simp at hu
      · exact h.current e u (by simpa [he] using hu)
    obtain ⟨s₁, hrun₁, hok₁, hby₁⟩ := tbPhysInvalidate_ok hok₀ ht hfuel
    obtain ⟨s₂, hs₂⟩ : ∃ s₂, s₁.setCurrentTb env saved = s₂ := ⟨_, rfl⟩
    have hok₂ : TbsOK s₂ (L.drop t) := by
      refine hok₁.setCpus hs₂.symm fun e u hu => ?_
      by_cases he : e = env
      · subst he
        rw [update_self] at hu
        by_cases hut : u = t
        · right
          rw [hut]
          exact hby₁.exits
        · refine (h.current e u (hsaved.trans hu)).imp (fun hlive => Finset.mem_erase.2 ⟨hut, hlive⟩) fun hnull n => ?_
          exact hby₁.nulls u n (by rw [← hs₀]; exact hnull n)
      · rw [update_of_ne he] at hu
        exact hok₁.current e u hu
    have hby : HitBy s s₂ t (t ∈ L.pages ·) := by
      rw [← hs₂]
      rw [← hs₀] at hby₁
      exact ⟨hby₁.code, hby₁.pageNext, hby₁.pages, hby₁.env, hby₁.dirty, hby₁.dropped, hby₁.bitmap⟩
    have henv₂ : s₂.cpuSingleEnv = some env := hby.env.trans henv
    have hicount₂ : s₂.useIcount = s.useIcount := by
      rw [← hs₂]
      exact hby₁.icount.trans (by rw [← hs₀]; rfl)
    have hcpu₂ : (s₂.cpus env).currentTb = saved ∧ (s₂.cpus env).interruptRequest = (s.cpus env).interruptRequest := by
      have hrequest := hby₁.interrupt env
      rw [← hs₂]
      refine ⟨by simp [setCurrentTb], ?_⟩
      simpa [← hs₀, setCurrentTb] using hrequest
    have hhit : s.invalidateHit fuel t = (if (s₂.cpus env).interruptRequest ≠ 0 ∧ saved.isSome then
        s₂.cpuInterrupt fuel env (s₂.cpus env).interruptRequest else some s₂) := by
      rw [invalidateHit, henv]
      simp only [hsaved, hs₀, hrun₁, bind_eq_bind, bind_some, hs₂]
    have hinterrupted : s.interrupted = saved.bind fun c =>
        if (s.cpus env).interruptRequest ≠ 0 ∧ ¬ s.useIcount then some c else none := by
      rw [interrupted, henv, ← hsaved]
      rfl
    cases saved with
    | none =>
      refine ⟨s₂, ?_, ?_, ?_, hby⟩
      · rw [hhit, if_neg (by simp)]
      · rw [hinterrupted]
        exact hok₂
      · simp [interrupted, henv₂, hcpu₂.1]
    | some c =>
      rw [bind_some] at hinterrupted
      by_cases hrequest : (s.cpus env).interruptRequest = 0
      · refine ⟨s₂, ?_, ?_, ?_, hby⟩
        · rw [hhit, if_neg fun hne => hne.1 (hcpu₂.2.trans hrequest)]
        · rw [hinterrupted, if_neg fun hne => hne.1 hrequest]
          exact hok₂
        · simp [interrupted, henv₂, hcpu₂.1, hcpu₂.2, hrequest]
      · have hfuel₂ : 2 * (L.drop t).live.card < fuel := by
          have : (L.drop t).live.card ≤ L.live.card := Finset.card_le_card (Finset.erase_subset t L.live)
          omega
        obtain ⟨s₃, hrun₃, hok₃, hcode₃, hlinks₃, hfind₃, henv₃, hicount₃, hquiet₃, hdirty₃⟩ :=
          cpuInterrupt_ok hok₂ hcpu₂.1 hfuel₂
        refine ⟨s₃, ?_, ?_, ?_, ⟨fun u => (hcode₃ u).trans (hby.code u), ?_, fun i => ?_, henv₃.trans hby.env,
          hdirty₃.trans hby.dirty, fun i hi => ?_, fun i hi => ?_⟩⟩
        · rw [hhit, if_pos ⟨fun he => hrequest (hcpu₂.2.symm.trans he), rfl⟩]
          exact hrun₃
        · rw [hinterrupted]
          rw [hicount₂] at hok₃
          by_cases hicount : s.useIcount
          · rw [if_neg (fun hne => hne.2 hicount)]
            rwa [if_pos hicount] at hok₃
          · rw [if_pos ⟨hrequest, hicount⟩]
            rwa [if_neg hicount] at hok₃
        · rw [hicount₂] at hicount₃ hquiet₃
          by_cases hicount : s.useIcount
          · simp [interrupted, hicount₃, hicount]
          · simp [interrupted, henv₃, henv₂, hquiet₃ hicount]
        · rw [congrArg TbPhysLinks.pageNext (hlinks₃ t)]
          exact hby.pageNext
        · rw [hfind₃]
          exact hby.pages i
        · rw [bitmapOf, hfind₃]
          exact hby.dropped i hi
        · rw [bitmapOf, hfind₃]
          exact hby.bitmap i hi

end TbState
end Emulator.Exec
