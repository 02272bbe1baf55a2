import Emulator.Exec.CodeWrites

/-!
# The jump caches of the CPUs

A block that is invalidated has to be taken out of the jump caches: they are what its code is found by when it is
executed again.

* `tbPhysInvalidate_caches`, `cpuInterrupt_caches`: the slot of the block is cleared, and nothing else changes;
* `invalidateWalk_caches`, `range_caches`: so it is for all blocks that a range invalidation calls for;
* `TbLists.Within`: no operation of the two makes a block live or chains a jump.
-/

namespace Emulator.Exec

open Blocks TbState List Option

variable {b b' : Blocks} {s s' s'' : TbState} {L L' : TbLists} {fuel steps env t u : ℕ} {start last : TargetUlong}

theorem tbJmpRemove_sameCode {n : Fin 2} (h : b.tbJmpRemove fuel t n = some b') : b.SameCode b' := by
  unfold tbJmpRemove at h
  split_ifs at h
  · obtain rfl := Option.some.inj h
    exact .rfl
  · obtain ⟨ptb, -, h⟩ := bind_eq_some_iff.1 h
    obtain rfl := Option.some.inj h
    exact (sameCode_setJmp _ _).trans (sameCode_setJmp _ _)

theorem sameCode_tbResetJump (b : Blocks) (t : ℕ) (n : Fin 2) : b.SameCode (b.tbResetJump t n) :=
  sameCode_tbSetJmpTarget _ _ _

theorem suppressJumps_sameCode {fuel : ℕ} : ∀ {b b' : Blocks} {p : Option JmpField}, b.suppressJumps fuel p = some b' →
    b.SameCode b' := by
  induction fuel with
  | zero =>
    intro b b' p h
    simp [suppressJumps] at h
  | succ fuel ih =>
    intro b b' p h
    cases p with
    | none => simp [suppressJumps] at h
    | some f =>
      obtain ⟨t, tag⟩ := f
      cases tag with
      | first =>
        obtain rfl := Option.some.inj h
        exact .rfl
      | next n => exact ((sameCode_tbResetJump b t n).trans (sameCode_setJmp _ _)).trans (ih h)

theorem tbResetJumpRecursive2_sameCode {f : Blocks → ℕ → Option Blocks}
    (hf : ∀ {b b' : Blocks} {t : ℕ}, f b t = some b' → b.SameCode b') {n : Fin 2}
    (h : b.tbResetJumpRecursive2 f steps t n = some b') : b.SameCode b' := by
  unfold tbResetJumpRecursive2 at h
  split_ifs at h
  · obtain rfl := Option.some.inj h
    exact .rfl
  · obtain ⟨last, -, h⟩ := bind_eq_some_iff.1 h
    obtain ⟨⟨next, tag⟩, -, h⟩ := bind_eq_some_iff.1 h
    obtain ⟨ptb, -, h⟩ := bind_eq_some_iff.1 h
    exact (((sameCode_setJmp _ _).trans (sameCode_setJmp _ _)).trans (sameCode_tbResetJump _ _ _)).trans (hf h)

theorem tbResetJumpRecursive_sameCode {fuel : ℕ} :
    ∀ {b b' : Blocks} {t : ℕ}, tbResetJumpRecursive fuel steps b t = some b' →
    b.SameCode b' := by
  induction fuel with
  | zero =>
    intro b b' t h
    simp [tbResetJumpRecursive] at h
  | succ fuel ih =>
    intro b b' t h
    obtain ⟨b₁, h₁, h⟩ := bind_eq_some_iff.1 h
    exact (tbResetJumpRecursive2_sameCode ih h₁).trans (tbResetJumpRecursive2_sameCode ih h)

/-- What an operation does to the code of the blocks and to the jump caches, if it invalidates the blocks `dead`. -/
structure CachesKept (s s' : TbState) (dead : List ℕ) : Prop where
  code : ∀ u, (s'.tb u).toTbCode = (s.tb u).toTbCode
  cache : ∀ env slot u, (s'.cpus env).tbJmpCache slot = some u →
    (s.cpus env).tbJmpCache slot = some u ∧ (slot = (tbJmpCacheHashFunc 10 (s.tb u).pc).toNat → u ∉ dead)

theorem CachesKept.of_eq (hcode : ∀ u, (s'.tb u).toTbCode = (s.tb u).toTbCode)
    (hcache : ∀ env, (s'.cpus env).tbJmpCache = (s.cpus env).tbJmpCache) : CachesKept s s' [] :=
  ⟨hcode, fun env slot u hu => ⟨by rw [← hcache env, hu], fun _ => not_mem_nil⟩⟩

theorem CachesKept.trans {dead dead' : List ℕ} (h : CachesKept s s' dead) (h' : CachesKept s' s'' dead') :
    CachesKept s s'' (dead ++ dead') := by
  refine ⟨fun u => (h'.code u).trans (h.code u), fun env slot u hu => ?_⟩
  obtain ⟨hu', hdead'⟩ := h'.cache env slot u hu
  obtain ⟨hu, hdead⟩ := h.cache env slot u hu'
  refine ⟨hu, fun hslot => ?_⟩
  rw [congrArg TbCode.pc (h.code u)] at hdead'
  rw [mem_append, not_or]
  exact ⟨hdead hslot, hdead' hslot⟩

theorem tbRemove_rest {h : ℕ} (hrun : s.tbRemove fuel h t = some s') : SameRest s s' := by
  obtain ⟨found, -, hrun⟩ := bind_eq_some_iff.1 hrun
  obtain ⟨⟨ptb, tb1⟩, -, hrun⟩ := bind_eq_some_iff.1 hrun
  obtain rfl := Option.some.inj hrun
  exact sameRest_setHashLink _ _

theorem tbLeavePage_rest {n : Fin 2} (hrun : s.tbLeavePage fuel t n = some s') : SameRest s s' := by
  obtain ⟨s₁, hrun₁, hrun⟩ := bind_eq_some_iff.1 hrun
  obtain ⟨found, -, hrun₁⟩ := bind_eq_some_iff.1 hrun₁
  obtain ⟨⟨ptb, e⟩, -, hrun₁⟩ := bind_eq_some_iff.1 hrun₁
  obtain rfl := Option.some.inj hrun₁
  obtain ⟨p, -, hrun⟩ := bind_eq_some_iff.1 hrun
  obtain rfl := Option.some.inj hrun
  exact (sameRest_setPageLink _ _).trans (sameRest_setPage _ _)

theorem tbLeavePages_rest {pageAddr : TargetUlong} (hrun : s.tbLeavePages fuel t pageAddr = some s') :
    SameRest s s' := by
  obtain ⟨s₁, hrun₁, hrun⟩ := bind_eq_some_iff.1 hrun
  have hrest₁ : SameRest s s₁ := by
    split_ifs at hrun₁
    · exact tbLeavePage_rest hrun₁
    · obtain rfl := Option.some.inj hrun₁
      exact .refl s
  refine hrest₁.trans ?_
  split_ifs at hrun
  · exact tbLeavePage_rest hrun
  · obtain rfl := Option.some.inj hrun
    exact .refl s₁

/-- **The slot of the block is cleared** in the cache of every CPU. -/
theorem tbPhysInvalidate_caches {pageAddr : TargetUlong} (hrun : s.tbPhysInvalidate fuel t pageAddr = some s') :
    CachesKept s s' [t] := by
  obtain ⟨s₁, hrun₁, hrun⟩ := bind_eq_some_iff.1 hrun
  obtain ⟨s₂, hrun₂, hrun⟩ := bind_eq_some_iff.1 hrun
  have hrest := (tbRemove_rest hrun₁).trans (tbLeavePages_rest hrun₂)
  obtain ⟨b₁, hjmp₁, hrun⟩ := bind_eq_some_iff.1 hrun
  obtain ⟨b₂, hjmp₂, hrun⟩ := bind_eq_some_iff.1 hrun
  obtain ⟨b₃, hjmp₃, hrun⟩ := bind_eq_some_iff.1 hrun
  have hcode := (((tbJmpRemove_sameCode hjmp₁).trans (tbJmpRemove_sameCode hjmp₂)).trans
    (suppressJumps_sameCode hjmp₃)).trans
    (sameCode_setJmp (t, .first) (some (t, .first)))
  obtain rfl := Option.some.inj hrun
  refine ⟨fun u => (hcode.code u).trans (hrest.code u), fun env slot u hu => ?_⟩
  rw [← hrest.cpus]
  simp only [Cpu.forgetTb] at hu
  rw [congrArg TbCode.pc (hrest.code t)] at hu
  split_ifs at hu with hcached
  · by_cases hslot : slot = (tbJmpCacheHashFunc 10 (s.tb t).pc).toNat
    · simp [hslot] at hu
    · simp only [Function.update_of_ne hslot] at hu
      refine ⟨hu, fun hslot' hut => ?_⟩
      rw [mem_singleton.1 hut] at hslot'
      exact hslot hslot'
  · refine ⟨hu, fun hslot hut => hcached ?_⟩
    obtain rfl := mem_singleton.1 hut
    rw [← hslot]
    exact hu

theorem caches_setCurrentTb (s : TbState) (env : ℕ) (tb : Option ℕ) (e : ℕ) :
    ((s.setCurrentTb env tb).cpus e).tbJmpCache = (s.cpus e).tbJmpCache := by
  by_cases he : e = env
  · subst he
    simp [setCurrentTb]
  · simp [setCurrentTb, he]

theorem cpuUnlinkTb_caches (hrun : s.cpuUnlinkTb fuel env = some s') : CachesKept s s' [] := by
  unfold cpuUnlinkTb at hrun
  cases hcurrent : (s.cpus env).currentTb with
  | none =>
    rw [hcurrent] at hrun
    obtain rfl := Option.some.inj hrun
    exact .of_eq (fun _ => rfl) fun _ => rfl
  | some c =>
    rw [hcurrent] at hrun
    obtain ⟨b', hreset, hrun⟩ := bind_eq_some_iff.1 hrun
    obtain rfl := Option.some.inj hrun
    exact .of_eq (tbResetJumpRecursive_sameCode hreset).code (caches_setCurrentTb s env none)

/-- An interrupt leaves the caches alone. -/
theorem cpuInterrupt_caches {mask : BitVec 32} (hrun : s.cpuInterrupt fuel env mask = some s') :
    CachesKept s s' [] := by
  simp only [cpuInterrupt] at hrun
  split_ifs at hrun
  · obtain rfl := Option.some.inj hrun
    refine .of_eq (fun _ => rfl) fun e => ?_
    by_cases he : e = env
    · subst he
      simp
    · simp [he]
  · have hunlink := cpuUnlinkTb_caches hrun
    refine ⟨hunlink.code, fun e slot u hu => ⟨?_, fun _ => not_mem_nil⟩⟩
    have hkept := (hunlink.cache e slot u hu).1
    by_cases he : e = env
    · subst he
      simpa using hkept
    · simpa [he] using hkept

/-- A block that is hit leaves the caches. -/
theorem invalidateHit_caches (hrun : s.invalidateHit fuel t = some s') : CachesKept s s' [t] := by
  unfold invalidateHit at hrun
  cases henv : s.cpuSingleEnv with
  | none =>
    rw [henv] at hrun
    exact tbPhysInvalidate_caches hrun
  | some env =>
    rw [henv] at hrun
    obtain ⟨s₁, hrun₁, hrun⟩ := bind_eq_some_iff.1 hrun
    have hquiet : CachesKept s (s.setCurrentTb env none) [] := .of_eq (fun _ => rfl) (caches_setCurrentTb s env none)
    have hsaved : CachesKept s₁ (s₁.setCurrentTb env (s.cpus env).currentTb) [] :=
      .of_eq (fun _ => rfl) (caches_setCurrentTb s₁ env _)
    have hgone := (hquiet.trans (tbPhysInvalidate_caches hrun₁)).trans hsaved
    simp only at hrun
    split_ifs at hrun
    · exact hgone.trans (cpuInterrupt_caches hrun)
    · obtain rfl := Option.some.inj hrun
      exact hgone

theorem invalidateWalk_caches {fuel : ℕ} : ∀ {s s' : TbState} {p : Option PageLink} {calls : List ℕ},
    invalidateWalk steps start last fuel s p = some (s', calls) → CachesKept s s' calls := by
  induction fuel with
  | zero =>
    intro s s' p calls h
    simp [invalidateWalk] at h
  | succ fuel ih =>
    intro s s' p calls h
    cases p with
    | none =>
      obtain ⟨rfl, rfl⟩ := Prod.mk.inj (Option.some.inj h)
      exact .of_eq (fun _ => rfl) fun _ => rfl
    | some e =>
      by_cases hhit : TbHit s.tb start last e
      · obtain ⟨t, n⟩ := e
        rw [invalidateWalk, if_pos hhit] at h
        obtain ⟨s₁, hrun₁, h⟩ := bind_eq_some_iff.1 h
        obtain ⟨⟨s₂, calls₂⟩, hrun₂, h⟩ := bind_eq_some_iff.1 h
        obtain ⟨rfl, rfl⟩ := Prod.mk.inj (Option.some.inj h)
        exact (invalidateHit_caches hrun₁).trans (ih hrun₂)
      · rw [invalidateWalk_miss hhit] at h
        exact ih h

theorem cachesKept_setPage (s : TbState) (i : ℕ) (p : PageDesc) : CachesKept s (s.setPage i p) [] :=
  .of_eq (fun _ => rfl) fun _ => rfl

theorem countWrite_caches {i : ℕ} {p : PageDesc} {access : Bool} (hrun : s.countWrite fuel i p access = some s') :
    CachesKept s s' [] := by
  simp only [countWrite] at hrun
  split_ifs at hrun
  · obtain rfl := Option.some.inj hrun
    exact .of_eq (fun _ => rfl) fun _ => rfl
  · obtain ⟨tab, -, hrun⟩ := bind_eq_some_iff.1 hrun
    obtain rfl := Option.some.inj hrun
    exact cachesKept_setPage _ _ _
  · obtain rfl := Option.some.inj hrun
    exact cachesKept_setPage _ _ _

theorem endSlowWrites_caches {access : Bool} (hrun : s.endSlowWrites start access = some s') : CachesKept s s' [] := by
  obtain ⟨p, -, hrun⟩ := bind_eq_some_iff.1 hrun
  split_ifs at hrun
  · obtain rfl := Option.some.inj hrun
    exact .of_eq (fun _ => rfl) fun _ => rfl
  · obtain ⟨env, -, hrun⟩ := bind_eq_some_iff.1 hrun
    obtain rfl := Option.some.inj hrun
    exact .of_eq (fun _ => rfl) fun _ => rfl
  · obtain rfl := Option.some.inj hrun
    exact cachesKept_setPage _ _ _

/-- **All blocks that a range invalidation calls for leave the caches.** -/
theorem range_caches {access : Bool} {calls : List ℕ}
    (hrun : s.tbInvalidatePhysPageRange fuel start last access = some (s', calls)) : CachesKept s s' calls := by
  unfold tbInvalidatePhysPageRange at hrun
  cases hp : s.pageFind (pageIndex start) with
  | none =>
    rw [hp] at hrun
    obtain ⟨rfl, rfl⟩ := Prod.mk.inj (Option.some.inj hrun)
    exact .of_eq (fun _ => rfl) fun _ => rfl
  | some p =>
    rw [hp] at hrun
    obtain ⟨s₁, hcount, hrun⟩ := bind_eq_some_iff.1 hrun
    obtain ⟨⟨s₂, calls₂⟩, hwalk, hrun⟩ := bind_eq_some_iff.1 hrun
    obtain ⟨s₃, hend, hrun⟩ := bind_eq_some_iff.1 hrun
    obtain ⟨rfl, rfl⟩ := Prod.mk.inj (Option.some.inj hrun)
    have hkept := ((countWrite_caches hcount).trans (invalidateWalk_caches hwalk)).trans (endSlowWrites_caches hend)
    rw [append_nil] at hkept
    exact hkept

/-- The lists have no other live block and no other chained jump. -/
structure TbLists.Within (L' L : TbLists) : Prop where
  live : ∀ t ∈ L'.live, t ∈ L.live
  ring : ∀ t ∈ L'.live, ∀ f ∈ L'.ring t, f ∈ L.ring t

theorem TbLists.Within.refl (L : TbLists) : L.Within L := ⟨fun _ ht => ht, fun _ _ _ hf => hf⟩

theorem TbLists.Within.trans {L'' : TbLists} (h : L''.Within L') (h' : L'.Within L) : L''.Within L :=
  ⟨fun t ht => h'.live t (h.live t ht), fun t ht f hf => h'.ring t (h.live t ht) f (h.ring t ht f hf)⟩

theorem TbLists.within_drop (L : TbLists) (t : ℕ) : (L.drop t).Within L :=
  ⟨fun _ hu => Finset.mem_of_mem_erase hu, fun _ _ _ hf => (mem_filter.1 hf).1⟩

theorem TbLists.within_unchain (L : TbLists) (c : ℕ) : (L.unchain c).Within L :=
  ⟨fun _ hu => hu, fun _ _ _ hf => (mem_filter.1 hf).1⟩

theorem TbLists.within_afterCalls (calls : List ℕ) : ∀ (interrupted : Option ℕ) (L : TbLists),
    (L.afterCalls interrupted calls).Within L := by
  induction calls with
  | nil => exact fun _ L => .refl L
  | cons t calls ih =>
    intro interrupted L
    refine (ih none _).trans ?_
    cases interrupted with
    | none => exact L.within_drop t
    | some c => exact ((L.drop t).within_unchain c).trans (L.within_drop t)

end Emulator.Exec
