import Mathlib.Data.Nat.Basic
import Mathlib.Tactic.SplitIfs
import Emulator.Arm.Mmu
import Emulator.Lib.Tlb

/-!
# The walk over one page

Two addresses of one page of 1 KiB have the same descriptors and the same permission bits, also
where a descriptor has them for parts of a page. So the walks of the two differ in the place in the
page only (`walkV5_samePage`, `walkV6_samePage`).

* `checkAp_eq`: what `check_ap` says of a read decides what it says of the other accesses.
* `getPhysAddr_samePage`: what an access has been allowed says of the other accesses to the page. A
  fetch is refused where a read is not if the page is execute-never.
-/

namespace Emulator.Arm

open BitVec

/-- `TARGET_PAGE_MASK`. -/
def targetPageMask : Word := ~~~ 0x3ff#32

/-- Two addresses of one page of 1 KiB. -/
def SamePage (a b : Word) : Prop := a &&& targetPageMask = b &&& targetPageMask

/-- The address in the page of `page` at the place of `b`. -/
def moveTo (page b : Word) : Word := (page &&& targetPageMask) ||| (b &&& 0x3ff#32)

theorem getLsbD_targetPageMask : ∀ i < 32, targetPageMask.getLsbD i = decide (10 ≤ i) := by decide

theorem getLsbD_offsetMask : ∀ i < 32, (0x3ff#32).getLsbD i = decide (i < 10) := by decide

variable {a b m : Word}

theorem SamePage.getLsbD (h : SamePage a b) {i : ℕ} (hi : i < 32) (hpage : 10 ≤ i) :
    a.getLsbD i = b.getLsbD i := by
  have hbit := congrArg (BitVec.getLsbD · i) h
  simpa only [getLsbD_and, getLsbD_targetPageMask i hi, hpage, decide_true, Bool.and_true] using hbit

theorem getLsbD_of_high (h : m &&& 0x3ff#32 = 0) {i : ℕ} (hi : i < 10) : m.getLsbD i = false := by
  have hbit := congrArg (BitVec.getLsbD · i) h
  simpa only [getLsbD_and, getLsbD_offsetMask i (by omega), hi, decide_true, Bool.and_true,
    ofNat_eq_ofNat, getLsbD_zero] using hbit

/-- A mask without the low bits sees the page only. -/
theorem SamePage.and_eq (h : SamePage a b) (hm : m &&& 0x3ff#32 = 0) : a &&& m = b &&& m := by
  apply eq_of_getLsbD_eq
  intro i hi
  rw [getLsbD_and, getLsbD_and]
  by_cases hlow : i < 10
  · rw [getLsbD_of_high hm hlow, Bool.and_false, Bool.and_false]
  · rw [h.getLsbD hi (by omega)]

theorem SamePage.shift_and_eq (h : SamePage a b) (k : ℕ) (hm : m <<< k &&& 0x3ff#32 = 0) :
    a >>> k &&& m = b >>> k &&& m := by
  apply eq_of_getLsbD_eq
  intro i hi
  rw [getLsbD_and, getLsbD_and, getLsbD_ushiftRight, getLsbD_ushiftRight]
  by_cases hend : k + i < 32
  · by_cases hlow : k + i < 10
    · have hbit := getLsbD_of_high hm hlow
      rw [getLsbD_shiftLeft] at hbit
      have hmbit : m.getLsbD i = false := by
        simpa only [hend, decide_true, Bool.true_and, Nat.not_lt.2 (Nat.le_add_right k i), decide_false,
          Bool.not_false, Nat.add_sub_cancel_left] using hbit
      rw [hmbit, Bool.and_false, Bool.and_false]
    · rw [h.getLsbD hend (by omega)]
  · rw [getLsbD_of_ge a _ (by omega), getLsbD_of_ge b _ (by omega)]

/-- What a descriptor maps `b` to. -/
theorem SamePage.moveTo_eq (h : SamePage a b) (d : Word) (hm : m &&& 0x3ff#32 = 0) :
    (d &&& m) ||| (b &&& ~~~ m) = moveTo ((d &&& m) ||| (a &&& ~~~ m)) b := by
  apply eq_of_getLsbD_eq
  intro i hi
  simp only [moveTo, getLsbD_or, getLsbD_and, getLsbD_not, getLsbD_targetPageMask i hi,
    getLsbD_offsetMask i hi]
  by_cases hlow : i < 10
  · rw [getLsbD_of_high hm hlow]
    simp [hlow, hi, Nat.not_le.2 hlow]
  · rw [h.getLsbD hi (by omega)]
    simp [hlow, Nat.not_lt.1 hlow]

theorem toNat_and_targetPageMask (x : Word) : (x &&& targetPageMask).toNat = x.toNat / 1024 * 1024 := by
  have hshift : x &&& targetPageMask = (x >>> 10) <<< 10 := by
    apply eq_of_getLsbD_eq
    intro i hi
    rw [getLsbD_and, getLsbD_targetPageMask i hi, getLsbD_shiftLeft, getLsbD_ushiftRight]
    by_cases hlow : i < 10
    · simp [hlow, Nat.not_le.2 hlow]
    · simp [hlow, Nat.not_lt.1 hlow, hi, Nat.add_sub_cancel' (Nat.not_lt.1 hlow)]
  rw [hshift, toNat_shiftLeft, toNat_ushiftRight, Nat.shiftLeft_eq, Nat.shiftRight_eq_div_pow]
  have := x.isLt
  omega

theorem toNat_and_offset (x : Word) : (x &&& 0x3ff#32).toNat = x.toNat % 1024 := by
  rw [toNat_and]
  exact Nat.and_two_pow_sub_one_eq_mod x.toNat 10

theorem samePage_iff : SamePage a b ↔ a.toNat / 1024 = b.toNat / 1024 := samePage_div_iff (n := 10)

namespace MmuState

variable {env : MmuState} {ldl : Word → Word}

theorem getLevel1TableAddress_samePage (h : SamePage a b) :
    env.getLevel1TableAddress b = env.getLevel1TableAddress a := by
  simp only [getLevel1TableAddress]
  rw [h.and_eq env.cp15.c2Mask_high, h.shift_and_eq 18 (by decide)]

/-- The mapping of another address of the page. -/
def Mapping.moveTo (mapping : Mapping) (b : Word) : Mapping :=
  { mapping with physAddr := Arm.moveTo mapping.physAddr b }

/-- A descriptor maps the addresses of a page alike: `m` are its bits, and `n` those of the
address. -/
theorem mapping_samePage (h : SamePage a b) {m n : Word} (desc : Word) (hm : m &&& 0x3ff#32 = 0) (hn : n = ~~~ m)
    (ap : ℕ) (xn : Bool) (domain code : Word) :
    (Except.ok ⟨(desc &&& m) ||| (b &&& n), ap, xn, domain, code⟩ : Except Word Mapping) =
      (Except.ok ⟨(desc &&& m) ||| (a &&& n), ap, xn, domain, code⟩ : Except Word Mapping).map (·.moveTo b) := by
  subst hn
  simp only [Except.map, Mapping.moveTo]
  rw [h.moveTo_eq desc hm]

theorem pageV5_samePage (h : SamePage a b) (type desc domain : Word) :
    env.pageV5 type desc domain b = (env.pageV5 type desc domain a).map (·.moveTo b) := by
  have hsub : b >>> 13 &&& 6#32 = a >>> 13 &&& 6#32 := (h.shift_and_eq 13 (by decide)).symm
  unfold pageV5
  rw [hsub]
  split
  · rfl
  · exact mapping_samePage h desc (by decide) (by decide) _ _ _ _
  · exact mapping_samePage h desc (by decide) (by decide) _ _ _ _
  · split_ifs with hsmall hcoarse
    · rfl
    · exact mapping_samePage h desc (by decide) (by decide) _ _ _ _
    · exact mapping_samePage h desc (by decide) (by decide) _ _ _ _

/-- **The v5 walk over one page** differs in the place in the page only. -/
theorem walkV5_samePage (h : SamePage a b) : env.walkV5 ldl b = (env.walkV5 ldl a).map (·.moveTo b) := by
  have hcoarse : b >>> 10 &&& 0x3fc#32 = a >>> 10 &&& 0x3fc#32 := (h.shift_and_eq 10 (by decide)).symm
  have hfine : b >>> 8 &&& 0xffc#32 = a >>> 8 &&& 0xffc#32 := (h.shift_and_eq 8 (by decide)).symm
  simp only [walkV5, getLevel1TableAddress_samePage h, hcoarse, hfine]
  generalize ldl (env.getLevel1TableAddress a) = desc
  generalize (env.cp15.c3 >>> (desc >>> 4 &&& 0x1e#32)) &&& 3#32 = domain
  split_ifs with htype hdomain hsection hsection htable
  · rfl
  · rfl
  · rfl
  · exact mapping_samePage h desc (by decide) (by decide) _ _ _ _
  · exact pageV5_samePage h _ _ _
  · exact pageV5_samePage h _ _ _

theorem pageV6_samePage (h : SamePage a b) (desc domain : Word) :
    pageV6 desc domain b = (pageV6 desc domain a).map (·.moveTo b) := by
  unfold pageV6
  dsimp only
  split
  · rfl
  · exact mapping_samePage h desc (by decide) (by decide) _ _ _ _
  · exact mapping_samePage h desc (by decide) (by decide) _ _ _ _

/-- **The v6 walk over one page** differs in the place in the page only. -/
theorem walkV6_samePage (h : SamePage a b) : env.walkV6 ldl b = (env.walkV6 ldl a).map (·.moveTo b) := by
  have hcoarse : b >>> 10 &&& 0x3fc#32 = a >>> 10 &&& 0x3fc#32 := (h.shift_and_eq 10 (by decide)).symm
  simp only [walkV6, getLevel1TableAddress_samePage h, hcoarse]
  generalize ldl (env.getLevel1TableAddress a) = desc
  generalize env.cp15.c3 >>>
    (if desc &&& 3#32 = 2 ∧ desc &&& 1#32 <<< 18 ≠ 0 then (0 : Word) else desc >>> 4 &&& 0x1e#32) &&& 3#32 = domain
  split_ifs with htype hdomain hsection hsection hsuper
  · rfl
  · rfl
  · rfl
  · exact mapping_samePage h desc (by decide) (by decide) _ _ _ _
  · exact mapping_samePage h desc (by decide) (by decide) _ _ _ _
  · exact pageV6_samePage h _ _

variable {accessType : AccessType} {isUser : Bool}

/-- What `check_ap` allows: nothing, reads, or everything. -/
theorem checkAp_cases (env : MmuState) (ap : ℕ) (domain : Word) (isUser : Bool) :
    env.checkAp ap domain .read isUser = 0 ∨ env.checkAp ap domain .read isUser = pageRead ∨
      env.checkAp ap domain .read isUser = pageRead ||| pageWrite := by
  unfold checkAp
  dsimp only
  cases isUser <;> simp only [reduceCtorEq, if_true, if_false, Bool.false_eq_true] <;>
    (repeat' split) <;> simp

/-- A write is refused where only reads are allowed, and there is no other difference. -/
theorem checkAp_eq (env : MmuState) (ap : ℕ) (domain : Word) (accessType : AccessType) (isUser : Bool) :
    env.checkAp ap domain accessType isUser =
      if accessType = .write ∧ env.checkAp ap domain .read isUser = pageRead then 0
      else env.checkAp ap domain .read isUser := by
  cases accessType with
  | read => simp
  | fetch =>
    rw [if_neg (by simp)]
    rfl
  | write =>
    unfold checkAp
    dsimp only
    cases isUser <;> simp only [reduceCtorEq, if_true, if_false, Bool.false_eq_true, true_and] <;>
      (repeat' split) <;> simp_all [pageRead, pageWrite]

/-- The walk of the format in use. -/
def walk (env : MmuState) (ldl : Word → Word) (address : Word) : Except Word Mapping :=
  if env.cp15.c1Sys &&& (1#32 <<< 23) ≠ 0 then env.walkV6 ldl (env.modifiedAddress address)
  else env.walkV5 ldl (env.modifiedAddress address)

/-- The access flag of the mapping lets the access through. -/
def AccessFlag (env : MmuState) (mapping : Mapping) : Prop :=
  env.cp15.c1Sys &&& (1#32 <<< 23) ≠ 0 → env.cp15.c1Sys &&& (1#32 <<< 29) ≠ 0 → mapping.ap % 2 ≠ 0

theorem checkAccess_eq_ok {mapping : Mapping} {x prot : Word} :
    env.checkAccess mapping accessType isUser = .ok (x, prot) ↔
      mapping.physAddr = x ∧ prot ≠ 0 ∧ env.checkAp mapping.ap mapping.domain accessType isUser = prot := by
  unfold checkAccess
  dsimp only
  split_ifs with hzero
  · refine ⟨fun h => by simp [fault] at h, fun ⟨_, hprot, h⟩ => absurd (h.symm.trans hzero) hprot⟩
  · rw [Except.ok.injEq, Prod.mk.injEq]
    refine and_congr_right fun _ => ⟨fun h => ⟨h ▸ hzero, h⟩, fun h => h.2⟩

/-- The v5 format has no execute-never bit. -/
theorem walkV5_xn {mapping : Mapping} (h : env.walkV5 ldl a = .ok mapping) : mapping.xn = false := by
  unfold walkV5 pageV5 at h
  dsimp only at h
  split_ifs at h
  all_goals try (split at h <;> try split_ifs at h)
  all_goals cases h
  all_goals rfl

/-- **When an access is allowed**, with the MMU on. -/
theorem getPhysAddr_eq_ok (hmmu : env.cp15.c1Sys &&& 1#32 ≠ 0) (hmpu : env.features.mpu = false) {x prot : Word} :
    env.getPhysAddr ldl a accessType isUser = .ok (x, prot) ↔
      ∃ mapping, env.walk ldl a = .ok mapping ∧ mapping.physAddr = x ∧ env.AccessFlag mapping ∧
        (accessType = .fetch → mapping.xn = false) ∧ prot ≠ 0 ∧
        env.checkAp mapping.ap mapping.domain accessType isUser = prot := by
  unfold getPhysAddr
  dsimp only
  rw [if_neg hmmu, if_neg (by simp [hmpu])]
  by_cases hv6 : env.cp15.c1Sys &&& (1#32 <<< 23) ≠ 0
  · rw [if_pos hv6, walk, if_pos hv6, getPhysAddrV6]
    cases hwalk : env.walkV6 ldl (env.modifiedAddress a) with
    | error code =>
      constructor
      · intro h
        cases h
      · rintro ⟨mapping, h, -⟩
        cases h
    | ok mapping =>
      change (if (mapping.xn && accessType == .fetch) = true then fault mapping.code mapping.domain
        else if env.cp15.c1Sys &&& (1#32 <<< 29) ≠ 0 ∧ mapping.ap % 2 = 0 then
          fault (if mapping.code = 15 then 6 else 3) mapping.domain
        else env.checkAccess mapping accessType isUser) = _ ↔ _
      constructor
      · intro h
        by_cases hxn : (mapping.xn && accessType == .fetch) = true
        · rw [if_pos hxn] at h
          cases h
        · by_cases hflag : env.cp15.c1Sys &&& (1#32 <<< 29) ≠ 0 ∧ mapping.ap % 2 = 0
          · rw [if_neg hxn, if_pos hflag] at h
            cases h
          · rw [if_neg hxn, if_neg hflag] at h
            obtain ⟨hx, hprot, hcheck⟩ := checkAccess_eq_ok.1 h
            refine ⟨mapping, rfl, hx, fun _ hafe hap => hflag ⟨hafe, hap⟩, fun hfetch => ?_, hprot, hcheck⟩
            simpa [hfetch] using hxn
      · rintro ⟨mapping', hmapping, hx, hflag, hxn, hprot, hcheck⟩
        cases hmapping
        rw [if_neg, if_neg]
        · exact checkAccess_eq_ok.2 ⟨hx, hprot, hcheck⟩
        · exact fun h => hflag hv6 h.1 h.2
        · intro h
          simp only [Bool.and_eq_true, beq_iff_eq] at h
          simp [hxn h.2] at h
  · rw [if_neg hv6, walk, if_neg hv6, getPhysAddrV5]
    cases hwalk : env.walkV5 ldl (env.modifiedAddress a) with
    | error code =>
      constructor
      · intro h
        cases h
      · rintro ⟨mapping, h, -⟩
        cases h
    | ok mapping =>
      constructor
      · intro h
        obtain ⟨hx, hprot, hcheck⟩ := checkAccess_eq_ok.1 h
        exact ⟨mapping, rfl, hx, fun h => absurd h hv6, fun _ => walkV5_xn hwalk, hprot, hcheck⟩
      · rintro ⟨mapping', hmapping, hx, -, -, hprot, hcheck⟩
        cases hmapping
        exact checkAccess_eq_ok.2 ⟨hx, hprot, hcheck⟩

/-- A process identifier for whole pages moves whole pages. -/
def FcseAligned (env : MmuState) (address : Word) : Prop :=
  address < 0x02000000#32 → env.cp15.c13Fcse &&& 0x3ff#32 = 0

theorem modifiedAddress_samePage (haligned : env.FcseAligned a) (h : SamePage a b) :
    SamePage (env.modifiedAddress a) (env.modifiedAddress b) ∧
      env.modifiedAddress b &&& 0x3ff#32 = b &&& 0x3ff#32 := by
  rw [samePage_iff] at h
  have hb := b.isLt
  have hlow : a < 0x02000000#32 ↔ b < 0x02000000#32 := by
    rw [lt_def, lt_def]
    change a.toNat < 33554432 ↔ b.toNat < 33554432
    omega
  unfold modifiedAddress
  by_cases ha : a < 0x02000000#32
  · have hfcse := congrArg BitVec.toNat (haligned ha)
    rw [toNat_and_offset] at hfcse
    change env.cp15.c13Fcse.toNat % 1024 = 0 at hfcse
    rw [if_pos ha, if_pos (hlow.1 ha), samePage_iff, ← toNat_inj, toNat_and_offset, toNat_and_offset,
      toNat_add, toNat_add]
    omega
  · rw [if_neg ha, if_neg (mt hlow.2 ha)]
    exact ⟨samePage_iff.2 h, rfl⟩

theorem modifiedAddress_offset_ne (h : ¬ env.FcseAligned a) :
    env.modifiedAddress a &&& 0x3ff#32 ≠ a &&& 0x3ff#32 := by
  simp only [FcseAligned, Classical.not_imp] at h
  intro heq
  apply h.2
  rw [modifiedAddress, if_pos h.1, ← toNat_inj, toNat_and_offset, toNat_and_offset, toNat_add] at heq
  rw [← toNat_inj, toNat_and_offset]
  change env.cp15.c13Fcse.toNat % 1024 = 0
  omega

theorem walk_samePage (haligned : env.FcseAligned a) (h : SamePage a b) :
    env.walk ldl b = (env.walk ldl a).map (·.moveTo b) := by
  obtain ⟨hpage, hoffset⟩ := modifiedAddress_samePage haligned h
  have hmove : ∀ x : Word, Arm.moveTo x (env.modifiedAddress b) = Arm.moveTo x b := by
    intro x
    rw [Arm.moveTo, Arm.moveTo, hoffset]
  have hmapping : (fun m : Mapping => m.moveTo (env.modifiedAddress b)) = fun m => m.moveTo b := by
    funext m
    rw [Mapping.moveTo, Mapping.moveTo, hmove]
  unfold walk
  split_ifs
  · rw [walkV6_samePage hpage, hmapping]
  · rw [walkV5_samePage hpage, hmapping]

/-- The physical address has the place in the page of the modified address. -/
theorem walk_offset {mapping : Mapping} (h : env.walk ldl a = .ok mapping) :
    mapping.physAddr = Arm.moveTo mapping.physAddr (env.modifiedAddress a) := by
  have hself : SamePage (env.modifiedAddress a) (env.modifiedAddress a) := rfl
  have hmap : (Except.ok mapping : Except Word Mapping) = (Except.ok mapping : Except Word Mapping).map
      (·.moveTo (env.modifiedAddress a)) := by
    rw [← h, walk]
    split_ifs
    · exact walkV6_samePage hself
    · exact walkV5_samePage hself
  injection hmap with hmap
  exact congrArg Mapping.physAddr hmap

/-- The page of `a` is execute-never. -/
def executeNever (env : MmuState) (ldl : Word → Word) (address : Word) : Bool :=
  match env.walk ldl address with
  | .ok mapping => mapping.xn
  | .error _ => false

/-- **What an allowed access says of the others to its page.** A later read or fetch is allowed, unless
the page is execute-never, and a later write if the protection has it. -/
theorem getPhysAddr_samePage (hmmu : env.cp15.c1Sys &&& 1#32 ≠ 0) (hmpu : env.features.mpu = false)
    (haligned : env.FcseAligned a) (h : SamePage a b) {x prot : Word}
    (hok : env.getPhysAddr ldl a accessType isUser = .ok (x, prot)) (later : AccessType)
    (hxn : later = .fetch → env.executeNever ldl a = false) (hwrite : later = .write → prot &&& pageWrite ≠ 0) :
    ∃ prot', env.getPhysAddr ldl b later isUser = .ok (Arm.moveTo x b, prot') := by
  obtain ⟨mapping, hwalk, rfl, hflag, -, hprot, hcheck⟩ := (getPhysAddr_eq_ok hmmu hmpu).1 hok
  refine ⟨_, (getPhysAddr_eq_ok hmmu hmpu).2 ⟨mapping.moveTo b, ?_, rfl, hflag, fun hfetch => ?_, ?_, rfl⟩⟩
  · rw [walk_samePage haligned h, hwalk]
    rfl
  · change mapping.xn = false
    simpa [executeNever, hwalk] using hxn hfetch
  · change env.checkAp mapping.ap mapping.domain later isUser ≠ 0
    rw [checkAp_eq] at hcheck ⊢
    have hread : env.checkAp mapping.ap mapping.domain .read isUser ≠ 0 := by
      intro hzero
      rw [hzero] at hcheck
      simp [pageRead] at hcheck
      exact hprot hcheck.symm
    rw [if_neg]
    · exact hread
    · rintro ⟨hlater, hro⟩
      -- a page for reading only does not have the protection for writes
      apply hwrite hlater
      rw [← hcheck, hro]
      split_ifs <;> rfl

/-- **What an allowed access does not say**: a fetch from an execute-never page is refused. -/
theorem getPhysAddr_executeNever (hmmu : env.cp15.c1Sys &&& 1#32 ≠ 0) (hmpu : env.features.mpu = false)
    (h : env.executeNever ldl a = true) (x prot : Word) : env.getPhysAddr ldl a .fetch isUser ≠ .ok (x, prot) := by
  intro hok
  obtain ⟨mapping, hwalk, -, -, hxn, -⟩ := (getPhysAddr_eq_ok hmmu hmpu).1 hok
  simp [executeNever, hwalk, hxn rfl] at h

end MmuState

end Emulator.Arm
