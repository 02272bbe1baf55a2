import Emulator.Arm.MmuPage
import Mathlib.Tactic.IntervalCases

/-!
# The short-descriptor walk of the architecture

What the ARMv5 architecture says of an access: the fields of the descriptors, the order of the faults, and the
permission bits of the subpage that has the address. `get_phys_addr_v5` differs from it in three places: it takes the
permission bits of a 4K page from the 16K subpage of the address, it looks at the domain before the second-level
descriptor, and the domain field of its fault is the access of the domain, not its number.

* `translate`: the walk of the architecture.
* `walkV5_eq`, `pageV5_eq`: the descriptors of the source are those of the architecture.
* `getPhysAddrV5_iff`: when the results agree.
-/

namespace Emulator.Arm

open BitVec

/-- A fault: the status, and the number of the domain. -/
structure ArchFault where
  status : BitVec 4
  domain : BitVec 4
  deriving DecidableEq

/-- What a first-level descriptor says of an address: a section, or where its second-level descriptor is. -/
inductive FirstLevel
  | fault
  | sect (physAddr : Word) (ap : BitVec 2)
  | table (fine : Bool) (entry : Word)

def firstLevel (desc va : Word) : FirstLevel :=
  match (desc.extractLsb' 0 2).toNat with
  | 0 => .fault
  | 1 => .table false (desc.extractLsb' 10 22 ++ va.extractLsb' 12 8 ++ 0#2)
  | 2 => .sect (desc.extractLsb' 20 12 ++ va.extractLsb' 0 20) (desc.extractLsb' 10 2)
  | _ => .table true (desc.extractLsb' 12 20 ++ va.extractLsb' 10 10 ++ 0#2)

/-- The permission bits of a subpage. -/
def apField (desc : Word) (subpage : BitVec 2) : BitVec 2 := desc.extractLsb' (4 + 2 * subpage.toNat) 2

inductive SecondLevel
  | fault
  | page (physAddr : Word) (ap : BitVec 2)

/-- What a second-level descriptor says. The subpages of a 64K page have 16K, and those of a 4K page have 1K. -/
def secondLevel (fine : Bool) (desc va : Word) : SecondLevel :=
  match (desc.extractLsb' 0 2).toNat with
  | 0 => .fault
  | 1 => .page (desc.extractLsb' 16 16 ++ va.extractLsb' 0 16) (apField desc (va.extractLsb' 14 2))
  | 2 => .page (desc.extractLsb' 12 20 ++ va.extractLsb' 0 12) (apField desc (va.extractLsb' 10 2))
  | _ => if fine then .page (desc.extractLsb' 10 22 ++ va.extractLsb' 0 10) (desc.extractLsb' 4 2) else .fault

/-- The permission bits, with the bits S and R of the system control register. -/
def permits (sys : Word) (ap : BitVec 2) (accessType : AccessType) (isUser : Bool) : Bool :=
  match ap.toNat with
  | 0 =>
    accessType != .write &&
      match sys.getLsbD 8, sys.getLsbD 9 with
      | true, false => !isUser
      | false, true => true
      | _, _ => false
  | 1 => !isUser
  | 2 => !isUser || accessType != .write
  | _ => true

namespace MmuState

variable (env : MmuState) (ldl : Word → Word) (va : Word) (accessType : AccessType) (isUser : Bool)

/-- The access of a domain: 0 and 2 none, 1 as a client, 3 as a manager. -/
def domainAccess (domain : BitVec 4) : BitVec 2 := env.cp15.c3.extractLsb' (2 * domain.toNat) 2

/-- The translation base for an address. -/
def translationBase : Word :=
  if va &&& env.cp15.c2Mask ≠ 0 then env.cp15.c2Base1 &&& 0xffffc000#32 else env.cp15.c2Base0 &&& env.cp15.c2BaseMask

def firstDescriptor : Word := ldl (env.translationBase va ||| (0#18 ++ va.extractLsb' 20 12 ++ 0#2))

/-- The tests of a valid mapping: the domain, and for a client the permission bits. -/
def checkedMapping (domain : BitVec 4) (page : Bool) (physAddr : Word) (ap : BitVec 2) : Except ArchFault Word :=
  match (env.domainAccess domain).toNat with
  | 1 => if permits env.cp15.c1Sys ap accessType isUser then .ok physAddr else .error ⟨if page then 15 else 13, domain⟩
  | 3 => .ok physAddr
  | _ => .error ⟨if page then 11 else 9, domain⟩

/-- **The walk of the architecture.** -/
def translate : Except ArchFault Word :=
  let desc := env.firstDescriptor ldl va
  let domain := desc.extractLsb' 5 4
  match firstLevel desc va with
  | .fault => .error ⟨5, domain⟩
  | .sect physAddr ap => env.checkedMapping accessType isUser domain false physAddr ap
  | .table fine entry =>
    match secondLevel fine (ldl entry) va with
    | .fault => .error ⟨7, domain⟩
    | .page physAddr ap => env.checkedMapping accessType isUser domain true physAddr ap

/-- The access succeeds on both sides with one address, or faults with one status. -/
def SameStatus : Except Word (Word × Word) → Except ArchFault Word → Prop
  | .ok r, .ok physAddr => r.1 = physAddr
  | .error e, .error f => e.extractLsb' 0 4 = f.status
  | _, _ => False

/-- The value of the fault has the number of the domain too, which a section translation fault does not need. -/
def SameFault : Except Word (Word × Word) → Except ArchFault Word → Prop
  | .ok r, .ok physAddr => r.1 = physAddr
  | .error e, .error f => e.extractLsb' 0 4 = f.status ∧ (f.status = 5 ∨ e = 0#24 ++ f.domain ++ f.status)
  | _, _ => False

/-- The second-level descriptor is invalid, in a domain without access. -/
def HiddenTranslationFault : Prop :=
  let desc := env.firstDescriptor ldl va
  ((env.domainAccess (desc.extractLsb' 5 4)).toNat = 0 ∨ (env.domainAccess (desc.extractLsb' 5 4)).toNat = 2) ∧
    ∃ fine entry, firstLevel desc va = .table fine entry ∧ secondLevel fine (ldl entry) va = .fault

/-- A client's access to a 4K page, on which the permission bits of the 1K subpage of the address and those of the
subpage with the number of its 16K part differ. -/
def OtherSubpage : Prop :=
  let desc := env.firstDescriptor ldl va
  (env.domainAccess (desc.extractLsb' 5 4)).toNat = 1 ∧
    ∃ fine entry, firstLevel desc va = .table fine entry ∧ ((ldl entry).extractLsb' 0 2).toNat = 2 ∧
      permits env.cp15.c1Sys (apField (ldl entry) (va.extractLsb' 14 2)) accessType isUser ≠
        permits env.cp15.c1Sys (apField (ldl entry) (va.extractLsb' 10 2)) accessType isUser

/-- The number of the domain is the access of the domain, where the architecture gives a fault with a domain. -/
def DomainIsAccess : Prop :=
  ∀ f, env.translate ldl va accessType isUser = .error f → f.status = 5 ∨
    f.domain.toNat = (env.domainAccess f.domain).toNat

end MmuState

section Fields

variable (d va : Word) {m₁ m₂ : Word} {n j k i : ℕ}

theorem getLsbD_baseAndOffset (hmask : ∀ i < 32, m₁.getLsbD i = decide (n ≤ i) ∧ m₂.getLsbD i = decide (i < n))
    (hi : i < k + n) (h32 : k + n = 32) :
    ((d &&& m₁) ||| (va &&& m₂)).getLsbD i = (d.extractLsb' n k ++ va.extractLsb' 0 n).getLsbD i := by
  obtain ⟨h₁, h₂⟩ := hmask i (by omega)
  rw [getLsbD_or, getLsbD_and, getLsbD_and, h₁, h₂, getLsbD_append,
    getLsbD_extractLsb', getLsbD_extractLsb']
  by_cases h : i < n
  · simp [h, Nat.not_le.2 h]
  · have hk : i - n < k := by omega
    have hadd : n + (i - n) = i := by omega
    simp [h, Nat.not_lt.1 h, hk, hadd]

/-- The address of an entry: a base, an index, and two bits 0. -/
theorem getLsbD_entry (hi : BitVec k) :
    (hi ++ va.extractLsb' j n ++ 0#2).getLsbD i =
      if i < 2 then false else if i < n + 2 then va.getLsbD (j + (i - 2)) else hi.getLsbD (i - (n + 2)) := by
  rw [getLsbD_append, getLsbD_append, getLsbD_extractLsb']
  by_cases h2 : i < 2
  · simp [h2]
  · by_cases hn : i < n + 2
    · have hlt : i - 2 < n := by omega
      simp [h2, hn, hlt]
    · have hge : ¬ i - 2 < n := by omega
      have hsub : i - 2 - n = i - (n + 2) := by omega
      simp [h2, hn, hge, hsub]

theorem getLsbD_tableEntry (hmask : ∀ i < 32, m₁.getLsbD i = decide (n + 2 ≤ i) ∧
    m₂.getLsbD i = decide (2 ≤ i ∧ i < n + 2))
    (hi : i < k + n + 2) (h32 : k + n + 2 = 32) :
    ((d &&& m₁) ||| ((va >>> j) &&& m₂)).getLsbD i =
      (d.extractLsb' (n + 2) k ++ va.extractLsb' (j + 2) n ++ 0#2).getLsbD i := by
  obtain ⟨h₁, h₂⟩ := hmask i (by omega)
  rw [getLsbD_or, getLsbD_and, getLsbD_and, h₁, h₂, getLsbD_ushiftRight, getLsbD_entry]
  split_ifs with h2 hn
  · rw [decide_eq_false (by omega), decide_eq_false (by omega), Bool.and_false, Bool.and_false, Bool.or_false]
  · rw [decide_eq_false (by omega), decide_eq_true (by omega), show j + 2 + (i - 2) = j + i by omega, Bool.and_false,
      Bool.and_true, Bool.false_or]
  · rw [decide_eq_true (by omega), decide_eq_false (by omega), Bool.and_false, Bool.and_true, Bool.or_false,
      getLsbD_extractLsb', decide_eq_true (by omega), Bool.true_and, show n + 2 + (i - (n + 2)) = i by omega]

theorem section_address :
    (d &&& 0xfff00000#32) ||| (va &&& 0x000fffff#32) = d.extractLsb' 20 12 ++ va.extractLsb' 0 20 :=
  eq_of_getLsbD_eq fun _ hi => getLsbD_baseAndOffset d va (by decide) hi rfl

theorem largePage_address : (d &&& 0xffff0000#32) ||| (va &&& 0xffff#32) = d.extractLsb' 16 16 ++ va.extractLsb' 0 16 :=
  eq_of_getLsbD_eq fun _ hi => getLsbD_baseAndOffset d va (by decide) hi rfl

theorem smallPage_address : (d &&& 0xfffff000#32) ||| (va &&& 0xfff#32) = d.extractLsb' 12 20 ++ va.extractLsb' 0 12 :=
  eq_of_getLsbD_eq fun _ hi => getLsbD_baseAndOffset d va (by decide) hi rfl

theorem tinyPage_address : (d &&& 0xfffffc00#32) ||| (va &&& 0x3ff#32) = d.extractLsb' 10 22 ++ va.extractLsb' 0 10 :=
  eq_of_getLsbD_eq fun _ hi => getLsbD_baseAndOffset d va (by decide) hi rfl

theorem coarseTable_entry :
    (d &&& 0xfffffc00#32) ||| ((va >>> 10) &&& 0x3fc#32) = d.extractLsb' 10 22 ++ va.extractLsb' 12 8 ++ 0#2 :=
  eq_of_getLsbD_eq fun _ hi => getLsbD_tableEntry d va (by decide) hi rfl

theorem fineTable_entry :
    (d &&& 0xfffff000#32) ||| ((va >>> 8) &&& 0xffc#32) = d.extractLsb' 12 20 ++ va.extractLsb' 10 10 ++ 0#2 :=
  eq_of_getLsbD_eq fun _ hi => getLsbD_tableEntry d va (by decide) hi rfl

theorem firstTable_index : (va >>> 18) &&& 0x3ffc#32 = 0#18 ++ va.extractLsb' 20 12 ++ 0#2 := by
  apply eq_of_getLsbD_eq
  intro i hi
  have hmask : ∀ i < 32, (0x3ffc#32).getLsbD i = decide (2 ≤ i ∧ i < 14) := by decide
  rw [getLsbD_and, hmask i hi, getLsbD_ushiftRight, getLsbD_entry]
  split_ifs with h2 hn
  · simp [Nat.not_le.2 h2]
  · rw [show 20 + (i - 2) = 18 + i by omega, decide_eq_true (by omega), Bool.and_true]
  · rw [decide_eq_false (by omega), Bool.and_false, getLsbD_zero]

/-- The low bits of a shifted word. -/
theorem toNat_shift_and_three (s : ℕ) : ((d >>> s) &&& 3#32).toNat = (d.extractLsb' s 2).toNat := by
  rw [toNat_and, toNat_ushiftRight, BitVec.extractLsb'_toNat]
  exact Nat.and_two_pow_sub_one_eq_mod _ 2

theorem toNat_and_three : (d &&& 3#32).toNat = (d.extractLsb' 0 2).toNat := by
  rw [← toNat_shift_and_three, ushiftRight_zero]

theorem and_two_mul (x m : ℕ) : x &&& 2 * m = 2 * (x / 2 &&& m) := by
  apply Nat.eq_of_testBit_eq
  intro i
  cases i with
  | zero => simp
  | succ i => simp [Nat.testBit_succ, Nat.and_div_two]

/-- A field that is shifted to the right but for one bit. -/
theorem toNat_evenField (s n : ℕ) :
    (d >>> s).toNat &&& 2 * (2 ^ n - 1) = 2 * (d.extractLsb' (s + 1) n).toNat := by
  have hsplit : d.toNat / 2 ^ s / 2 = d.toNat / 2 ^ (s + 1) := by rw [Nat.div_div_eq_div_mul, Nat.pow_succ]
  rw [and_two_mul, Nat.and_two_pow_sub_one_eq_mod, toNat_ushiftRight, BitVec.extractLsb'_toNat,
    Nat.shiftRight_eq_div_pow, Nat.shiftRight_eq_div_pow, hsplit]

end Fields

namespace MmuState

variable {env : MmuState} {ldl : Word → Word} {va : Word} {accessType : AccessType} {isUser : Bool}

theorem firstDescriptor_eq : ldl (env.getLevel1TableAddress va) = env.firstDescriptor ldl va := by
  rw [getLevel1TableAddress, firstDescriptor, translationBase, firstTable_index]

/-- The access of a domain, as the source reads it. -/
theorem domainAccess_eq (desc : Word) :
    (env.cp15.c3 >>> ((desc >>> 4) &&& 0x1e#32)) &&& 3#32 = (env.domainAccess (desc.extractLsb' 5 4)).setWidth 32 := by
  apply eq_of_toNat_eq
  have hshift : ((desc >>> 4) &&& 0x1e#32).toNat = 2 * (desc.extractLsb' 5 4).toNat := by
    rw [toNat_and]
    exact toNat_evenField desc 4 4
  rw [ushiftRight_eq', hshift, toNat_shift_and_three, domainAccess, toNat_setWidth]
  exact (Nat.mod_eq_of_lt (by omega)).symm

/-- The permission bits that the source takes for a page of more than 1K: those of the 16K part. -/
theorem apField_eq (desc : Word) :
    ((desc >>> (4#32 + ((va >>> 13) &&& 6#32))) &&& 3#32).toNat = (apField desc (va.extractLsb' 14 2)).toNat := by
  have hfield : ((va >>> 13) &&& 6#32).toNat = 2 * (va.extractLsb' 14 2).toNat := by
    rw [toNat_and]
    exact toNat_evenField va 13 2
  have hshift : (4#32 + ((va >>> 13) &&& 6#32)).toNat = 4 + 2 * (va.extractLsb' 14 2).toNat := by
    rw [toNat_add, hfield]
    have hlt := (va.extractLsb' 14 2).isLt
    change (4 + _) % 2 ^ 32 = _
    omega
  rw [ushiftRight_eq', hshift, toNat_shift_and_three, apField]

/-- The permission bits of a page in the source. -/
def sourceAp (desc va : Word) (ap : BitVec 2) : BitVec 2 :=
  if (desc.extractLsb' 0 2).toNat = 2 then apField desc (va.extractLsb' 14 2) else ap

/-- **The second level of the source** is that of the architecture, but for the permission bits of a 4K page. -/
theorem pageV5_eq (hx : env.features.xscale = false) (fine : Bool) (desc domain : Word) :
    env.pageV5 (if fine then 3#32 else 1#32) desc domain va =
      match secondLevel fine desc va with
      | .fault => fault 7 domain
      | .page physAddr ap => .ok ⟨physAddr, (sourceAp desc va ap).toNat, false, domain, 15⟩ := by
  obtain ⟨n, hn⟩ : ∃ n, n = (desc.extractLsb' 0 2).toNat := ⟨_, rfl⟩
  have hlt : n < 4 := hn ▸ (desc.extractLsb' 0 2).isLt
  have hap : ((desc >>> 4) &&& 3#32).toNat = (desc.extractLsb' 4 2).toNat := toNat_shift_and_three desc 4
  simp only [pageV5, secondLevel, sourceAp, apField_eq, hap, largePage_address, smallPage_address, tinyPage_address, hx,
    Bool.not_false, and_true]
  simp only [toNat_and_three, ← hn]
  interval_cases n
  · rfl
  · rfl
  · rfl
  · cases fine <;> rfl

/-- The bits S and R. -/
theorem toNat_systemBits (sys : Word) :
    ((sys >>> 8) &&& 3#32).toNat = (sys.getLsbD 8).toNat + 2 * (sys.getLsbD 9).toNat := by
  rw [toNat_shift_and_three, BitVec.extractLsb'_toNat, Nat.shiftRight_eq_div_pow, BitVec.getLsbD, BitVec.getLsbD,
    Nat.testBit_eq_decide_div_mod_eq, Nat.testBit_eq_decide_div_mod_eq]
  by_cases h8 : sys.toNat / 2 ^ 8 % 2 = 1 <;> by_cases h9 : sys.toNat / 2 ^ 9 % 2 = 1 <;> simp only [h8, h9] <;>
    simp <;> omega

/-- The test of the permission bits, for a client. -/
theorem checkAp_eq_zero {domain : Word} (hd : domain.toNat = 1) (ap : BitVec 2) :
    env.checkAp ap.toNat domain accessType isUser = 0 ↔ permits env.cp15.c1Sys ap accessType isUser = false := by
  have hne : domain ≠ 3 := by
    rintro rfl
    exact absurd hd (by decide)
  obtain ⟨n, hn⟩ : ∃ n, n = ap.toNat := ⟨_, rfl⟩
  have hlt : n < 4 := hn ▸ ap.isLt
  rw [checkAp, if_neg hne, permits, ← hn]
  interval_cases n
  · simp only [toNat_systemBits]
    cases env.cp15.c1Sys.getLsbD 8 <;> cases env.cp15.c1Sys.getLsbD 9 <;> cases accessType <;> cases isUser <;>
      simp [pageRead]
  · cases isUser <;> simp [pageRead, pageWrite]
  · cases accessType <;> cases isUser <;> simp [pageRead, pageWrite]
  · simp [pageRead, pageWrite]

/-- **The tests of the source** on a domain with access. -/
theorem checkAccess_eq {domain : Word} (hd : domain.toNat = 1 ∨ domain.toNat = 3) (physAddr : Word)
    (ap : BitVec 2) (code : Word) :
    (domain.toNat = 3 ∨ permits env.cp15.c1Sys ap accessType isUser = true) ∧
        (∃ prot, env.checkAccess ⟨physAddr, ap.toNat, false, domain, code⟩ accessType isUser = .ok (physAddr, prot)) ∨
      (domain.toNat = 1 ∧ permits env.cp15.c1Sys ap accessType isUser = false) ∧
        env.checkAccess ⟨physAddr, ap.toNat, false, domain, code⟩ accessType isUser = fault code domain := by
  simp only [checkAccess]
  rcases hd with h1 | h3
  · have hzero := @checkAp_eq_zero env accessType isUser _ h1 ap
    cases hp : permits env.cp15.c1Sys ap accessType isUser with
    | false => exact .inr ⟨⟨h1, rfl⟩, if_pos (hzero.2 hp)⟩
    | true => exact .inl ⟨.inr rfl, _, if_neg fun h0 => by rw [hzero.1 h0] at hp; exact Bool.noConfusion hp⟩
  · have hdom : domain = 3 := eq_of_toNat_eq h3
    subst hdom
    exact .inl ⟨.inl rfl, _, if_neg (by rw [checkAp, if_pos rfl]; decide)⟩

/-- The domain that the source works with: the access of the domain. -/
def sourceDomain (env : MmuState) (ldl : Word → Word) (va : Word) : BitVec 2 :=
  env.domainAccess ((env.firstDescriptor ldl va).extractLsb' 5 4)

/-- **The walk of the source**: the domain is looked at before the second level. -/
theorem walkV5_eq (hx : env.features.xscale = false) :
    env.walkV5 ldl va =
      let domain := (env.sourceDomain ldl va).setWidth 32
      match firstLevel (env.firstDescriptor ldl va) va with
      | .fault => fault 5 domain
      | .sect physAddr ap =>
        if domain = 0 ∨ domain = 2 then fault 9 domain else .ok ⟨physAddr, ap.toNat, false, domain, 13⟩
      | .table fine entry =>
        if domain = 0 ∨ domain = 2 then fault 11 domain
        else
          match secondLevel fine (ldl entry) va with
          | .fault => fault 7 domain
          | .page physAddr ap => .ok ⟨physAddr, (sourceAp (ldl entry) va ap).toNat, false, domain, 15⟩ := by
  obtain ⟨desc, hdesc⟩ : ∃ desc, desc = env.firstDescriptor ldl va := ⟨_, rfl⟩
  obtain ⟨n, hn⟩ : ∃ n, n = (desc.extractLsb' 0 2).toNat := ⟨_, rfl⟩
  have hlt : n < 4 := hn ▸ (desc.extractLsb' 0 2).isLt
  have htype : desc &&& 3#32 = BitVec.ofNat 32 n := by
    apply eq_of_toNat_eq
    rw [toNat_and_three, ← hn, toNat_ofNat]
    exact (Nat.mod_eq_of_lt (by omega)).symm
  have hap : ((desc >>> 10) &&& 3#32).toNat = (desc.extractLsb' 10 2).toNat := toNat_shift_and_three desc 10
  simp only [walkV5, sourceDomain, firstLevel, firstDescriptor_eq, ← hdesc, domainAccess_eq, htype, ← hn, hap,
    section_address, coarseTable_entry, fineTable_entry]
  interval_cases n
  · rfl
  · have hpage := @pageV5_eq _ va hx false
    simp only [Bool.false_eq_true, if_false] at hpage
    rw [if_neg (by decide)]
    exact if_congr Iff.rfl rfl (hpage _ _)
  · rfl
  · have hpage := @pageV5_eq _ va hx true
    simp only [if_true] at hpage
    rw [if_neg (by decide)]
    exact if_congr Iff.rfl rfl (hpage _ _)

theorem fault_value : ∀ (code : BitVec 4) (domain : BitVec 2),
    code.setWidth 32 ||| (domain.setWidth 32 <<< 4) = 0#26 ++ domain ++ code ∧
      (0#26 ++ domain ++ code).extractLsb' 0 4 = code := by
  decide +kernel

theorem fault_domain : ∀ (code number : BitVec 4) (domain : BitVec 2),
    0#26 ++ domain ++ code = (0#24 ++ number ++ code : BitVec 32) ↔ number.toNat = domain.toNat := by
  decide +kernel

/-- A fault of the source with the status of the architecture. -/
theorem sameStatus_fault (code : BitVec 4) (domain : BitVec 2) (f : ArchFault) :
    (SameStatus (fault (code.setWidth 32) (domain.setWidth 32)) (.error f) ↔ code = f.status) ∧
      (SameFault (fault (code.setWidth 32) (domain.setWidth 32)) (.error f) ↔
        code = f.status ∧ (f.status = 5 ∨ f.domain.toNat = domain.toNat)) := by
  obtain ⟨hvalue, hcode⟩ := fault_value code domain
  have hfault : (fault (code.setWidth 32) (domain.setWidth 32) : Except Word (Word × Word)) =
    .error (0#26 ++ domain ++ code) := by
    rw [fault, hvalue]
  rw [hfault]
  refine ⟨by rw [SameStatus, hcode], ?_⟩
  rw [SameFault, hcode]
  refine and_congr_right fun hstatus => or_congr_right ?_
  rw [hstatus]
  exact fault_domain f.status f.domain domain

/-- How the two walks go together. -/
inductive Outcomes (env : MmuState) (ldl : Word → Word) (va : Word) (accessType : AccessType) (isUser : Bool) : Prop
  | ok (physAddr prot : Word) (hs : env.getPhysAddrV5 ldl va accessType isUser = .ok (physAddr, prot))
      (ht : env.translate ldl va accessType isUser = .ok physAddr)
  | fault (code : BitVec 4)
      (hs : env.getPhysAddrV5 ldl va accessType isUser =
        Arm.MmuState.fault (code.setWidth 32) ((env.sourceDomain ldl va).setWidth 32))
      (ht : env.translate ldl va accessType isUser = .error ⟨code, (env.firstDescriptor ldl va).extractLsb' 5 4⟩)

/-- A domain without access, in the source. -/
theorem noAccess_iff (d : BitVec 2) : (d.setWidth 32 = 0#32 ∨ d.setWidth 32 = 2#32) ↔ (d.toNat = 0 ∨ d.toNat = 2) := by
  revert d
  decide

/-- A valid mapping, whose permission bits are the same on both sides or say the same. -/
theorem checked_outcomes {d : BitVec 2} {number : BitVec 4} (hd : d = env.domainAccess number)
    (haccess : d.toNat = 1 ∨ d.toNat = 3) (page : Bool) (physAddr : Word) {ap ap' : BitVec 2}
    (hap : d.toNat = 1 →
      permits env.cp15.c1Sys ap' accessType isUser = permits env.cp15.c1Sys ap accessType isUser) :
    (∃ prot, env.checkAccess ⟨physAddr, ap'.toNat, false, d.setWidth 32, if page then 15 else 13⟩ accessType isUser =
        .ok (physAddr, prot) ∧ env.checkedMapping accessType isUser number page physAddr ap = .ok physAddr) ∨
      env.checkAccess ⟨physAddr, ap'.toNat, false, d.setWidth 32, if page then 15 else 13⟩ accessType isUser =
        fault (BitVec.setWidth 32 (if page then 15#4 else 13#4)) (d.setWidth 32) ∧
      env.checkedMapping accessType isUser number page physAddr ap = .error ⟨if page then 15 else 13, number⟩ := by
  have hwidth : (d.setWidth 32).toNat = d.toNat := by
    rw [toNat_setWidth]
    exact Nat.mod_eq_of_lt (by omega)
  have haccess' : (d.setWidth 32).toNat = 1 ∨ (d.setWidth 32).toNat = 3 := by rwa [hwidth]
  rcases @checkAccess_eq env accessType isUser _ haccess' physAddr ap'
    (if page then 15 else 13) with ⟨hp, prot, hrun⟩ | ⟨⟨h1, hp⟩, hrun⟩
  · refine .inl ⟨prot, hrun, ?_⟩
    rw [checkedMapping, ← hd]
    rcases haccess with h1 | h3
    · have hp' : permits env.cp15.c1Sys ap accessType isUser = true := by
        rw [← hap h1]
        exact hp.resolve_left (by omega)
      simp only [h1, hp', if_true]
    · simp only [h3]
  · rw [hwidth] at h1
    refine .inr ⟨?_, ?_⟩
    · rw [hrun]
      cases page <;> rfl
    · have hp' : permits env.cp15.c1Sys ap accessType isUser = false := by rw [← hap h1, hp]
      rw [checkedMapping, ← hd]
      simp only [h1, hp', Bool.false_eq_true, if_false]

/-- The source's result, from its walk. -/
theorem getPhysAddrV5_of_walk {mapping : Mapping} (h : env.walkV5 ldl va = .ok mapping) :
    env.getPhysAddrV5 ldl va accessType isUser = env.checkAccess mapping accessType isUser := by
  rw [getPhysAddrV5, h]
  rfl

theorem getPhysAddrV5_of_fault {code domain : Word} (h : env.walkV5 ldl va = fault code domain) :
    env.getPhysAddrV5 ldl va accessType isUser = fault code domain := by
  rw [getPhysAddrV5, h]
  rfl

/-- Without the two differences the walks go together. -/
theorem outcomes (hx : env.features.xscale = false) (hhidden : ¬ env.HiddenTranslationFault ldl va)
    (hother : ¬ env.OtherSubpage ldl va accessType isUser) : Outcomes env ldl va accessType isUser := by
  obtain ⟨d, hd⟩ : ∃ d, d = env.sourceDomain ldl va := ⟨_, rfl⟩
  obtain ⟨number, hnumber⟩ : ∃ number, number = (env.firstDescriptor ldl va).extractLsb' 5 4 := ⟨_, rfl⟩
  have hdn : d = env.domainAccess number := by rw [hd, sourceDomain, hnumber]
  have haccess : ¬ (d.toNat = 0 ∨ d.toNat = 2) → d.toNat = 1 ∨ d.toNat = 3 := by
    have := d.isLt
    omega
  have hwalk := @walkV5_eq _ ldl va hx
  simp only [← hd] at hwalk
  -- a mapping that is checked on both sides
  have hchecked : ∀ (page : Bool) (physAddr : Word) (ap ap' : BitVec 2), ¬ (d.toNat = 0 ∨ d.toNat = 2) →
      (d.toNat = 1 → permits env.cp15.c1Sys ap' accessType isUser = permits env.cp15.c1Sys ap accessType isUser) →
      env.walkV5 ldl va = .ok ⟨physAddr, ap'.toNat, false, d.setWidth 32, if page then 15 else 13⟩ →
      env.translate ldl va accessType isUser = env.checkedMapping accessType isUser number page physAddr ap →
      Outcomes env ldl va accessType isUser := by
    intro page physAddr ap ap' hd13 hap hw ht
    rcases checked_outcomes hdn (haccess hd13) page physAddr hap with ⟨prot, hs, ht'⟩ | ⟨hs, ht'⟩
    · exact .ok physAddr prot ((getPhysAddrV5_of_walk hw).trans hs) (ht.trans ht')
    · refine .fault (if page then 15 else 13) ((getPhysAddrV5_of_walk hw).trans ?_) (ht.trans ?_)
      · rw [hs, hd]
        rfl
      · rw [ht', ← hnumber]
  have hnone : d.toNat = 0 ∨ d.toNat = 2 → ∀ (page : Bool) (physAddr : Word) (ap : BitVec 2),
      env.checkedMapping accessType isUser number page physAddr ap = .error ⟨if page then 11 else 9, number⟩ := by
    intro h page physAddr ap
    rw [checkedMapping, ← hdn]
    rcases h with h | h <;> simp only [h]
  cases hfirst : firstLevel (env.firstDescriptor ldl va) va with
  | fault =>
    simp only [hfirst] at hwalk
    refine .fault 5 ((getPhysAddrV5_of_fault hwalk).trans (by rw [hd]; rfl)) ?_
    simp only [translate, hfirst]
  | sect physAddr ap =>
    have ht : env.translate ldl va accessType isUser =
      env.checkedMapping accessType isUser number false physAddr ap := by
      simp only [translate, hfirst, hnumber]
    simp only [hfirst, ofNat_eq_ofNat, noAccess_iff] at hwalk
    by_cases hno : d.toNat = 0 ∨ d.toNat = 2
    · rw [if_pos hno] at hwalk
      exact .fault 9 ((getPhysAddrV5_of_fault hwalk).trans (by rw [hd]; rfl))
        (ht.trans (by rw [hnone hno, hnumber]; rfl))
    · rw [if_neg hno] at hwalk
      exact hchecked false physAddr ap ap hno (fun _ => rfl) hwalk ht
  | table fine entry =>
    simp only [hfirst, ofNat_eq_ofNat, noAccess_iff] at hwalk
    cases hsecond : secondLevel fine (ldl entry) va with
    | fault =>
      have ht : env.translate ldl va accessType isUser = .error ⟨7, number⟩ := by
        simp only [translate, hfirst, hsecond, hnumber]
      have hno : ¬ (d.toNat = 0 ∨ d.toNat = 2) := by
        intro hno
        refine hhidden ⟨?_, fine, entry, hfirst, hsecond⟩
        rwa [← hnumber, ← hdn]
      simp only [if_neg hno, hsecond] at hwalk
      exact .fault 7 ((getPhysAddrV5_of_fault hwalk).trans (by rw [hd]; rfl)) (ht.trans (by rw [hnumber]))
    | page physAddr ap =>
      have ht : env.translate ldl va accessType isUser =
        env.checkedMapping accessType isUser number true physAddr ap := by
        simp only [translate, hfirst, hsecond, hnumber]
      by_cases hno : d.toNat = 0 ∨ d.toNat = 2
      · rw [if_pos hno] at hwalk
        exact .fault 11 ((getPhysAddrV5_of_fault hwalk).trans (by rw [hd]; rfl))
          (ht.trans (by rw [hnone hno, hnumber]; rfl))
      · simp only [if_neg hno, hsecond] at hwalk
        refine hchecked true physAddr ap _ hno (fun h1 => ?_) hwalk ht
        rw [sourceAp]
        split_ifs with hsmall
        · -- a 4K page: its subpages say the same
          by_contra hne
          refine hother ⟨by rw [← hnumber, ← hdn, h1], fine, entry, hfirst, hsmall, ?_⟩
          have hap : ap = apField (ldl entry) (va.extractLsb' 10 2) := by
            simp only [secondLevel, hsmall] at hsecond
            exact (SecondLevel.page.inj hsecond).2.symm
          rwa [hap] at hne
        · rfl

/-- An invalid second-level descriptor in a domain without access is reported as a domain fault. -/
theorem hidden_differs (hx : env.features.xscale = false) (h : env.HiddenTranslationFault ldl va) :
    ¬ SameStatus (env.getPhysAddrV5 ldl va accessType isUser) (env.translate ldl va accessType isUser) := by
  obtain ⟨hno, fine, entry, hfirst, hsecond⟩ := h
  have hwalk := @walkV5_eq _ ldl va hx
  simp only [hfirst, ofNat_eq_ofNat, noAccess_iff] at hwalk
  have hno' : (env.sourceDomain ldl va).toNat = 0 ∨ (env.sourceDomain ldl va).toNat = 2 := hno
  rw [if_pos hno'] at hwalk
  have ht : env.translate ldl va accessType isUser = .error ⟨7, (env.firstDescriptor ldl va).extractLsb' 5 4⟩ := by
    simp only [translate, hfirst, hsecond]
  rw [getPhysAddrV5_of_fault hwalk, ht]
  exact fun hsame => absurd (show 11#4 = 7#4 from (sameStatus_fault 11 _ _).1.1 hsame) (by decide)

/-- The permission bits of another subpage decide. -/
theorem otherSubpage_differs (hx : env.features.xscale = false) (h : env.OtherSubpage ldl va accessType isUser) :
    ¬ SameStatus (env.getPhysAddrV5 ldl va accessType isUser) (env.translate ldl va accessType isUser) := by
  obtain ⟨h1, fine, entry, hfirst, hsmall, hne⟩ := h
  obtain ⟨d, hd⟩ : ∃ d, d = env.sourceDomain ldl va := ⟨_, rfl⟩
  have hd1 : d.toNat = 1 := by rw [hd, sourceDomain, h1]
  have hno : ¬ (d.toNat = 0 ∨ d.toNat = 2) := by omega
  have hsecond : secondLevel fine (ldl entry) va = .page ((ldl entry).extractLsb' 12 20 ++ va.extractLsb' 0 12)
      (apField (ldl entry) (va.extractLsb' 10 2)) := by
    simp only [secondLevel, hsmall]
  have hwalk := @walkV5_eq _ ldl va hx
  simp only [hfirst, hsecond, ofNat_eq_ofNat, noAccess_iff, ← hd, if_neg hno, sourceAp, if_pos hsmall] at hwalk
  have hwidth : (d.setWidth 32).toNat = 1 := by
    rw [toNat_setWidth, hd1]
  rw [getPhysAddrV5_of_walk hwalk]
  simp only [translate, hfirst, hsecond, checkedMapping, h1]
  rcases @checkAccess_eq env accessType isUser _ (.inl hwidth)
    ((ldl entry).extractLsb' 12 20 ++ va.extractLsb' 0 12) (apField (ldl entry) (va.extractLsb' 14 2)) 15#32 with
    ⟨hp, prot, hrun⟩ | ⟨⟨-, hp⟩, hrun⟩
  · have hp14 := hp.resolve_left (by omega)
    rw [hrun, if_neg (fun h10 => hne (hp14.trans h10.symm))]
    exact fun hsame => hsame
  · have hp10 : permits env.cp15.c1Sys (apField (ldl entry) (va.extractLsb' 10 2)) accessType isUser = true := by
      rw [hp] at hne
      simpa using hne.symm
    rw [hrun, if_pos hp10]
    exact fun hsame => hsame

/-- **When the walk follows the architecture**: the outcome, the physical address and the status of a fault agree
unless a translation fault is hidden or the bits of another subpage say something else; the domain field of a fault is
right besides if the number of the domain happens to be its access. -/
theorem getPhysAddrV5_iff (hx : env.features.xscale = false) :
    (SameStatus (env.getPhysAddrV5 ldl va accessType isUser) (env.translate ldl va accessType isUser) ↔
      ¬ env.HiddenTranslationFault ldl va ∧ ¬ env.OtherSubpage ldl va accessType isUser) ∧
    (SameFault (env.getPhysAddrV5 ldl va accessType isUser) (env.translate ldl va accessType isUser) ↔
      (¬ env.HiddenTranslationFault ldl va ∧ ¬ env.OtherSubpage ldl va accessType isUser) ∧
        env.DomainIsAccess ldl va accessType isUser) := by
  have hweak : SameFault (env.getPhysAddrV5 ldl va accessType isUser) (env.translate ldl va accessType isUser) →
      SameStatus (env.getPhysAddrV5 ldl va accessType isUser) (env.translate ldl va accessType isUser) := by
    cases env.getPhysAddrV5 ldl va accessType isUser <;> cases env.translate ldl va accessType isUser
    · exact fun h => h.1
    · exact fun h => h
    · exact fun h => h
    · exact fun h => h
  have hstatus : SameStatus (env.getPhysAddrV5 ldl va accessType isUser) (env.translate ldl va accessType isUser) ↔
      ¬ env.HiddenTranslationFault ldl va ∧ ¬ env.OtherSubpage ldl va accessType isUser := by
    refine ⟨fun h => ⟨fun hh => hidden_differs hx hh h, fun ho => otherSubpage_differs hx ho h⟩, fun ⟨hh, ho⟩ => ?_⟩
    cases outcomes hx hh ho with
    | ok physAddr prot hs ht => rw [hs, ht]; rfl
    | fault code hs ht => rw [hs, ht]; exact (sameStatus_fault code _ _).1.2 rfl
  refine ⟨hstatus, ?_⟩
  rw [← hstatus]
  constructor
  · intro h
    have hboth := hstatus.1 (hweak h)
    refine ⟨hweak h, fun f hf => ?_⟩
    cases outcomes hx hboth.1 hboth.2 with
    | ok physAddr prot hs ht =>
      rw [ht] at hf
      cases hf
    | fault code hs ht =>
      rw [ht] at hf
      obtain rfl := Except.error.inj hf
      rw [hs, ht] at h
      exact ((sameStatus_fault code _ _).2.1 h).2
  · rintro ⟨h, hdomain⟩
    have hboth := hstatus.1 h
    cases outcomes hx hboth.1 hboth.2 with
    | ok physAddr prot hs ht => rw [hs, ht]; rfl
    | fault code hs ht =>
      have hf := hdomain _ ht
      rw [hs, ht]
      exact (sameStatus_fault code _ _).2.2 ⟨rfl, hf⟩

/-- A state whose tables start at 0, with the domain 0 as a client. -/
def clientState : MmuState where
  cp15 := {
    c1Sys := 1
    c2Base0 := 0
    c2Base1 := 0
    c2Mask := 0
    c2BaseMask := 0xffffc000#32
    c3 := 1
    c5Insn := 0
    c5Data := 0
    c6Region := fun _ => 0
    c6Insn := 0
    c6Data := 0
    c13Fcse := 0
    c2Mask_high := rfl }
  features := ⟨false, false, false, false⟩

/-- A coarse table at 0x1000 with the second-level descriptor `desc`. -/
def coarseTable (desc : Word) : Word → Word := fun address => if address = 0x1000#32 then desc else 0x1001#32

/-- All four subpages of the 4K page may be read. -/
theorem getPhysAddrV5_iff_page :
    SameStatus (clientState.getPhysAddrV5 (coarseTable 0x2ff2#32) 0x400#32 .read true)
      (clientState.translate (coarseTable 0x2ff2#32) 0x400#32 .read true) := by
  have hfirst : firstLevel (clientState.firstDescriptor (coarseTable 0x2ff2#32) 0x400#32) 0x400#32 =
    .table false 0x1000#32 := rfl
  refine (getPhysAddrV5_iff rfl).1.2 ⟨?_, ?_⟩
  · rintro ⟨hno, -⟩
    exact absurd hno (by decide)
  · rintro ⟨-, fine, entry, htable, -, hne⟩
    obtain ⟨rfl, rfl⟩ := FirstLevel.table.inj (hfirst.symm.trans htable)
    exact hne rfl

/-- The second subpage of the 4K page may be read, but the bits of the first one are looked at. -/
theorem getPhysAddrV5_secondSubpage :
    clientState.translate (coarseTable 0x20c2#32) 0x400#32 .read true = .ok 0x2400#32 ∧
      clientState.getPhysAddrV5 (coarseTable 0x20c2#32) 0x400#32 .read true = .error 0x1f#32 ∧
      ¬ SameStatus (clientState.getPhysAddrV5 (coarseTable 0x20c2#32) 0x400#32 .read true)
        (clientState.translate (coarseTable 0x20c2#32) 0x400#32 .read true) :=
  ⟨rfl, rfl, fun h => h⟩

end MmuState

end Emulator.Arm
