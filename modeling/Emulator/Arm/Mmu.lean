import Mathlib.Data.Nat.Notation

/-!
# The page-table walk (`get_phys_addr` of `target-arm/helper.c`)

The walk finds the physical address of an access and the protection of its page, or the code of
a fault. It is written for one kind of access: an access that is refused ends in a fault, and what
the protection says of other kinds is for the TLB.

* A word is a `BitVec 32`. The memory that the walk reads is a function `ldl` (`ldl_phys`).
* `walkV5` and `walkV6` are the two walks up to the tests of the access, with what the tests
  need in a `Mapping`.
* A fault is an `Except.error` with the value that the source returns.
-/

namespace Emulator.Arm

/-- `uint32_t`. -/
abbrev Word := BitVec 32

/-- `access_type`: 0, 1 and 2. -/
inductive AccessType
  | read
  | write
  | fetch
  deriving DecidableEq, Repr

def pageRead : Word := 1
def pageWrite : Word := 2
def pageExec : Word := 4

/-- The registers of coprocessor 15 that the walk reads or a fault writes. -/
structure Cp15 where
  c1Sys : Word
  c2Base0 : Word
  c2Base1 : Word
  c2Mask : Word
  c2BaseMask : Word
  c3 : Word
  c5Insn : Word
  c5Data : Word
  c6Region : Fin 8 → Word
  c6Insn : Word
  c6Data : Word
  c13Fcse : Word
  /-- `set_cp15` stores `~(0xffffffff >> val)` with `val` at most 7. -/
  c2Mask_high : c2Mask &&& 0x3ff#32 = 0

/-- The features that the walk asks for. -/
structure Features where
  v6 : Bool
  v7 : Bool
  xscale : Bool
  mpu : Bool

/-- What the walk reads of `CPUState`. -/
structure MmuState where
  cp15 : Cp15
  features : Features

namespace MmuState

/-- `check_ap`. -/
def checkAp (env : MmuState) (ap : ℕ) (domain : Word) (accessType : AccessType) (isUser : Bool) : Word :=
  if domain = 3 then pageRead ||| pageWrite
  else
    let protRo := if accessType = .write then 0 else pageRead
    match ap with
    | 0 =>
      if accessType = .write then 0
      else
        match ((env.cp15.c1Sys >>> 8) &&& 3#32).toNat with
        | 1 => if isUser then 0 else pageRead
        | 2 => pageRead
        | _ => 0
    | 1 => if isUser then 0 else pageRead ||| pageWrite
    | 2 => if isUser then protRo else pageRead ||| pageWrite
    | 3 => pageRead ||| pageWrite
    | 4 => 0
    | 5 => if isUser then 0 else protRo
    | 6 => protRo
    | 7 => if !env.features.v7 then 0 else protRo
    -- `abort`, for a number of more than three bits
    | _ => 0

/-- `get_level1_table_address`. -/
def getLevel1TableAddress (env : MmuState) (address : Word) : Word :=
  let table :=
    if address &&& env.cp15.c2Mask ≠ 0 then env.cp15.c2Base1 &&& 0xffffc000#32
    else env.cp15.c2Base0 &&& env.cp15.c2BaseMask
  table ||| ((address >>> 18) &&& 0x3ffc#32)

/-- What a walk finds. -/
structure Mapping where
  physAddr : Word
  ap : ℕ
  xn : Bool
  domain : Word
  /-- The code of a permission fault. -/
  code : Word
  deriving DecidableEq, Repr

/-- `do_fault`. -/
def fault (code domain : Word) : Except Word α := .error (code ||| (domain <<< 4))

/-- The second level of `get_phys_addr_v5`: `desc` is the entry, and `type` that of the table. -/
def pageV5 (env : MmuState) (type desc domain address : Word) : Except Word Mapping :=
  match (desc &&& 3#32).toNat with
  | 0 => fault 7 domain
  | 1 =>
    -- 64k page
    .ok {
      physAddr := (desc &&& 0xffff0000#32) ||| (address &&& 0xffff#32)
      ap := ((desc >>> (4#32 + ((address >>> 13) &&& 6#32))) &&& 3#32).toNat
      xn := false
      domain := domain
      code := 15 }
  | 2 =>
    -- 4k page
    .ok {
      physAddr := (desc &&& 0xfffff000#32) ||| (address &&& 0xfff#32)
      ap := ((desc >>> (4#32 + ((address >>> 13) &&& 6#32))) &&& 3#32).toNat
      xn := false
      domain := domain
      code := 15 }
  | _ =>
    -- 1k page
    if type = 1 ∧ !env.features.xscale then fault 7 domain
    else
      .ok {
        physAddr :=
          if type = 1 then (desc &&& 0xfffff000#32) ||| (address &&& 0xfff#32)
          else (desc &&& 0xfffffc00#32) ||| (address &&& 0x3ff#32)
        ap := ((desc >>> 4) &&& 3#32).toNat
        xn := false
        domain := domain
        code := 15 }

/-- The walk of `get_phys_addr_v5`. -/
def walkV5 (env : MmuState) (ldl : Word → Word) (address : Word) : Except Word Mapping :=
  let table := env.getLevel1TableAddress address
  let desc := ldl table
  let type := desc &&& 3#32
  let domain := (env.cp15.c3 >>> ((desc >>> 4) &&& 0x1e#32)) &&& 3#32
  if type = 0 then fault 5 domain
  else if domain = 0 ∨ domain = 2 then
    if type = 2 then fault 9 domain else fault 11 domain
  else if type = 2 then
    -- 1Mb section
    .ok {
      physAddr := (desc &&& 0xfff00000#32) ||| (address &&& 0x000fffff#32)
      ap := ((desc >>> 10) &&& 3#32).toNat
      xn := false
      domain := domain
      code := 13 }
  else
    let table :=
      if type = 1 then (desc &&& 0xfffffc00#32) ||| ((address >>> 10) &&& 0x3fc#32)
      else (desc &&& 0xfffff000#32) ||| ((address >>> 8) &&& 0xffc#32)
    env.pageV5 type (ldl table) domain address

/-- The second level of `get_phys_addr_v6`. -/
def pageV6 (desc domain address : Word) : Except Word Mapping :=
  let ap := (((desc >>> 4) &&& 3#32) ||| ((desc >>> 7) &&& 4#32)).toNat
  match (desc &&& 3#32).toNat with
  | 0 => fault 7 domain
  | 1 =>
    -- 64k page
    .ok {
      physAddr := (desc &&& 0xffff0000#32) ||| (address &&& 0xffff#32)
      ap := ap
      xn := desc &&& (1#32 <<< 15) ≠ 0
      domain := domain
      code := 15 }
  | _ =>
    -- 4k page
    .ok {
      physAddr := (desc &&& 0xfffff000#32) ||| (address &&& 0xfff#32)
      ap := ap
      xn := desc &&& 1#32 ≠ 0
      domain := domain
      code := 15 }

/-- The walk of `get_phys_addr_v6`. -/
def walkV6 (env : MmuState) (ldl : Word → Word) (address : Word) : Except Word Mapping :=
  let table := env.getLevel1TableAddress address
  let desc := ldl table
  let type := desc &&& 3#32
  let supersection := desc &&& (1#32 <<< 18) ≠ 0
  if type = 0 then fault 5 0
  else
    let domain : Word := if type = 2 ∧ supersection then 0 else (desc >>> 4) &&& 0x1e#32
    let domain := (env.cp15.c3 >>> domain) &&& 3#32
    if domain = 0 ∨ domain = 2 then
      if type = 2 then fault 9 domain else fault 11 domain
    else if type = 2 then
      .ok {
        physAddr :=
          if supersection then (desc &&& 0xff000000#32) ||| (address &&& 0x00ffffff#32)
          else (desc &&& 0xfff00000#32) ||| (address &&& 0x000fffff#32)
        ap := (((desc >>> 10) &&& 3#32) ||| ((desc >>> 13) &&& 4#32)).toNat
        xn := desc &&& (1#32 <<< 4) ≠ 0
        domain := domain
        code := 13 }
    else
      let table := (desc &&& 0xfffffc00#32) ||| ((address >>> 10) &&& 0x3fc#32)
      pageV6 (ldl table) domain address

/-- The end of both functions: `check_ap`, and the physical address. -/
def checkAccess (env : MmuState) (mapping : Mapping) (accessType : AccessType) (isUser : Bool) :
    Except Word (Word × Word) :=
  let prot := env.checkAp mapping.ap mapping.domain accessType isUser
  if prot = 0 then fault mapping.code mapping.domain else .ok (mapping.physAddr, prot)

/-- `get_phys_addr_v5`: the physical address and the protection. -/
def getPhysAddrV5 (env : MmuState) (ldl : Word → Word) (address : Word) (accessType : AccessType) (isUser : Bool) :
    Except Word (Word × Word) := do
  let mapping ← env.walkV5 ldl address
  env.checkAccess mapping accessType isUser

/-- `get_phys_addr_v6`. -/
def getPhysAddrV6 (env : MmuState) (ldl : Word → Word) (address : Word) (accessType : AccessType) (isUser : Bool) :
    Except Word (Word × Word) := do
  let mapping ← env.walkV6 ldl address
  if mapping.xn && accessType == .fetch then fault mapping.code mapping.domain
  -- AP[0] is the access flag
  else if env.cp15.c1Sys &&& (1#32 <<< 29) ≠ 0 ∧ mapping.ap % 2 = 0 then
    fault (if mapping.code = 15 then 6 else 3) mapping.domain
  else env.checkAccess mapping accessType isUser

/-- The loop of `get_phys_addr_mpu` starts behind the last region. -/
theorem regions_le : 8 ≤ 8 := Nat.le_refl 8

/-- The loop of `get_phys_addr_mpu` over the regions below `n`, from the last one. -/
def findRegion (env : MmuState) (address : Word) : (n : ℕ) → n ≤ 8 → Option (Fin 8)
  | 0, _ => none
  | n + 1, h =>
    let base := env.cp15.c6Region ⟨n, h⟩
    let mask : Word := 1#32 <<< ((base >>> 1) &&& 0x1f#32).toNat
    let mask := (mask <<< 1) - 1
    if base &&& 1#32 ≠ 0 ∧ (base ^^^ address) &&& ~~~ mask = 0 then some ⟨n, h⟩
    else env.findRegion address n (by omega)

/-- `get_phys_addr_mpu`. -/
def getPhysAddrMpu (env : MmuState) (address : Word) (accessType : AccessType) (isUser : Bool) :
    Except Word (Word × Word) :=
  match env.findRegion address 8 regions_le with
  | none => .error 2
  | some n =>
    let mask := if accessType = .fetch then env.cp15.c5Insn else env.cp15.c5Data
    match ((mask >>> (n.val * 4)) &&& 0xf#32).toNat with
    | 0 => .error 1
    | 1 => if isUser then .error 1 else .ok (address, pageRead ||| pageWrite)
    | 2 => .ok (address, if isUser then pageRead else pageRead ||| pageWrite)
    | 3 => .ok (address, pageRead ||| pageWrite)
    | 5 => if isUser then .error 1 else .ok (address, pageRead)
    | 6 => .ok (address, pageRead)
    | _ => .error 1

/-- Fast Context Switch Extension: the modified virtual address. -/
def modifiedAddress (env : MmuState) (address : Word) : Word :=
  if address < 0x02000000#32 then address + env.cp15.c13Fcse else address

/-- `get_phys_addr`. -/
def getPhysAddr (env : MmuState) (ldl : Word → Word) (address : Word) (accessType : AccessType) (isUser : Bool) :
    Except Word (Word × Word) :=
  let address := env.modifiedAddress address
  if env.cp15.c1Sys &&& 1#32 = 0 then .ok (address, pageRead ||| pageWrite)
  else if env.features.mpu then env.getPhysAddrMpu address accessType isUser
  else if env.cp15.c1Sys &&& (1#32 <<< 23) ≠ 0 then env.getPhysAddrV6 ldl address accessType isUser
  else env.getPhysAddrV5 ldl address accessType isUser

end MmuState

end Emulator.Arm
