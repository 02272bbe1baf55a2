import Emulator.Lib.Buffer
import Emulator.Savevm.File

/-!
# Saving and loading the state of the virtual machine

The list of registered devices and the loops over it of `savevm.c`. `σ` is the state of
the whole machine: a handler may look at and change any of it. A handler that loads is a
`Prog`; one that saves gives the bytes that it writes.
-/

namespace Emulator.Savevm

variable {σ : Type}

structure SaveStateEntry (σ : Type) where
  idstr : List UInt8
  instanceId : BitVec 32
  versionId : BitVec 32
  sectionId : BitVec 32
  saveLiveState : Option (UInt8 → ℕ → σ → ℤ × List UInt8 × σ)
  saveState : Option (ℕ → σ → List UInt8 × σ)
  loadState : ℕ → BitVec 32 → σ → Prog (ℤ × σ)
  opaquePtr : ℕ

/-- `first_se` and the counter of `register_savevm_live`. -/
structure Registry (σ : Type) where
  firstSe : List (SaveStateEntry σ)
  globalSectionId : BitVec 32

/-- The arguments of `register_savevm_live`. -/
structure Registration (σ : Type) where
  idstr : List UInt8
  instanceId : BitVec 32
  versionId : BitVec 32
  saveLiveState : Option (UInt8 → ℕ → σ → ℤ × List UInt8 × σ)
  saveState : Option (ℕ → σ → List UInt8 × σ)
  loadState : ℕ → BitVec 32 → σ → Prog (ℤ × σ)
  opaquePtr : ℕ

/-- `pstrcpy`: what fits into the buffer with its final zero. -/
def pstrcpy (bufSize : ℕ) (str : List UInt8) : List UInt8 := (cstr str).take (bufSize - 1)

/-- The loop over the list for `instance_id == -1`: the number after those of the same name. -/
def newInstanceId (idstr : List UInt8) (instanceId : BitVec 32) (es : List (SaveStateEntry σ)) : BitVec 32 :=
  es.foldl (fun id se => if idstr = se.idstr ∧ id.sle se.instanceId then se.instanceId + 1 else id) instanceId

def registerSavevmLive (reg : Registry σ) (r : Registration σ) : Registry σ :=
  let idstr := pstrcpy 256 r.idstr
  let se : SaveStateEntry σ := {
    idstr := idstr
    instanceId := if r.instanceId = -1 then newInstanceId idstr 0 reg.firstSe else r.instanceId
    versionId := r.versionId
    sectionId := reg.globalSectionId
    saveLiveState := r.saveLiveState
    saveState := r.saveState
    loadState := r.loadState
    opaquePtr := r.opaquePtr }
  ⟨reg.firstSe ++ [se], reg.globalSectionId + 1⟩

def registerSavevm (reg : Registry σ) (r : Registration σ) : Registry σ :=
  registerSavevmLive reg { r with saveLiveState := none }

/-- The devices after a list of registrations. -/
def registered (rs : List (Registration σ)) : List (SaveStateEntry σ) :=
  (rs.foldl registerSavevmLive ⟨[], 0⟩).firstSe

def vmFileMagic : BitVec 32 := 0x5145564d

def vmFileVersionCompat : BitVec 32 := 2

def vmFileVersion : BitVec 32 := 3

def vmEof : UInt8 := 0

def vmSectionStart : UInt8 := 1

def vmSectionPart : UInt8 := 2

def vmSectionEnd : UInt8 := 3

def vmSectionFull : UInt8 := 4

/-- `qemu_put_be32`. -/
def putBe32 (v : BitVec 32) : List UInt8 :=
  [⟨v.extractLsb' 24 8⟩, ⟨v.extractLsb' 16 8⟩, ⟨v.extractLsb' 8 8⟩, ⟨v.extractLsb' 0 8⟩]

/-- A section as it is written: what comes before the bytes of the handler, and these. -/
structure Section (σ : Type) where
  entry : SaveStateEntry σ
  head : List UInt8
  data : List UInt8
  ret : ℤ

def Section.bytes (sec : Section σ) : List UInt8 := sec.head ++ sec.data

/-- Section type, section id and the identification of the device. -/
def fullHead (type : UInt8) (se : SaveStateEntry σ) : List UInt8 :=
  [type] ++ putBe32 se.sectionId ++ [.ofNat se.idstr.length] ++ se.idstr ++ putBe32 se.instanceId ++
    putBe32 se.versionId

def partHead (type : UInt8) (se : SaveStateEntry σ) : List UInt8 := [type] ++ putBe32 se.sectionId

/-- A loop over the devices: the sections of those that `save` has something for. -/
def saveLoop (head : SaveStateEntry σ → List UInt8)
    (save : SaveStateEntry σ → Option (σ → ℤ × List UInt8 × σ)) :
    List (SaveStateEntry σ) → σ → List (Section σ) × σ
  | [], s => ([], s)
  | se :: es, s =>
    match save se with
    | none => saveLoop head save es s
    | some f =>
      let (ret, data, s) := f s
      let (secs, s) := saveLoop head save es s
      (⟨se, head se, data, ret⟩ :: secs, s)

/-- `se->save_live_state (f, stage, se->opaque)`. -/
def liveAt (stage : UInt8) (se : SaveStateEntry σ) : Option (σ → ℤ × List UInt8 × σ) :=
  se.saveLiveState.map fun f => f stage se.opaquePtr

/-- `se->save_state (f, se->opaque)`. -/
def fullSave (se : SaveStateEntry σ) : Option (σ → ℤ × List UInt8 × σ) :=
  se.saveState.map fun f s => (0, f se.opaquePtr s)

/-- Without the eight bytes of magic and version. -/
def qemuSavevmStateBegin (es : List (SaveStateEntry σ)) (s : σ) : List (Section σ) × σ :=
  saveLoop (fullHead vmSectionStart) (liveAt vmSectionStart) es s

def qemuSavevmStateIterate (es : List (SaveStateEntry σ)) (s : σ) : ℤ × List (Section σ) × σ :=
  let (secs, s) := saveLoop (partHead vmSectionPart) (liveAt vmSectionPart) es s
  (if secs.all fun sec => sec.ret ≠ 0 then 1 else 0, secs, s)

/-- Without the final byte. -/
def qemuSavevmStateComplete (es : List (SaveStateEntry σ)) (s : σ) : List (Section σ) × σ :=
  let (ends, s) := saveLoop (partHead vmSectionEnd) (liveAt vmSectionEnd) es s
  let (fulls, s) := saveLoop (fullHead vmSectionFull) fullSave es s
  (ends ++ fulls, s)

/-- Any number of rounds of `qemu_savevm_state_iterate`. -/
def iterateRounds (es : List (SaveStateEntry σ)) : ℕ → σ → List (Section σ) × σ
  | 0, s => ([], s)
  | n + 1, s =>
    let (_, secs, s) := qemuSavevmStateIterate es s
    let (more, s) := iterateRounds es n s
    (secs ++ more, s)

/-- The sections of a whole state, with `rounds` rounds. -/
def savedSections (es : List (SaveStateEntry σ)) (rounds : ℕ) (s : σ) : List (Section σ) :=
  let (starts, s) := qemuSavevmStateBegin es s
  let (parts, s) := iterateRounds es rounds s
  starts ++ parts ++ (qemuSavevmStateComplete es s).1

/-- The bytes of a whole state. -/
def savedBytes (es : List (SaveStateEntry σ)) (rounds : ℕ) (s : σ) : List UInt8 :=
  putBe32 vmFileMagic ++ putBe32 vmFileVersion ++ (savedSections es rounds s).flatMap Section.bytes ++ [vmEof]

def findSe (es : List (SaveStateEntry σ)) (idstr : List UInt8) (instanceId : BitVec 32) :
    Option (SaveStateEntry σ) :=
  es.find? fun se => se.idstr = idstr ∧ instanceId = se.instanceId

structure LoadStateEntry (σ : Type) where
  se : SaveStateEntry σ
  sectionId : BitVec 32
  versionId : BitVec 32

/-- A call of a `load_state` handler and what it returned. -/
structure LoadCall (σ : Type) where
  loadState : ℕ → BitVec 32 → σ → Prog (ℤ × σ)
  opaquePtr : ℕ
  versionId : BitVec 32
  ret : ℤ

/-- What a load returns, the calls it made and the state it leaves; `none` if it has not come to its end. -/
abbrev Loaded (σ : Type) := Option (ℤ × List (LoadCall σ) × σ)

def eio : ℤ := 5

def einval : ℤ := 22

def enotsup : ℤ := 95

/-- The array `idstr` after `len` bytes have been asked for and the byte behind them has been set to 0: behind those
that came, it holds what it held before. -/
def idArray (stack : ℕ → UInt8) (len : ℕ) (got : List UInt8) : ℕ → UInt8 :=
  fun i => if i = len then 0 else got.getD i (stack i)

/-- What identifies a device in the stream: its name and its instance number. The array is given as well. -/
def getDevice (stack : ℕ → UInt8) : Prog ((ℕ → UInt8) × List UInt8 × BitVec 32) := do
  let len ← getByte
  let got ← getBuffer len.toNat
  let idstr := idArray stack len.toNat got
  let instanceId ← getBe32
  return (idstr, cstr ((List.range len.toNat).map idstr), instanceId)

/-- The records of a version 2 stream. The array of the names is the one of the function: it goes on to the next
record. -/
def loadRecords (es : List (SaveStateEntry σ)) (endPos : ℤ) :
    ℕ → (ℕ → UInt8) → List (LoadCall σ) → σ → Prog (Loaded σ)
  | 0, _, _, _ => return none
  | fuel + 1, stack, calls, s => do
    let pos ← ftell
    if endPos ≤ pos then
      let error ← hasError
      return some (if error then -eio else 0, calls, s)
    else
      let (stack, idstr, instanceId) ← getDevice stack
      let versionId ← getBe32
      let recordLen ← getBe32
      let curPos ← ftell
      match findSe es idstr instanceId with
      | none =>
        fseek (curPos + recordLen.toInt)
        loadRecords es endPos fuel stack calls s
      | some se =>
        let (ret, s) ← se.loadState se.opaquePtr versionId s
        let calls := calls ++ [⟨se.loadState, se.opaquePtr, versionId, ret⟩]
        if ret < 0 then return some (ret, calls, s)
        else
          fseek (curPos + recordLen.toInt)
          loadRecords es endPos fuel stack calls s

def qemuLoadvmStateV2 (stack : ℕ → UInt8) (es : List (SaveStateEntry σ)) (fuel : ℕ) (s : σ) : Prog (Loaded σ) := do
  let totalLen ← getBe64
  let pos ← ftell
  loadRecords es (totalLen + BitVec.ofInt 64 pos).toInt fuel stack [] s

/-- The label `out`. -/
def loadDone (ret : ℤ) (calls : List (LoadCall σ)) (s : σ) : Prog (Loaded σ) := do
  let error ← hasError
  return some (if error then -eio else ret, calls, s)

/-- The sections of a version 3 stream. The array of a name is declared inside of the loop. -/
def loadSections (stack : ℕ → UInt8) (es : List (SaveStateEntry σ)) :
    ℕ → List (LoadStateEntry σ) → List (LoadCall σ) → σ → Prog (Loaded σ)
  | 0, _, _, _ => return none
  | fuel + 1, les, calls, s => do
    let sectionType ← getByte
    if sectionType = vmEof then loadDone 0 calls s
    else if sectionType = vmSectionStart ∨ sectionType = vmSectionFull then
      let sectionId ← getBe32
      let (_, idstr, instanceId) ← getDevice stack
      let versionId ← getBe32
      match findSe es idstr instanceId with
      | none => loadDone (-einval) calls s
      | some se =>
        -- `version_id` is unsigned here, so the comparison is
        if se.versionId < versionId then loadDone (-einval) calls s
        else
          let (ret, s) ← se.loadState se.opaquePtr versionId s
          loadSections stack es fuel (⟨se, sectionId, versionId⟩ :: les)
            (calls ++ [⟨se.loadState, se.opaquePtr, versionId, ret⟩]) s
    else if sectionType = vmSectionPart ∨ sectionType = vmSectionEnd then
      let sectionId ← getBe32
      match les.find? fun le => le.sectionId = sectionId with
      | none => loadDone (-einval) calls s
      | some le =>
        let (ret, s) ← le.se.loadState le.se.opaquePtr le.versionId s
        loadSections stack es fuel les (calls ++ [⟨le.se.loadState, le.se.opaquePtr, le.versionId, ret⟩]) s
    else loadDone (-einval) calls s

def qemuLoadvmState (stack : ℕ → UInt8) (es : List (SaveStateEntry σ)) (fuel : ℕ) (s : σ) : Prog (Loaded σ) := do
  let v ← getBe32
  if v ≠ vmFileMagic then return some (-einval, [], s)
  else
    let v ← getBe32
    if v = vmFileVersionCompat then qemuLoadvmStateV2 stack es fuel s
    else if v ≠ vmFileVersion then return some (-enotsup, [], s)
    else loadSections stack es fuel [] [] s

end Emulator.Savevm
