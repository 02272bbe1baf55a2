import Mathlib
import Emulator.Savevm.RoundTrip

/-!
# Streams that are reported as loaded

`Sections` and `Records` say which streams of version 3 and 2 are there from a position on,
without the code that reads them: the bytes are present and the handlers have been asked.

* `loadSections_sound`, `loadSections_complete`: the loop of version 3 returns 0 on these streams and on no others.
* `loadRecords_sound`, `loadRecords_complete`: the same for version 2.
* `loadvm_iff`: a bad stream is reported as loaded if a handler of a version 3 stream fails, or a version 2
  stream goes on behind the last byte.
-/

namespace Emulator.Savevm

open Prog List

variable {σ : Type} {es : List (SaveStateEntry σ)} {bytes : List UInt8}

/-- The bytes `l` are there at `pos`, and `q` is behind them. -/
def ReadAt (bytes : List UInt8) (pos : ℤ) (l : List UInt8) (q : ℤ) : Prop :=
  (∃ rest, bytesAt bytes pos = l ++ rest) ∧ q = pos + l.length

/-- The identification of a device: the length of its name, the name and the instance number. -/
def deviceBytes (name : List UInt8) (instanceId : BitVec 32) : List UInt8 :=
  [.ofNat name.length] ++ (name ++ putBe32 instanceId)

/-- The sections from a position to the final byte, with the calls of the handlers and the position behind it. -/
inductive Sections (es : List (SaveStateEntry σ)) (bytes : List UInt8) :
    ℤ → List (LoadStateEntry σ) → σ → List (LoadCall σ) → ℤ → σ → Prop
  | eof {pos les s fin} (present : ReadAt bytes pos [vmEof] fin) : Sections es bytes pos les s [] fin s
  | full {pos les s type sectionId name instanceId versionId cur se ret s' next calls fin t}
      (htype : type = vmSectionStart ∨ type = vmSectionFull) (hname : name.length ≤ 255)
      (present : ReadAt bytes pos ([type] ++ (putBe32 sectionId ++ (deviceBytes name instanceId ++
        putBe32 versionId))) cur)
      (known : findSe es (cstr name) instanceId = some se) (hversion : versionId ≤ se.versionId)
      (load : (se.loadState se.opaquePtr versionId s).ideal bytes cur = some ((ret, s'), next))
      (more : Sections es bytes next (⟨se, sectionId, versionId⟩ :: les) s' calls fin t) :
      Sections es bytes pos les s (⟨se.loadState, se.opaquePtr, versionId, ret⟩ :: calls) fin t
  | part {pos les s type sectionId cur le ret s' next calls fin t}
      (htype : type = vmSectionPart ∨ type = vmSectionEnd)
      (present : ReadAt bytes pos ([type] ++ putBe32 sectionId) cur)
      (known : les.find? (fun le => le.sectionId = sectionId) = some le)
      (load : (le.se.loadState le.se.opaquePtr le.versionId s).ideal bytes cur = some ((ret, s'), next))
      (more : Sections es bytes next les s' calls fin t) :
      Sections es bytes pos les s (⟨le.se.loadState, le.se.opaquePtr, le.versionId, ret⟩ :: calls) fin t

/-- The records from a position to one at or behind `endPos`. A record may say that it goes on behind the last byte. -/
inductive Records (es : List (SaveStateEntry σ)) (bytes : List UInt8) (endPos : ℤ) :
    ℤ → σ → List (LoadCall σ) → ℤ → σ → Prop
  | stop {pos s} (hend : endPos ≤ pos) : Records es bytes endPos pos s [] pos s
  | skip {pos s name instanceId versionId recordLen cur calls fin t} (hpos : pos < endPos)
      (hname : name.length ≤ 255)
      (present : ReadAt bytes pos (deviceBytes name instanceId ++ (putBe32 versionId ++ putBe32 recordLen)) cur)
      (unknown : findSe es (cstr name) instanceId = none)
      (more : Records es bytes endPos (cur + recordLen.toInt) s calls fin t) :
      Records es bytes endPos pos s calls fin t
  | load {pos s name instanceId versionId recordLen cur se ret s' next calls fin t} (hpos : pos < endPos)
      (hname : name.length ≤ 255)
      (present : ReadAt bytes pos (deviceBytes name instanceId ++ (putBe32 versionId ++ putBe32 recordLen)) cur)
      (known : findSe es (cstr name) instanceId = some se)
      (load : (se.loadState se.opaquePtr versionId s).ideal bytes cur = some ((ret, s'), next)) (hret : 0 ≤ ret)
      (more : Records es bytes endPos (cur + recordLen.toInt) s' calls fin t) :
      Records es bytes endPos pos s (⟨se.loadState, se.opaquePtr, versionId, ret⟩ :: calls) fin t

/-- A whole stream of version 3. -/
def Stream3 (es : List (SaveStateEntry σ)) (bytes : List UInt8) (s : σ) (calls : List (LoadCall σ)) (fin : ℤ) (t : σ) :
    Prop :=
  ∃ start, ReadAt bytes 0 (putBe32 vmFileMagic ++ putBe32 vmFileVersion) start ∧
    Sections es bytes start [] s calls fin t

/-- A whole stream of version 2: the records up to the end that it declares. -/
def Stream2 (es : List (SaveStateEntry σ)) (bytes : List UInt8) (s : σ) (calls : List (LoadCall σ)) (fin : ℤ) (t : σ) :
    Prop :=
  ∃ (hi lo : BitVec 32) (start : ℤ),
    ReadAt bytes 0 (putBe32 vmFileMagic ++ (putBe32 vmFileVersionCompat ++ (putBe32 hi ++ putBe32 lo))) start ∧
      Records es bytes (hi ++ lo + BitVec.ofInt 64 start : BitVec 64).toInt start s calls fin t

theorem bind_ideal {α β : Type} {p : Prog α} {k : α → Prog β} {pos : ℤ} {r : β × ℤ} :
    (p >>= k).ideal bytes pos = some r ↔ ∃ a q, p.ideal bytes pos = some (a, q) ∧ (k a).ideal bytes q = some r := by
  rw [ideal_bind, Option.bind_eq_some_iff]
  constructor
  · rintro ⟨⟨a, q⟩, h1, h2⟩
    exact ⟨a, q, h1, h2⟩
  · rintro ⟨a, q, h1, h2⟩
    exact ⟨(a, q), h1, h2⟩

theorem readAt_append {l l' : List UInt8} {pos r : ℤ} :
    ReadAt bytes pos (l ++ l') r ↔ ∃ q, ReadAt bytes pos l q ∧ ReadAt bytes q l' r := by
  have hright : ∀ {rest}, bytesAt bytes pos = l ++ rest → bytesAt bytes (pos + l.length) = rest := by
    intro rest h
    rw [bytesAt_add (by rw [h]; simp), h, drop_left]
  constructor
  · rintro ⟨⟨rest, hrest⟩, rfl⟩
    rw [append_assoc] at hrest
    refine ⟨pos + l.length, ⟨⟨_, hrest⟩, rfl⟩, ⟨rest, hright hrest⟩, ?_⟩
    rw [length_append]
    push_cast
    ring
  · rintro ⟨q, ⟨⟨rest, hrest⟩, rfl⟩, ⟨rest', hrest'⟩, rfl⟩
    rw [hright hrest] at hrest'
    refine ⟨⟨rest', by rw [hrest, hrest', append_assoc]⟩, ?_⟩
    rw [length_append]
    push_cast
    ring

variable {pos q : ℤ}

theorem Prog.Takes.ideal_readAt {α : Type} {p : Prog α} {l : List UInt8} {a : α} (h : p.Takes l a)
    (hb : ReadAt bytes pos l q) : p.ideal bytes pos = some (a, q) := by
  obtain ⟨⟨rest, hrest⟩, rfl⟩ := hb
  exact h bytes pos rest hrest

theorem getByte_ideal {b : UInt8} : getByte.ideal bytes pos = some (b, q) ↔ ReadAt bytes pos [b] q := by
  refine ⟨fun h => ?_, (getByte_takes b).ideal_readAt⟩
  unfold getByte Prog.ideal at h
  split at h
  · exact absurd h (by simp)
  · rename_i c rest hc
    obtain ⟨rfl, rfl⟩ := Prod.mk.inj (Option.some.inj h)
    exact ⟨⟨rest, hc⟩, rfl⟩

theorem getBuffer_ideal {n : ℕ} {l : List UInt8} (h : (getBuffer n).ideal bytes pos = some (l, q)) :
    ReadAt bytes pos l q ∧ l.length = n := by
  unfold getBuffer Prog.ideal at h
  split_ifs at h with hn
  obtain ⟨rfl, rfl⟩ := Prod.mk.inj (Option.some.inj h)
  have hlen : ((bytesAt bytes pos).take n).length = n := length_take_of_le hn
  refine ⟨⟨⟨(bytesAt bytes pos).drop n, (take_append_drop n _).symm⟩, ?_⟩, hlen⟩
  rw [hlen]

theorem putBe32_append (a b c d : BitVec 8) : putBe32 (a ++ b ++ c ++ d) = [⟨a⟩, ⟨b⟩, ⟨c⟩, ⟨d⟩] := by
  have hbit : ∀ (x y : BitVec 8), (∀ i < 8, x.getLsbD i = y.getLsbD i) → (⟨x⟩ : UInt8) = ⟨y⟩ := by
    intro x y h
    rw [BitVec.eq_of_getLsbD_eq h]
  unfold putBe32
  rw [List.cons.injEq, List.cons.injEq, List.cons.injEq, List.cons.injEq]
  refine ⟨hbit _ _ fun i hi => ?_, hbit _ _ fun i hi => ?_, hbit _ _ fun i hi => ?_, hbit _ _ fun i hi => ?_, rfl⟩ <;>
  · simp only [BitVec.getLsbD_extractLsb', BitVec.getLsbD_append]
    rw [show decide (i < 8) = true from decide_eq_true hi, Bool.true_and]
    split_ifs <;> first | omega | (congr 1; omega)

theorem getBe32_ideal {v : BitVec 32} :
    getBe32.ideal bytes pos = some (v, q) ↔ ReadAt bytes pos (putBe32 v) q := by
  refine ⟨fun h => ?_, (getBe32_takes v).ideal_readAt⟩
  unfold getBe32 at h
  obtain ⟨b₃, q₃, h₃, h⟩ := bind_ideal.1 h
  obtain ⟨b₂, q₂, h₂, h⟩ := bind_ideal.1 h
  obtain ⟨b₁, q₁, h₁, h⟩ := bind_ideal.1 h
  obtain ⟨b₀, q₀, h₀, h⟩ := bind_ideal.1 h
  rw [ideal_pure] at h
  obtain ⟨rfl, rfl⟩ := Prod.mk.inj (Option.some.inj h)
  rw [putBe32_append]
  have h₁₀ := readAt_append.2 ⟨q₁, getByte_ideal.1 h₁, getByte_ideal.1 h₀⟩
  have h₂₀ := readAt_append.2 ⟨q₂, getByte_ideal.1 h₂, h₁₀⟩
  exact readAt_append.2 ⟨q₃, getByte_ideal.1 h₃, h₂₀⟩

theorem getDevice_ideal {stack idstr : ℕ → UInt8} {name : List UInt8} {instanceId : BitVec 32} :
    (getDevice stack).ideal bytes pos = some ((idstr, name, instanceId), q) ↔
      ∃ got, got.length ≤ 255 ∧ cstr got = name ∧ idArray stack got.length got = idstr ∧
        ReadAt bytes pos (deviceBytes got instanceId) q := by
  constructor
  · intro h
    unfold getDevice at h
    obtain ⟨len, q₁, hlen, h⟩ := bind_ideal.1 h
    obtain ⟨got, q₂, hgot, h⟩ := bind_ideal.1 h
    obtain ⟨inst, q₃, hinst, h⟩ := bind_ideal.1 h
    rw [ideal_pure] at h
    obtain ⟨heq, rfl⟩ := Prod.mk.inj (Option.some.inj h)
    obtain ⟨hidstr, hname⟩ := Prod.mk.inj heq
    obtain ⟨rfl, rfl⟩ := Prod.mk.inj hname
    obtain ⟨hread, hn⟩ := getBuffer_ideal hgot
    rw [← hn] at hidstr ⊢
    have hbound := len.toNat_lt
    have hlen' := getByte_ideal.1 hlen
    rw [show len = .ofNat got.length by rw [hn]; simp] at hlen'
    exact ⟨got, by omega, by rw [idArray_full], hidstr,
      readAt_append.2 ⟨q₁, hlen', readAt_append.2 ⟨q₂, hread, getBe32_ideal.1 hinst⟩⟩⟩
  · rintro ⟨got, hgot, rfl, rfl, hread⟩
    exact (getDevice_takes hgot instanceId).ideal_readAt hread

variable {calls : List (LoadCall σ)}

theorem loadDone_ideal {ret : ℤ} {s : σ} {pos : ℤ} :
    (loadDone ret calls s).ideal bytes pos = some (some (ret, calls, s), pos) := rfl

theorem loaded_inj {ret ret' : ℤ} {calls calls' : List (LoadCall σ)} {s s' : σ} {pos pos' : ℤ}
    (h : (some (some (ret, calls, s), pos) : Option (Loaded σ × ℤ)) = some (some (ret', calls', s'), pos')) :
    ret = ret' ∧ calls = calls' ∧ s = s' ∧ pos = pos' := by
  simpa [and_assoc] using h

variable {s t : σ} {les : List (LoadStateEntry σ)} {stack : ℕ → UInt8}

/-- The loop returns 0 only at the end of a stream of sections. -/
theorem loadSections_sound {fuel : ℕ} {before calls : List (LoadCall σ)} {pos fin : ℤ}
    (h : (loadSections stack es fuel les before s).ideal bytes pos = some (some (0, calls, t), fin)) :
    ∃ new, calls = before ++ new ∧ Sections es bytes pos les s new fin t := by
  induction fuel generalizing les before s pos with
  | zero => exact absurd h (by simp [loadSections, ideal_pure])
  | succ fuel ih =>
    have hfail : ∀ {q : ℤ}, (loadDone (-einval) before s).ideal bytes q ≠ some (some (0, calls, t), fin) := by
      intro q hq
      exact absurd (loaded_inj (loadDone_ideal.symm.trans hq)).1 (by decide)
    unfold loadSections at h
    obtain ⟨type, q₁, htype, h⟩ := bind_ideal.1 h
    have hread := getByte_ideal.1 htype
    clear htype
    split_ifs at h with heof hfull hpart
    · obtain ⟨-, rfl, rfl, rfl⟩ := loaded_inj (loadDone_ideal.symm.trans h)
      rw [heof] at hread
      exact ⟨[], (append_nil _).symm, .eof hread⟩
    · obtain ⟨sectionId, q₂, hid, h⟩ := bind_ideal.1 h
      obtain ⟨⟨array, idstr, instanceId⟩, q₃, hdev, h⟩ := bind_ideal.1 h
      obtain ⟨versionId, q₄, hver, h⟩ := bind_ideal.1 h
      obtain ⟨name, hname, hcstr, -, hread₂⟩ := getDevice_ideal.1 hdev
      have hread₁ := readAt_append.2 ⟨q₃, hread₂, getBe32_ideal.1 hver⟩
      have hhead := readAt_append.2 ⟨q₁, hread, readAt_append.2 ⟨q₂, getBe32_ideal.1 hid, hread₁⟩⟩
      split at h
      · exact absurd h hfail
      · rename_i se hse
        split_ifs at h with hv
        · exact absurd h hfail
        · obtain ⟨⟨ret, s'⟩, next, hload, h⟩ := bind_ideal.1 h
          obtain ⟨new, rfl, hnew⟩ := ih h
          rw [← hcstr] at hse
          exact ⟨_ :: new, by simp, .full hfull hname hhead hse (BitVec.not_lt.1 hv) hload hnew⟩
    · obtain ⟨sectionId, q₂, hid, h⟩ := bind_ideal.1 h
      have hhead := readAt_append.2 ⟨q₁, hread, getBe32_ideal.1 hid⟩
      split at h
      · exact absurd h hfail
      · rename_i le hle
        obtain ⟨⟨ret, s'⟩, next, hload, h⟩ := bind_ideal.1 h
        obtain ⟨new, rfl, hnew⟩ := ih h
        exact ⟨_ :: new, by simp, .part hpart hhead hle hload hnew⟩
    · exact absurd h hfail

/-- The loop returns 0 at the end of every stream of sections. -/
theorem loadSections_complete {new : List (LoadCall σ)} {pos fin : ℤ}
    (h : Sections es bytes pos les s new fin t) :
    ∃ fuel, ∀ stack before, (loadSections stack es fuel les before s).ideal bytes pos =
      some (some (0, before ++ new, t), fin) := by
  induction h with
  | @eof pos les s fin present =>
    refine ⟨1, fun stack before => ?_⟩
    refine bind_ideal.2 ⟨vmEof, fin, getByte_ideal.2 present, ?_⟩
    rw [if_pos rfl, loadDone_ideal, append_nil]
  | @full pos les s type sectionId name instanceId versionId cur se ret s' next calls fin t htype hname present known
      hversion load _ ih =>
    obtain ⟨fuel, ih⟩ := ih
    obtain ⟨q₁, h₁, present⟩ := readAt_append.1 present
    obtain ⟨q₂, h₂, present⟩ := readAt_append.1 present
    obtain ⟨q₃, h₃, h₄⟩ := readAt_append.1 present
    have hne : type ≠ vmEof := by rcases htype with rfl | rfl <;> decide
    refine ⟨fuel + 1, fun stack before => ?_⟩
    refine bind_ideal.2 ⟨type, q₁, getByte_ideal.2 h₁, ?_⟩
    rw [if_neg hne, if_pos htype]
    refine bind_ideal.2 ⟨sectionId, q₂, getBe32_ideal.2 h₂, ?_⟩
    refine bind_ideal.2 ⟨(_, cstr name, instanceId), q₃, getDevice_ideal.2 ⟨name, hname, rfl, rfl, h₃⟩, ?_⟩
    refine bind_ideal.2 ⟨versionId, cur, getBe32_ideal.2 h₄, ?_⟩
    simp only [known, if_neg (BitVec.not_lt.2 hversion)]
    refine bind_ideal.2 ⟨(ret, s'), next, load, ?_⟩
    refine (ih stack _).trans ?_
    rw [← append_cons]
  | @part pos les s type sectionId cur le ret s' next calls fin t htype present known load _ ih =>
    obtain ⟨fuel, ih⟩ := ih
    obtain ⟨q₁, h₁, h₂⟩ := readAt_append.1 present
    have hne : type ≠ vmEof ∧ ¬ (type = vmSectionStart ∨ type = vmSectionFull) := by
      rcases htype with rfl | rfl <;> decide
    refine ⟨fuel + 1, fun stack before => ?_⟩
    refine bind_ideal.2 ⟨type, q₁, getByte_ideal.2 h₁, ?_⟩
    rw [if_neg hne.1, if_neg hne.2, if_pos htype]
    refine bind_ideal.2 ⟨sectionId, cur, getBe32_ideal.2 h₂, ?_⟩
    simp only [known]
    refine bind_ideal.2 ⟨(ret, s'), next, load, ?_⟩
    refine (ih stack _).trans ?_
    rw [← append_cons]

/-- The loop returns 0 only at the end of a stream of records. -/
theorem loadRecords_sound {endPos : ℤ} {fuel : ℕ} {before calls : List (LoadCall σ)} {pos fin : ℤ}
    (h : (loadRecords es endPos fuel stack before s).ideal bytes pos = some (some (0, calls, t), fin)) :
    ∃ new, calls = before ++ new ∧ Records es bytes endPos pos s new fin t := by
  induction fuel generalizing stack before s pos with
  | zero => exact absurd h (by simp [loadRecords, ideal_pure])
  | succ fuel ih =>
    unfold loadRecords at h
    obtain ⟨_, _, hpos, h⟩ := bind_ideal.1 h
    obtain ⟨rfl, rfl⟩ := Prod.mk.inj (Option.some.inj hpos)
    split_ifs at h with hend
    · obtain ⟨_, _, herr, h⟩ := bind_ideal.1 h
      obtain ⟨rfl, rfl⟩ := Prod.mk.inj (Option.some.inj herr)
      obtain ⟨-, rfl, rfl, rfl⟩ := loaded_inj h
      exact ⟨[], (append_nil _).symm, .stop hend⟩
    · obtain ⟨⟨array, idstr, instanceId⟩, q₁, hdev, h⟩ := bind_ideal.1 h
      obtain ⟨versionId, q₂, hver, h⟩ := bind_ideal.1 h
      obtain ⟨recordLen, q₃, hlen, h⟩ := bind_ideal.1 h
      obtain ⟨_, cur, hcur, h⟩ := bind_ideal.1 h
      obtain ⟨rfl, rfl⟩ := Prod.mk.inj (Option.some.inj hcur)
      obtain ⟨name, hname, hcstr, -, hread⟩ := getDevice_ideal.1 hdev
      have hhead := readAt_append.2 ⟨q₁, hread, readAt_append.2 ⟨q₂, getBe32_ideal.1 hver, getBe32_ideal.1 hlen⟩⟩
      split at h
      · rename_i hse
        obtain ⟨_, _, hseek, h⟩ := bind_ideal.1 h
        obtain ⟨-, rfl⟩ := Prod.mk.inj (Option.some.inj hseek)
        obtain ⟨new, rfl, hnew⟩ := ih h
        rw [← hcstr] at hse
        exact ⟨new, rfl, .skip (not_le.1 hend) hname hhead hse hnew⟩
      · rename_i se hse
        obtain ⟨⟨ret, s'⟩, next, hload, h⟩ := bind_ideal.1 h
        dsimp only at h
        split_ifs at h with hret
        · have := (loaded_inj h).1
          omega
        · obtain ⟨_, _, hseek, h⟩ := bind_ideal.1 h
          obtain ⟨-, rfl⟩ := Prod.mk.inj (Option.some.inj hseek)
          obtain ⟨new, rfl, hnew⟩ := ih h
          rw [← hcstr] at hse
          exact ⟨_ :: new, by simp, .load (not_le.1 hend) hname hhead hse hload (not_lt.1 hret) hnew⟩

/-- The loop returns 0 at the end of every stream of records. -/
theorem loadRecords_complete {endPos : ℤ} {new : List (LoadCall σ)} {pos fin : ℤ}
    (h : Records es bytes endPos pos s new fin t) :
    ∃ fuel, ∀ stack before, (loadRecords es endPos fuel stack before s).ideal bytes pos =
      some (some (0, before ++ new, t), fin) := by
  induction h with
  | @stop pos s hend =>
    refine ⟨1, fun stack before => ?_⟩
    refine bind_ideal.2 ⟨pos, pos, rfl, ?_⟩
    rw [if_pos hend, append_nil]
    rfl
  | @skip pos s name instanceId versionId recordLen cur calls fin t hpos hname present unknown _ ih =>
    obtain ⟨fuel, ih⟩ := ih
    obtain ⟨q₁, h₁, present⟩ := readAt_append.1 present
    obtain ⟨q₂, h₂, h₃⟩ := readAt_append.1 present
    refine ⟨fuel + 1, fun stack before => ?_⟩
    refine bind_ideal.2 ⟨pos, pos, rfl, ?_⟩
    rw [if_neg (not_le.2 hpos)]
    refine bind_ideal.2 ⟨(_, cstr name, instanceId), q₁, getDevice_ideal.2 ⟨name, hname, rfl, rfl, h₁⟩, ?_⟩
    refine bind_ideal.2 ⟨versionId, q₂, getBe32_ideal.2 h₂, ?_⟩
    refine bind_ideal.2 ⟨recordLen, cur, getBe32_ideal.2 h₃, ?_⟩
    refine bind_ideal.2 ⟨cur, cur, rfl, ?_⟩
    simp only [unknown]
    exact bind_ideal.2 ⟨(), _, rfl, ih _ before⟩
  | @load pos s name instanceId versionId recordLen cur se ret s' next calls fin t hpos hname present known load hret
      _ ih =>
    obtain ⟨fuel, ih⟩ := ih
    obtain ⟨q₁, h₁, present⟩ := readAt_append.1 present
    obtain ⟨q₂, h₂, h₃⟩ := readAt_append.1 present
    refine ⟨fuel + 1, fun stack before => ?_⟩
    refine bind_ideal.2 ⟨pos, pos, rfl, ?_⟩
    rw [if_neg (not_le.2 hpos)]
    refine bind_ideal.2 ⟨(_, cstr name, instanceId), q₁, getDevice_ideal.2 ⟨name, hname, rfl, rfl, h₁⟩, ?_⟩
    refine bind_ideal.2 ⟨versionId, q₂, getBe32_ideal.2 h₂, ?_⟩
    refine bind_ideal.2 ⟨recordLen, cur, getBe32_ideal.2 h₃, ?_⟩
    refine bind_ideal.2 ⟨cur, cur, rfl, ?_⟩
    simp only [known]
    refine bind_ideal.2 ⟨(ret, s'), next, load, ?_⟩
    simp only [if_neg (not_lt.2 hret)]
    refine bind_ideal.2 ⟨(), _, rfl, ?_⟩
    refine (ih _ _).trans ?_
    rw [← append_cons]

/-- A load that returns 0 has not set the flag. -/
def Flagged (p : Prog (Loaded σ)) : Prop :=
  ∀ src f calls t, (p.run src f).1 = some (0, calls, t) → (p.run src f).2.hasError = false

theorem Flagged.bind {α : Type} (p : Prog α) {k : α → Prog (Loaded σ)} (h : ∀ a, Flagged (k a)) :
    Flagged (p >>= k) := by
  intro src f calls t hrun
  rw [run_bind] at hrun ⊢
  exact h _ _ _ _ _ hrun

theorem flagged_failed {ret : ℤ} (hret : ret ≠ 0) (calls : List (LoadCall σ)) (s : σ) :
    Flagged (pure (some (ret, calls, s))) := by
  intro src f calls' t hrun
  exact absurd (Prod.mk.inj (Option.some.inj hrun)).1 hret

theorem loadDone_flagged (ret : ℤ) (before : List (LoadCall σ)) (s : σ) : Flagged (loadDone ret before s) := by
  intro src f calls t h
  have hrun : (loadDone ret before s).run src f = (some (if f.hasError then -eio else ret, before, s), f) := rfl
  rw [hrun] at h ⊢
  have hret := (Prod.mk.inj (Option.some.inj h)).1
  by_contra hflag
  rw [Bool.not_eq_false] at hflag
  rw [hflag, if_pos rfl] at hret
  exact absurd hret (by decide)

theorem loadSections_flagged (stack : ℕ → UInt8) (fuel : ℕ) (les : List (LoadStateEntry σ))
    (before : List (LoadCall σ)) (s : σ) : Flagged (loadSections stack es fuel les before s) := by
  induction fuel generalizing les before s with
  | zero =>
    intro src f calls t h
    exact absurd h (by simp [loadSections, Prog.run, pure])
  | succ fuel ih =>
    unfold loadSections
    refine .bind _ fun type => ?_
    split_ifs
    · exact loadDone_flagged _ _ _
    · refine .bind _ fun sectionId => .bind _ fun dev => .bind _ fun versionId => ?_
      split
      · exact loadDone_flagged _ _ _
      · split_ifs
        · exact loadDone_flagged _ _ _
        · exact .bind _ fun r => ih _ _ _
    · refine .bind _ fun sectionId => ?_
      split
      · exact loadDone_flagged _ _ _
      · exact .bind _ fun r => ih _ _ _
    · exact loadDone_flagged _ _ _

theorem loadRecords_flagged (endPos : ℤ) (fuel : ℕ) (stack : ℕ → UInt8) (before : List (LoadCall σ)) (s : σ) :
    Flagged (loadRecords es endPos fuel stack before s) := by
  induction fuel generalizing stack before s with
  | zero =>
    intro src f calls t h
    exact absurd h (by simp [loadRecords, Prog.run, pure])
  | succ fuel ih =>
    unfold loadRecords
    refine .bind _ fun pos => ?_
    split_ifs
    · exact loadDone_flagged 0 _ _
    · refine .bind _ fun dev => .bind _ fun versionId => .bind _ fun recordLen => .bind _ fun curPos => ?_
      split
      · exact .bind _ fun _ => ih _ _ _
      · refine .bind _ fun r => ?_
        dsimp only
        split_ifs with hret
        · exact flagged_failed (by omega) _ _
        · exact .bind _ fun _ => ih _ _ _

theorem qemuLoadvmState_flagged (stack : ℕ → UInt8) (fuel : ℕ) (s : σ) :
    Flagged (qemuLoadvmState stack es fuel s) := by
  unfold qemuLoadvmState qemuLoadvmStateV2
  refine .bind _ fun magic => ?_
  split_ifs
  · exact flagged_failed (by decide) _ _
  · refine .bind _ fun version => ?_
    split_ifs
    · exact .bind _ fun totalLen => .bind _ fun pos => loadRecords_flagged _ _ _ _ _
    · exact flagged_failed (by decide) _ _
    · exact loadSections_flagged _ _ _ _ _

theorem getBe64_ideal {v : BitVec 64} : getBe64.ideal bytes pos = some (v, q) ↔
    ∃ hi lo : BitVec 32, v = hi ++ lo ∧ ReadAt bytes pos (putBe32 hi ++ putBe32 lo) q := by
  unfold getBe64
  constructor
  · intro h
    obtain ⟨hi, q₁, hhi, h⟩ := bind_ideal.1 h
    obtain ⟨lo, q₂, hlo, h⟩ := bind_ideal.1 h
    rw [ideal_pure] at h
    obtain ⟨rfl, rfl⟩ := Prod.mk.inj (Option.some.inj h)
    exact ⟨hi, lo, rfl, readAt_append.2 ⟨q₁, getBe32_ideal.1 hhi, getBe32_ideal.1 hlo⟩⟩
  · rintro ⟨hi, lo, rfl, h⟩
    obtain ⟨q₁, hhi, hlo⟩ := readAt_append.1 h
    exact bind_ideal.2 ⟨hi, q₁, getBe32_ideal.2 hhi, bind_ideal.2 ⟨lo, q, getBe32_ideal.2 hlo, rfl⟩⟩

theorem qemuLoadvmState_sound {fuel : ℕ} {fin : ℤ}
    (h : (qemuLoadvmState stack es fuel s).ideal bytes 0 = some (some (0, calls, t), fin)) :
    Stream3 es bytes s calls fin t ∨ Stream2 es bytes s calls fin t := by
  unfold qemuLoadvmState at h
  obtain ⟨magic, q₁, hmagic, h⟩ := bind_ideal.1 h
  have hread₁ := getBe32_ideal.1 hmagic
  split_ifs at h with hm
  · exact absurd (loaded_inj h).1 (by decide)
  · rw [not_not] at hm
    subst hm
    obtain ⟨version, q₂, hversion, h⟩ := bind_ideal.1 h
    have hread₂ := getBe32_ideal.1 hversion
    split_ifs at h with h2 h3
    · subst h2
      unfold qemuLoadvmStateV2 at h
      obtain ⟨totalLen, q₃, hlen, h⟩ := bind_ideal.1 h
      obtain ⟨_, _, hpos, h⟩ := bind_ideal.1 h
      obtain ⟨rfl, rfl⟩ := Prod.mk.inj (Option.some.inj hpos)
      obtain ⟨hi, lo, rfl, hread₃⟩ := getBe64_ideal.1 hlen
      obtain ⟨new, rfl, hnew⟩ := loadRecords_sound h
      exact .inr ⟨hi, lo, q₃, readAt_append.2 ⟨q₁, hread₁, readAt_append.2 ⟨q₂, hread₂, hread₃⟩⟩, hnew⟩
    · exact absurd (loaded_inj h).1 (by decide)
    · rw [not_not] at h3
      subst h3
      obtain ⟨new, rfl, hnew⟩ := loadSections_sound h
      exact .inl ⟨q₂, readAt_append.2 ⟨q₁, hread₁, hread₂⟩, hnew⟩

theorem qemuLoadvmState_complete3 {fin : ℤ} (h : Stream3 es bytes s calls fin t) (stack : ℕ → UInt8) :
    ∃ fuel, (qemuLoadvmState stack es fuel s).ideal bytes 0 = some (some (0, calls, t), fin) := by
  obtain ⟨start, hread, hsec⟩ := h
  obtain ⟨q₁, h₁, h₂⟩ := readAt_append.1 hread
  obtain ⟨fuel, hfuel⟩ := loadSections_complete hsec
  refine ⟨fuel, bind_ideal.2 ⟨vmFileMagic, q₁, getBe32_ideal.2 h₁, ?_⟩⟩
  rw [if_neg (not_not.2 rfl)]
  refine bind_ideal.2 ⟨vmFileVersion, start, getBe32_ideal.2 h₂, ?_⟩
  rw [if_neg (by decide), if_neg (not_not.2 rfl)]
  exact hfuel stack []

theorem qemuLoadvmState_complete2 {fin : ℤ} (h : Stream2 es bytes s calls fin t) (stack : ℕ → UInt8) :
    ∃ fuel, (qemuLoadvmState stack es fuel s).ideal bytes 0 = some (some (0, calls, t), fin) := by
  obtain ⟨hi, lo, start, hread, hrec⟩ := h
  obtain ⟨q₁, h₁, hread⟩ := readAt_append.1 hread
  obtain ⟨q₂, h₂, h₃⟩ := readAt_append.1 hread
  obtain ⟨fuel, hfuel⟩ := loadRecords_complete hrec
  refine ⟨fuel, bind_ideal.2 ⟨vmFileMagic, q₁, getBe32_ideal.2 h₁, ?_⟩⟩
  rw [if_neg (not_not.2 rfl)]
  refine bind_ideal.2 ⟨vmFileVersionCompat, q₂, getBe32_ideal.2 h₂, ?_⟩
  rw [if_pos rfl]
  refine bind_ideal.2 ⟨hi ++ lo, start, getBe64_ideal.2 ⟨hi, lo, rfl, h₃⟩, ?_⟩
  exact bind_ideal.2 ⟨start, start, rfl, hfuel stack []⟩

theorem Records.ret_nonneg {endPos pos fin : ℤ}
    (h : Records es bytes endPos pos s calls fin t) : ∀ c ∈ calls, 0 ≤ c.ret := by
  induction h with
  | stop hend =>
    intro c hc
    exact absurd hc not_mem_nil
  | skip hpos hname present unknown _ ih => exact ih
  | load hpos hname present known load hret _ ih =>
    intro c hc
    rcases mem_cons.1 hc with rfl | hc
    · exact hret
    · exact ih c hc

theorem ReadAt.le_length {l : List UInt8} (h : ReadAt bytes pos l q) (hl : l ≠ []) :
    q ≤ bytes.length := by
  obtain ⟨⟨rest, hrest⟩, rfl⟩ := h
  have hpos := length_pos_iff.2 hl
  have hlen := congrArg List.length hrest
  unfold bytesAt at hlen
  rw [length_append] at hlen
  split_ifs at hlen
  · rw [length_nil] at hlen
    omega
  · rw [length_drop] at hlen
    omega

theorem Sections.le_length {pos fin : ℤ}
    (h : Sections es bytes pos les s calls fin t) : fin ≤ bytes.length := by
  induction h with
  | eof present => exact present.le_length (cons_ne_nil _ _)
  | full htype hname present known hversion load _ ih => exact ih
  | part htype present known load _ ih => exact ih

/-- What a load that returns 0 is to have found: a stream that is present up to where the load has stopped, whose
sections are those of devices that can load them, and whose handlers have not failed. -/
def LoadsOnlyGood (es : List (SaveStateEntry σ)) (src : Source) (s : σ) : Prop :=
  ∀ stack fuel calls t f, (qemuLoadvmState stack es fuel s).run src qemuFopenOps = (some (0, calls, t), f) →
    (Stream3 es src.bytes s calls (qemuFtell f) t ∨ Stream2 es src.bytes s calls (qemuFtell f) t) ∧
      qemuFtell f ≤ src.bytes.length ∧ ∀ c ∈ calls, 0 ≤ c.ret

/-- **A load returns 0 on a bad stream exactly if** the handler of a section of a version 3 stream fails, or the
records of a version 2 stream end behind the last byte. -/
theorem loadvm_iff (es : List (SaveStateEntry σ)) (src : Source) (s : σ) :
    LoadsOnlyGood es src s ↔
      (∀ calls fin t, Stream3 es src.bytes s calls fin t → ∀ c ∈ calls, 0 ≤ c.ret) ∧
      (∀ calls fin t, Stream2 es src.bytes s calls fin t → fin ≤ src.bytes.length) := by
  -- a stream of either version is loaded, and the file is left at its end
  have hloaded : ∀ {calls fin t} (stack : ℕ → UInt8),
      (∃ fuel, (qemuLoadvmState stack es fuel s).ideal src.bytes 0 = some (some (0, calls, t), fin)) →
      ∃ fuel f, (qemuLoadvmState stack es fuel s).run src qemuFopenOps = (some (0, calls, t), f) ∧
        qemuFtell f = fin := by
    rintro calls fin t stack ⟨fuel, h⟩
    obtain ⟨h1, -, h3, -⟩ := run_of_ideal (f := qemuFopenOps) _ qemuFopenOps_ok rfl h
    exact ⟨fuel, _, Prod.ext h1 rfl, h3⟩
  constructor
  · intro hgood
    refine ⟨fun calls fin t h => ?_, fun calls fin t h => ?_⟩
    · obtain ⟨fuel, f, hrun, -⟩ := hloaded (fun _ => 0) (qemuLoadvmState_complete3 h _)
      exact (hgood _ _ _ _ _ hrun).2.2
    · obtain ⟨fuel, f, hrun, rfl⟩ := hloaded (fun _ => 0) (qemuLoadvmState_complete2 h _)
      exact (hgood _ _ _ _ _ hrun).2.1
  · rintro ⟨h3, h2⟩ stack fuel calls t f hrun
    have hflag : f.hasError = false := by
      have hfl : Flagged (qemuLoadvmState stack es fuel s) := qemuLoadvmState_flagged stack fuel s
      have := hfl src qemuFopenOps calls t (by rw [hrun])
      rwa [hrun] at this
    cases hi : (qemuLoadvmState stack es fuel s).ideal src.bytes 0 with
    | none =>
      have := run_error (f := qemuFopenOps) _ qemuFopenOps_ok hi
      rw [hrun, hflag] at this
      exact absurd this (by decide)
    | some r =>
      obtain ⟨a, fin⟩ := r
      obtain ⟨ha, -, hfin, -⟩ := run_of_ideal (f := qemuFopenOps) _ qemuFopenOps_ok rfl hi
      rw [hrun] at ha hfin
      obtain rfl : some (0, calls, t) = a := ha
      obtain rfl : qemuFtell f = fin := hfin
      rcases qemuLoadvmState_sound hi with hs | hs
      · obtain ⟨start, hread, hsec⟩ := hs
        exact ⟨.inl ⟨start, hread, hsec⟩, hsec.le_length, h3 _ _ _ ⟨start, hread, hsec⟩⟩
      · obtain ⟨hi', lo, start, hread, hrec⟩ := hs
        exact ⟨.inr ⟨hi', lo, start, hread, hrec⟩, h2 _ _ _ ⟨hi', lo, start, hread, hrec⟩, hrec.ret_nonneg⟩

/-- A device whose handler always fails. -/
def refusing : Registration Unit where
  idstr := [97]
  instanceId := 0
  versionId := 3
  saveLiveState := none
  saveState := some fun _ s => ([], s)
  loadState := fun _ _ t => pure (-einval, t)
  opaquePtr := 0

/-- A version 2 stream that declares 4096 bytes of records, and has the head of a record of an unknown device that
says that it is 4096 bytes long. -/
def cutRecord : List UInt8 :=
  putBe32 vmFileMagic ++ putBe32 vmFileVersionCompat ++ putBe32 0 ++ putBe32 4096 ++ deviceBytes [97] 0 ++
    putBe32 1 ++ putBe32 4096

/-- Both are loaded: a version 3 stream whose only section the handler refuses, and a version 2 stream that is cut. -/
theorem loadvm_bad :
    ¬ LoadsOnlyGood (registered [refusing]) ⟨savedBytes (registered [refusing]) 0 (), fun _ => 32768, by simp⟩ () ∧
      ¬ LoadsOnlyGood [] ⟨cutRecord, fun _ => 32768, by simp⟩ () := by
  refine ⟨fun h => ?_, fun h => ?_⟩
  · have hrun : ((qemuLoadvmState (fun _ => 0) (registered [refusing]) 2 ()).run
        ⟨savedBytes (registered [refusing]) 0 (), fun _ => 32768, by simp⟩ qemuFopenOps).1 =
          some (0, [⟨refusing.loadState, 0, 3, -einval⟩], ()) := rfl
    have hret := (h _ _ _ _ _ (Prod.ext hrun rfl)).2.2 _ mem_cons_self
    exact absurd hret (by decide)
  · have hrun : ((qemuLoadvmState (fun _ => 0) ([] : List (SaveStateEntry Unit)) 2 ()).run
        ⟨cutRecord, fun _ => 32768, by simp⟩ qemuFopenOps).1 = some (0, [], ()) := rfl
    have hpos := (h _ _ _ _ _ (Prod.ext hrun rfl)).2.1
    exact absurd hpos (by decide)

end Emulator.Savevm
