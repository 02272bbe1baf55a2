import Mathlib.Data.List.TakeWhile
import Emulator.Savevm.State

/-!
# A saved state is loaded back

`Prog.Takes p l a`: in front of whatever follows, `p` reads exactly the bytes `l` and
returns `a`. Sections are taken one after the other; a part of a section finds the
device through the section id that its start has recorded.

* `loadSections_takes`: the loop takes the sections that were written.
* `savevm_inverse`: a whole state is loaded back if no two devices are stored under the
  same name and instance number.
-/

namespace Emulator.Savevm

open List hiding range_succ

namespace Prog

variable {α β : Type}

/-- `p` reads the bytes `l`, no more and no less, and returns `a`. -/
def Takes (p : Prog α) (l : List UInt8) (a : α) : Prop :=
  ∀ bytes pos rest, bytesAt bytes pos = l ++ rest → p.ideal bytes pos = some (a, pos + l.length)

theorem Takes.bind {p : Prog α} {k : α → Prog β} {l l' : List UInt8} {a : α} {b : β} (h : p.Takes l a)
    (h' : (k a).Takes l' b) : (p >>= k).Takes (l ++ l') b := by
  intro bytes pos rest hb
  rw [append_assoc] at hb
  have hnext : bytesAt bytes (pos + l.length) = l' ++ rest := by
    rw [bytesAt_add (by rw [hb]; simp), hb, drop_left]
  rw [ideal_bind, h bytes pos _ hb]
  show (k a).ideal bytes (pos + l.length) = _
  rw [h' bytes _ rest hnext, length_append]
  push_cast
  rw [add_assoc]

theorem takes_pure (a : α) : (pure a : Prog α).Takes [] a := by
  intro bytes pos rest _
  simp [ideal_pure]

end Prog

open Prog

theorem getByte_takes (b : UInt8) : getByte.Takes [b] b := by
  intro bytes pos rest hb
  unfold getByte Prog.ideal
  rw [hb]
  rfl

theorem getBuffer_takes (l : List UInt8) {n : ℕ} (h : l.length = n) : (getBuffer n).Takes l l := by
  intro bytes pos rest hb
  subst h
  unfold getBuffer Prog.ideal
  rw [hb, if_pos (by simp), take_left]
  rfl

theorem hasError_takes : hasError.Takes [] false := by
  intro bytes pos rest _
  simp [hasError, Prog.ideal]

theorem be32_append (v : BitVec 32) :
    v.extractLsb' 24 8 ++ v.extractLsb' 16 8 ++ v.extractLsb' 8 8 ++ v.extractLsb' 0 8 = v := by
  ext i hi
  simp only [BitVec.getElem_append, BitVec.getElem_extractLsb']
  split_ifs <;> rw [← BitVec.getLsbD_eq_getElem] <;> congr 1 <;> omega

theorem getByte_bind_takes {α : Type} {k : UInt8 → Prog α} {b : UInt8} {l : List UInt8} {a : α}
    (h : (k b).Takes l a) : (getByte >>= k).Takes (b :: l) a :=
  (getByte_takes b).bind h

theorem getBe32_takes (v : BitVec 32) : getBe32.Takes (putBe32 v) v := by
  unfold getBe32 putBe32
  refine getByte_bind_takes (getByte_bind_takes (getByte_bind_takes (getByte_bind_takes ?_)))
  simp only [be32_append]
  exact takes_pure v

variable {σ : Type} {es : List (SaveStateEntry σ)} {stack : ℕ → UInt8}

/-- The name that an array holds if nothing is missing. -/
theorem idArray_full (got : List UInt8) : (List.range got.length).map (idArray stack got.length got) = got := by
  refine ext_getElem (by simp) fun i h1 h2 => ?_
  rw [getElem_map, getElem_range, idArray, if_neg (by omega), getD_eq_getElem?_getD,
    List.getElem?_eq_getElem h2, Option.getD_some]

/-- A name that can be stored. -/
structure NameOk (idstr : List UInt8) : Prop where
  length : idstr.length ≤ 255
  noZero : cstr idstr = idstr

theorem getDevice_takes {name : List UInt8} (h : name.length ≤ 255) (instanceId : BitVec 32) :
    (getDevice stack).Takes ([.ofNat name.length] ++ (name ++ putBe32 instanceId))
      (idArray stack name.length name, cstr name, instanceId) := by
  have hlen : (UInt8.ofNat name.length).toNat = name.length := by
    rw [UInt8.toNat_ofNat']
    omega
  unfold getDevice
  refine getByte_bind_takes ?_
  rw [hlen]
  refine (getBuffer_takes name rfl).bind ?_
  simp only [idArray_full]
  rw [← append_nil (putBe32 instanceId)]
  exact (getBe32_takes instanceId).bind (takes_pure _)

/-- Where a device is stored. -/
def SaveStateEntry.key (e : SaveStateEntry σ) : List UInt8 × BitVec 32 := (e.idstr, e.instanceId)

/-- No two devices are stored under the same name and instance number, or the same section id. -/
structure Distinct (es : List (SaveStateEntry σ)) : Prop where
  key : (es.map SaveStateEntry.key).Nodup
  sectionId : (es.map SaveStateEntry.sectionId).Nodup
  name : ∀ e ∈ es, NameOk e.idstr

/-- A device is found by its name and instance number. -/
theorem Distinct.findSe (h : Distinct es) {e : SaveStateEntry σ} (he : e ∈ es) :
    findSe es e.idstr e.instanceId = some e := by
  unfold Savevm.findSe
  cases hf : es.find? fun se => se.idstr = e.idstr ∧ e.instanceId = se.instanceId with
  | none =>
    have := List.find?_eq_none.1 hf e he
    exact absurd this (by simp)
  | some se =>
    have hse := mem_of_find?_eq_some hf
    have hkey : se.idstr = e.idstr ∧ e.instanceId = se.instanceId := by simpa using List.find?_some hf
    rw [inj_on_of_nodup_map h.key hse he (Prod.ext hkey.1 hkey.2.symm)]

/-- The section ids that have been recorded are those of the devices. -/
structure Recorded (es : List (SaveStateEntry σ)) (les : List (LoadStateEntry σ)) : Prop where
  entry : ∀ le ∈ les, le.se ∈ es
  sectionId : ∀ le ∈ les, le.sectionId = le.se.sectionId
  versionId : ∀ le ∈ les, le.versionId = le.se.versionId

theorem Recorded.cons {les : List (LoadStateEntry σ)} (h : Recorded es les) {e : SaveStateEntry σ} (he : e ∈ es) :
    Recorded es (⟨e, e.sectionId, e.versionId⟩ :: les) := by
  refine ⟨fun le hle => ?_, fun le hle => ?_, fun le hle => ?_⟩
  · rcases mem_cons.1 hle with rfl | hle
    · exact he
    · exact h.entry le hle
  · rcases mem_cons.1 hle with rfl | hle
    · rfl
    · exact h.sectionId le hle
  · rcases mem_cons.1 hle with rfl | hle
    · rfl
    · exact h.versionId le hle

theorem Recorded.find {les : List (LoadStateEntry σ)} (h : Recorded es les) (hd : Distinct es)
    {e : SaveStateEntry σ} (he : ∃ le ∈ les, le.se = e) :
    ∃ le, les.find? (fun le => le.sectionId = e.sectionId) = some le ∧ le.se = e ∧ le.versionId = e.versionId := by
  obtain ⟨le₀, hle₀, rfl⟩ := he
  cases hf : les.find? (fun le => le.sectionId = le₀.se.sectionId) with
  | none =>
    have := List.find?_eq_none.1 hf le₀ hle₀
    exact absurd (h.sectionId le₀ hle₀) (by simpa using this)
  | some le =>
    have hle := mem_of_find?_eq_some hf
    have hid : le.sectionId = le₀.se.sectionId := by simpa using List.find?_some hf
    rw [h.sectionId le hle] at hid
    have hse := inj_on_of_nodup_map hd.sectionId (h.entry le hle) (h.entry le₀ hle₀) hid
    exact ⟨le, rfl, hse, by rw [h.versionId le hle, hse]⟩

/-- What a call of `load_state` is given for a section. -/
def Section.call (sec : Section σ) : (ℕ → BitVec 32 → σ → Prog (ℤ × σ)) × ℕ × BitVec 32 :=
  (sec.entry.loadState, sec.entry.opaquePtr, sec.entry.versionId)

/-- What a call was given. -/
def LoadCall.given (c : LoadCall σ) : (ℕ → BitVec 32 → σ → Prog (ℤ × σ)) × ℕ × BitVec 32 :=
  (c.loadState, c.opaquePtr, c.versionId)

/-- The handler of the device takes what was written for it, whatever the state of the machine. -/
def Section.Consumed (sec : Section σ) : Prop :=
  ∀ t, ∃ ret t', (sec.entry.loadState sec.entry.opaquePtr sec.entry.versionId t).Takes sec.data (ret, t')

/-- Sections in an order in which they can be loaded: the start of a section comes before its parts. `started` are
the devices whose section has been started. -/
inductive InOrder (es : List (SaveStateEntry σ)) : List (SaveStateEntry σ) → List (Section σ) → Prop
  | nil {started} : InOrder es started []
  | full {started sec secs} (type : UInt8) (htype : type = vmSectionStart ∨ type = vmSectionFull)
      (head : sec.head = fullHead type sec.entry) (mem : sec.entry ∈ es)
      (rest : InOrder es (sec.entry :: started) secs) : InOrder es started (sec :: secs)
  | part {started sec secs} (type : UInt8) (htype : type = vmSectionPart ∨ type = vmSectionEnd)
      (head : sec.head = partHead type sec.entry) (mem : sec.entry ∈ started) (rest : InOrder es started secs) :
      InOrder es started (sec :: secs)

theorem loadDone_takes (ret : ℤ) (calls : List (LoadCall σ)) (t : σ) :
    (loadDone ret calls t).Takes [] (some (ret, calls, t)) :=
  hasError_takes.bind (takes_pure _)

/-- **The loop takes the sections that were written**, and makes one call for each. -/
theorem loadSections_takes (stack : ℕ → UInt8) (hd : Distinct es) {started : List (SaveStateEntry σ)}
    {secs : List (Section σ)}
    (ho : InOrder es started secs) (hc : ∀ sec ∈ secs, sec.Consumed) {les : List (LoadStateEntry σ)}
    (hr : Recorded es les) (hs : ∀ e ∈ started, ∃ le ∈ les, le.se = e) {fuel : ℕ} (hf : secs.length < fuel)
    (calls : List (LoadCall σ)) (t : σ) :
    ∃ new t', (loadSections stack es fuel les calls t).Takes (secs.flatMap Section.bytes ++ [vmEof])
        (some (0, calls ++ new, t')) ∧ new.map LoadCall.given = secs.map Section.call := by
  induction ho generalizing les fuel calls t with
  | nil =>
    obtain ⟨fuel, rfl⟩ : ∃ m, fuel = m + 1 := ⟨fuel - 1, by omega⟩
    refine ⟨[], t, ?_, rfl⟩
    rw [append_nil]
    exact getByte_bind_takes (loadDone_takes 0 calls t)
  | @full started sec secs type htype head mem rest ih =>
    obtain ⟨fuel, rfl⟩ : ∃ m, fuel = m + 1 := ⟨fuel - 1, by omega⟩
    obtain ⟨ret, t', htake⟩ := hc sec mem_cons_self t
    have hs' : ∀ e ∈ sec.entry :: started, ∃ le ∈ ⟨sec.entry, sec.entry.sectionId, sec.entry.versionId⟩ :: les,
        le.se = e := by
      intro e he
      rcases mem_cons.1 he with rfl | he
      · exact ⟨_, mem_cons_self, rfl⟩
      · obtain ⟨le, hle, h⟩ := hs e he
        exact ⟨le, mem_cons_of_mem _ hle, h⟩
    obtain ⟨new, t'', hnew, hcalls⟩ := ih (fun s hs => hc s (mem_cons_of_mem _ hs)) (hr.cons mem) hs'
      (show secs.length < fuel by simpa using hf)
      (calls ++ [⟨sec.entry.loadState, sec.entry.opaquePtr, sec.entry.versionId, ret⟩]) t'
    refine ⟨⟨sec.entry.loadState, sec.entry.opaquePtr, sec.entry.versionId, ret⟩ :: new, t'', ?_, ?_⟩
    · rw [append_assoc, singleton_append] at hnew
      have hne : type ≠ vmEof := by rcases htype with rfl | rfl <;> decide
      have hbytes : (sec :: secs).flatMap Section.bytes ++ [vmEof] = type :: (putBe32 sec.entry.sectionId ++
          (([.ofNat sec.entry.idstr.length] ++ (sec.entry.idstr ++ putBe32 sec.entry.instanceId)) ++
            (putBe32 sec.entry.versionId ++ (sec.data ++ (secs.flatMap Section.bytes ++ [vmEof]))))) := by
        simp [Section.bytes, head, fullHead]
      rw [hbytes]
      unfold loadSections
      refine getByte_bind_takes ?_
      rw [if_neg hne, if_pos htype]
      refine (getBe32_takes _).bind ((getDevice_takes (hd.name _ mem).length _).bind ((getBe32_takes _).bind ?_))
      simp only [(hd.name _ mem).noZero, hd.findSe mem, BitVec.lt_irrefl, if_false]
      exact htake.bind hnew
    · rw [map_cons, map_cons, hcalls]
      rfl
  | @part started sec secs type htype head mem rest ih =>
    obtain ⟨fuel, rfl⟩ : ∃ m, fuel = m + 1 := ⟨fuel - 1, by omega⟩
    obtain ⟨ret, t', htake⟩ := hc sec mem_cons_self t
    obtain ⟨le, hfind, hse, hver⟩ := hr.find hd (hs _ mem)
    obtain ⟨new, t'', hnew, hcalls⟩ := ih (fun s hs => hc s (mem_cons_of_mem _ hs)) hr hs
      (show secs.length < fuel by simpa using hf)
        (calls ++ [⟨sec.entry.loadState, sec.entry.opaquePtr, sec.entry.versionId, ret⟩]) t'
    refine ⟨⟨sec.entry.loadState, sec.entry.opaquePtr, sec.entry.versionId, ret⟩ :: new, t'', ?_, ?_⟩
    · rw [append_assoc, singleton_append] at hnew
      have hne : type ≠ vmEof ∧ ¬ (type = vmSectionStart ∨ type = vmSectionFull) := by
        rcases htype with rfl | rfl <;> decide
      have hbytes : (sec :: secs).flatMap Section.bytes ++ [vmEof] = type :: (putBe32 sec.entry.sectionId ++
          (sec.data ++ (secs.flatMap Section.bytes ++ [vmEof]))) := by
        simp [Section.bytes, head, partHead]
      rw [hbytes]
      unfold loadSections
      refine getByte_bind_takes ?_
      rw [if_neg hne.1, if_neg hne.2, if_pos htype]
      refine (getBe32_takes _).bind ?_
      simp only [hfind, hse, hver]
      exact htake.bind hnew
    · rw [map_cons, map_cons, hcalls]
      rfl

section Saved

variable {head : SaveStateEntry σ → List UInt8} {save : SaveStateEntry σ → Option (σ → ℤ × List UInt8 × σ)}
  {started : List (SaveStateEntry σ)} {rest : List (Section σ)}

theorem saveLoop_mem {l : List (SaveStateEntry σ)} {s : σ} {sec : Section σ} (h : sec ∈ (saveLoop head save l s).1) :
    sec.head = head sec.entry ∧ sec.entry ∈ l ∧ (save sec.entry).isSome := by
  induction l generalizing s with
  | nil => exact absurd h not_mem_nil
  | cons e l ih =>
    unfold saveLoop at h
    split at h
    · obtain ⟨h1, h2, h3⟩ := ih h
      exact ⟨h1, mem_cons_of_mem _ h2, h3⟩
    · rename_i f hf
      rcases mem_cons.1 h with rfl | h
      · exact ⟨rfl, mem_cons_self, by rw [hf]; rfl⟩
      · obtain ⟨h1, h2, h3⟩ := ih h
        exact ⟨h1, mem_cons_of_mem _ h2, h3⟩

theorem saveLoop_complete {l : List (SaveStateEntry σ)} {s : σ} {e : SaveStateEntry σ} (he : e ∈ l)
    (hs : (save e).isSome) : ∃ sec ∈ (saveLoop head save l s).1, sec.entry = e := by
  induction l generalizing s with
  | nil => exact absurd he not_mem_nil
  | cons e' l ih =>
    unfold saveLoop
    split
    · rename_i hn
      rcases mem_cons.1 he with rfl | he
      · rw [hn] at hs
        exact absurd hs (by simp)
      · exact ih he
    · rcases mem_cons.1 he with rfl | he
      · exact ⟨_, mem_cons_self, rfl⟩
      · obtain ⟨sec, h1, h2⟩ := ih he
        exact ⟨sec, mem_cons_of_mem _ h1, h2⟩

variable {secs : List (Section σ)}

theorem InOrder.mono {started' : List (SaveStateEntry σ)} (h : InOrder es started secs)
    (hs : ∀ e ∈ started, e ∈ started') : InOrder es started' secs := by
  induction h generalizing started' with
  | nil => exact .nil
  | full type htype head mem _ ih =>
    refine .full type htype head mem (ih fun e he => ?_)
    rcases mem_cons.1 he with rfl | he
    · exact mem_cons_self
    · exact mem_cons_of_mem _ (hs e he)
  | part type htype head mem _ ih => exact .part type htype head (hs _ mem) (ih hs)

variable {type : UInt8}

theorem InOrder.append_full (htype : type = vmSectionStart ∨ type = vmSectionFull)
    (hsecs : ∀ sec ∈ secs, sec.head = fullHead type sec.entry ∧ sec.entry ∈ es)
    (hrest : InOrder es (secs.map Section.entry ++ started) rest) : InOrder es started (secs ++ rest) := by
  induction secs generalizing started with
  | nil => exact hrest
  | cons sec secs ih =>
    obtain ⟨h1, h2⟩ := hsecs sec mem_cons_self
    refine .full type htype h1 h2 (ih (fun s hs => hsecs s (mem_cons_of_mem _ hs)) (hrest.mono fun e he => ?_))
    simp only [map_cons, cons_append, mem_cons, mem_append] at he ⊢
    tauto

theorem inOrder_full (htype : type = vmSectionStart ∨ type = vmSectionFull) (s : σ) :
    InOrder es started (saveLoop (fullHead type) save es s).1 := by
  have hfull : InOrder es started ((saveLoop (fullHead type) save es s).1 ++ []) :=
    .append_full htype (fun sec hsec => ⟨(saveLoop_mem hsec).1, (saveLoop_mem hsec).2.1⟩) .nil
  rw [append_nil] at hfull
  exact hfull

theorem InOrder.append_part (htype : type = vmSectionPart ∨ type = vmSectionEnd)
    (hsecs : ∀ sec ∈ secs, sec.head = partHead type sec.entry ∧ sec.entry ∈ started)
    (hrest : InOrder es started rest) : InOrder es started (secs ++ rest) := by
  induction secs with
  | nil => exact hrest
  | cons sec secs ih =>
    obtain ⟨h1, h2⟩ := hsecs sec mem_cons_self
    exact .part type htype h1 h2 (ih fun s hs => hsecs s (mem_cons_of_mem _ hs))

/-- All live devices have been started. -/
def AllStarted (es started : List (SaveStateEntry σ)) : Prop :=
  ∀ e ∈ es, e.saveLiveState.isSome → e ∈ started

theorem liveAt_isSome {stage : UInt8} {e : SaveStateEntry σ} : (liveAt stage e).isSome = e.saveLiveState.isSome := by
  unfold liveAt
  rw [Option.isSome_map]

theorem InOrder.append_live (htype : type = vmSectionPart ∨ type = vmSectionEnd)
    (hall : AllStarted es started) {s : σ} (hrest : InOrder es started rest) :
    InOrder es started ((saveLoop (partHead type) (liveAt type) es s).1 ++ rest) := by
  refine hrest.append_part htype fun sec hsec => ?_
  obtain ⟨h1, h2, h3⟩ := saveLoop_mem hsec
  exact ⟨h1, hall _ h2 (liveAt_isSome ▸ h3)⟩

theorem InOrder.append_rounds (hall : AllStarted es started) (rounds : ℕ) (s : σ)
    (hrest : InOrder es started rest) : InOrder es started ((iterateRounds es rounds s).1 ++ rest) := by
  induction rounds generalizing s with
  | zero => exact hrest
  | succ n ih =>
    unfold iterateRounds qemuSavevmStateIterate
    simp only [append_assoc]
    exact (ih _).append_live (.inl rfl) hall

/-- **The sections of a whole state are in order.** -/
theorem savedSections_inOrder (rounds : ℕ) (s : σ) : InOrder es [] (savedSections es rounds s) := by
  unfold savedSections qemuSavevmStateBegin qemuSavevmStateComplete
  simp only [append_assoc]
  refine InOrder.append_full (.inl rfl) (fun sec hsec => ⟨(saveLoop_mem hsec).1, (saveLoop_mem hsec).2.1⟩) ?_
  rw [append_nil]
  have hall : AllStarted es
    ((saveLoop (fullHead vmSectionStart) (liveAt vmSectionStart) es s).1.map Section.entry) := by
    intro e he hlive
    obtain ⟨sec, h1, rfl⟩ : ∃ sec ∈ (saveLoop (fullHead vmSectionStart) (liveAt vmSectionStart) es s).1,
        sec.entry = e := saveLoop_complete he (by rw [liveAt_isSome]; exact hlive)
    exact mem_map_of_mem h1
  refine InOrder.append_rounds hall rounds _ (InOrder.append_live (.inr rfl) hall ?_)
  exact inOrder_full (.inr rfl) _

end Saved

theorem pstrcpy_nameOk (s : List UInt8) : NameOk (pstrcpy 256 s) :=
  ⟨by unfold pstrcpy; exact length_take_le _ _, cstr_take s _⟩

/-- The devices after some registrations: their names fit, and their section ids are the numbers from zero on. -/
structure RegistryOk (reg : Registry σ) (n : ℕ) : Prop where
  counter : reg.globalSectionId = BitVec.ofNat 32 n
  sectionIds : reg.firstSe.map SaveStateEntry.sectionId = (List.range n).map (BitVec.ofNat 32)
  name : ∀ e ∈ reg.firstSe, NameOk e.idstr

theorem registerSavevmLive_ok {reg : Registry σ} {n : ℕ} (h : RegistryOk reg n) (r : Registration σ) :
    RegistryOk (registerSavevmLive reg r) (n + 1) := by
  refine ⟨?_, ?_, fun e he => ?_⟩
  · show reg.globalSectionId + 1 = _
    rw [h.counter, BitVec.ofNat_add]
    rfl
  · unfold registerSavevmLive
    rw [map_append, h.sectionIds, List.range_succ, map_append, map_singleton, map_singleton,
      h.counter]
  · rcases mem_append.1 he with he | he
    · exact h.name e he
    · rw [mem_singleton.1 he]
      exact pstrcpy_nameOk r.idstr

theorem registered_ok (rs : List (Registration σ)) :
    RegistryOk (rs.foldl registerSavevmLive ⟨[], 0⟩) rs.length := by
  induction rs using List.reverseRecOn with
  | nil => exact ⟨rfl, rfl, fun e he => absurd he not_mem_nil⟩
  | append_singleton rs r ih =>
    rw [foldl_concat, length_append, length_singleton]
    exact registerSavevmLive_ok ih r

theorem registered_distinct {rs : List (Registration σ)} (hn : rs.length ≤ 2 ^ 32)
    (hk : ((registered rs).map SaveStateEntry.key).Nodup) : Distinct (registered rs) := by
  have h := registered_ok rs
  refine ⟨hk, ?_, h.name⟩
  show ((rs.foldl registerSavevmLive ⟨[], 0⟩).firstSe.map SaveStateEntry.sectionId).Nodup
  rw [h.sectionIds]
  refine List.Nodup.map_on (fun a ha b hb hab => ?_) nodup_range
  rw [mem_range] at ha hb
  have := congrArg BitVec.toNat hab
  rw [BitVec.toNat_ofNat, BitVec.toNat_ofNat, Nat.mod_eq_of_lt (by omega), Nat.mod_eq_of_lt (by omega)] at this
  exact this

/-- `INT_MAX`. -/
def intMax : BitVec 32 := 0x7fffffff

/-- The number that a device without one gets is above those of the same name. -/
theorem newInstanceId_ge {idstr : List UInt8} (id : BitVec 32) {l : List (SaveStateEntry σ)}
    (hmax : ∀ e ∈ l, e.idstr = idstr → e.instanceId ≠ intMax) :
    id.toInt ≤ (newInstanceId idstr id l).toInt ∧
      ∀ e ∈ l, e.idstr = idstr → e.instanceId.toInt < (newInstanceId idstr id l).toInt := by
  induction l generalizing id with
  | nil => exact ⟨le_rfl, fun e he => absurd he not_mem_nil⟩
  | cons e l ih =>
    obtain ⟨h1, h2⟩ := ih (if idstr = e.idstr ∧ id.sle e.instanceId then e.instanceId + 1 else id)
      fun e' he' => hmax e' (mem_cons_of_mem _ he')
    have hsucc : e.idstr = idstr → (e.instanceId + 1).toInt = e.instanceId.toInt + 1 := by
      intro hid
      have hlt : e.instanceId.toInt ≠ 2147483647 := fun heq =>
        hmax e mem_cons_self hid (BitVec.eq_of_toInt_eq heq)
      have h1 := e.instanceId.toInt_lt
      have h2 := e.instanceId.le_toInt
      rw [BitVec.toInt_add, show (1 : BitVec 32).toInt = 1 from rfl]
      exact Int.bmod_eq_of_le (by omega) (by omega)
    have hstep : id.toInt ≤ (if idstr = e.idstr ∧ id.sle e.instanceId then e.instanceId + 1 else id).toInt ∧
        (e.idstr = idstr → e.instanceId.toInt <
          (if idstr = e.idstr ∧ id.sle e.instanceId then e.instanceId + 1 else id).toInt) := by
      split_ifs with hc
      · rw [BitVec.sle_iff_toInt_le] at hc
        rw [hsucc hc.1.symm]
        omega
      · rw [BitVec.sle_iff_toInt_le, not_and, not_le] at hc
        exact ⟨le_rfl, fun heq => hc heq.symm⟩
    refine ⟨hstep.1.trans h1, fun e' he' heq => ?_⟩
    rcases mem_cons.1 he' with rfl | he'
    · exact (hstep.2 heq).trans_le h1
    · exact h2 e' he' heq

/-- The device that a registration appends to the list. -/
theorem registered_concat (rs : List (Registration σ)) (r : Registration σ) :
    ∃ se, registered (rs ++ [r]) = registered rs ++ [se] ∧ se.idstr = pstrcpy 256 r.idstr ∧
      se.instanceId = if r.instanceId = -1 then newInstanceId (pstrcpy 256 r.idstr) 0 (registered rs)
        else r.instanceId := by
  unfold registered
  rw [foldl_concat]
  exact ⟨_, rfl, rfl, rfl⟩

theorem registered_fresh {rs : List (Registration σ)} {r : Registration σ} (hr : r.instanceId = -1)
    (hmax : ∀ e ∈ registered rs, e.idstr = pstrcpy 256 r.idstr → e.instanceId ≠ intMax) :
    ∃ se, registered (rs ++ [r]) = registered rs ++ [se] ∧ ∀ e ∈ registered rs, e.key ≠ se.key := by
  obtain ⟨se, hreg, hid, hinst⟩ := registered_concat rs r
  refine ⟨se, hreg, fun e he heq => ?_⟩
  obtain ⟨h1, h2⟩ := Prod.mk.inj heq
  have hlt := (newInstanceId_ge 0 hmax).2 e he (h1.trans hid)
  rw [if_pos hr] at hinst
  rw [h2, hinst] at hlt
  exact absurd hlt (lt_irrefl _)

/-- The bytes of a whole state are loaded without an error: there is one call for each section, in the same order,
for the device that wrote it and with its version, and the file is left behind the final byte. -/
def LoadsBack (es : List (SaveStateEntry σ)) (rounds : ℕ) (s t : σ) : Prop :=
  ∀ stack src after fuel, src.bytes = savedBytes es rounds s ++ after → (savedSections es rounds s).length < fuel →
    ∃ calls t', ((qemuLoadvmState stack es fuel t).run src qemuFopenOps).1 = some (0, calls, t') ∧
      calls.map LoadCall.given = (savedSections es rounds s).map Section.call ∧
      qemuFtell ((qemuLoadvmState stack es fuel t).run src qemuFopenOps).2 = (savedBytes es rounds s).length

theorem qemuLoadvmState_takes (stack : ℕ → UInt8) (hd : Distinct es) {rounds fuel : ℕ} {s : σ} (t : σ)
    (hc : ∀ sec ∈ savedSections es rounds s, sec.Consumed) (hf : (savedSections es rounds s).length < fuel) :
    ∃ calls t', (qemuLoadvmState stack es fuel t).Takes (savedBytes es rounds s) (some (0, calls, t')) ∧
      calls.map LoadCall.given = (savedSections es rounds s).map Section.call := by
  have hrec : Recorded es ([] : List (LoadStateEntry σ)) :=
    ⟨fun _ h => absurd h not_mem_nil, fun _ h => absurd h not_mem_nil, fun _ h => absurd h not_mem_nil⟩
  obtain ⟨calls, t', htake, hcalls⟩ := loadSections_takes stack hd (savedSections_inOrder rounds s) hc hrec
    (fun _ h => absurd h not_mem_nil) hf [] t
  refine ⟨calls, t', ?_, hcalls⟩
  unfold qemuLoadvmState savedBytes
  rw [append_assoc, append_assoc]
  refine (getBe32_takes vmFileMagic).bind ?_
  rw [if_neg (not_not.2 rfl)]
  refine (getBe32_takes vmFileVersion).bind ?_
  rw [if_neg (by decide), if_neg (not_not.2 rfl)]
  exact htake

/-- **Saving and loading are inverse** as long as no two devices are stored under the same name and instance number.
A device that is registered with `-1` is not stored under those of a device before it. -/
theorem savevm_inverse (rs : List (Registration σ)) :
    (rs.length ≤ 2 ^ 31 → ((registered rs).map SaveStateEntry.key).Nodup → ∀ rounds s t,
      (∀ sec ∈ savedSections (registered rs) rounds s, sec.Consumed) → LoadsBack (registered rs) rounds s t) ∧
    (∀ r : Registration σ, r.instanceId = -1 →
      (∀ e ∈ registered rs, e.idstr = pstrcpy 256 r.idstr → e.instanceId ≠ intMax) →
      ∃ se, registered (rs ++ [r]) = registered rs ++ [se] ∧ ∀ e ∈ registered rs, e.key ≠ se.key) := by
  refine ⟨fun hn hk rounds s t hc => ?_, fun r hr hmax => registered_fresh hr hmax⟩
  intro stack src after fuel hsrc hf
  have hd := registered_distinct (by omega) hk
  obtain ⟨calls, t', htake, hcalls⟩ := qemuLoadvmState_takes stack hd t hc hf
  have hideal := htake src.bytes 0 after hsrc
  obtain ⟨h1, -, h3, -⟩ := Prog.run_of_ideal (f := qemuFopenOps) _ qemuFopenOps_ok rfl hideal
  refine ⟨calls, t', h1, hcalls, ?_⟩
  rw [h3, Int.zero_add]

/-- A handler that loads one byte. -/
def loadOne (_ptr : ℕ) (_version : BitVec 32) (t : Unit) : Prog (ℤ × Unit) := do
  let _ ← getByte
  return (0, t)

/-- A device that saves one byte, and if it is live another one at each stage. -/
def oneByte (idstr : List UInt8) (instanceId : BitVec 32) (live : Bool) (ptr : ℕ) : Registration Unit where
  idstr := idstr
  instanceId := instanceId
  versionId := 3
  saveLiveState := if live then some fun stage _ s => (1, [stage], s) else none
  saveState := some fun _ s => ([7], s)
  loadState := loadOne
  opaquePtr := ptr

theorem consumed_of_loadOne {sec : Section Unit} {b : UInt8} (hl : sec.entry.loadState = loadOne)
    (hdata : sec.data = [b]) : sec.Consumed := by
  intro t
  refine ⟨0, t, ?_⟩
  rw [hl, hdata]
  exact getByte_bind_takes (takes_pure _)

theorem savevm_inverse_twoDevices :
    let rs := [oneByte [97] (-1) true 10, oneByte [97] (-1) false 11]
    (rs.length ≤ 2 ^ 31 ∧ ((registered rs).map SaveStateEntry.key).Nodup ∧
      (∀ sec ∈ savedSections (registered rs) 2 (), sec.Consumed) ∧ LoadsBack (registered rs) 2 () ()) ∧
    ∃ se, registered (rs ++ [oneByte [97] (-1) true 12]) = registered rs ++ [se] ∧
      ∀ e ∈ registered rs, e.key ≠ se.key := by
  have hn : ([oneByte [97] (-1) true 10, oneByte [97] (-1) false 11]).length ≤ 2 ^ 31 := by decide
  have hk : ((registered [oneByte [97] (-1) true 10, oneByte [97] (-1) false 11]).map SaveStateEntry.key).Nodup := by
    decide
  have hc : ∀ sec ∈ savedSections (registered [oneByte [97] (-1) true 10, oneByte [97] (-1) false 11]) 2 (),
      sec.Consumed := by
    intro sec hsec
    fin_cases hsec <;> exact consumed_of_loadOne rfl rfl
  have hmax : ∀ e ∈ registered [oneByte [97] (-1) true 10, oneByte [97] (-1) false 11],
      e.idstr = pstrcpy 256 [97] → e.instanceId ≠ intMax := by
    decide
  exact ⟨⟨hn, hk, hc, (savevm_inverse _).1 hn hk 2 () () hc⟩, (savevm_inverse _).2 _ rfl hmax⟩

/-- Two devices whose names differ behind the 255 bytes that are stored. -/
def longNames : List (Registration Unit) :=
  [oneByte (List.replicate 255 97 ++ [1]) 0 false 0, oneByte (List.replicate 255 97 ++ [2]) 0 false 1]

/-- What the second device has written is given to the first one. -/
theorem savevm_longNames :
    (longNames.map fun r => (r.idstr, r.instanceId)).Nodup ∧
      (∀ sec ∈ savedSections (registered longNames) 0 (), sec.Consumed) ∧
      ¬ LoadsBack (registered longNames) 0 () () := by
  refine ⟨by decide +kernel, fun sec hsec => ?_, fun h => ?_⟩
  · fin_cases hsec <;> exact consumed_of_loadOne rfl rfl
  · obtain ⟨calls, t', h1, h2, -⟩ := h (fun _ => 0) ⟨savedBytes (registered longNames) 0 (), fun _ => 32768, by simp⟩ []
      3 (append_nil _).symm (by decide)
    have hptrs : ((qemuLoadvmState (fun _ => 0) (registered longNames) 3 ()).run
        ⟨savedBytes (registered longNames) 0 (), fun _ => 32768, by simp⟩ qemuFopenOps).1.map
        (fun r => r.2.1.map LoadCall.opaquePtr) = some [0, 0] := by decide +kernel
    rw [h1] at hptrs
    have hcalls := congrArg (List.map fun c => c.2.1) h2
    rw [map_map, map_map] at hcalls
    have : calls.map LoadCall.opaquePtr = [0, 1] := hcalls.trans (by decide +kernel)
    rw [Option.map_some, this] at hptrs
    exact absurd hptrs (by decide)

end Emulator.Savevm
