import Emulator.Savevm.Cursor
import Emulator.Savevm.State

/-!
# Loading a state comes to its end, or not

A version 3 stream is read forward, and behind its end there is the byte `QEMU_VM_EOF`: `loadSections_ends`. The loop
of a version 2 stream goes where the length of a record, a signed number from the file, sends it, and behind the end
of the file it does not move at all: `recordNext`, `recordsEnd_iff`.

* `iterate_leaves_iff`: when an orbit leaves a set.
* `loadvm_ends_iff`: when `qemu_loadvm_state` returns.
-/

namespace Emulator.Savevm

open Function Prog List Option

/-- What the loop over the records of a version 2 stream goes on with. -/
structure RecordState (σ : Type) where
  stack : ℕ → UInt8
  cursor : Cursor
  state : σ

variable {α σ : Type} {bytes : List UInt8} {es : List (SaveStateEntry σ)} {endPos : ℤ} {x y : RecordState σ}

/-- What is in front of the bytes of a record. -/
structure RecordHead where
  idstr : List UInt8
  instanceId : BitVec 32
  versionId : BitVec 32
  recordLen : BitVec 32

/-- With the array of the name. -/
def getRecordHead (stack : ℕ → UInt8) : Prog ((ℕ → UInt8) × RecordHead) := do
  let (stack, idstr, instanceId) ← getDevice stack
  let versionId ← getBe32
  let recordLen ← getBe32
  return (stack, ⟨idstr, instanceId, versionId, recordLen⟩)

/-- **The record at a position**: where it leads to, or nothing if its device refuses it. -/
def nextRecord (bytes : List UInt8) (es : List (SaveStateEntry σ)) (x : RecordState σ) : Option (RecordState σ) :=
  let ((stack, r), c) := (getRecordHead x.stack).plain bytes x.cursor
  match findSe es r.idstr r.instanceId with
  | none => some ⟨stack, ⟨c.pos + r.recordLen.toInt, c.error⟩, x.state⟩
  | some se =>
    let ((ret, s), c') := (se.loadState se.opaquePtr r.versionId x.state).plain bytes c
    if ret < 0 then none else some ⟨stack, ⟨c.pos + r.recordLen.toInt, c'.error⟩, s⟩

/-- The loop comes to its end: at the end position, or at a record that its device refuses. -/
inductive RecordsEnd (bytes : List UInt8) (es : List (SaveStateEntry σ)) (endPos : ℤ) : RecordState σ → Prop
  | all {x : RecordState σ} (h : endPos ≤ x.cursor.pos) : RecordsEnd bytes es endPos x
  | refused {x : RecordState σ} (h : nextRecord bytes es x = none) : RecordsEnd bytes es endPos x
  | next {x y : RecordState σ} (h : nextRecord bytes es x = some y) (hrest : RecordsEnd bytes es endPos y) :
      RecordsEnd bytes es endPos x

/-- The loop from a record on, and whether it has come to its end. -/
def loopEnds (bytes : List UInt8) (es : List (SaveStateEntry σ)) (endPos : ℤ) (fuel : ℕ) (calls : List (LoadCall σ))
    (x : RecordState σ) : Prop :=
  ((loadRecords es endPos fuel x.stack calls x.state).plain bytes x.cursor).1 ≠ none

/-- The loop behind its end. -/
theorem loadRecords_end (fuel : ℕ) (calls : List (LoadCall σ)) (h : endPos ≤ x.cursor.pos) :
    loopEnds bytes es endPos (fuel + 1) calls x := by
  rw [loopEnds, loadRecords, plain_bind, plain_ftell]
  simp only [if_pos h, plain_bind, plain_pure]
  exact some_ne_none _

/-- **A round of the loop.** -/
theorem loadRecords_round (calls : List (LoadCall σ)) (h : x.cursor.pos < endPos) :
    (nextRecord bytes es x = none → ∀ fuel, loopEnds bytes es endPos (fuel + 1) calls x) ∧
    ∀ y, nextRecord bytes es x = some y →
      ∃ calls', ∀ fuel, loopEnds bytes es endPos (fuel + 1) calls x ↔ loopEnds bytes es endPos fuel calls' y := by
  obtain ⟨stack, c, s⟩ := x
  have hgo : ¬ endPos ≤ (plain bytes ftell c).1 := Int.not_le.2 h
  simp only [loopEnds, loadRecords, plain_bind, if_neg hgo]
  simp only [nextRecord, getRecordHead, plain_bind, plain_ftell, plain_pure]
  generalize (getDevice stack).plain bytes c = d
  generalize getBe32.plain bytes d.2 = v
  generalize getBe32.plain bytes v.2 = l
  cases findSe es d.1.2.1 d.1.2.2 with
  | none =>
    refine ⟨fun hnone => absurd hnone (some_ne_none _), fun y hnext => ?_⟩
    obtain rfl := Option.some.inj hnext
    exact ⟨calls, fun fuel => by rw [plain_bind, plain_fseek]⟩
  | some se =>
    simp only [plain_bind]
    generalize (se.loadState se.opaquePtr v.1 s).plain bytes l.2 = r
    by_cases hret : r.1.1 < 0
    · simp only [if_pos hret, plain_pure]
      exact ⟨fun _ _ => some_ne_none _, fun y hnext => absurd hnext.symm (some_ne_none _)⟩
    · simp only [if_neg hret, plain_bind, plain_fseek]
      refine ⟨fun hnone => absurd hnone (some_ne_none _), fun y hnext => ?_⟩
      obtain rfl := Option.some.inj hnext
      exact ⟨_, fun _ => Iff.rfl⟩

theorem recordsEnd_of_loopEnds (fuel : ℕ) : ∀ (calls : List (LoadCall σ)) (x : RecordState σ),
    loopEnds bytes es endPos fuel calls x → RecordsEnd bytes es endPos x := by
  induction fuel with
  | zero => exact fun calls x hrun => absurd rfl hrun
  | succ fuel ih =>
    intro calls x hrun
    rcases Int.lt_or_le x.cursor.pos endPos with hlt | hle
    · have hround := @loadRecords_round σ bytes es endPos x calls hlt
      cases hnext : nextRecord bytes es x with
      | none => exact .refused hnext
      | some y =>
        obtain ⟨calls', hiff⟩ := hround.2 y hnext
        exact .next hnext (ih calls' y ((hiff fuel).1 hrun))
    · exact .all hle

/-- The loop ends if it comes to its end round by round. -/
theorem loadRecords_ends_iff (calls : List (LoadCall σ)) :
    (∃ n, ∀ fuel > n, loopEnds bytes es endPos fuel calls x) ↔ RecordsEnd bytes es endPos x := by
  constructor
  · rintro ⟨n, hn⟩
    exact recordsEnd_of_loopEnds (n + 1) calls x (hn (n + 1) (Nat.lt_succ_self n))
  · intro h
    have hend : ∀ {x : RecordState σ} (calls : List (LoadCall σ)), endPos ≤ x.cursor.pos →
        ∃ n, ∀ fuel > n, loopEnds bytes es endPos fuel calls x := by
      intro x calls hle
      refine ⟨0, fun fuel hfuel => ?_⟩
      obtain ⟨k, rfl⟩ := Nat.exists_eq_succ_of_ne_zero (Nat.ne_of_gt hfuel)
      exact loadRecords_end k calls hle
    -- a chain of `n` records takes `n` rounds
    induction h generalizing calls with
    | all hle => exact hend calls hle
    | @refused x hnext =>
      rcases Int.lt_or_le x.cursor.pos endPos with hlt | hle
      · refine ⟨0, fun fuel hfuel => ?_⟩
        obtain ⟨k, rfl⟩ := Nat.exists_eq_succ_of_ne_zero (Nat.ne_of_gt hfuel)
        exact (loadRecords_round calls hlt).1 hnext k
      · exact hend calls hle
    | @next x y hnext _ ih =>
      rcases Int.lt_or_le x.cursor.pos endPos with hlt | hle
      · obtain ⟨calls', hiff⟩ := (loadRecords_round calls hlt).2 y hnext
        obtain ⟨n, hn⟩ := ih calls'
        refine ⟨n + 1, fun fuel hfuel => ?_⟩
        obtain ⟨k, rfl⟩ := Nat.exists_eq_succ_of_ne_zero (show fuel ≠ 0 by omega)
        exact (hiff k).2 (hn k (by omega))
      · exact hend calls hle

/-- The word at a place, with zeros for the bytes that are not there. -/
def be32At (l : List UInt8) (k : ℕ) : BitVec 32 :=
  (l.getD k 0).toBitVec ++ (l.getD (k + 1) 0).toBitVec ++ (l.getD (k + 2) 0).toBitVec ++ (l.getD (k + 3) 0).toBitVec

/-- The head of a record: the length of the name, the name and three words. -/
def headLength (rest : List UInt8) : ℕ := (rest.getD 0 0).toNat + 13

/-- **The position that the record at a position leads to**: the length of the record, which has a sign, is added to the
position behind its head. -/
def recordNext (bytes : List UInt8) (pos : ℤ) : ℤ :=
  let rest := bytesAt bytes pos
  pos + (min (headLength rest) rest.length : ℕ) + (be32At rest (headLength rest - 4)).toInt

/-- The cursor is `k` bytes behind a position, or at the end of the file. -/
def Behind (bytes : List UInt8) (pos : ℤ) (k : ℕ) (c : Cursor) : Prop :=
  c.pos = pos + (min k (bytesAt bytes pos).length : ℕ)

variable {pos : ℤ} {k : ℕ} {c : Cursor}

theorem Behind.bytesAt_eq (h : Behind bytes pos k c) : bytesAt bytes c.pos = (bytesAt bytes pos).drop k := by
  rw [h, bytesAt_add (Nat.min_le_right k (bytesAt bytes pos).length)]
  rcases Nat.le_total k (bytesAt bytes pos).length with hle | hle
  · rw [Nat.min_eq_left hle]
  · rw [Nat.min_eq_right hle, drop_length, drop_eq_nil_of_le hle]

theorem Behind.getByte (h : Behind bytes pos k c) : (getByte.plain bytes c).1 = (bytesAt bytes pos).getD k 0 ∧
    Behind bytes pos (k + 1) (getByte.plain bytes c).2 := by
  have hb := h.bytesAt_eq
  unfold Behind at h ⊢
  simp only [Savevm.getByte, plain, hb, getD_eq_getElem?_getD]
  rcases Nat.lt_or_ge k (bytesAt bytes pos).length with hlt | hge
  · rw [drop_eq_getElem_cons hlt, List.getElem?_eq_getElem hlt]
    exact ⟨rfl, by simp only [h]; omega⟩
  · rw [drop_eq_nil_of_le hge, List.getElem?_eq_none hge]
    exact ⟨rfl, by simp only [h]; omega⟩

theorem Behind.getBuffer (h : Behind bytes pos k c) (size : ℕ) :
    Behind bytes pos (k + size) ((getBuffer size).plain bytes c).2 := by
  have hb := h.bytesAt_eq
  unfold Behind at h ⊢
  simp only [Savevm.getBuffer, plain, hb, length_take, length_drop]
  omega

theorem Behind.getBe32 (h : Behind bytes pos k c) : (getBe32.plain bytes c).1 = be32At (bytesAt bytes pos) k ∧
    Behind bytes pos (k + 4) (getBe32.plain bytes c).2 := by
  obtain ⟨h1, hc1⟩ := h.getByte
  obtain ⟨h2, hc2⟩ := hc1.getByte
  obtain ⟨h3, hc3⟩ := hc2.getByte
  obtain ⟨h4, hc4⟩ := hc3.getByte
  simp only [Savevm.getBe32, plain_bind, plain_pure]
  exact ⟨by rw [h1, h2, h3, h4]; rfl, hc4⟩

/-- The head of the record at a position. -/
theorem getRecordHead_plain (stack : ℕ → UInt8) (c : Cursor) :
    ((getRecordHead stack).plain bytes c).1.2.recordLen =
      be32At (bytesAt bytes c.pos) (headLength (bytesAt bytes c.pos) - 4) ∧
      Behind bytes c.pos (headLength (bytesAt bytes c.pos)) ((getRecordHead stack).plain bytes c).2 := by
  have h : Behind bytes c.pos 0 c := by simp [Behind]
  obtain ⟨hlen, h1⟩ := h.getByte
  have h2 := h1.getBuffer (getByte.plain bytes c).1.toNat
  obtain ⟨-, h3⟩ := h2.getBe32
  obtain ⟨-, h4⟩ := h3.getBe32
  obtain ⟨hrecord, h5⟩ := h4.getBe32
  have hhead : 0 + 1 + (getByte.plain bytes c).1.toNat + 4 + 4 + 4 = headLength (bytesAt bytes c.pos) := by
    rw [hlen, headLength]
    omega
  simp only [getRecordHead, getDevice, plain_bind, plain_pure]
  rw [← hhead]
  exact ⟨hrecord, h5⟩

theorem nextRecord_pos (h : nextRecord bytes es x = some y) : y.cursor.pos = recordNext bytes x.cursor.pos := by
  obtain ⟨hlen, hbehind⟩ := @getRecordHead_plain bytes x.stack x.cursor
  have hnext : ((getRecordHead x.stack).plain bytes x.cursor).2.pos +
      ((getRecordHead x.stack).plain bytes x.cursor).1.2.recordLen.toInt = recordNext bytes x.cursor.pos := by
    rw [hlen, hbehind]
    rfl
  unfold nextRecord at h
  simp only at h
  split at h
  · obtain rfl := Option.some.inj h
    exact hnext
  · split_ifs at h
    obtain rfl := Option.some.inj h
    exact hnext

theorem recordNext_outside (h : ¬ (0 ≤ pos ∧ pos < bytes.length)) : recordNext bytes pos = pos := by
  have hnil : bytesAt bytes pos = [] := by
    unfold bytesAt
    split_ifs with hneg
    · rfl
    · exact drop_eq_nil_of_le (by omega)
  unfold recordNext
  rw [hnil]
  exact (Int.add_zero _).trans (Int.add_zero _)

/-- **An orbit leaves a set** that is finite but for fixed points exactly if it comes to no point of it twice. -/
theorem iterate_leaves_iff {f : α → α} {a : α} {out : α → Prop} (hfin : {b | ¬ out b ∧ f b ≠ b}.Finite) :
    (∃ n, out (f^[n] a)) ↔ ∀ i j, i < j → (∀ k ≤ j, ¬ out (f^[k] a)) → f^[i] a ≠ f^[j] a := by
  constructor
  · rintro ⟨n, hn⟩ i j hij hin heq
    -- behind the second time the orbit is where it has been
    have hback : ∀ m, ¬ out (f^[m] a) := by
      intro m
      induction m using Nat.strong_induction_on with
      | _ m ih =>
        rcases Nat.le_total m j with hle | hle
        · exact hin m hle
        · have hm : f^[m] a = f^[m - j + i] a := by
            rw [iterate_add_apply, heq, ← iterate_add_apply, Nat.sub_add_cancel hle]
          rcases Nat.eq_or_lt_of_le hle with rfl | hlt
          · exact hin _ le_rfl
          · rw [hm]
            exact ih _ (by omega)
    exact hback n hn
  · intro hne
    by_contra hin
    rw [not_exists] at hin
    have hinj : Injective fun n => f^[n] a := by
      intro i j heq
      rcases Nat.lt_trichotomy i j with hlt | heq' | hlt
      · exact absurd heq (hne i j hlt fun k _ => hin k)
      · exact heq'
      · exact absurd heq.symm (hne j i hlt fun k _ => hin k)
    have hrange : Set.range (fun n => f^[n] a) ⊆ {b | ¬ out b ∧ f b ≠ b} := by
      rintro _ ⟨n, rfl⟩
      refine ⟨hin n, fun hfix => hne n (n + 1) (Nat.lt_succ_self n) (fun k _ => hin k) ?_⟩
      rw [iterate_succ_apply', hfix]
    exact Set.infinite_range_of_injective hinj (hfin.subset hrange)

/-- **No record is come to twice** in front of the end position. -/
def NoRecordTwice (bytes : List UInt8) (endPos start : ℤ) : Prop :=
  ∀ i j, i < j → (∀ k ≤ j, (recordNext bytes)^[k] start < endPos) →
    (recordNext bytes)^[i] start ≠ (recordNext bytes)^[j] start

/-- The positions of the records reach the end position. -/
theorem recordNext_reaches_iff {start : ℤ} :
    (∃ n, endPos ≤ (recordNext bytes)^[n] start) ↔ NoRecordTwice bytes endPos start := by
  have hfin : {pos | ¬ endPos ≤ pos ∧ recordNext bytes pos ≠ pos}.Finite := by
    refine (Set.finite_Ico (0 : ℤ) bytes.length).subset fun pos hpos => ?_
    by_contra hout
    exact hpos.2 (recordNext_outside hout)
  rw [iterate_leaves_iff hfin]
  simp only [not_le, NoRecordTwice]

/-- **A device refuses a record**: its `load_state` returns a negative number, at the record or at one behind it, in
front of the end position. -/
inductive Refused (bytes : List UInt8) (es : List (SaveStateEntry σ)) (endPos : ℤ) : RecordState σ → Prop
  | here {x : RecordState σ} (hlt : x.cursor.pos < endPos) (h : nextRecord bytes es x = none) :
      Refused bytes es endPos x
  | later {x y : RecordState σ} (hlt : x.cursor.pos < endPos) (h : nextRecord bytes es x = some y)
      (hrest : Refused bytes es endPos y) : Refused bytes es endPos x

theorem Refused.elim_nil (h : Refused bytes [] endPos x) : False := by
  induction h with
  | here _ hnext => simp [nextRecord, findSe] at hnext
  | later _ _ _ ih => exact ih

theorem recordsEnd_iff : RecordsEnd bytes es endPos x ↔
    NoRecordTwice bytes endPos x.cursor.pos ∨ Refused bytes es endPos x := by
  rw [← recordNext_reaches_iff]
  -- a run of the loop follows the map of positions until a record is refused
  constructor
  · intro h
    induction h with
    | all hle => exact .inl ⟨0, hle⟩
    | @refused x hnext =>
      rcases Int.lt_or_le x.cursor.pos endPos with hlt | hle
      · exact .inr (.here hlt hnext)
      · exact .inl ⟨0, hle⟩
    | @next x y hnext _ ih =>
      rcases Int.lt_or_le x.cursor.pos endPos with hlt | hle
      · rcases ih with ⟨n, hn⟩ | hrefused
        · rw [nextRecord_pos hnext, ← iterate_succ_apply] at hn
          exact .inl ⟨n + 1, hn⟩
        · exact .inr (.later hlt hnext hrefused)
      · exact .inl ⟨0, hle⟩
  · rintro (⟨n, hn⟩ | hrefused)
    · induction n generalizing x with
      | zero => exact .all hn
      | succ n ih =>
        cases hnext : nextRecord bytes es x with
        | none => exact .refused hnext
        | some y =>
          rw [iterate_succ_apply, ← nextRecord_pos hnext] at hn
          exact .next hnext (ih hn)
    · induction hrefused with
      | here _ hnext => exact .refused hnext
      | later _ hnext _ ih => exact .next hnext ih

theorem getDevice_noSeek {stack : ℕ → UInt8} : (getDevice stack).NoSeek :=
  .bind getByte_noSeek fun _ => .bind (getBuffer_noSeek _) fun _ => .bind getBe32_noSeek fun _ => trivial

/-- What is behind a position is more than nothing only inside the file. -/
theorem lt_length_of_bytesAt {pos : ℤ} {b : UInt8} {rest : List UInt8} (h : bytesAt bytes pos = b :: rest) :
    0 ≤ pos ∧ pos < bytes.length := by
  unfold bytesAt at h
  split_ifs at h with hneg
  have hlen := congrArg List.length h
  simp only [length_drop, length_cons] at hlen
  omega

theorem loadDone_ends (ret : ℤ) (calls : List (LoadCall σ)) : ((loadDone ret calls s).plain bytes c).1 ≠ none := by
  simp only [loadDone, plain_bind, plain_pure]
  exact some_ne_none _

/-- **The sections come to their end**: each takes a byte of the file, and behind it there is none. -/
theorem loadSections_ends {stack : ℕ → UInt8} (hseek : ∀ se ∈ es, ∀ v s, (se.loadState se.opaquePtr v s).NoSeek)
    (fuel : ℕ) :
    ∀ (les : List (LoadStateEntry σ)) (calls : List (LoadCall σ)) (c : Cursor) (s : σ), (∀ le ∈ les, le.se ∈ es) →
      0 ≤ c.pos → (bytes.length : ℤ) - c.pos < fuel → 0 < fuel →
      ((loadSections stack es fuel les calls s).plain bytes c).1 ≠ none := by
  induction fuel with
  | zero => exact fun les calls c s _ _ _ hfuel => absurd hfuel (Nat.lt_irrefl 0)
  | succ fuel ih =>
    intro les calls c s hles hpos hfuel _
    cases hb : bytesAt bytes c.pos with
    | nil =>
      have hzero : getByte.plain bytes c = (0, ⟨c.pos, true⟩) := by simp only [getByte, plain, hb]
      rw [loadSections, plain_bind, hzero]
      exact loadDone_ends _ _
    | cons b rest =>
      obtain ⟨-, hlt⟩ := lt_length_of_bytesAt hb
      have hbyte : getByte.plain bytes c = (b, ⟨c.pos + 1, c.error⟩) := by simp only [getByte, plain, hb]
      -- whatever a section reads, the next one starts behind its first byte
      have hmore : ∀ (les : List (LoadStateEntry σ)) (calls : List (LoadCall σ)) (c' : Cursor) (s : σ),
          (∀ le ∈ les, le.se ∈ es) → c.pos + 1 ≤ c'.pos →
          ((loadSections stack es fuel les calls s).plain bytes c').1 ≠ none :=
        fun les calls c' s hles hle => ih les calls c' s hles (by omega) (by omega) (by omega)
      rw [loadSections, plain_bind, hbyte]
      simp only
      by_cases hEof : b = vmEof
      · rw [if_pos hEof]
        exact loadDone_ends _ _
      rw [if_neg hEof]
      by_cases hstart : b = vmSectionStart ∨ b = vmSectionFull
      · rw [if_pos hstart]
        refine getBe32_noSeek.bind_ends (le_refl (c.pos + 1)) fun sectionId c₁ h₁ => ?_
        refine getDevice_noSeek.bind_ends h₁ fun device c₂ h₂ => getBe32_noSeek.bind_ends h₂ fun versionId c₃ h₃ => ?_
        cases hfind : findSe es device.2.1 device.2.2 with
        | none => exact loadDone_ends _ _
        | some se =>
          have hse : se ∈ es := mem_of_find?_eq_some hfind
          simp only
          split_ifs
          · exact loadDone_ends _ _
          · refine (hseek se hse versionId s).bind_ends h₃ fun r c₄ h₄ => hmore _ _ _ _ ?_ h₄
            exact forall_mem_cons.2 ⟨hse, hles⟩
      rw [if_neg hstart]
      by_cases hpart : b = vmSectionPart ∨ b = vmSectionEnd
      · rw [if_pos hpart]
        refine getBe32_noSeek.bind_ends (le_refl (c.pos + 1)) fun sectionId c₁ h₁ => ?_
        cases hfind : les.find? fun le => le.sectionId = sectionId with
        | none => exact loadDone_ends _ _
        | some le =>
          have hle := hles le (mem_of_find?_eq_some hfind)
          exact (hseek le.se hle le.versionId s).bind_ends h₁ fun r c₂ h₂ => hmore _ _ _ _ hles h₂
      · rw [if_neg hpart]
        exact loadDone_ends _ _

variable {stack : ℕ → UInt8} {s : σ}

/-- The first two words of a file, with zeros behind its end, and the position behind them. -/
def header (bytes : List UInt8) : (BitVec 32 × BitVec 32) × Cursor :=
  let v := getBe32.plain bytes ⟨0, false⟩
  let w := getBe32.plain bytes v.2
  ((v.1, w.1), w.2)

/-- The length in front of the records of a version 2 stream. -/
def totalLen (bytes : List UInt8) : BitVec 64 × Cursor := getBe64.plain bytes (header bytes).2

/-- Where the records end. -/
def recordsEndPos (bytes : List UInt8) : ℤ := ((totalLen bytes).1 + BitVec.ofInt 64 (totalLen bytes).2.pos).toInt

/-- What `qemu_loadvm_state` does behind the header. -/
theorem qemuLoadvmState_header (fuel : ℕ) : ((qemuLoadvmState stack es fuel s).plain bytes ⟨0, false⟩).1 =
    if (header bytes).1.1 ≠ vmFileMagic then some (-einval, [], s)
    else if (header bytes).1.2 = vmFileVersionCompat then
      ((qemuLoadvmStateV2 stack es fuel s).plain bytes (header bytes).2).1
    else if (header bytes).1.2 ≠ vmFileVersion then some (-enotsup, [], s)
    else ((loadSections stack es fuel [] [] s).plain bytes (header bytes).2).1 := by
  have hv : (getBe32.plain bytes ⟨0, false⟩).1 = (header bytes).1.1 := rfl
  have hw : getBe32.plain bytes (getBe32.plain bytes ⟨0, false⟩).2 = ((header bytes).1.2, (header bytes).2) := rfl
  rw [qemuLoadvmState, plain_bind, hv]
  by_cases hmagic : (header bytes).1.1 ≠ vmFileMagic
  · rw [if_pos hmagic, if_pos hmagic, plain_pure]
  · rw [if_neg hmagic, if_neg hmagic, plain_bind, hw]
    by_cases hcompat : (header bytes).1.2 = vmFileVersionCompat
    · rw [if_pos hcompat, if_pos hcompat]
    · rw [if_neg hcompat, if_neg hcompat]
      by_cases hversion : (header bytes).1.2 ≠ vmFileVersion
      · rw [if_pos hversion, if_pos hversion, plain_pure]
      · rw [if_neg hversion, if_neg hversion]

theorem qemuLoadvmState_plain (src : Source) (fuel : ℕ) : ((qemuLoadvmState stack es fuel s).run src qemuFopenOps).1 =
    ((qemuLoadvmState stack es fuel s).plain src.bytes ⟨0, false⟩).1 := by
  have hstart : qemuFopenOps.cursor = ⟨0, false⟩ := rfl
  rw [← hstart, run_plain _ qemuFopenOps_ok]

/-- The state of the loop behind the length. -/
def firstRecord (bytes : List UInt8) (stack : ℕ → UInt8) (s : σ) : RecordState σ := ⟨stack, (totalLen bytes).2, s⟩

/-- A version 2 stream. -/
theorem loadvmV2_ends_iff (src : Source) (hv2 : (header src.bytes).1 = (vmFileMagic, vmFileVersionCompat)) :
    (∃ n, ∀ fuel > n, ((qemuLoadvmState stack es fuel s).run src qemuFopenOps).1 ≠ none) ↔
      NoRecordTwice src.bytes (recordsEndPos src.bytes) (totalLen src.bytes).2.pos ∨
        Refused src.bytes es (recordsEndPos src.bytes) (firstRecord src.bytes stack s) := by
  have hloop : ∀ fuel, ((qemuLoadvmStateV2 stack es fuel s).plain src.bytes (header src.bytes).2).1 =
      ((loadRecords es (recordsEndPos src.bytes) fuel stack [] s).plain src.bytes (totalLen src.bytes).2).1 := by
    intro fuel
    rw [qemuLoadvmStateV2, plain_bind, plain_bind]
    rfl
  simp only [qemuLoadvmState_plain, qemuLoadvmState_header, hv2, ne_eq, not_true_eq_false, if_false, if_true, hloop]
  exact (loadRecords_ends_iff (x := firstRecord src.bytes stack s) []).trans recordsEnd_iff

/-- Any other stream. -/
theorem loadvm_ends (src : Source) (hseek : ∀ se ∈ es, ∀ v s, (se.loadState se.opaquePtr v s).NoSeek)
    (hv2 : (header src.bytes).1 ≠ (vmFileMagic, vmFileVersionCompat)) :
    ∃ n, ∀ fuel > n, ((qemuLoadvmState stack es fuel s).run src qemuFopenOps).1 ≠ none := by
  have hpos : 0 ≤ (header src.bytes).2.pos :=
    (getBe32_noSeek.plain_le (⟨0, false⟩ : Cursor)).trans (getBe32_noSeek.plain_le _)
  refine ⟨src.bytes.length, fun fuel hfuel => ?_⟩
  rw [qemuLoadvmState_plain, qemuLoadvmState_header]
  split_ifs with hmagic hcompat hversion
  · exact some_ne_none _
  · exact absurd (Prod.ext (not_not.1 hmagic) hcompat) hv2
  · exact some_ne_none _
  · exact loadSections_ends hseek fuel [] [] _ s (by simp) hpos (by omega) (by omega)

/-- **A state is loaded to its end exactly if** it is not a version 2 stream, or no record of it is come to twice, or
a device refuses one. -/
theorem loadvm_ends_iff (src : Source) (stack : ℕ → UInt8) (es : List (SaveStateEntry σ)) (s : σ)
    (hseek : ∀ se ∈ es, ∀ v s, (se.loadState se.opaquePtr v s).NoSeek) :
    (∃ n, ∀ fuel > n, ((qemuLoadvmState stack es fuel s).run src qemuFopenOps).1 ≠ none) ↔
      ((header src.bytes).1 = (vmFileMagic, vmFileVersionCompat) →
        NoRecordTwice src.bytes (recordsEndPos src.bytes) (totalLen src.bytes).2.pos ∨
          Refused src.bytes es (recordsEndPos src.bytes) (firstRecord src.bytes stack s)) := by
  by_cases hv2 : (header src.bytes).1 = (vmFileMagic, vmFileVersionCompat)
  · rw [loadvmV2_ends_iff src hv2]
    exact ⟨fun h _ => h, fun h => h hv2⟩
  · exact iff_of_true (loadvm_ends src hseek hv2) fun h => absurd h hv2

/-- A version 2 stream with a length in front of its records, that comes byte by byte. -/
def streamV2 (len : UInt8) (records : List UInt8) : Source where
  bytes := [0x51, 0x45, 0x56, 0x4d, 0, 0, 0, 2, 0, 0, 0, 0, 0, 0, 0, len] ++ records
  give _ := 1
  give_pos _ := Nat.one_pos

/-- One record of no bytes, of a device that there is not. -/
theorem loadvm_ends_iff_record : ∃ n, ∀ fuel > n, ((qemuLoadvmState (fun _ => 0) ([] : List (SaveStateEntry Unit)) fuel
    ()).run (streamV2 13 (List.replicate 13 0)) qemuFopenOps).1 ≠ none := by
  refine (loadvm_ends_iff (streamV2 13 (List.replicate 13 0)) (fun _ => 0) [] () (by simp)).2 fun _ => .inl ?_
  intro i j hij hin
  exact absurd (hin 1 (by omega)) (by decide)

/-- A file that is cut off in front of its records is read for ever. -/
theorem loadvm_endless : ¬ ∀ (src : Source) (stack : ℕ → UInt8) (es : List (SaveStateEntry Unit)) (s : Unit),
    (∀ se ∈ es, ∀ v s, (se.loadState se.opaquePtr v s).NoSeek) →
    ∃ n, ∀ fuel > n, ((qemuLoadvmState stack es fuel s).run src qemuFopenOps).1 ≠ none := by
  intro hall
  rcases (loadvmV2_ends_iff (streamV2 1 []) (by decide)).1 (hall (streamV2 1 []) (fun _ => 0) [] () (by simp)) with
    htwice | hrefused
  · exact htwice 0 1 Nat.one_pos (fun k hk => by interval_cases k <;> decide) (by decide)
  · exact hrefused.elim_nil

end Emulator.Savevm
