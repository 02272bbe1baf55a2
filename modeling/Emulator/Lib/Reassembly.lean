import Mathlib

/-!
# Reassembly of a stream from overlapping segments

A segment carries a part of a stream. The queue of a reassembler is a list of segments in the order of their positions,
no two of which overlap. A new segment comes in behind those that begin no later than it does: it is clipped by the
last of them (and dropped where nothing is left of it), and what follows is trimmed or removed as far as it is covered.

* `Ordered.put`: the queue stays in order and without overlaps;
* `mem_cover_put`: the positions of the new segment are added to those of the queue, and none is lost;
* `carries_put`: segments that carry the stream still do.
-/

namespace Emulator.Reassembly

open List

variable {ι β : Type}

/-- The part of the stream `σ` from `a` up to `b`. -/
def slice (σ : ℕ → β) (a b : ℕ) : List β := (List.range' a (b - a)).map σ

theorem slice_self (σ : ℕ → β) (a : ℕ) : slice σ a a = [] := by simp [slice]

theorem length_slice (σ : ℕ → β) (a b : ℕ) : (slice σ a b).length = b - a := by simp [slice]

theorem slice_append (σ : ℕ → β) {a b c : ℕ} (hab : a ≤ b) (hbc : b ≤ c) :
    slice σ a b ++ slice σ b c = slice σ a c := by
  have hsplit := List.range'_append_1 (s := a) (m := b - a) (n := c - b)
  rw [show a + (b - a) = b by omega, show b - a + (c - b) = c - a by omega] at hsplit
  rw [slice, slice, slice, ← map_append, hsplit]

theorem drop_slice (σ : ℕ → β) {a b i : ℕ} (h : a + i ≤ b) : (slice σ a b).drop i = slice σ (a + i) b := by
  rw [← slice_append σ (Nat.le_add_right a i) h, drop_append_of_le_length, drop_eq_nil_of_le]
  · simp
  · rw [length_slice]; omega
  · rw [length_slice]; omega

/-- A segment, with the place where it is kept. -/
@[ext]
structure Seg (ι β : Type) where
  tag : ι
  pos : ℕ
  data : List β

namespace Seg

def stop (s : Seg ι β) : ℕ := s.pos + s.data.length

/-- The first `i` elements are cut off. -/
def trim (s : Seg ι β) (i : ℕ) : Seg ι β := { s with pos := s.pos + i, data := s.data.drop i }

theorem trim_stop {s : Seg ι β} {i : ℕ} (h : i = 0 ∨ i < s.data.length) : (s.trim i).stop = s.stop := by
  simp only [stop, trim, length_drop]
  omega

def Carries (σ : ℕ → β) (s : Seg ι β) : Prop := s.data = slice σ s.pos s.stop

theorem Carries.trim {σ : ℕ → β} {s : Seg ι β} (hs : s.Carries σ) {i : ℕ} (h : i = 0 ∨ i < s.data.length) :
    (s.trim i).Carries σ := by
  unfold Carries
  rw [trim_stop h]
  show s.data.drop i = slice σ (s.pos + i) s.stop
  rw [hs, drop_slice σ (show s.pos + i ≤ s.stop by unfold stop; omega)]

end Seg

/-- No segment begins before the end of an earlier one. -/
def Ordered (l : List (Seg ι β)) : Prop := l.Pairwise fun a b => a.stop ≤ b.pos

/-- The positions that are in the queue. -/
def Cover (l : List (Seg ι β)) (p : ℕ) : Prop := ∃ s ∈ l, s.pos ≤ p ∧ p < s.stop

/-- What is left of a new segment behind the segments `pre`. -/
def clip (pre : List (Seg ι β)) (s : Seg ι β) : Option (Seg ι β) :=
  match pre.getLast? with
  | none => some s
  | some p =>
    if p.stop ≤ s.pos then some s
    else if s.stop ≤ p.stop then none
    else some (s.trim (p.stop - s.pos))

/-- What is left of the segments behind a new one that ends at `stop`. -/
def absorb (stop : ℕ) : List (Seg ι β) → List (Seg ι β)
  | [] => []
  | q :: l =>
    if stop ≤ q.pos then q :: l
    else if stop < q.stop then q.trim (stop - q.pos) :: l
    else absorb stop l

/-- The queue `pre ++ post` with a new segment in the gap. -/
def put (pre post : List (Seg ι β)) (s : Seg ι β) : List (Seg ι β) :=
  match clip pre s with
  | none => pre ++ post
  | some s => pre ++ s :: absorb s.stop post

/-- The gap for a segment at `pos`. -/
structure Gap (pos : ℕ) (pre post : List (Seg ι β)) : Prop where
  pre : ∀ q ∈ pre, q.pos ≤ pos
  post : ∀ q ∈ post, pos < q.pos

variable {l : List (Seg ι β)}

/-- The gap is behind the segments that begin no later than `pos`. -/
theorem Ordered.gap (h : Ordered l) (pos : ℕ) :
    Gap pos (l.takeWhile (·.pos ≤ pos)) (l.dropWhile (·.pos ≤ pos)) := by
  refine ⟨fun q hq => by simpa using mem_takeWhile_imp hq, ?_⟩
  induction l with
  | nil => simp
  | cons g l ih =>
    obtain ⟨hg, hl⟩ := pairwise_cons.mp h
    intro q hq
    by_cases hpos : g.pos ≤ pos
    · rw [dropWhile_cons_of_pos (by simpa using hpos)] at hq
      exact ih hl q hq
    · rw [dropWhile_cons_of_neg (by simpa using hpos)] at hq
      rcases mem_cons.mp hq with rfl | hq
      · omega
      · have := hg q hq
        have : g.pos ≤ g.stop := Nat.le_add_right _ _
        omega

theorem Ordered.stop_le (h : Ordered l) {p : Seg ι β} (hp : l.getLast? = some p) {q : Seg ι β}
    (hq : q ∈ l) : q.stop ≤ p.stop := by
  obtain ⟨l, rfl⟩ := List.getLast?_eq_some_iff.mp hp
  rcases mem_append.mp hq with hq | hq
  · have := (pairwise_append.mp h).2.2 q hq p (by simp)
    have : p.pos ≤ p.stop := Nat.le_add_right _ _
    omega
  · rw [mem_singleton.mp hq]

/-- What clipping leaves: an end part of the segment behind all of `pre`; the part that is cut off is in `pre`. -/
theorem clip_some {pre : List (Seg ι β)} {s s' : Seg ι β} (ho : Ordered pre) (hg : ∀ q ∈ pre, q.pos ≤ s.pos)
    (h : clip pre s = some s') :
    ∃ i, (i = 0 ∨ i < s.data.length) ∧ s' = s.trim i ∧ (∀ q ∈ pre, q.stop ≤ s'.pos) ∧
      (∀ p, s.pos ≤ p → p < s'.pos → Cover pre p) := by
  unfold clip at h
  cases hl : pre.getLast? with
  | none =>
    rw [hl] at h
    obtain rfl := Option.some.inj h
    rw [List.getLast?_eq_none_iff.mp hl]
    refine ⟨0, .inl rfl, by simp [Seg.trim], by simp, ?_⟩
    intro p hp hp'
    omega
  | some q =>
    have hq := mem_of_getLast? hl
    rw [hl] at h
    dsimp only at h
    split_ifs at h with h₁ h₂
    · obtain rfl := Option.some.inj h
      refine ⟨0, .inl rfl, by simp [Seg.trim], fun r hr => (ho.stop_le hl hr).trans h₁, ?_⟩
      intro p hp hp'
      omega
    · obtain rfl := Option.some.inj h
      have hpos : (s.trim (q.stop - s.pos)).pos = q.stop := by
        simp only [Seg.trim]
        omega
      refine ⟨q.stop - s.pos, .inr ?_, rfl, ?_, ?_⟩
      · unfold Seg.stop at h₁ h₂ ⊢
        omega
      · intro r hr
        rw [hpos]
        exact ho.stop_le hl hr
      · intro p hp hp'
        rw [hpos] at hp'
        exact ⟨q, hq, (hg q hq).trans hp, hp'⟩

variable {s : Seg ι β}

/-- A segment that is dropped is in the queue already. -/
theorem clip_none {pre : List (Seg ι β)} (hg : ∀ q ∈ pre, q.pos ≤ s.pos) (h : clip pre s = none)
    {p : ℕ} (hp : s.pos ≤ p) (hp' : p < s.stop) : Cover pre p := by
  unfold clip at h
  cases hl : pre.getLast? with
  | none => simp [hl] at h
  | some q =>
    have hq := mem_of_getLast? hl
    rw [hl] at h
    dsimp only at h
    split_ifs at h with h₁ h₂
    exact ⟨q, hq, (hg q hq).trans hp, by omega⟩

/-- Every segment that is left is an end part of one that was there. -/
theorem mem_absorb {stop : ℕ} (h : s ∈ absorb stop l) :
    ∃ q ∈ l, ∃ i, (i = 0 ∨ i < q.data.length) ∧ s = q.trim i := by
  induction l with
  | nil => simp [absorb] at h
  | cons q l ih =>
    unfold absorb at h
    split_ifs at h with h₁ h₂
    · exact ⟨s, h, 0, .inl rfl, by simp [Seg.trim]⟩
    · rcases mem_cons.mp h with rfl | h
      · exact ⟨q, by simp, stop - q.pos, .inr (by unfold Seg.stop at h₂; omega), rfl⟩
      · exact ⟨s, by simp [h], 0, .inl rfl, by simp [Seg.trim]⟩
    · obtain ⟨r, hr, i, hi, hs⟩ := ih h
      exact ⟨r, by simp [hr], i, hi, hs⟩

theorem absorb_ordered (stop : ℕ) (ho : Ordered l) :
    Ordered (absorb stop l) ∧ ∀ q ∈ absorb stop l, stop ≤ q.pos := by
  induction l with
  | nil => simp [absorb, Ordered]
  | cons q l ih =>
    obtain ⟨hq, hl⟩ := pairwise_cons.mp ho
    have hqs : q.pos ≤ q.stop := Nat.le_add_right _ _
    unfold absorb
    split_ifs with h₁ h₂
    · refine ⟨ho, ?_⟩
      intro r hr
      rcases mem_cons.mp hr with rfl | hr
      · exact h₁
      · have := hq r hr
        omega
    · have hlen : stop - q.pos = 0 ∨ stop - q.pos < q.data.length := by unfold Seg.stop at h₂; omega
      have hpos : (q.trim (stop - q.pos)).pos = stop := by simp only [Seg.trim]; omega
      refine ⟨pairwise_cons.mpr ⟨?_, hl⟩, ?_⟩
      · intro r hr
        rw [Seg.trim_stop hlen]
        exact hq r hr
      · intro r hr
        rcases mem_cons.mp hr with rfl | hr
        · exact hpos.ge
        · have := hq r hr
          omega
    · exact ih hl

theorem cover_absorb {stop : ℕ} (ho : Ordered l) {p : ℕ} (hp : stop ≤ p) :
    Cover (absorb stop l) p ↔ Cover l p := by
  induction l with
  | nil => simp [absorb]
  | cons q l ih =>
    unfold absorb
    split_ifs with h₁ h₂
    · rfl
    · have hlen : stop - q.pos = 0 ∨ stop - q.pos < q.data.length := by unfold Seg.stop at h₂; omega
      have hpos : (q.trim (stop - q.pos)).pos = stop := by simp only [Seg.trim]; omega
      unfold Cover
      simp only [exists_mem_cons_iff, Seg.trim_stop hlen, hpos]
      constructor
      · rintro (h | h)
        · exact .inl ⟨by omega, h.2⟩
        · exact .inr h
      · rintro (h | h)
        · exact .inl ⟨hp, h.2⟩
        · exact .inr h
    · rw [ih (pairwise_cons.mp ho).2]
      constructor
      · rintro ⟨r, hr, h⟩
        exact ⟨r, by simp [hr], h⟩
      · rintro ⟨r, hr, h⟩
        rcases mem_cons.mp hr with rfl | hr
        · omega
        · exact ⟨r, hr, h⟩

theorem Ordered.put {pre post : List (Seg ι β)} {s : Seg ι β} (ho : Ordered (pre ++ post)) (hg : Gap s.pos pre post) :
    Ordered (put pre post s) := by
  obtain ⟨hpre, hpost, -⟩ := pairwise_append.mp ho
  unfold Reassembly.put
  cases hc : clip pre s with
  | none => exact ho
  | some s' =>
    obtain ⟨i, hi, rfl, hbehind, -⟩ := clip_some hpre hg.pre hc
    obtain ⟨habs, hstop⟩ := absorb_ordered (s.trim i).stop hpost
    have hs : (s.trim i).pos ≤ (s.trim i).stop := Nat.le_add_right _ _
    refine pairwise_append.mpr ⟨hpre, pairwise_cons.mpr ⟨hstop, habs⟩, ?_⟩
    intro a ha b hb
    have := hbehind a ha
    rcases mem_cons.mp hb with rfl | hb
    · exact this
    · have := hstop b hb
      omega

theorem cover_append {l r : List (Seg ι β)} {p : ℕ} : Cover (l ++ r) p ↔ Cover l p ∨ Cover r p := by
  simp only [Cover, mem_append, or_and_right, exists_or]

variable {pre post : List (Seg ι β)}

/-- The positions of a new segment are added to those of the queue. -/
theorem mem_cover_put (ho : Ordered (pre ++ post)) (hg : Gap s.pos pre post)
    (p : ℕ) : Cover (put pre post s) p ↔ Cover (pre ++ post) p ∨ s.pos ≤ p ∧ p < s.stop := by
  obtain ⟨hpre, hpost, -⟩ := pairwise_append.mp ho
  unfold put
  cases hc : clip pre s with
  | none =>
    refine ⟨.inl, ?_⟩
    rintro (h | ⟨h, h'⟩)
    · exact h
    · exact cover_append.mpr (.inl (clip_none hg.pre hc h h'))
  | some s' =>
    obtain ⟨i, hi, rfl, hbehind, hcut⟩ := clip_some hpre hg.pre hc
    have hstop := Seg.trim_stop hi
    have hpos : (s.trim i).pos = s.pos + i := rfl
    have hmid : Cover ((s.trim i) :: absorb (s.trim i).stop post) p ↔
        (s.pos + i ≤ p ∧ p < s.stop) ∨ Cover (absorb (s.trim i).stop post) p := by
      simp only [Cover, exists_mem_cons_iff, hstop, hpos]
    dsimp only
    rw [cover_append, cover_append, hmid]
    constructor
    · rintro (h | h | h)
      · exact .inl (.inl h)
      · exact .inr ⟨by omega, h.2⟩
      · -- what is left behind the new segment was there
        obtain ⟨r, hr, h₁, h₂⟩ := h
        have := (absorb_ordered (s.trim i).stop hpost).2 r hr
        exact .inl (.inr ((cover_absorb hpost (by omega)).mp ⟨r, hr, h₁, h₂⟩))
    · rintro ((h | h) | ⟨h, h'⟩)
      · exact .inl h
      · obtain ⟨r, hr, h₁, h₂⟩ := h
        by_cases hp : p < s.stop
        · refine .inr (.inl ⟨?_, hp⟩)
          have := hg.post r hr
          by_contra hlt
          -- the part that was cut off lies in front of `post`
          obtain ⟨a, ha, h₃, h₄⟩ := hcut p (by omega) (by omega)
          have := (pairwise_append.mp ho).2.2 a ha r hr
          omega
        · exact .inr (.inr ((cover_absorb hpost (by omega)).mpr ⟨r, hr, h₁, h₂⟩))
      · by_cases hp : s.pos + i ≤ p
        · exact .inr (.inl ⟨hp, h'⟩)
        · exact .inl (hcut p h (by omega))

theorem length_absorb_le (stop : ℕ) (l : List (Seg ι β)) : (absorb stop l).length ≤ l.length := by
  induction l with
  | nil => exact le_rfl
  | cons g l ih =>
    unfold absorb
    split_ifs
    · exact le_rfl
    · exact le_rfl
    · exact ih.trans (Nat.le_succ _)

theorem length_put_le (pre post : List (Seg ι β)) (s : Seg ι β) :
    (put pre post s).length ≤ (pre ++ post).length + 1 := by
  unfold put
  cases clip pre s with
  | none => exact Nat.le_succ _
  | some s' =>
    have := length_absorb_le s'.stop post
    simp only [length_append, length_cons]
    omega

theorem put_ne_nil (pre post : List (Seg ι β)) (s : Seg ι β) : put pre post s ≠ [] := by
  unfold put clip
  cases pre with
  | nil => simp
  | cons g pre => split <;> simp

/-- Every segment of the new queue is an end part of one of the old queue or of the new segment. -/
theorem mem_put {s g : Seg ι β} (ho : Ordered (pre ++ post)) (hg : Gap s.pos pre post)
    (h : g ∈ put pre post s) :
    ∃ r, (r ∈ pre ++ post ∨ r = s) ∧ ∃ i, (i = 0 ∨ i < r.data.length) ∧ g = r.trim i := by
  unfold put at h
  cases hc : clip pre s with
  | none =>
    rw [hc] at h
    exact ⟨g, .inl h, 0, .inl rfl, by simp [Seg.trim]⟩
  | some s' =>
    rw [hc] at h
    obtain ⟨i, hi, rfl, -, -⟩ := clip_some (pairwise_append.mp ho).1 hg.pre hc
    rcases mem_append.mp h with h | h
    · exact ⟨g, .inl (by simp [h]), 0, .inl rfl, by simp [Seg.trim]⟩
    rcases mem_cons.mp h with rfl | h
    · exact ⟨s, .inr rfl, i, hi, rfl⟩
    · obtain ⟨r, hr, j, hj, rfl⟩ := mem_absorb h
      exact ⟨r, .inl (by simp [hr]), j, hj, rfl⟩

theorem carries_put {σ : ℕ → β} (ho : Ordered (pre ++ post))
    (hg : Gap s.pos pre post) (hs : s.Carries σ) (hl : ∀ q ∈ pre ++ post, q.Carries σ) :
    ∀ q ∈ put pre post s, q.Carries σ := by
  intro q hq
  obtain ⟨r, hr, i, hi, rfl⟩ := mem_put ho hg hq
  rcases hr with hr | rfl
  · exact (hl r hr).trim hi
  · exact hs.trim hi

/-! ## Tags

Nothing depends on where a segment is kept. -/

/-- The segment in another place. -/
def Seg.retag {κ : Type} (f : Seg ι β → κ) (s : Seg ι β) : Seg κ β := ⟨f s, s.pos, s.data⟩

theorem ordered_retag {κ : Type} (f : Seg ι β → κ) (l : List (Seg ι β)) : Ordered (l.map (Seg.retag f)) ↔ Ordered l :=
  pairwise_map

theorem cover_retag {κ : Type} (f : Seg ι β → κ) (l : List (Seg ι β)) (p : ℕ) :
    Cover (l.map (Seg.retag f)) p ↔ Cover l p := by
  constructor
  · rintro ⟨s, hs, h⟩
    obtain ⟨r, hr, rfl⟩ := mem_map.mp hs
    exact ⟨r, hr, h⟩
  · rintro ⟨r, hr, h⟩
    exact ⟨r.retag f, mem_map_of_mem hr, h⟩

/-- The segments that follow on from `R` are taken: their data, where they end, and what is left. -/
def take (R : ℕ) : List (Seg ι β) → List β × ℕ × List (Seg ι β)
  | [] => ([], R, [])
  | g :: l =>
    if g.pos = R then
      let taken := take g.stop l
      (g.data ++ taken.1, taken.2)
    else ([], R, g :: l)

/-- What was taken is the stream from `R` up to the new position; the rest is behind that. -/
theorem take_spec {σ : ℕ → β} {R : ℕ} (ho : Ordered l) (hc : ∀ g ∈ l, g.Carries σ) (hR : ∀ g ∈ l, R ≤ g.pos) :
    R ≤ (take R l).2.1 ∧ (take R l).1 = slice σ R (take R l).2.1 ∧
    (take R l).2.2 <:+ l ∧ (∀ g ∈ (take R l).2.2, (take R l).2.1 < g.pos) ∧
    (∀ p, Cover l p ↔ R ≤ p ∧ p < (take R l).2.1 ∨ Cover (take R l).2.2 p) := by
  induction l generalizing R with
  | nil => simp [take, slice_self, Cover]
  | cons g l ih =>
    obtain ⟨hg, hl⟩ := pairwise_cons.mp ho
    have hgs : g.pos ≤ g.stop := Nat.le_add_right _ _
    unfold take
    split_ifs with h
    · obtain ⟨h₁, h₂, h₃, h₄, h₅⟩ := ih hl (fun r hr => hc r (by simp [hr])) hg
      dsimp only
      refine ⟨by omega, ?_, h₃.trans (suffix_cons g l), h₄, ?_⟩
      · have hdata : g.data = slice σ g.pos g.stop := hc g (by simp)
        rw [h₂, hdata, ← h, slice_append σ hgs h₁]
      · intro p
        have hcons : Cover (g :: l) p ↔ (g.pos ≤ p ∧ p < g.stop) ∨ Cover l p := by simp [Cover]
        rw [hcons, h₅ p, ← or_assoc]
        refine or_congr_left ?_
        omega
    · refine ⟨le_rfl, by rw [slice_self], suffix_rfl, ?_, ?_⟩
      · have := hR g (by simp)
        intro r hr
        rcases mem_cons.mp hr with rfl | hr
        · dsimp only; omega
        · have := hg r hr
          dsimp only; omega
      · intro p
        constructor
        · exact .inr
        · rintro (h | h)
          · exact absurd h (by dsimp only; omega)
          · exact h

/-- Where segments that reach on from `x` without a gap end. -/
def reach (x : ℕ) : List (Seg ι β) → Option ℕ
  | [] => some x
  | g :: l => if g.pos ≤ x then reach (max x g.stop) l else none

theorem take_eq_reach {x : ℕ} (ho : Ordered l) (hx : ∀ g ∈ l, x ≤ g.pos) (E : ℕ) :
    ((take x l).2.2 = [] ∧ (take x l).2.1 = E) ↔ reach x l = some E := by
  induction l generalizing x with
  | nil => simp [take, reach]
  | cons g l ih =>
    obtain ⟨hg, hl⟩ := pairwise_cons.mp ho
    have hgs : g.pos ≤ g.stop := Nat.le_add_right _ _
    have hxg := hx g (by simp)
    unfold take reach
    by_cases h : g.pos = x
    · rw [if_pos h, if_pos h.le, show max x g.stop = g.stop by omega]
      exact ih hl hg
    · rw [if_neg h, if_neg (by omega)]
      simp

/-- A segment at the front leaves nothing of a queue that is `absorb`ed and taken exactly when there is no gap. -/
theorem take_absorb_eq_reach {x : ℕ} (ho : Ordered l) (E : ℕ) :
    ((take x (absorb x l)).2.2 = [] ∧ (take x (absorb x l)).2.1 = E) ↔ reach x l = some E := by
  induction l with
  | nil => simp [absorb, take, reach]
  | cons g l ih =>
    obtain ⟨hg, hl⟩ := pairwise_cons.mp ho
    unfold absorb
    split_ifs with h₁ h₂
    · refine take_eq_reach ho ?_ E
      intro r hr
      rcases mem_cons.mp hr with rfl | hr
      · exact h₁
      · have := hg r hr
        have : g.pos ≤ g.stop := Nat.le_add_right _ _
        omega
    · have hlen : x - g.pos = 0 ∨ x - g.pos < g.data.length := by unfold Seg.stop at h₂; omega
      have hpos : (g.trim (x - g.pos)).pos = x := by simp only [Seg.trim]; omega
      unfold take reach
      rw [if_pos hpos, if_pos (by omega), Seg.trim_stop hlen, show max x g.stop = g.stop by omega]
      exact take_eq_reach hl hg E
    · rw [ih hl]
      rw [show reach x (g :: l) = reach x l by
        rw [reach, if_pos (by omega), show max x g.stop = x by omega]]

theorem take_data {R : ℕ} (h : (take R l).2.2 = []) : (take R l).1 = l.flatMap Seg.data := by
  induction l generalizing R with
  | nil => rfl
  | cons g l ih =>
    unfold take at h ⊢
    split_ifs at h ⊢
    rw [flatMap_cons, ← ih h]

theorem take_le {R M : ℕ} (hR : R ≤ M) (hl : ∀ g ∈ l, g.stop ≤ M) : (take R l).2.1 ≤ M := by
  induction l generalizing R with
  | nil => exact hR
  | cons g l ih =>
    unfold take
    split_ifs with h
    · exact ih (hl g (by simp)) fun r hr => hl r (by simp [hr])
    · exact hR

/-- Positions may be counted from `R`. -/
theorem reach_shift {R : ℕ} (hR : ∀ g ∈ l, R ≤ g.pos) (x : ℕ) :
    reach (R + x) l = (reach x (l.map fun g => { g with pos := g.pos - R })).map (R + ·) := by
  induction l generalizing x with
  | nil => simp [reach]
  | cons g l ih =>
    have hg := hR g (by simp)
    rw [map_cons]
    unfold reach
    by_cases h : g.pos ≤ R + x
    · have hstop : max (R + x) g.stop = R + max x ({ g with pos := g.pos - R } : Seg ι β).stop := by
        unfold Seg.stop
        dsimp only
        omega
      rw [if_pos h, if_pos (by dsimp only; omega), hstop]
      exact ih (fun r hr => hR r (by simp [hr])) _
    · rw [if_neg h, if_neg (by dsimp only; omega), Option.map_none]

end Emulator.Reassembly
