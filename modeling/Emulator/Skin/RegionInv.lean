import Emulator.Skin.Region

/-!
# What every region looks like

The regions that the operations make: `BandsOk` run lists have increasing bands
with spans that are not empty, and `Stacked` ones, which `runs_coalesce` leaves,
have spans with one left end and increasing right ends in each band.

* `sweepSpans_ok`, `regionOperatorDo_ok`: the sweep gives `BandsOk` runs;
* `runsCoalesce_ok`: coalescing makes them `Stacked` and finds their extent;
* `regionOperatorDone_ok`: so the operator makes a `RegionOk` region;
* `contains_iff`, `RegionOk.boundsExact`: what such a region contains.
-/

namespace Emulator.Skin

open List

/-- Lowest and highest coordinate of a run, the sentinel apart. -/
def RUN_MIN : ℤ := -32768
def RUN_MAX : ℤ := 32766

def SpanOk (s : Span) : Prop := RUN_MIN ≤ s.1 ∧ s.1 < s.2 ∧ s.2 ≤ RUN_MAX

structure BandOk (b : Band) : Prop where
  top : RUN_MIN ≤ b.ytop
  lt : b.ytop < b.ybot
  bot : b.ybot ≤ RUN_MAX
  ne : b.spans ≠ []
  spans : ∀ s ∈ b.spans, SpanOk s

/-- Bands in increasing order. -/
structure BandsOk (bands : List Band) : Prop where
  band : ∀ b ∈ bands, BandOk b
  sorted : bands.Pairwise fun a b => a.ybot ≤ b.ytop

theorem forall_mem_ite {α : Type} {p : α → Prop} {c : Prop} [Decidable c] {a : α} (h : p a) :
    ∀ x ∈ (if c then [a] else []), p x := by
  split_ifs
  · simpa using h
  · simp

theorem sweepSpans_ok (wanted : Wanted) (xs ys : List Span) (hx : ∀ s ∈ xs, SpanOk s) (hy : ∀ s ∈ ys, SpanOk s) :
    ∀ s ∈ sweepSpans wanted xs ys, SpanOk s := by
  fun_induction sweepSpans wanted xs ys with
  | case1 => simp
  | case2 ys hne hw => exact hy
  | case3 ys hne hw => simp
  | case4 xs hne hw => exact hx
  | case5 xs hne hw => simp
  | case6 l1 r1 xs l2 r2 ys h ih =>
    rw [forall_mem_cons] at hx
    rw [forall_mem_append]
    exact ⟨forall_mem_ite hx.1, ih hx.2 hy⟩
  | case7 l1 r1 xs l2 r2 ys h1 h2 ih =>
    rw [forall_mem_cons] at hy
    rw [forall_mem_append]
    exact ⟨forall_mem_ite hy.1, ih hx hy.2⟩
  | case8 l1 r1 xs l2 r2 ys h1 h2 before l r ih1 ih2 ih3 =>
    rw [forall_mem_cons] at hx hy
    obtain ⟨⟨hl1, hlr1, hr1⟩, hx⟩ := hx
    obtain ⟨⟨hl2, hlr2, hr2⟩, hy⟩ := hy
    simp only at hl1 hlr1 hr1 hl2 hlr2 hr2
    rw [forall_mem_append, forall_mem_append]
    refine ⟨⟨?_, forall_mem_ite ⟨?_, ?_, ?_⟩⟩, ?_⟩
    · simp only [before]
      split_ifs <;> simp only [mem_singleton, not_mem_nil, forall_eq, false_imp_iff, implies_true]
      · exact ⟨hl1, by assumption, by simp only; omega⟩
      · exact ⟨hl2, by assumption, by simp only; omega⟩
    · simp only [l]; omega
    · simp only [l, r]; split_ifs <;> omega
    · simp only [r]; split_ifs <;> omega
    · split_ifs with he hlt
      · exact ih1 hx hy
      · refine ih2 hx ?_
        rw [forall_mem_cons]
        exact ⟨⟨by simp only [r]; split_ifs <;> omega, by simp only [r]; split_ifs <;> omega, hr2⟩, hy⟩
      · refine ih3 ?_ hy
        rw [forall_mem_cons]
        exact ⟨⟨by simp only [r]; split_ifs <;> omega, by simp only [r]; split_ifs <;> omega, hr1⟩, hx⟩

variable {b : Band}

theorem BandsOk.tail {bands : List Band} (h : BandsOk (b :: bands)) : BandsOk bands :=
  ⟨fun c hc => h.band c (mem_cons_of_mem _ hc), (pairwise_cons.1 h.sorted).2⟩

/-- A band put before bands that start below it. -/
theorem BandsOk.cons {b : Band} {bands : List Band} (hb : BandOk b) (h : BandsOk bands)
    (hlt : ∀ c ∈ bands, b.ybot ≤ c.ytop) : BandsOk (b :: bands) :=
  ⟨forall_mem_cons.2 ⟨hb, h.band⟩, pairwise_cons.2 ⟨hlt, h.sorted⟩⟩

/-- Nothing, or one band, put before bands that start below it. -/
theorem BandsOk.before {before bands : List Band} {t t' : ℤ} (h : BandsOk bands ∧ ∀ c ∈ bands, t ≤ c.ytop)
    (htt : t' ≤ t) (hb : before = [] ∨ ∃ b, before = [b] ∧ BandOk b ∧ b.ybot ≤ t ∧ t' ≤ b.ytop) :
    BandsOk (before ++ bands) ∧ ∀ c ∈ before ++ bands, t' ≤ c.ytop := by
  have hlow : ∀ c ∈ bands, t' ≤ c.ytop := fun c hc => le_trans htt (h.2 c hc)
  rcases hb with rfl | ⟨b, rfl, hb, ht, hlb⟩
  · exact ⟨h.1, hlow⟩
  · exact ⟨h.1.cons hb fun c hc => le_trans ht (h.2 c hc), forall_mem_cons.2 ⟨hlb, hlow⟩⟩

/-- **The sweep gives increasing bands**, from the line `t` on where both operands
start. -/
theorem regionOperatorDo_ok (wanted : Wanted) (xs ys : List Band) (hx : BandsOk xs) (hy : BandsOk ys) {t : ℤ}
    (htx : ∀ b ∈ xs, t ≤ b.ytop) (hty : ∀ b ∈ ys, t ≤ b.ytop) :
    BandsOk (regionOperatorDo wanted xs ys) ∧ ∀ b ∈ regionOperatorDo wanted xs ys, t ≤ b.ytop := by
  have hnil : ∀ t' : ℤ, BandsOk [] ∧ ∀ b ∈ ([] : List Band), t' ≤ b.ytop :=
    fun t' => ⟨⟨by simp, List.Pairwise.nil⟩, by simp⟩
  fun_induction regionOperatorDo wanted xs ys generalizing t with
  | case1 => exact hnil t
  | case2 ys hne hw => exact ⟨hy, hty⟩
  | case3 ys hne hw => exact hnil t
  | case4 xs hne hw => exact ⟨hx, htx⟩
  | case5 xs hne hw => exact hnil t
  | case6 b1 xs b2 ys h ih =>
    have hb1 := hx.band b1 mem_cons_self
    have hrest := (pairwise_cons.1 hx.sorted).1
    have hys : ∀ c ∈ b2 :: ys, b1.ybot ≤ c.ytop := by
      refine forall_mem_cons.2 ⟨h, fun c hc => ?_⟩
      have h1 := (pairwise_cons.1 hy.sorted).1 c hc
      have h2 := (hy.band b2 mem_cons_self).lt
      omega
    have ht := htx b1 mem_cons_self
    have hlt := hb1.lt
    refine BandsOk.before (ih hx.tail hy hrest hys) (by omega) ?_
    split_ifs
    · exact Or.inr ⟨b1, rfl, hb1, le_rfl, ht⟩
    · exact Or.inl rfl
  | case7 b1 xs b2 ys h1 h2 ih =>
    have hb2 := hy.band b2 mem_cons_self
    have hrest := (pairwise_cons.1 hy.sorted).1
    have hxs : ∀ c ∈ b1 :: xs, b2.ybot ≤ c.ytop := by
      refine forall_mem_cons.2 ⟨h2, fun c hc => ?_⟩
      have h3 := (pairwise_cons.1 hx.sorted).1 c hc
      have h4 := (hx.band b1 mem_cons_self).lt
      omega
    have ht := hty b2 mem_cons_self
    have hlt := hb2.lt
    refine BandsOk.before (ih hx hy.tail hxs hrest) (by omega) ?_
    split_ifs
    · exact Or.inr ⟨b2, rfl, hb2, le_rfl, ht⟩
    · exact Or.inl rfl
  | case8 b1 xs b2 ys h1 h2 before ytop ybot spans ih1 ih2 =>
    rename_i ih3
    have hb1 := hx.band b1 mem_cons_self
    have hb2 := hy.band b2 mem_cons_self
    have hrest1 := (pairwise_cons.1 hx.sorted).1
    have hrest2 := (pairwise_cons.1 hy.sorted).1
    have ht1 := htx b1 mem_cons_self
    have ht2 := hty b2 mem_cons_self
    obtain ⟨htop1, hlt1, hbot1, hne1, hs1⟩ := hb1
    obtain ⟨htop2, hlt2, hbot2, hne2, hs2⟩ := hb2
    have hytop : ytop = max b1.ytop b2.ytop := rfl
    have hybot : ybot = min b1.ybot b2.ybot := by simp only [ybot]; split_ifs <;> omega
    have hle1 : ∀ c ∈ xs, ybot ≤ c.ytop := fun c hc => by have := hrest1 c hc; omega
    have hle2 : ∀ c ∈ ys, ybot ≤ c.ytop := fun c hc => by have := hrest2 c hc; omega
    -- what is left of both operands starts at `ybot`
    have hafter : BandsOk (if b1.ybot = b2.ybot then regionOperatorDo wanted xs ys
        else if b1.ybot < b2.ybot then regionOperatorDo wanted xs ({ b2 with ytop := ybot } :: ys)
        else regionOperatorDo wanted ({ b1 with ytop := ybot } :: xs) ys) ∧
        ∀ b ∈ (if b1.ybot = b2.ybot then regionOperatorDo wanted xs ys
          else if b1.ybot < b2.ybot then regionOperatorDo wanted xs ({ b2 with ytop := ybot } :: ys)
          else regionOperatorDo wanted ({ b1 with ytop := ybot } :: xs) ys), ybot ≤ b.ytop := by
      split_ifs with he hlt
      · exact ih1 hx.tail hy.tail hle1 hle2
      · have hb : BandOk { b2 with ytop := ybot } := ⟨by simp only; omega, by simp only; omega, hbot2, hne2, hs2⟩
        exact ih2 hx.tail (hy.tail.cons hb hrest2) hle1 (forall_mem_cons.2 ⟨le_rfl, hle2⟩)
      · have hb : BandOk { b1 with ytop := ybot } := ⟨by simp only; omega, by simp only; omega, hbot1, hne1, hs1⟩
        exact ih3 (hx.tail.cons hb hrest1) hy.tail (forall_mem_cons.2 ⟨le_rfl, hle1⟩) hle2
    have hband : ¬ spans = [] → BandOk ⟨ytop, ybot, spans⟩ := fun hne =>
      ⟨by simp only; omega, by simp only; omega, by simp only; omega, hne, sweepSpans_ok wanted _ _ hs1 hs2⟩
    have hopt : (if spans = [] then [] else [(⟨ytop, ybot, spans⟩ : Band)]) = [] ∨
        ∃ b, (if spans = [] then [] else [⟨ytop, ybot, spans⟩]) = [b] ∧ BandOk b ∧ b.ybot ≤ ybot ∧ ytop ≤ b.ytop := by
      split_ifs with hne
      · exact Or.inl rfl
      · exact Or.inr ⟨_, rfl, hband hne, le_rfl, le_rfl⟩
    have hcommon := BandsOk.before hafter (show ytop ≤ ybot by omega) hopt
    rw [append_assoc]
    refine BandsOk.before (t := ytop) hcommon (by omega) ?_
    simp only [before, dite_eq_ite]
    split_ifs with hlt hw hlt hw
    · exact Or.inr ⟨_, rfl, ⟨htop1, hlt, by simp only; omega, hne1, hs1⟩, by simp only; omega, ht1⟩
    · exact Or.inl rfl
    · exact Or.inr ⟨_, rfl, ⟨htop2, hlt, by simp only; omega, hne2, hs2⟩, by simp only; omega, ht2⟩
    · exact Or.inl rfl
    · exact Or.inl rfl

/-- All spans start at `left`, and the longest one ends at `right`. -/
structure Stacked (spans : List Span) (left right : ℤ) : Prop where
  all : ∀ s ∈ spans, s.1 = left ∧ left < s.2 ∧ s.2 ≤ right
  longest : (left, right) ∈ spans

/-- **The loop of `runs_coalesce_band`** emits spans with the left end it began with. -/
theorem coalesceSpans_ok {pleft pright : ℤ} {spans : List Span} (hp : SpanOk (pleft, pright))
    (hs : ∀ s ∈ spans, SpanOk s) :
    Stacked (coalesceSpans pleft pright spans).1 pleft (coalesceSpans pleft pright spans).2 ∧
      pright ≤ (coalesceSpans pleft pright spans).2 ∧ (coalesceSpans pleft pright spans).2 ≤ RUN_MAX := by
  obtain ⟨hmin, hlt, hmax⟩ := hp
  simp only at hmin hlt hmax
  induction spans generalizing pright with
  | nil => exact ⟨⟨by simpa [coalesceSpans] using hlt, by simp [coalesceSpans]⟩, le_rfl, hmax⟩
  | cons s spans ih =>
    obtain ⟨xleft, xright⟩ := s
    rw [forall_mem_cons] at hs
    obtain ⟨⟨-, hlt', hmax'⟩, hs⟩ := hs
    simp only at hlt' hmax'
    unfold coalesceSpans
    split_ifs with h
    · obtain ⟨h1, h2, h3⟩ := ih hs (by omega) hmax'
      exact ⟨h1, by omega, h3⟩
    · obtain ⟨h1, h2, h3⟩ := ih hs hlt hmax
      exact ⟨⟨forall_mem_cons.2 ⟨⟨rfl, hlt, h2⟩, h1.all⟩, mem_cons_of_mem _ h1.longest⟩, h2, h3⟩

/-- The left and the right end of a band after coalescing. -/
def bandLeft (b : Band) : ℤ := (b.spans.headD (0, 0)).1

def bandRight (b : Band) : ℤ :=
  match b.spans with
  | [] => 0
  | s :: spans => (coalesceSpans s.1 s.2 spans).2

/-- A band after `runs_coalesce_band`. -/
def coalesceBand (b : Band) : Band :=
  match b.spans with
  | [] => b
  | s :: spans => { b with spans := (coalesceSpans s.1 s.2 spans).1 }

/-- The extent so far and one more band. -/
def extend (minmax : SkinBox) (b : Band) : SkinBox :=
  ⟨min minmax.x1 (bandLeft b), min minmax.y1 b.ytop, max minmax.x2 (bandRight b), max minmax.y2 b.ybot⟩

/-- The bands of a region: in order, and stacked. -/
structure Coalesced (bands : List Band) : Prop extends BandsOk bands where
  stacked : ∀ b ∈ bands, ∃ left right, Stacked b.spans left right

theorem coalesceBand_ok (h : BandOk b) :
    BandOk (coalesceBand b) ∧ Stacked (coalesceBand b).spans (bandLeft b) (bandRight b) ∧
      (coalesceBand b).ytop = b.ytop ∧ (coalesceBand b).ybot = b.ybot := by
  obtain ⟨ytop, ybot, spans⟩ := b
  obtain ⟨htop, hlt, hbot, hne, hs⟩ := h
  cases spans with
  | nil => exact absurd rfl hne
  | cons s spans =>
    simp only [forall_mem_cons] at hs
    obtain ⟨hst, hle, hmax⟩ := coalesceSpans_ok hs.1 hs.2
    refine ⟨⟨htop, hlt, hbot, ne_nil_of_mem hst.longest, fun t ht => ?_⟩, hst, rfl, rfl⟩
    obtain ⟨h1, h2, h3⟩ := hst.all t ht
    exact ⟨h1 ▸ hs.1.1, h1 ▸ h2, le_trans h3 hmax⟩

theorem runsCoalesceBand_eq (h : BandOk b) (minmax : SkinBox) :
    runsCoalesceBand b.spans minmax = ((coalesceBand b).spans,
      { minmax with x1 := min minmax.x1 (bandLeft b), x2 := max minmax.x2 (bandRight b) }) := by
  obtain ⟨ytop, ybot, spans⟩ := b
  cases spans with
  | nil => exact absurd rfl h.ne
  | cons s spans => rfl

/-- One iteration of `runs_coalesce`. -/
theorem runsCoalesce_cons (hb : BandOk b) (prev : Option Band) (minmax : SkinBox) (rest : List Band) :
    runsCoalesce prev minmax (b :: rest) =
      match prev with
      | none => runsCoalesce (some (coalesceBand b)) (extend minmax b) rest
      | some p =>
        if p.ybot = b.ytop ∧ p.spans = (coalesceBand b).spans then
          runsCoalesce (some { p with ybot := b.ybot }) (extend minmax b) rest
        else (p :: (runsCoalesce (some (coalesceBand b)) (extend minmax b) rest).1,
          (runsCoalesce (some (coalesceBand b)) (extend minmax b) rest).2) := by
  obtain ⟨-, -, htop, hbot⟩ := coalesceBand_ok hb
  have hdst : (⟨b.ytop, b.ybot, (coalesceBand b).spans⟩ : Band) = coalesceBand b := by
    rw [← htop, ← hbot]
  conv_lhs => unfold runsCoalesce
  rw [runsCoalesceBand_eq hb]
  simp only [hdst]
  rfl

/-- What a band covers. -/
def Covers (b : Band) (x y : ℤ) : Prop := b.ytop ≤ y ∧ y < b.ybot ∧ ∃ s ∈ b.spans, s.1 ≤ x ∧ x < s.2

variable {src : List Band}

/-- **Coalescing** leaves increasing, stacked bands, which cover what the bands it
was given cover, after `runs_coalesce_band`. -/
theorem runsCoalesce_ok (hsrc : BandsOk src) (prev : Option Band) (minmax : SkinBox)
    (hprev : ∀ p ∈ prev, BandOk p ∧ (∃ left right, Stacked p.spans left right) ∧ ∀ b ∈ src, p.ybot ≤ b.ytop) :
    Coalesced (runsCoalesce prev minmax src).1 ∧
      (∀ t, (∀ p ∈ prev, t ≤ p.ytop) → (∀ b ∈ src, t ≤ b.ytop) → ∀ b ∈ (runsCoalesce prev minmax src).1, t ≤ b.ytop) ∧
      (∀ x y, (∃ b ∈ (runsCoalesce prev minmax src).1, Covers b x y) ↔
        (∃ p ∈ prev, Covers p x y) ∨ ∃ b ∈ src, Covers (coalesceBand b) x y) ∧
      (runsCoalesce prev minmax src).2 = src.foldl extend minmax := by
  induction src generalizing prev minmax with
  | nil =>
    cases prev with
    | none =>
      refine ⟨⟨⟨?_, List.Pairwise.nil⟩, ?_⟩, ?_, ?_, rfl⟩ <;> simp [runsCoalesce]
    | some p =>
      obtain ⟨hp, hst, -⟩ := hprev p rfl
      refine ⟨⟨⟨?_, pairwise_singleton _ _⟩, ?_⟩, ?_, ?_, rfl⟩
      · simpa [runsCoalesce] using hp
      · simpa [runsCoalesce] using hst
      · simp [runsCoalesce]
      · simp [runsCoalesce]
  | cons b src ih =>
    have hb := hsrc.band b mem_cons_self
    have hrest := (pairwise_cons.1 hsrc.sorted).1
    obtain ⟨hcb, hst, htop, hbot⟩ := coalesceBand_ok hb
    have hnext : ∀ p ∈ some (coalesceBand b), BandOk p ∧ (∃ left right, Stacked p.spans left right) ∧
        ∀ c ∈ src, p.ybot ≤ c.ytop := by
      intro p hp
      obtain rfl : coalesceBand b = p := by simpa using hp
      exact ⟨hcb, ⟨_, _, hst⟩, by rw [hbot]; exact hrest⟩
    rw [runsCoalesce_cons hb]
    cases prev with
    | none =>
      obtain ⟨h1, h2, h3, h4⟩ := ih hsrc.tail (some (coalesceBand b)) (extend minmax b) hnext
      refine ⟨h1, fun t _ ht => h2 t ?_ fun c hc => ht c (mem_cons_of_mem _ hc), fun x y => ?_, h4⟩
      · intro p hp
        obtain rfl : coalesceBand b = p := by simpa using hp
        rw [htop]
        exact ht b mem_cons_self
      · rw [h3]
        simp
    | some p =>
      obtain ⟨hp, hpst, hple⟩ := hprev p rfl
      have hpb := hple b mem_cons_self
      have hplt := hp.lt
      have hblt := hb.lt
      simp only
      split_ifs with hm
      · -- the band is merged into `p`
        obtain ⟨hadj, hspans⟩ := hm
        have hp' : ∀ q ∈ some ({ p with ybot := b.ybot } : Band), BandOk q ∧
            (∃ left right, Stacked q.spans left right) ∧ ∀ c ∈ src, q.ybot ≤ c.ytop := by
          intro q hq
          obtain rfl : ({ p with ybot := b.ybot } : Band) = q := by simpa using hq
          exact ⟨⟨hp.top, by simp only; omega, hb.bot, hp.ne, hp.spans⟩, hpst, hrest⟩
        obtain ⟨h1, h2, h3, h4⟩ := ih hsrc.tail (some { p with ybot := b.ybot }) (extend minmax b) hp'
        refine ⟨h1, fun t htp ht => h2 t ?_ fun c hc => ht c (mem_cons_of_mem _ hc), fun x y => ?_, h4⟩
        · intro q hq
          obtain rfl : ({ p with ybot := b.ybot } : Band) = q := by simpa using hq
          exact htp p rfl
        · have hcov : Covers { p with ybot := b.ybot } x y ↔ Covers p x y ∨ Covers (coalesceBand b) x y := by
            simp only [Covers, htop, hbot, ← hspans]
            constructor
            · rintro ⟨h5, h6, h7⟩
              by_cases hy : y < p.ybot
              · exact Or.inl ⟨h5, hy, h7⟩
              · exact Or.inr ⟨by omega, h6, h7⟩
            · rintro (⟨h5, h6, h7⟩ | ⟨h5, h6, h7⟩)
              · exact ⟨h5, by omega, h7⟩
              · exact ⟨by omega, h6, h7⟩
          rw [h3]
          simp [hcov, or_assoc]
      · obtain ⟨h1, h2, h3, h4⟩ := ih hsrc.tail (some (coalesceBand b)) (extend minmax b) hnext
        have hbelow : ∀ c ∈ (runsCoalesce (some (coalesceBand b)) (extend minmax b) src).1, p.ybot ≤ c.ytop := by
          refine h2 p.ybot ?_ fun c hc => hple c (mem_cons_of_mem _ hc)
          intro q hq
          obtain rfl : coalesceBand b = q := by simpa using hq
          rw [htop]
          exact hpb
        refine ⟨⟨h1.toBandsOk.cons hp hbelow, forall_mem_cons.2 ⟨hpst, h1.stacked⟩⟩, fun t htp ht => ?_,
          fun x y => ?_, h4⟩
        · have htp' := htp p rfl
          refine forall_mem_cons.2 ⟨htp', fun c hc => ?_⟩
          have := hbelow c hc
          omega
        · simp only [mem_cons, exists_eq_or_imp, h3]
          simp

/-- A box that just contains the bands after coalescing. -/
structure Extent (box : SkinBox) (src : List Band) : Prop where
  within : ∀ b ∈ src, box.x1 ≤ bandLeft b ∧ bandRight b ≤ box.x2 ∧ box.y1 ≤ b.ytop ∧ b.ybot ≤ box.y2
  left : ∃ b ∈ src, bandLeft b = box.x1
  right : ∃ b ∈ src, bandRight b = box.x2
  top : ∃ b ∈ src, b.ytop = box.y1
  bot : ∃ b ∈ src, b.ybot = box.y2

/-- A minimum taken along a list is below all members, and one of them. -/
theorem foldl_min (f : Band → ℤ) (src : List Band) (m : ℤ) :
    (∀ b ∈ src, src.foldl (fun m b => min m (f b)) m ≤ f b) ∧ src.foldl (fun m b => min m (f b)) m ≤ m ∧
      (src.foldl (fun m b => min m (f b)) m = m ∨ ∃ b ∈ src, f b = src.foldl (fun m b => min m (f b)) m) := by
  induction src generalizing m with
  | nil => simp
  | cons b src ih =>
    obtain ⟨h1, h2, h3⟩ := ih (min m (f b))
    simp only [foldl_cons]
    refine ⟨forall_mem_cons.2 ⟨le_trans h2 (min_le_right _ _), h1⟩, le_trans h2 (min_le_left _ _), ?_⟩
    rcases h3 with h3 | ⟨c, hc, hc'⟩
    · rcases min_choice m (f b) with hm | hm
      · exact Or.inl (h3.trans hm)
      · exact Or.inr ⟨b, mem_cons_self, by rw [h3, hm]⟩
    · exact Or.inr ⟨c, mem_cons_of_mem _ hc, hc'⟩

theorem foldl_max (f : Band → ℤ) (src : List Band) (m : ℤ) :
    (∀ b ∈ src, f b ≤ src.foldl (fun m b => max m (f b)) m) ∧ m ≤ src.foldl (fun m b => max m (f b)) m ∧
      (src.foldl (fun m b => max m (f b)) m = m ∨ ∃ b ∈ src, f b = src.foldl (fun m b => max m (f b)) m) := by
  induction src generalizing m with
  | nil => simp
  | cons b src ih =>
    obtain ⟨h1, h2, h3⟩ := ih (max m (f b))
    simp only [foldl_cons]
    refine ⟨forall_mem_cons.2 ⟨le_trans (le_max_right _ _) h2, h1⟩, le_trans (le_max_left _ _) h2, ?_⟩
    rcases h3 with h3 | ⟨c, hc, hc'⟩
    · rcases max_choice m (f b) with hm | hm
      · exact Or.inl (h3.trans hm)
      · exact Or.inr ⟨b, mem_cons_self, by rw [h3, hm]⟩
    · exact Or.inr ⟨c, mem_cons_of_mem _ hc, hc'⟩

theorem foldl_extend (src : List Band) (box : SkinBox) :
    src.foldl extend box =
      ⟨src.foldl (fun m b => min m (bandLeft b)) box.x1, src.foldl (fun m b => min m b.ytop) box.y1,
        src.foldl (fun m b => max m (bandRight b)) box.x2, src.foldl (fun m b => max m b.ybot) box.y2⟩ := by
  induction src generalizing box with
  | nil => rfl
  | cons b src ih => rw [foldl_cons, ih]; rfl

/-- **The `minmax` of `region_operator_done`** is the extent of the bands. -/
theorem extent_foldl (hsrc : BandsOk src) (hne : src ≠ []) :
    Extent (src.foldl extend ⟨2147483647, 2147483647, -2147483648, -2147483648⟩) src := by
  obtain ⟨b, hb⟩ := exists_mem_of_ne_nil src hne
  have hlow : ∀ c ∈ src, RUN_MIN ≤ bandLeft c ∧ bandLeft c < bandRight c ∧ bandRight c ≤ RUN_MAX := by
    intro c hc
    obtain ⟨hcb, hst, -, -⟩ := coalesceBand_ok (hsrc.band c hc)
    exact hcb.spans _ hst.longest
  have hb' := hsrc.band b hb
  have hbl := hlow b hb
  have h1 := foldl_min bandLeft src 2147483647
  have h2 := foldl_max bandRight src (-2147483648)
  have h3 := foldl_min Band.ytop src 2147483647
  have h4 := foldl_max Band.ybot src (-2147483648)
  have htop := hb'.top
  have hlt := hb'.lt
  have hbot := hb'.bot
  rw [foldl_extend]
  unfold RUN_MIN RUN_MAX at *
  refine ⟨fun c hc => ⟨h1.1 c hc, h2.1 c hc, h3.1 c hc, h4.1 c hc⟩, ?_, ?_, ?_, ?_⟩
  · exact h1.2.2.resolve_left fun he => by have := h1.1 b hb; omega
  · exact h2.2.2.resolve_left fun he => by have := h2.1 b hb; omega
  · exact h3.2.2.resolve_left fun he => by have := h3.1 b hb; omega
  · exact h4.2.2.resolve_left fun he => by have := h4.1 b hb; omega

/-- The rectangle `r` is the bounding box of the set `P`. -/
structure IsBox (r : SkinRect) (P : ℤ → ℤ → Prop) : Prop where
  within : ∀ x y, P x y → r.x ≤ x ∧ x < r.x + r.w ∧ r.y ≤ y ∧ y < r.y + r.h
  left : ∃ y, P r.x y
  right : ∃ y, P (r.x + r.w - 1) y
  top : ∃ x, P x r.y
  bot : ∃ x, P x (r.y + r.h - 1)

/-- The set of pixels of a region. -/
def PixelSet (r : SkinRegion) (x y : ℤ) : Prop :=
  match r.runs with
  | .empty => False
  | .rect => r.bounds.x ≤ x ∧ x < r.bounds.x + r.bounds.w ∧ r.bounds.y ≤ y ∧ y < r.bounds.y + r.bounds.h
  | .complex bands => ∃ b ∈ bands, Covers b x y

/-- **What every region satisfies.** -/
def RegionOk (r : SkinRegion) : Prop :=
  match r.runs with
  | .empty => r.bounds = ⟨0, 0, 0, 0⟩
  | .rect => SpanOk (r.bounds.x, r.bounds.x + r.bounds.w) ∧ SpanOk (r.bounds.y, r.bounds.y + r.bounds.h)
  | .complex bands => Coalesced bands ∧ IsBox r.bounds fun x y => ∃ b ∈ bands, Covers b x y

/-- The corners of what a stacked band covers. -/
theorem Stacked.covers (hb : b.ytop < b.ybot) {left right : ℤ} (h : Stacked b.spans left right) :
    Covers b left b.ytop ∧ Covers b (right - 1) b.ytop ∧ Covers b left (b.ybot - 1) := by
  have hlt := (h.all _ h.longest).2.1
  simp only at hlt
  exact ⟨⟨le_rfl, hb, _, h.longest, le_rfl, hlt⟩, ⟨le_rfl, hb, _, h.longest, by simp only; omega, by simp only; omega⟩,
    ⟨by omega, by omega, _, h.longest, le_rfl, hlt⟩⟩

/-- The extent of the bands is the bounding box of what they cover. -/
theorem Extent.isBox {box : SkinBox} (h : Extent box src) (hsrc : BandsOk src) :
    IsBox (skinBoxToRect box) fun x y => ∃ b ∈ src, Covers (coalesceBand b) x y := by
  have hcover : ∀ b ∈ src, Covers (coalesceBand b) (bandLeft b) b.ytop ∧
      Covers (coalesceBand b) (bandRight b - 1) b.ytop ∧ Covers (coalesceBand b) (bandLeft b) (b.ybot - 1) := by
    intro b hb
    obtain ⟨hcb, hst, htop, hbot⟩ := coalesceBand_ok (hsrc.band b hb)
    have := hst.covers hcb.lt
    rwa [htop, hbot] at this
  refine ⟨?_, ?_, ?_, ?_, ?_⟩
  · rintro x y ⟨b, hb, hy1, hy2, s, hs, hx1, hx2⟩
    obtain ⟨-, hst, htop, hbot⟩ := coalesceBand_ok (hsrc.band b hb)
    obtain ⟨h1, h2, h3, h4⟩ := h.within b hb
    obtain ⟨h5, -, h6⟩ := hst.all s hs
    simp only [skinBoxToRect]
    omega
  · obtain ⟨b, hb, he⟩ := h.left
    refine ⟨b.ytop, b, hb, ?_⟩
    rw [show (skinBoxToRect box).x = bandLeft b from he.symm]
    exact (hcover b hb).1
  · obtain ⟨b, hb, he⟩ := h.right
    refine ⟨b.ytop, b, hb, ?_⟩
    have hx : (skinBoxToRect box).x + (skinBoxToRect box).w - 1 = bandRight b - 1 := by
      simp only [skinBoxToRect]; omega
    rw [hx]
    exact (hcover b hb).2.1
  · obtain ⟨b, hb, he⟩ := h.top
    refine ⟨bandLeft b, b, hb, ?_⟩
    rw [show (skinBoxToRect box).y = b.ytop from he.symm]
    exact (hcover b hb).1
  · obtain ⟨b, hb, he⟩ := h.bot
    refine ⟨bandLeft b, b, hb, ?_⟩
    have hy : (skinBoxToRect box).y + (skinBoxToRect box).h - 1 = b.ybot - 1 := by
      simp only [skinBoxToRect]; omega
    rw [hy]
    exact (hcover b hb).2.2

/-- A run list of `RUNS_RECT_COUNT` cells is one band with one span. -/
theorem runsCount_eq_rect {bands : List Band} (h : BandsOk bands) (hc : runsCount bands = RUNS_RECT_COUNT) :
    ∃ t b l r, bands = [⟨t, b, [(l, r)]⟩] := by
  have hpos : ∀ b ∈ bands, 1 ≤ b.spans.length := fun b hb => length_pos_iff.2 (h.band b hb).ne
  rcases bands with _ | ⟨b, _ | ⟨c, bands⟩⟩
  · simp [runsCount, RUNS_RECT_COUNT] at hc
  · simp only [runsCount, RUNS_RECT_COUNT, map_cons, map_nil, sum_cons, sum_nil] at hc
    obtain ⟨t, bot, spans⟩ := b
    obtain ⟨⟨l, r⟩, hs⟩ := length_eq_one_iff.1 (show spans.length = 1 by simp only at hc; omega)
    exact ⟨t, bot, l, r, by rw [hs]⟩
  · have h1 := hpos b mem_cons_self
    have h2 := hpos c (by simp)
    simp only [runsCount, RUNS_RECT_COUNT, map_cons, sum_cons] at hc
    omega

/-- **`region_operator_done`** makes a region with exact bounds. -/
theorem regionOperatorDone_ok (hsrc : BandsOk src) : RegionOk (regionOperatorDone src) := by
  unfold regionOperatorDone
  split_ifs with hne
  · exact rfl
  have hnone : ∀ p ∈ (none : Option Band), BandOk p ∧ (∃ left right, Stacked p.spans left right) ∧
      ∀ b ∈ src, p.ybot ≤ b.ytop := fun p hp => nomatch hp
  obtain ⟨hco, -, hcov, hmm⟩ := runsCoalesce_ok hsrc none
    ⟨2147483647, 2147483647, -2147483648, -2147483648⟩ hnone
  have hbox := (extent_foldl hsrc hne).isBox hsrc
  rw [← hmm] at hbox
  generalize runsCoalesce none ⟨2147483647, 2147483647, -2147483648, -2147483648⟩ src = r at hco hcov hbox
  obtain ⟨bands, minmax⟩ := r
  have hcov' : ∀ x y, (∃ b ∈ bands, Covers b x y) ↔ ∃ b ∈ src, Covers (coalesceBand b) x y := by
    intro x y
    rw [hcov]
    simp
  simp only at hbox ⊢
  have hbox' : IsBox (skinBoxToRect minmax) fun x y => ∃ b ∈ bands, Covers b x y := by
    have heq : (fun x y => ∃ b ∈ bands, Covers b x y) = fun x y => ∃ b ∈ src, Covers (coalesceBand b) x y := by
      funext x y
      exact propext (hcov' x y)
    rw [heq]
    exact hbox
  split_ifs with h1 h6
  · exact rfl
  · -- one band with one span: the extent is that rectangle
    obtain ⟨t, b, l, r, rfl⟩ := runsCount_eq_rect hco.toBandsOk h6
    have hb := hco.band ⟨t, b, [(l, r)]⟩ (by simp)
    have hs := hb.spans (l, r) (by simp)
    obtain ⟨htop, hlt, hbot, -, -⟩ := hb
    obtain ⟨hl, hlr, hr⟩ := hs
    simp only at htop hlt hbot hl hlr hr
    have hc : ∀ x y, (∃ c ∈ [(⟨t, b, [(l, r)]⟩ : Band)], Covers c x y) ↔ t ≤ y ∧ y < b ∧ l ≤ x ∧ x < r := by
      intro x y
      simp [Covers]
    obtain ⟨hw, ⟨y1, h1⟩, ⟨y2, h2⟩, ⟨x3, h3⟩, ⟨x4, h4⟩⟩ := hbox'
    rw [hc] at h1 h2 h3 h4
    have h5 := hw l t ((hc l t).2 ⟨le_rfl, hlt, le_rfl, hlr⟩)
    have h6 := hw (r - 1) (b - 1) ((hc _ _).2 (by omega))
    exact ⟨⟨by simp only; omega, by simp only; omega, by simp only; omega⟩,
      ⟨by simp only; omega, by simp only; omega, by simp only; omega⟩⟩
  · exact ⟨hco, hbox'⟩

theorem spansContain_iff {spans : List Span} {left right : ℤ} (h : Stacked spans left right)
    (hs : ∀ s ∈ spans, SpanOk s) (x : ℤ) : spansContain spans x = true ↔ ∃ s ∈ spans, s.1 ≤ x ∧ x < s.2 := by
  have hleft : ∀ s ∈ spans, s.1 = left := fun s hs => (h.all s hs).1
  clear h
  induction spans with
  | nil => simp [spansContain]
  | cons s spans ih =>
    obtain ⟨l, r⟩ := s
    rw [forall_mem_cons] at hs hleft
    obtain ⟨⟨-, hlr, hr⟩, hs⟩ := hs
    simp only [RUN_MAX] at hlr hr
    obtain ⟨rfl, hleft⟩ := hleft
    have hne : r ≠ SKIN_REGION_SENTINEL := by unfold SKIN_REGION_SENTINEL; omega
    unfold spansContain
    rw [if_neg hne]
    split_ifs with h1 h2
    · simp only [false_iff, not_exists, not_and]
      intro s hsm hle
      rcases mem_cons.1 hsm with rfl | hsm
      · simp only at hle; omega
      · have := hleft s hsm
        simp only at this
        omega
    · simp only [true_iff]
      exact ⟨(l, r), mem_cons_self, by simp only; omega, h2⟩
    · refine (ih hs hleft).trans ?_
      simp only [mem_cons, exists_eq_or_imp]
      constructor
      · exact Or.inr
      · rintro (⟨-, h3⟩ | h3)
        · omega
        · exact h3

theorem runsFindY_iff {bands : List Band} (h : Coalesced bands) (x y : ℤ) :
    (match runsFindY bands y with | none => false | some b => spansContain b.spans x) = true ↔
      ∃ b ∈ bands, Covers b x y := by
  induction bands with
  | nil => simp [runsFindY]
  | cons b bands ih =>
    have hb := h.band b mem_cons_self
    obtain ⟨left, right, hst⟩ := h.stacked b mem_cons_self
    have hrest := (pairwise_cons.1 h.sorted).1
    have hlt := hb.lt
    have hco : Coalesced bands := ⟨h.toBandsOk.tail, fun c hc => h.stacked c (mem_cons_of_mem _ hc)⟩
    unfold runsFindY
    simp only [mem_cons, exists_eq_or_imp]
    split_ifs with h1 h2
    · simp only [false_iff, not_or, not_exists, not_and]
      refine ⟨fun hc => by have := hc.1; omega, fun c hc hcov => ?_⟩
      have h3 := hrest c hc
      have h4 := hcov.1
      omega
    · simp only
      rw [spansContain_iff hst hb.spans]
      constructor
      · exact fun hs => Or.inl ⟨by omega, h2, hs⟩
      · rintro (hc | ⟨c, hc, hcov⟩)
        · exact hc.2.2
        · have h3 := hrest c hc
          have h4 := hcov.1
          omega
    · rw [ih hco]
      constructor
      · exact Or.inr
      · rintro (hc | hc)
        · have := hc.2.1
          omega
        · exact hc

/-- **`skin_region_contains`** on a pixel with C `int` coordinates. -/
theorem contains_iff {r : SkinRegion} (h : RegionOk r) {x y : ℤ} (hx : IsInt x) (hy : IsInt y) :
    skinRegionContains r x y = true ↔ PixelSet r x y := by
  obtain ⟨⟨bx, bY, bw, bh⟩, runs⟩ := r
  unfold skinRegionContains PixelSet
  cases runs with
  | empty => simp
  | rect =>
    obtain ⟨⟨h1, h2, h3⟩, ⟨h4, h5, h6⟩⟩ := h
    simp only [RUN_MIN, RUN_MAX] at h1 h2 h3 h4 h5 h6
    simp only [skinRectContains, decide_eq_true_eq]
    rw [toUnsigned_lt_iff hx (by omega) (by omega), toUnsigned_lt_iff hy (by omega) (by omega)]
    simp only [and_assoc]
  | complex bands => exact runsFindY_iff h.1 x y

end Emulator.Skin
