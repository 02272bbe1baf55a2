import Emulator.Slirp.TcpReass

/-!
# The reassembly queue of a connection

A byte of the stream has a position, counted from the first byte that the connection has not received at the start; its
sequence number is the position modulo 2^32, shifted. `Linked` says that the ring of a control block holds given
segments. The loops of `tcp_reass` do on the ring what `clip`, `absorb` and `take` do on the segments, as long as all
positions are within 2^31 of each other.
-/

namespace Emulator.Slirp.Tcp

open Reassembly Option
open List hiding take

/-- The sequence number of the position `p`. -/
def seqAt (b : BitVec 32) (p : ℕ) : BitVec 32 := b + BitVec.ofNat 32 p

theorem seqAt_add (b : BitVec 32) (p n : ℕ) : seqAt b p + BitVec.ofNat 32 n = seqAt b (p + n) := by
  rw [seqAt, seqAt, BitVec.ofNat_add, add_assoc]

theorem seqAt_sub (b : BitVec 32) (x y : ℕ) : seqAt b x - seqAt b y = BitVec.ofInt 32 (x - y) := by
  rw [sub_eq_add_neg (x : ℤ), BitVec.ofInt_add, BitVec.ofInt_neg, BitVec.ofInt_natCast, BitVec.ofInt_natCast, seqAt,
    seqAt, add_sub_add_left_eq_sub, sub_eq_add_neg]

/-- The conversion to `int` handles the wraparound. -/
theorem toInt_seqAt_sub (b : BitVec 32) {x y : ℕ} (h₁ : x < y + 2 ^ 31) (h₂ : y ≤ x + 2 ^ 31) :
    (seqAt b x - seqAt b y).toInt = (x : ℤ) - y := by
  rw [seqAt_sub, BitVec.toInt_ofInt, Int.bmod_eq_of_le (by omega) (by omega)]

theorem toNat_seqAt_sub (b : BitVec 32) {x y : ℕ} (h₁ : x ≤ y) (h₂ : y < x + 2 ^ 32) :
    (seqAt b y - seqAt b x).toNat = y - x := by
  have hsub : seqAt b y - seqAt b x = BitVec.ofNat 32 (y - x) := by
    rw [seqAt_sub, ← BitVec.ofInt_natCast]
    congr 1
    omega
  rw [hsub, BitVec.toNat_ofNat]
  omega

theorem seqAt_inj {b : BitVec 32} {x y : ℕ} (h₁ : x < y + 2 ^ 32) (h₂ : y < x + 2 ^ 32) :
    seqAt b x = seqAt b y ↔ x = y := by
  constructor
  · intro h
    have h' : BitVec.ofNat 32 x = BitVec.ofNat 32 y := add_left_cancel h
    have := congrArg BitVec.toNat h'
    simp only [BitVec.toNat_ofNat] at this
    omega
  · rintro rfl
    rfl

/-- The header of a segment: the segment is kept at the address of its links. -/
def hdrOf (b : BitVec 32) (g : Seg ℕ UInt8) (fin : Bool) : TcpIpHdr := ⟨seqAt b g.pos, g.data.length, fin, g.data⟩

/-- The header of a segment that is known but for its flags. -/
def IsHdr (b : BitVec 32) (g : Seg ℕ UInt8) (h : TcpIpHdr) : Prop := h = hdrOf b g h.fin

/-- The segments are in the ring of the control block; no header is where the control block is. -/
structure Linked (b : BitVec 32) (s : Tcpcb) (segs : List (Seg ℕ UInt8)) : Prop where
  ring : s.link.Ring s.tp (segs.map Seg.tag)
  hdr : ∀ g ∈ segs, IsHdr b g (s.hdr (qlink2tcpiphdr g.tag))
  held : ∀ g ∈ segs, s.held (qlink2tcpiphdr g.tag) = true
  apart : ∀ g ∈ segs, qlink2tcpiphdr g.tag ≠ s.tp

/-- The segment fits into the window that begins at `R`. -/
structure Fits (R : ℕ) (g : Seg ℕ UInt8) : Prop where
  len : g.data.length < 2 ^ 16
  low : R ≤ g.pos
  high : g.pos < R + 2 ^ 31
  stop : g.stop ≤ R + 2 ^ 31

theorem Fits.trim {R : ℕ} {g : Seg ℕ UInt8} (h : Fits R g) {i : ℕ} (hi : i = 0 ∨ i < g.data.length) :
    Fits R (g.trim i) := by
  obtain ⟨h₁, h₂, h₃, h₄⟩ := h
  have hstop := Seg.trim_stop hi
  refine ⟨?_, ?_, ?_, hstop.le.trans h₄⟩
  · simp only [Seg.trim, length_drop]
    omega
  · simp only [Seg.trim]
    omega
  · unfold Seg.stop at h₄
    simp only [Seg.trim]
    omega

theorem hdrOf_stop (b : BitVec 32) (g : Seg ℕ UInt8) (fin : Bool) : (hdrOf b g fin).stop = seqAt b g.stop :=
  seqAt_add b g.pos g.data.length

theorem IsHdr.adj {b : BitVec 32} {g : Seg ℕ UInt8} {h : TcpIpHdr} (hh : IsHdr b g h) (i : ℕ) :
    IsHdr b (g.trim i) (h.adj i) := by
  unfold IsHdr at hh ⊢
  rw [hh]
  simp [TcpIpHdr.adj, hdrOf, Seg.trim, seqAt_add]

/-- The address at which a walk along the ring continues before the segments `post`. -/
def cursor (s : Tcpcb) (post : List (Seg ℕ UInt8)) : ℕ := qlink2tcpiphdr ((post.map Seg.tag).headD s.tp)

@[simp] theorem tcpiphdr2qlink_qlink2tcpiphdr (q : ℕ) : tcpiphdr2qlink (qlink2tcpiphdr q) = q := by
  simp [tcpiphdr2qlink, qlink2tcpiphdr]

theorem qlink2tcpiphdr_inj {q r : ℕ} : qlink2tcpiphdr q = qlink2tcpiphdr r ↔ q = r := by
  simp [qlink2tcpiphdr]

variable {b : BitVec 32} {s : Tcpcb} {pre post segs : List (Seg ℕ UInt8)} {g : Seg ℕ UInt8} {R : ℕ}

theorem cursor_nil : cursor s [] = qlink2tcpiphdr s.tp := rfl

theorem cursor_cons : cursor s (g :: post) = qlink2tcpiphdr g.tag := rfl

theorem tcpfragListEnd_cursor_nil : s.tcpfragListEnd (cursor s []) = true := by
  simp [Tcpcb.tcpfragListEnd, cursor_nil]

theorem Linked.tag_ne (h : Linked b s segs) (hg : g ∈ segs) : g.tag ≠ s.tp := by
  rintro heq
  have := (nodup_cons.mp h.ring.nodup).1
  exact this (heq ▸ List.mem_map_of_mem hg)

theorem Linked.not_end (h : Linked b s segs) (hg : g ∈ segs) : s.tcpfragListEnd (qlink2tcpiphdr g.tag) = false := by
  simpa [Tcpcb.tcpfragListEnd] using h.tag_ne hg

theorem Linked.first (h : Linked b s segs) : s.tcpfragListFirst = some (cursor s segs) := by
  simp [Tcpcb.tcpfragListFirst, h.ring.next_head, cursor]

theorem Linked.link (h : Linked b s (pre ++ g :: post)) :
    s.link.Link ((pre.map Seg.tag).getLastD s.tp) g.tag ∧ s.link.Link g.tag ((post.map Seg.tag).headD s.tp) := by
  have hring := h.ring
  rw [map_append, map_cons] at hring
  exact hring.link

theorem Linked.next (h : Linked b s (pre ++ g :: post)) :
    s.tcpiphdrNext (qlink2tcpiphdr g.tag) = some (cursor s post) := by
  simp [Tcpcb.tcpiphdrNext, h.link.2.1, cursor]

/-- The segment in front of the cursor. -/
theorem Linked.prev (h : Linked b s (pre ++ post)) :
    s.tcpiphdrPrev (cursor s post) = some (qlink2tcpiphdr ((pre.map Seg.tag).getLastD s.tp)) := by
  unfold Tcpcb.tcpiphdrPrev cursor
  rw [tcpiphdr2qlink_qlink2tcpiphdr]
  cases post with
  | nil =>
    rw [append_nil] at h
    simp [h.ring.prev_head]
  | cons g post => simp [h.link.1.2]

/-- The first loop stops at the gap for the new segment. -/
theorem findAfter_spec (h : Linked b s (pre ++ post)) (ho : Ordered (pre ++ post))
    (hfit : ∀ g ∈ pre ++ post, Fits R g) {p : ℕ} (hp : R ≤ p ∧ p < R + 2 ^ 31) (hpre : ∀ g ∈ pre, g.pos ≤ p)
    {fuel : ℕ} (hfuel : post.length < fuel) :
    ∃ pre' post', pre' ++ post' = pre ++ post ∧ Gap p pre' post' ∧
      s.findAfter (seqAt b p) fuel (cursor s post) = some (cursor s post') := by
  induction post generalizing pre fuel with
  | nil =>
    obtain ⟨fuel, rfl⟩ := Nat.exists_eq_succ_of_ne_zero (Nat.ne_of_gt (Nat.zero_lt_of_lt hfuel))
    refine ⟨pre, [], rfl, ⟨hpre, by simp⟩, ?_⟩
    rw [Tcpcb.findAfter, if_pos tcpfragListEnd_cursor_nil]
  | cons g post ih =>
    obtain ⟨fuel, rfl⟩ := Nat.exists_eq_succ_of_ne_zero (Nat.ne_of_gt (Nat.zero_lt_of_lt hfuel))
    have hg : g ∈ pre ++ g :: post := by simp
    have hgfit := hfit g hg
    have hseq : (s.hdr (qlink2tcpiphdr g.tag)).tiSeq = seqAt b g.pos := by rw [h.hdr g hg]; rfl
    have hgt : seqGt (seqAt b g.pos) (seqAt b p) = decide (p < g.pos) := by
      unfold seqGt
      rw [toInt_seqAt_sub b (by have := hgfit.high; omega) (by have := hgfit.low; omega)]
      congr 1
      exact propext (by omega)
    rw [Tcpcb.findAfter, cursor_cons, h.not_end hg, if_neg (by simp), hseq, hgt]
    by_cases hlt : p < g.pos
    · rw [if_pos (decide_eq_true hlt)]
      refine ⟨pre, g :: post, rfl, ⟨hpre, ?_⟩, rfl⟩
      intro r hr
      rcases mem_cons.mp hr with rfl | hr
      · exact hlt
      · have := (pairwise_cons.mp (pairwise_append.mp ho).2.1).1 r hr
        have : g.pos ≤ g.stop := Nat.le_add_right _ _
        omega
    · rw [if_neg (by simpa using hlt), h.next]
      have hshift : pre ++ g :: post = (pre ++ [g]) ++ post := by simp
      rw [hshift] at h ho hfit ⊢
      refine ih h ho hfit ?_ (by simpa using hfuel)
      intro r hr
      rcases mem_append.mp hr with hr | hr
      · exact hpre r hr
      · rw [mem_singleton.mp hr]
        omega

/-- The new segment is clipped as `clip` says. -/
theorem clipSegment_eq (h : Linked b s (pre ++ post)) (hfit : ∀ g ∈ pre ++ post, Fits R g) {new : Seg ℕ UInt8}
    (hnew : Fits R new) (hpre : ∀ g ∈ pre, g.pos ≤ new.pos) {ti : ℕ} (hhdr : IsHdr b new (s.hdr ti)) :
    s.clipSegment ti (cursor s post) = some ((clip pre new).map (hdrOf b · (s.hdr ti).fin)) := by
  unfold Tcpcb.clipSegment clip
  rw [h.prev]
  rcases eq_nil_or_concat pre with rfl | ⟨l, p, rfl⟩
  · simp only [List.getLast?_nil, bind_eq_bind, bind_some, map_nil, getLastD_nil]
    rw [if_pos (by simp [Tcpcb.tcpfragListEnd]), map_some, ← hhdr]
    rfl
  · rw [concat_eq_append] at h hfit hpre ⊢
    have hp : p ∈ l ++ [p] ++ post := by simp
    have hlast : ((l ++ [p]).map Seg.tag).getLastD s.tp = p.tag := by simp
    have hdiff : ((s.hdr (qlink2tcpiphdr p.tag)).stop - (s.hdr ti).tiSeq).toInt = (p.stop : ℤ) - new.pos := by
      rw [h.hdr p hp, hdrOf_stop, hhdr]
      refine toInt_seqAt_sub b ?_ ?_
      · have := hpre p (by simp)
        have := (hfit p hp).len
        unfold Seg.stop
        omega
      · have := (hfit p hp).low
        have := hnew.high
        unfold Seg.stop
        omega
    have hlen : (s.hdr ti).tiLen = new.data.length := by rw [hhdr]; rfl
    simp only [bind_eq_bind, bind_some, hlast, h.not_end hp, Bool.false_eq_true, ↓reduceIte, hdiff, hlen,
      List.getLast?_append, List.getLast?_singleton, some_or]
    have hstop : new.stop = new.pos + new.data.length := rfl
    by_cases h₁ : p.stop ≤ new.pos
    · have hi : ¬ (0 : ℤ) < (p.stop : ℤ) - new.pos := by omega
      simp only [h₁, hi, ↓reduceIte, map_some]
      rw [← hhdr]
      rfl
    · have hi : (0 : ℤ) < (p.stop : ℤ) - new.pos := by omega
      by_cases h₂ : new.stop ≤ p.stop
      · have hi' : (new.data.length : ℤ) ≤ (p.stop : ℤ) - new.pos := by omega
        simp only [h₁, h₂, hi, hi', ↓reduceIte, map_none]
        rfl
      · have hi' : ¬ (new.data.length : ℤ) ≤ (p.stop : ℤ) - new.pos := by omega
        have hcut : ((p.stop : ℤ) - new.pos).toNat = p.stop - new.pos := by omega
        simp only [h₁, h₂, hi, hi', hcut, ↓reduceIte, map_some]
        rw [hhdr.adj (p.stop - new.pos)]
        rfl

/-- Only links, headers and buffers have changed. -/
def Frame (s s' : Tcpcb) : Prop := s' = { s with link := s'.link, hdr := s'.hdr, held := s'.held }

theorem Frame.refl (s : Tcpcb) : Frame s s := rfl

theorem Frame.trans {s s' s'' : Tcpcb} (h : Frame s s') (h' : Frame s' s'') : Frame s s'' := by
  unfold Frame at h h' ⊢
  rw [h', h]

/-- A header that is no segment of the queue. -/
def Apart (segs : List (Seg ℕ UInt8)) (ti : ℕ) : Prop := ∀ g ∈ segs, ti ≠ qlink2tcpiphdr g.tag

/-- The queue without a segment, whose buffer is given back. -/
theorem Linked.remque (h : Linked b s (pre ++ g :: post)) :
    ∃ link, s.remque (qlink2tcpiphdr g.tag) = some { s with link := link } ∧
      link.next g.tag = some ((post.map Seg.tag).headD s.tp) ∧
      Linked b ({ s with link := link }.mFreem (qlink2tcpiphdr g.tag)) (pre ++ post) := by
  have hring := h.ring
  rw [map_append, map_cons] at hring
  obtain ⟨link, hlink, hring', hnext, -⟩ := hring.remque
  have hnot : ∀ r ∈ pre ++ post, qlink2tcpiphdr r.tag ≠ qlink2tcpiphdr g.tag := by
    intro r hr heq
    have hnodup := (nodup_cons.mp hring.nodup).2
    have := (nodup_cons.mp (perm_middle.nodup_iff.mp hnodup)).1
    rw [← map_append] at this
    exact this (qlink2tcpiphdr_inj.mp heq ▸ List.mem_map_of_mem hr)
  have hsub : ∀ r ∈ pre ++ post, r ∈ pre ++ g :: post := by
    intro r hr
    rcases mem_append.mp hr with hr | hr <;> simp [hr]
  refine ⟨link, by simp [Tcpcb.remque, hlink], hnext.trans h.link.2.1, ?_, fun r hr => h.hdr r (hsub r hr), ?_,
    fun r hr => h.apart r (hsub r hr)⟩
  · rw [map_append]
    exact hring'
  · intro r hr
    exact (Function.update_of_ne (hnot r hr) false s.held).trans (h.held r (hsub r hr))

/-- The queue with a new segment in a gap. -/
theorem Linked.insque (h : Linked b s (pre ++ post)) (new : Seg ℕ UInt8)
    (hhdr : IsHdr b new (s.hdr (qlink2tcpiphdr new.tag))) (hheld : s.held (qlink2tcpiphdr new.tag) = true)
    (htp : new.tag ≠ s.tp) (htp' : qlink2tcpiphdr new.tag ≠ s.tp)
    (hapart : Apart (pre ++ post) (qlink2tcpiphdr new.tag)) :
    ∃ link, s.insque (qlink2tcpiphdr new.tag) (qlink2tcpiphdr ((pre.map Seg.tag).getLastD s.tp)) =
        some { s with link := link } ∧
      Linked b { s with link := link } (pre ++ new :: post) := by
  have hring := h.ring
  rw [map_append] at hring
  have hout : new.tag ∉ s.tp :: (pre.map Seg.tag ++ post.map Seg.tag) := by
    rw [← map_append, mem_cons]
    rintro (heq | hmem)
    · exact htp heq
    · obtain ⟨g, hg, heq⟩ := List.mem_map.mp hmem
      exact hapart g hg (by rw [heq])
  obtain ⟨link, hins, hring', -⟩ := hring.insque hout rfl
  have hmem : ∀ g ∈ pre ++ new :: post, g = new ∨ g ∈ pre ++ post := by
    intro g hg
    rcases mem_append.mp hg with hg | hg
    · exact .inr (by simp [hg])
    · rcases mem_cons.mp hg with hg | hg
      · exact .inl hg
      · exact .inr (by simp [hg])
  refine ⟨link, ?_, ?_, ?_, ?_, ?_⟩
  · simp only [Tcpcb.insque, tcpiphdr2qlink_qlink2tcpiphdr, hins]
    rfl
  · rw [map_append, map_cons]
    exact hring'
  · intro g hg
    rcases hmem g hg with rfl | hg
    · exact hhdr
    · exact h.hdr g hg
  · intro g hg
    rcases hmem g hg with rfl | hg
    · exact hheld
    · exact h.held g hg
  · intro g hg
    rcases hmem g hg with rfl | hg
    · exact htp'
    · exact h.apart g hg

/-- A segment of the queue is trimmed. -/
theorem Linked.setHdr (h : Linked b s (pre ++ g :: post)) {g' : Seg ℕ UInt8} (htag : g'.tag = g.tag) {h' : TcpIpHdr}
    (hh : IsHdr b g' h') : Linked b (s.setHdr (qlink2tcpiphdr g.tag) h') (pre ++ g' :: post) := by
  have hnodup : (pre.map Seg.tag ++ g.tag :: post.map Seg.tag).Nodup := by
    have := (nodup_cons.mp h.ring.nodup).2
    simpa using this
  have hmem : ∀ r ∈ pre ++ g' :: post, r = g' ∨ (r ∈ pre ++ g :: post ∧ r.tag ≠ g.tag) := by
    have hnot := (nodup_cons.mp (perm_middle.nodup_iff.mp hnodup)).1
    rw [← map_append] at hnot
    intro r hr
    by_cases heq : r = g'
    · exact .inl heq
    · have hr' : r ∈ pre ++ post := by
        rcases mem_append.mp hr with hr | hr
        · simp [hr]
        · simp [(mem_cons.mp hr).resolve_left heq]
      refine .inr ⟨?_, ?_⟩
      · rcases mem_append.mp hr' with hr | hr <;> simp [hr]
      · intro ht
        exact hnot (ht ▸ List.mem_map_of_mem hr')
  refine ⟨?_, ?_, ?_, ?_⟩
  · have : (pre ++ g' :: post).map Seg.tag = (pre ++ g :: post).map Seg.tag := by simp [htag]
    rw [this]
    exact h.ring
  · intro r hr
    rcases hmem r hr with rfl | ⟨hr, hne⟩
    · rw [htag]
      simpa [Tcpcb.setHdr] using hh
    · have hne' : qlink2tcpiphdr r.tag ≠ qlink2tcpiphdr g.tag := fun h => hne (qlink2tcpiphdr_inj.mp h)
      simpa [Tcpcb.setHdr, hne'] using h.hdr r hr
  · intro r hr
    rcases hmem r hr with rfl | ⟨hr, -⟩
    · rw [htag]
      exact h.held g (by simp)
    · exact h.held r hr
  · intro r hr
    rcases hmem r hr with rfl | ⟨hr, -⟩
    · rw [htag]
      exact h.apart g (by simp)
    · exact h.apart r hr

/-- The second loop leaves what `absorb` leaves. -/
theorem trimLoop_spec (h : Linked b s (pre ++ post)) (hfit : ∀ g ∈ post, Fits R g) (hpost : ∀ g ∈ post, R < g.pos)
    {stop : ℕ} (hstop : R ≤ stop ∧ stop ≤ R + 2 ^ 31) {fuel : ℕ} (hfuel : post.length < fuel) :
    ∃ s', trimLoop (seqAt b stop) fuel s (cursor s post) = some (cursor s (absorb stop post), s') ∧
      Linked b s' (pre ++ absorb stop post) ∧ Frame s s' ∧
      ∀ ti, Apart post ti → s'.hdr ti = s.hdr ti ∧ s'.held ti = s.held ti := by
  induction post generalizing s fuel with
  | nil =>
    obtain ⟨fuel, rfl⟩ := Nat.exists_eq_succ_of_ne_zero (Nat.ne_of_gt (Nat.zero_lt_of_lt hfuel))
    refine ⟨s, ?_, h, Frame.refl s, fun _ _ => ⟨rfl, rfl⟩⟩
    rw [trimLoop, if_pos tcpfragListEnd_cursor_nil]
    rfl
  | cons g post ih =>
    obtain ⟨fuel, rfl⟩ := Nat.exists_eq_succ_of_ne_zero (Nat.ne_of_gt (Nat.zero_lt_of_lt hfuel))
    have hg : g ∈ pre ++ g :: post := by simp
    have hgfit := hfit g (by simp)
    have hgpos := hpost g (by simp)
    have hhdr := h.hdr g hg
    have hlen : (s.hdr (qlink2tcpiphdr g.tag)).tiLen = g.data.length := by rw [hhdr]; rfl
    have hi : (seqAt b stop - (s.hdr (qlink2tcpiphdr g.tag)).tiSeq).toInt = (stop : ℤ) - g.pos := by
      rw [hhdr]
      exact toInt_seqAt_sub b (by omega) (by have := hgfit.high; omega)
    have hgs : g.stop = g.pos + g.data.length := rfl
    rw [trimLoop, cursor_cons, h.not_end hg, if_neg (by simp)]
    simp only [hi, hlen]
    unfold absorb
    by_cases h₁ : stop ≤ g.pos
    · rw [if_pos h₁, if_pos (by omega)]
      exact ⟨s, rfl, h, Frame.refl s, fun _ _ => ⟨rfl, rfl⟩⟩
    rw [if_neg h₁, if_neg (by omega)]
    by_cases h₂ : stop < g.stop
    · -- the segment is trimmed where it is
      rw [if_pos h₂, if_pos (by omega), show ((stop : ℤ) - g.pos).toNat = stop - g.pos by omega]
      refine ⟨_, rfl, h.setHdr (show (g.trim (stop - g.pos)).tag = g.tag from rfl) (hhdr.adj _), rfl, ?_⟩
      intro ti hti
      simp [Tcpcb.setHdr, hti g (by simp)]
    · -- it is covered, and dequeued
      rw [if_neg h₂, if_neg (by omega)]
      have hshift : pre ++ g :: post = (pre ++ [g]) ++ post := by simp
      have hprev : s.tcpiphdrPrev (cursor s post) = some (qlink2tcpiphdr g.tag) := by
        rw [hshift] at h
        rw [h.prev]
        simp
      obtain ⟨link, hrem, -, hlinked⟩ := h.remque
      obtain ⟨s', hs', hl', hframe, hapart⟩ := ih hlinked (fun r hr => hfit r (by simp [hr]))
        (fun r hr => hpost r (by simp [hr])) (show post.length < fuel by simpa using hfuel)
      have hfree : Frame s ({ s with link := link }.mFreem (qlink2tcpiphdr g.tag)) := rfl
      refine ⟨s', ?_, hl', hfree.trans hframe, ?_⟩
      · simp only [h.next, hprev, hrem, bind_eq_bind, bind_some]
        exact hs'
      · intro ti hti
        obtain ⟨h₃, h₄⟩ := hapart ti (fun r hr => hti r (by simp [hr]))
        refine ⟨h₃, h₄.trans ?_⟩
        exact Function.update_of_ne (hti g (by simp)) false s.held

/-- The fields that no segment changes. -/
def SameConn (s s' : Tcpcb) : Prop :=
  s' = { s with link := s'.link, hdr := s'.hdr, held := s'.held, rcvNxt := s'.rcvNxt, appended := s'.appended }

theorem SameConn.trans {s s' s'' : Tcpcb} (h : SameConn s s') (h' : SameConn s' s'') : SameConn s s'' := by
  unfold SameConn at h h' ⊢
  rw [h', h]

/-- One round of the loop that presents data takes the first segment and its data. -/
theorem presentLoop_succ (emu : List UInt8 → Option (List UInt8)) (h : Linked b s (g :: segs))
    (hsend : s.cantSendMore = false) (hemu : s.soEmu = false) {x : ℕ} (hx : s.rcvNxt = seqAt b x) (hg : g.pos = x)
    (fuel : ℕ) :
    ∃ s₁ fin, SameConn s s₁ ∧ Linked b s₁ segs ∧ s₁.rcvNxt = seqAt b g.stop ∧ s₁.appended = s.appended ++ g.data ∧
      presentLoop emu (fuel + 1) s (cursor s (g :: segs)) =
        if s₁.tiSeq (cursor s₁ segs) = s₁.rcvNxt then presentLoop emu fuel s₁ (cursor s₁ segs) else some (fin, s₁) := by
  have hmem : g ∈ g :: segs := by simp
  have hhdr := h.hdr g hmem
  have hlen : (s.hdr (qlink2tcpiphdr g.tag)).tiLen = g.data.length := by rw [hhdr]; rfl
  have hmbuf : (s.hdr (qlink2tcpiphdr g.tag)).mbuf = g.data := by rw [hhdr]; rfl
  have hnxt : s.rcvNxt + BitVec.ofNat 32 g.data.length = seqAt b g.stop := by rw [hx, seqAt_add, ← hg]; rfl
  have h' : Linked b s ([] ++ g :: segs) := h
  obtain ⟨link, hrem, hnext, hlinked⟩ := h'.remque
  have hne : cursor s segs ≠ s.tp := by
    cases segs with
    | nil => simp [cursor_nil, qlink2tcpiphdr, sizeofQlink]
    | cons r segs => exact h.apart r (by simp)
  let s₁ : Tcpcb := ({ s with link := link, rcvNxt := seqAt b g.stop }.mFreem (qlink2tcpiphdr g.tag)).sbappend g.data
  refine ⟨s₁, (s.hdr (qlink2tcpiphdr g.tag)).fin, rfl, ?_, rfl, rfl, ?_⟩
  · exact ⟨hlinked.ring, hlinked.hdr, hlinked.held, hlinked.apart⟩
  · have hremque : Tcpcb.remque { s with rcvNxt := seqAt b g.stop } (qlink2tcpiphdr g.tag) =
        some { s with link := link, rcvNxt := seqAt b g.stop } := by
      simp only [Tcpcb.remque, tcpiphdr2qlink_qlink2tcpiphdr] at hrem ⊢
      cases hk : s.link.remque g.tag with
      | none => simp [hk] at hrem
      | some k =>
        have : k = link := by simpa [hk] using congrArg (Option.map Tcpcb.link) hrem
        simp [this]
    have hnext' : Tcpcb.tcpiphdrNext { s with link := link, rcvNxt := seqAt b g.stop } (qlink2tcpiphdr g.tag) =
        some (cursor s segs) := by
      simp [Tcpcb.tcpiphdrNext, hnext, cursor]
    have hpresent : (if ({ s with link := link, rcvNxt := seqAt b g.stop }.mFreem (qlink2tcpiphdr g.tag)).cantSendMore
        then ({ s with link := link, rcvNxt := seqAt b g.stop }.mFreem (qlink2tcpiphdr g.tag))
        else ({ s with link := link, rcvNxt := seqAt b g.stop }.mFreem (qlink2tcpiphdr g.tag)).present emu g.data) =
          s₁ := by
      simp [Tcpcb.mFreem, Tcpcb.present, hsend, hemu, s₁]
    rw [presentLoop, cursor_cons]
    simp only [Tcpcb.tiHdr, h.not_end hmem, Bool.false_eq_true, ↓reduceIte, bind_eq_bind, bind_some, hlen,
      hmbuf, hnxt, hremque, hnext', hpresent]
    have htest : (cursor s segs ≠ s₁.tp ∧ s₁.tiSeq (cursor s segs) = s₁.rcvNxt) ↔
        s₁.tiSeq (cursor s₁ segs) = s₁.rcvNxt := ⟨fun h => h.2, fun h => ⟨hne, h⟩⟩
    simp only [htest]
    rfl

/-- The loop takes what `take` takes, unless it takes all and the control block looks like the next segment. -/
theorem presentLoop_spec (emu : List UInt8 → Option (List UInt8)) (h : Linked b s (g :: segs))
    (ho : Ordered (g :: segs)) (hsend : s.cantSendMore = false) (hemu : s.soEmu = false) {x : ℕ}
    (hx : s.rcvNxt = seqAt b x) (hg : g.pos = x) (hwin : ∀ r ∈ segs, r.pos < x + 2 ^ 32) {fuel : ℕ}
    (hfuel : segs.length + 1 < fuel) :
    ((take x (g :: segs)).2.2 = [] ∧ seqAt b (take x (g :: segs)).2.1 = s.headSeq →
      presentLoop emu fuel s (cursor s (g :: segs)) = none) ∧
    (¬((take x (g :: segs)).2.2 = [] ∧ seqAt b (take x (g :: segs)).2.1 = s.headSeq) →
      ∃ fin s', presentLoop emu fuel s (cursor s (g :: segs)) = some (fin, s') ∧ SameConn s s' ∧
        Linked b s' (take x (g :: segs)).2.2 ∧ s'.rcvNxt = seqAt b (take x (g :: segs)).2.1 ∧
        s'.appended = s.appended ++ (take x (g :: segs)).1) := by
  induction segs generalizing s g x fuel with
  | nil =>
    obtain ⟨fuel, rfl⟩ : ∃ k, fuel = k + 2 := ⟨fuel - 2, by simp at hfuel; omega⟩
    obtain ⟨s₁, fin, hsame, hlinked, hnxt, happ, heq⟩ := presentLoop_succ emu h hsend hemu hx hg (fuel + 1)
    have hhead : s₁.tiSeq (cursor s₁ []) = s.headSeq := by
      rw [Tcpcb.tiSeq, tcpfragListEnd_cursor_nil, if_pos rfl, hsame]
      rfl
    have htake : take x [g] = (g.data, g.stop, []) := by simp [take, hg]
    rw [heq, hhead, hnxt, htake]
    dsimp only
    constructor
    · rintro ⟨-, hhit⟩
      -- the control block is taken for a segment, and its buffer is followed
      rw [if_pos hhit.symm, presentLoop, Tcpcb.tiHdr, tcpfragListEnd_cursor_nil]
      rfl
    · intro hmiss
      rw [if_neg (by simpa [eq_comm] using hmiss)]
      exact ⟨fin, s₁, rfl, hsame, hlinked, hnxt, happ⟩
  | cons r segs ih =>
    obtain ⟨fuel, rfl⟩ : ∃ k, fuel = k + 1 := ⟨fuel - 1, by omega⟩
    obtain ⟨s₁, fin, hsame, hlinked, hnxt, happ, heq⟩ := presentLoop_succ emu h hsend hemu hx hg fuel
    obtain ⟨hgr, hor⟩ := pairwise_cons.mp ho
    have hrg : g.stop ≤ r.pos := hgr r (by simp)
    have hgs : g.pos ≤ g.stop := Nat.le_add_right _ _
    have hrwin := hwin r (by simp)
    have hseq : s₁.tiSeq (cursor s₁ (r :: segs)) = seqAt b r.pos := by
      rw [Tcpcb.tiSeq, cursor_cons, hlinked.not_end (by simp), if_neg (by simp), hlinked.hdr r (by simp)]
      rfl
    have htest : seqAt b r.pos = seqAt b g.stop ↔ r.pos = g.stop := seqAt_inj (by omega) (by omega)
    have htake : take x (g :: r :: segs) =
        (g.data ++ (take g.stop (r :: segs)).1, (take g.stop (r :: segs)).2) := by
      rw [take, if_pos hg]
    rw [heq, hseq, hnxt, htake]
    dsimp only
    by_cases hr : r.pos = g.stop
    · have hhead : s₁.headSeq = s.headSeq := by rw [hsame]; rfl
      obtain ⟨hbad, hgood⟩ := ih hlinked hor (by rw [hsame]; exact hsend) (by rw [hsame]; exact hemu) hnxt hr
        (fun q hq => by have := hwin q (by simp [hq]); omega) (by simpa using hfuel)
      rw [if_pos (htest.mpr hr)]
      refine ⟨fun hh => hbad (by rw [hhead]; exact hh), fun hh => ?_⟩
      obtain ⟨fin', s', h₁, h₂, h₃, h₄, h₅⟩ := hgood (by rw [hhead]; exact hh)
      refine ⟨fin', s', h₁, hsame.trans h₂, h₃, h₄, ?_⟩
      rw [h₅, happ, append_assoc]
    · have hstop : take g.stop (r :: segs) = ([], g.stop, r :: segs) := by rw [take, if_neg hr]
      rw [if_neg (fun h => hr (htest.mp h)), hstop]
      refine ⟨by simp, fun _ => ⟨fin, s₁, rfl, hsame, hlinked, hnxt, by simpa using happ⟩⟩

end Emulator.Slirp.Tcp
