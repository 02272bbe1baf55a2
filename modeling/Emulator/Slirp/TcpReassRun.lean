import Emulator.Slirp.TcpReassInv

/-!
# TCP reassembly over a whole connection

The segments of one byte stream arrive in any order, each within the window. `tcpReass_eq` says what one of them does to
the queue, `Good.arrive` what it does to a connection that has received part of the stream, and `tcpReass_run` what
holds after any number of them: `sbappend` has got the stream up to `rcv_nxt`, and the rest of what has arrived is in
the queue.

The presenting loop does not know the head of the ring. It goes past it when a segment closes the last gap and the
sequence number behind the queued data happens to be the word of the control block that stands where a header has
`ti_seq` (`EndsAtHead`): the connection then follows a pointer that is no buffer.
-/

namespace Emulator.Slirp.Tcp

open Reassembly Option

variable {b : BitVec 32} {σ : ℕ → UInt8} {s : Tcpcb} {segs : List (Seg ℕ UInt8)} {R : ℕ}

variable {new : Seg ℕ UInt8}

/-- `tcp_reass` puts the segment into its gap, and then presents data. -/
theorem tcpReass_eq (emu : List UInt8 → Option (List UInt8)) (h : Linked b s segs) (ho : Ordered segs)
    (hfit : ∀ g ∈ segs, Fits R g)
    (hR : ∀ g ∈ segs, R < g.pos) (hfuel : segs.length < s.fuel) (hnew : Fits R new)
    (hhdr : IsHdr b new (s.hdr (qlink2tcpiphdr new.tag))) (hheld : s.held (qlink2tcpiphdr new.tag) = true)
    (htp : new.tag ≠ s.tp) (htp' : qlink2tcpiphdr new.tag ≠ s.tp) (hapart : Apart segs (qlink2tcpiphdr new.tag)) :
    ∃ pre post s₁, pre ++ post = segs ∧ Gap new.pos pre post ∧
      s.tcpReass emu (qlink2tcpiphdr new.tag) = s₁.tcpPresent emu ∧ Linked b s₁ (put pre post new) ∧ Frame s s₁ := by
  have h' : Linked b s ([] ++ segs) := h
  obtain ⟨pre, post, hsplit, hgap, hfind⟩ := findAfter_spec h' ho hfit ⟨hnew.low, hnew.high⟩ (by simp) hfuel
  rw [List.nil_append] at hsplit
  rw [← hsplit] at h ho hfit hapart hR hfuel
  have hseq : (s.hdr (qlink2tcpiphdr new.tag)).tiSeq = seqAt b new.pos := by rw [hhdr]; rfl
  have hfirst : s.tcpfragListFirst = some (cursor s segs) := by rw [← hsplit]; exact h.first
  refine ⟨pre, post, ?_⟩
  unfold Tcpcb.tcpReass put
  simp only [hfirst, hseq, hfind, clipSegment_eq h hfit hnew hgap.pre hhdr, bind_eq_bind, bind_some]
  cases hclip : clip pre new with
  | none =>
    refine ⟨s.mFreem (qlink2tcpiphdr new.tag), hsplit, hgap, rfl, ?_, rfl⟩
    refine ⟨h.ring, h.hdr, ?_, h.apart⟩
    intro g hg
    exact (Function.update_of_ne (fun heq => hapart g hg heq.symm) false s.held).trans (h.held g hg)
  | some new' =>
    obtain ⟨i, hi, rfl, -, -⟩ := clip_some (List.pairwise_append.mp ho).1 hgap.pre hclip
    have hfit' := hnew.trim hi
    obtain ⟨s₀, hs₀⟩ : ∃ s₀, s₀ = s.setHdr (qlink2tcpiphdr new.tag)
      (hdrOf b (new.trim i) (s.hdr (qlink2tcpiphdr new.tag)).fin) := ⟨_, rfl⟩
    have hset : Frame s s₀ := by rw [hs₀]; rfl
    -- the header is changed in place, and the queue does not see it
    have hlinked : Linked b s₀ (pre ++ post) := by
      rw [hs₀]
      refine ⟨h.ring, ?_, h.held, h.apart⟩
      intro g hg
      have hne : qlink2tcpiphdr g.tag ≠ qlink2tcpiphdr new.tag := fun heq => hapart g hg heq.symm
      simpa [Tcpcb.setHdr, hne] using h.hdr g hg
    have hwin : R ≤ (new.trim i).stop ∧ (new.trim i).stop ≤ R + 2 ^ 31 :=
      ⟨hfit'.low.trans (Nat.le_add_right _ _), hfit'.stop⟩
    obtain ⟨s₁, htrim, hl₁, hframe, hkeep⟩ := trimLoop_spec hlinked
      (fun g hg => hfit g (by simp [hg])) (fun g hg => hR g (by simp [hg])) hwin
      (show post.length < s.fuel by rw [List.length_append] at hfuel; omega)
    obtain ⟨hk₁, hk₂⟩ := hkeep (qlink2tcpiphdr new.tag) (fun g hg => hapart g (by simp [hg]))
    have htp₁ : s₁.tp = s.tp := by rw [hframe, hset]
    have hapart₁ : Apart (pre ++ absorb (new.trim i).stop post) (qlink2tcpiphdr new.tag) := by
      intro g hg
      rcases List.mem_append.mp hg with hg | hg
      · exact hapart g (by simp [hg])
      · obtain ⟨r, hr, j, -, rfl⟩ := mem_absorb hg
        exact hapart r (by simp [hr])
    obtain ⟨link, hins, hl₂⟩ := hl₁.insque (new.trim i)
      (by
        show IsHdr b (new.trim i) (s₁.hdr (qlink2tcpiphdr new.tag))
        rw [hk₁, hs₀]
        simp [Tcpcb.setHdr, IsHdr, hdrOf])
      (by
        show s₁.held (qlink2tcpiphdr new.tag) = true
        rw [hk₂, hs₀]
        exact hheld)
      (by rw [htp₁]; exact htp) (by rw [htp₁]; exact htp') hapart₁
    refine ⟨{ s₁ with link := link }, hsplit, hgap, ?_, hl₂, (hset.trans hframe).trans rfl⟩
    have hcursor : cursor s₀ post = cursor s post := by unfold cursor; rw [hset]
    have hcursor' : cursor s₀ (absorb (new.trim i).stop post) = cursor s₁ (absorb (new.trim i).stop post) := by
      unfold cursor
      rw [htp₁, hset]
    have hins' : s₁.insque (qlink2tcpiphdr new.tag) (qlink2tcpiphdr ((pre.map Seg.tag).getLastD s₁.tp)) =
        some { s₁ with link := link } := hins
    rw [hcursor, hcursor'] at htrim
    simp only [map_some, hdrOf_stop, ← hs₀, htrim, bind_some, hl₁.prev, hins']

/-- Presenting data takes what follows on from `rcv_nxt`. -/
theorem tcpPresent_spec (emu : List UInt8 → Option (List UInt8)) (h : Linked b s segs) (ho : Ordered segs)
    (hstate : s.tState = TCPS_ESTABLISHED)
    (hsend : s.cantSendMore = false) (hemu : s.soEmu = false) (hnxt : s.rcvNxt = seqAt b R)
    (hlow : ∀ g ∈ segs, R ≤ g.pos) (hhigh : ∀ g ∈ segs, g.pos < R + 2 ^ 32) (hfuel : segs.length < s.fuel) :
    (segs ≠ [] ∧ (take R segs).2.2 = [] ∧ seqAt b (take R segs).2.1 = s.headSeq → s.tcpPresent emu = none) ∧
    (¬(segs ≠ [] ∧ (take R segs).2.2 = [] ∧ seqAt b (take R segs).2.1 = s.headSeq) →
      ∃ fin s', s.tcpPresent emu = some (fin, s') ∧ SameConn s s' ∧ Linked b s' (take R segs).2.2 ∧
        s'.rcvNxt = seqAt b (take R segs).2.1 ∧ s'.appended = s.appended ++ (take R segs).1) := by
  unfold Tcpcb.tcpPresent
  rw [hstate, if_neg (lt_irrefl _), h.first]
  simp only [bind_eq_bind, bind_some]
  cases segs with
  | nil =>
    rw [if_pos (.inl tcpfragListEnd_cursor_nil)]
    exact ⟨fun hh => absurd rfl hh.1, fun _ => ⟨false, s, rfl, rfl, h, hnxt, by simp [take]⟩⟩
  | cons g segs =>
    have hseq : s.tiSeq (cursor s (g :: segs)) = seqAt b g.pos := by
      rw [Tcpcb.tiSeq, cursor_cons, h.not_end (by simp), if_neg (by simp), h.hdr g (by simp)]
      rfl
    have hl := hlow g (by simp)
    have hh := hhigh g (by simp)
    by_cases hg : g.pos = R
    · -- the first segment is the next one
      have hend : s.tcpfragListEnd (cursor s (g :: segs)) = false := h.not_end (by simp)
      rw [if_neg (by rw [hend, hseq, hnxt, hg]; simp), if_neg (fun hc => absurd hc.1 (by decide))]
      obtain ⟨hbad, hgood⟩ := presentLoop_spec emu h ho hsend hemu hnxt hg (fun r hr => hhigh r (by simp [hr]))
        (show segs.length + 1 < s.fuel from hfuel)
      exact ⟨fun hh => hbad hh.2, fun hh => hgood (fun hh' => hh ⟨by simp, hh'⟩)⟩
    · have hne : s.tiSeq (cursor s (g :: segs)) ≠ s.rcvNxt := by
        rw [hseq, hnxt]
        exact fun heq => hg ((seqAt_inj (by omega) (by omega)).mp heq)
      have htake : take R (g :: segs) = ([], R, g :: segs) := by rw [take, if_neg hg]
      rw [if_pos (.inr hne), htake]
      refine ⟨fun hh => absurd hh.2.1 (by simp), fun _ => ⟨false, s, rfl, rfl, h, hnxt, by simp⟩⟩

/-- A segment of the stream `σ`, in a buffer whose header has its links at `q`. -/
structure Arrival where
  q : ℕ
  pos : ℕ
  len : ℕ
  fin : Bool
  deriving DecidableEq

def Arrival.seg (σ : ℕ → UInt8) (a : Arrival) : Seg ℕ UInt8 := ⟨a.q, a.pos, slice σ a.pos (a.pos + a.len)⟩

def Arrival.ti (a : Arrival) : ℕ := qlink2tcpiphdr a.q

def Arrival.hdr (b : BitVec 32) (σ : ℕ → UInt8) (a : Arrival) : TcpIpHdr := hdrOf b (a.seg σ) a.fin

/-- The segment is within the window, which begins at `R`, and in a buffer that is not in use. -/
structure Arrival.Allowed (a : Arrival) (s : Tcpcb) (R : ℕ) : Prop where
  free : s.held a.ti = false
  link : a.q ≠ s.tp
  header : a.ti ≠ s.tp
  len : a.len < 2 ^ 16
  low : R ≤ a.pos
  high : a.pos < R + 2 ^ 31
  stop : a.pos + a.len ≤ R + 2 ^ 31

/-- A queued segment, with its position counted from `rcv_nxt`. -/
def Tcpcb.offsetSeg (s : Tcpcb) (q : ℕ) : Seg ℕ UInt8 :=
  ⟨q, ((s.hdr (qlink2tcpiphdr q)).tiSeq - s.rcvNxt).toNat, (s.hdr (qlink2tcpiphdr q)).mbuf⟩

/-- The segment `h` is the next one, segments are queued behind it without a gap, and they end at the sequence number
that the control block has in the place of `ti_seq`. -/
def Tcpcb.EndsAtHead (s : Tcpcb) (h : TcpIpHdr) : Prop :=
  h.tiSeq = s.rcvNxt ∧ ∃ Q, Q ≠ [] ∧ s.link.Ring s.tp Q ∧
    ∃ E, reach h.tiLen (Q.map s.offsetSeg) = some E ∧ s.rcvNxt + BitVec.ofNat 32 E = s.headSeq

/-- A connection after the positions in `rec` have arrived, with `rcv_nxt` at the position `R`. -/
structure Good (b : BitVec 32) (σ : ℕ → UInt8) (R : ℕ) (rec : ℕ → Prop) (s : Tcpcb) (segs : List (Seg ℕ UInt8)) :
    Prop where
  linked : Linked b s segs
  ordered : Ordered segs
  fits : ∀ g ∈ segs, Fits R g
  behind : ∀ g ∈ segs, R < g.pos
  carries : ∀ g ∈ segs, g.Carries σ
  cover : ∀ p, Cover segs p ↔ rec p ∧ R ≤ p
  below : ∀ p < R, rec p
  nxt : s.rcvNxt = seqAt b R
  appended : s.appended = slice σ 0 R
  state : s.tState = TCPS_ESTABLISHED
  send : s.cantSendMore = false
  emu : s.soEmu = false
  count : segs.length ≤ s.segments

theorem Arrival.seg_stop (σ : ℕ → UInt8) (a : Arrival) : (a.seg σ).stop = a.pos + a.len := by
  simp [Arrival.seg, Seg.stop, length_slice]

theorem Arrival.seg_carries (σ : ℕ → UInt8) (a : Arrival) : (a.seg σ).Carries σ := by
  unfold Seg.Carries
  rw [a.seg_stop]
  rfl

theorem Arrival.Allowed.fits {a : Arrival} (h : a.Allowed s R) : Fits R (a.seg σ) := by
  refine ⟨?_, h.low, h.high, a.seg_stop σ ▸ h.stop⟩
  have := h.len
  simp only [Arrival.seg, length_slice]
  omega

/-- What has arrived with one more segment. -/
def Arrival.add (a : Arrival) (rec : ℕ → Prop) (p : ℕ) : Prop := rec p ∨ a.pos ≤ p ∧ p < a.pos + a.len

variable {rec : ℕ → Prop} {a : Arrival}

theorem Good.apart (H : Good b σ R rec s segs) (ha : a.Allowed s R) : Apart segs a.ti := by
  intro g hg heq
  have := H.linked.held g hg
  rw [← heq, ha.free] at this
  cases this

theorem Good.tiSeq_eq (H : Good b σ R rec s segs) (ha : a.Allowed s R) :
    (a.hdr b σ).tiSeq = s.rcvNxt ↔ a.pos = R := by
  rw [H.nxt]
  refine seqAt_inj ?_ ?_
  · have := ha.high
    simp only [Arrival.seg]
    omega
  · have := ha.low
    simp only [Arrival.seg]
    omega

/-- The condition on the links and headers, in terms of the segments. -/
theorem Good.endsAtHead_iff (H : Good b σ R rec s segs) (ha : a.Allowed s R) :
    s.EndsAtHead (a.hdr b σ) ↔
      a.pos = R ∧ segs ≠ [] ∧ ∃ E, reach (R + a.len) segs = some E ∧ seqAt b E = s.headSeq := by
  have hlen : (a.hdr b σ).tiLen = a.len := by simp [Arrival.hdr, hdrOf, Arrival.seg, length_slice]
  have hoff : (segs.map Seg.tag).map s.offsetSeg = segs.map fun g => { g with pos := g.pos - R } := by
    rw [List.map_map]
    refine List.map_congr_left fun g hg => ?_
    have hhdr := H.linked.hdr g hg
    have hfit := H.fits g hg
    have hpos : ((s.hdr (qlink2tcpiphdr g.tag)).tiSeq - s.rcvNxt).toNat = g.pos - R := by
      rw [hhdr, H.nxt]
      exact toNat_seqAt_sub b hfit.low (by have := hfit.high; omega)
    have hmbuf : (s.hdr (qlink2tcpiphdr g.tag)).mbuf = g.data := by rw [hhdr]; rfl
    simp [Tcpcb.offsetSeg, hpos, hmbuf]
  have hreach : reach (R + a.len) segs = (reach a.len ((segs.map Seg.tag).map s.offsetSeg)).map (R + ·) := by
    rw [hoff]
    exact reach_shift (fun g hg => (H.fits g hg).low) a.len
  have hseq : ∀ E, s.rcvNxt + BitVec.ofNat 32 E = seqAt b (R + E) := fun E => by rw [H.nxt, seqAt_add]
  unfold Tcpcb.EndsAtHead
  rw [H.tiSeq_eq ha, hlen]
  refine and_congr_right fun _ => ?_
  constructor
  · rintro ⟨Q, hQ, hring, E, hE, hhead⟩
    obtain rfl := hring.unique H.linked.ring
    refine ⟨by simpa using hQ, R + E, ?_, by rw [← hseq, hhead]⟩
    rw [hreach, hE, map_some]
  · rintro ⟨hne, E, hE, hhead⟩
    rw [hreach] at hE
    obtain ⟨E', hE', rfl⟩ := map_eq_some_iff.mp hE
    exact ⟨segs.map Seg.tag, by simpa using hne, H.linked.ring, E', hE', by rw [hseq, hhead]⟩

variable {pre post : List (Seg ℕ UInt8)}

/-- When the new segment is the next one, the loop takes all of the queue exactly when nothing is missing. -/
theorem take_put_front (ho : Ordered (pre ++ post))
    (hg : Gap new.pos pre post) (hbehind : ∀ g ∈ pre ++ post, new.pos < g.pos) (E : ℕ) :
    ((take new.pos (put pre post new)).2.2 = [] ∧ (take new.pos (put pre post new)).2.1 = E) ↔
      reach new.stop (pre ++ post) = some E := by
  obtain rfl : pre = [] := by
    cases pre with
    | nil => rfl
    | cons g pre =>
      have h₁ := hg.pre g (by simp)
      have h₂ := hbehind g (by simp)
      omega
  have hput : put [] post new = new :: absorb new.stop post := rfl
  rw [hput, take, if_pos rfl]
  exact take_absorb_eq_reach ho E

/-- A segment that is not the next one leaves the first gap open. -/
theorem take_put_gap (ho : Ordered (pre ++ post))
    (hg : Gap new.pos pre post) (hbehind : ∀ g ∈ pre ++ post, R < g.pos) (hnew : R < new.pos) :
    (take R (put pre post new)).2.2 = put pre post new := by
  cases hput : put pre post new with
  | nil => rfl
  | cons g l =>
    obtain ⟨r, hr, i, -, rfl⟩ := mem_put ho hg (show g ∈ put pre post new by rw [hput]; simp)
    have hpos : R < r.pos := by
      rcases hr with hr | rfl
      · exact hbehind r hr
      · exact hnew
    rw [take, if_neg (by simp only [Seg.trim]; omega)]

/-- The connection with the new segment queued or taken, as far as the segments are concerned. -/
theorem Good.taken (H : Good b σ R rec s segs) (ha : a.Allowed s R)
    (hsplit : pre ++ post = segs) (hgap : Gap a.pos pre post) {s' : Tcpcb}
    (hlinked : Linked b s' (take R (put pre post (a.seg σ))).2.2)
    (hnxt : s'.rcvNxt = seqAt b (take R (put pre post (a.seg σ))).2.1)
    (happ : s'.appended = s.appended ++ (take R (put pre post (a.seg σ))).1)
    (hstate : s'.tState = TCPS_ESTABLISHED) (hsend : s'.cantSendMore = false) (hemu : s'.soEmu = false)
    (hcount : s'.segments = s.segments + 1) :
    ∃ R' segs', R ≤ R' ∧ R' ≤ R + 2 ^ 31 ∧ Good b σ R' (a.add rec) s' segs' := by
  subst hsplit
  have hord := H.ordered.put (s := a.seg σ) hgap
  have hfit : ∀ g ∈ put pre post (a.seg σ), Fits R g := by
    intro g hg
    obtain ⟨r, hr, i, hi, rfl⟩ := mem_put H.ordered hgap hg
    rcases hr with hr | rfl
    · exact (H.fits r hr).trim hi
    · exact ha.fits.trim hi
  have hcov : ∀ p, Cover (put pre post (a.seg σ)) p ↔ a.add rec p ∧ R ≤ p := by
    intro p
    rw [mem_cover_put H.ordered hgap, H.cover, a.seg_stop]
    have := ha.low
    constructor
    · rintro (⟨h, h'⟩ | h)
      · exact ⟨.inl h, h'⟩
      · exact ⟨.inr h, this.trans h.1⟩
    · rintro ⟨h | h, h'⟩
      · exact .inl ⟨h, h'⟩
      · exact .inr h
  obtain ⟨h₁, h₂, h₃, h₄, h₅⟩ := take_spec hord (carries_put H.ordered hgap (a.seg_carries σ) H.carries)
    (fun g hg => (hfit g hg).low)
  have hle : (take R (put pre post (a.seg σ))).2.1 ≤ R + 2 ^ 31 :=
    take_le (Nat.le_add_right _ _) fun g hg => (hfit g hg).stop
  refine ⟨_, _, h₁, hle, hlinked, hord.sublist h₃.sublist, ?_, h₄, ?_, ?_, ?_, hnxt, ?_, hstate, hsend, hemu, ?_⟩
  · intro g hg
    obtain ⟨f₁, f₂, f₃, f₄⟩ := hfit g (h₃.subset hg)
    exact ⟨f₁, (h₄ g hg).le, by omega, by omega⟩
  · intro g hg
    exact carries_put H.ordered hgap (a.seg_carries σ) H.carries g (h₃.subset hg)
  · intro p
    have hp := h₅ p
    rw [hcov] at hp
    constructor
    · intro hc
      obtain ⟨g, hg, hg₁, -⟩ := id hc
      have := h₄ g hg
      exact ⟨(hp.mpr (.inr hc)).1, by omega⟩
    · rintro ⟨hadd, hR⟩
      rcases hp.mp ⟨hadd, by omega⟩ with h | h
      · omega
      · exact h
  · intro p hp
    by_cases hpR : p < R
    · exact .inl (H.below p hpR)
    · exact ((hcov p).mp ((h₅ p).mpr (.inl ⟨by omega, hp⟩))).1
  · rw [happ, H.appended, h₂, slice_append σ (Nat.zero_le R) h₁]
  · have hlen := h₃.length_le
    have := length_put_le pre post (a.seg σ)
    have := H.count
    omega

theorem Good.hold (H : Good b σ R rec s segs) (ha : a.Allowed s R) : Linked b (s.hold a.ti (a.hdr b σ)) segs := by
  have hne : ∀ g ∈ segs, qlink2tcpiphdr g.tag ≠ a.ti := fun g hg heq => H.apart ha g hg heq.symm
  refine ⟨H.linked.ring, ?_, ?_, H.linked.apart⟩
  · intro g hg
    simpa [Tcpcb.hold, hne g hg] using H.linked.hdr g hg
  · intro g hg
    simpa [Tcpcb.hold, hne g hg] using H.linked.held g hg

/-- When the fast path is taken. -/
theorem Good.fast_iff (H : Good b σ R rec s segs) (ha : a.Allowed s R) :
    ((a.hdr b σ).tiSeq = (s.hold a.ti (a.hdr b σ)).rcvNxt ∧ (s.hold a.ti (a.hdr b σ)).tcpfragListEmpty ∧
      (s.hold a.ti (a.hdr b σ)).tState = TCPS_ESTABLISHED) ↔ a.pos = R ∧ segs = [] := by
  have hempty : (s.hold a.ti (a.hdr b σ)).tcpfragListEmpty = true ↔ segs = [] := by
    have hnext : s.link.next s.tp = some ((segs.map Seg.tag).headD s.tp) := H.linked.ring.next_head
    rw [Tcpcb.tcpfragListEmpty, decide_eq_true_eq]
    show s.link.next s.tp = some s.tp ↔ segs = []
    rw [hnext]
    cases segs with
    | nil => simp
    | cons g segs => simpa using H.linked.tag_ne (show g ∈ g :: segs by simp)
  have hseq : (a.hdr b σ).tiSeq = (s.hold a.ti (a.hdr b σ)).rcvNxt ↔ a.pos = R := H.tiSeq_eq ha
  have hstate : (s.hold a.ti (a.hdr b σ)).tState = TCPS_ESTABLISHED := H.state
  rw [hempty, hseq]
  exact ⟨fun h => ⟨h.1, h.2.1⟩, fun h => ⟨h.1, h.2, hstate⟩⟩

/-- The fast path: the data goes straight to the socket. -/
theorem Good.arrive_fast (emu : List UInt8 → Option (List UInt8)) (H : Good b σ R rec s []) (ha : a.Allowed s R)
    (hpos : a.pos = R) :
    ∃ fin s', s.tcpReassMacro emu a.ti (a.hdr b σ) = some (fin, s') ∧
      ∃ R' segs', R ≤ R' ∧ R' ≤ R + 2 ^ 31 ∧ Good b σ R' (a.add rec) s' segs' := by
  unfold Tcpcb.tcpReassMacro
  rw [if_pos ((H.fast_iff ha).mpr ⟨hpos, rfl⟩)]
  refine ⟨_, _, rfl, ?_⟩
  have hgap : Gap a.pos ([] : List (Seg ℕ UInt8)) [] := ⟨by simp, by simp⟩
  have htake : take R (put [] [] (a.seg σ)) = (slice σ R (R + a.len), R + a.len, []) := by
    have hput : put ([] : List (Seg ℕ UInt8)) [] (a.seg σ) = [a.seg σ] := rfl
    rw [hput, take, if_pos (show (a.seg σ).pos = R from hpos), a.seg_stop, hpos]
    simp [take, Arrival.seg, hpos]
  have hemu : s.soEmu = false := H.emu
  refine H.taken ha rfl hgap ?_ ?_ ?_ ?_ ?_ ?_ ?_
  all_goals simp only [Tcpcb.hold, Tcpcb.present, Tcpcb.mFreem, Tcpcb.sbappend, hemu, Bool.false_eq_true, ↓reduceIte,
    htake]
  · exact ⟨H.linked.ring, by simp, by simp, by simp⟩
  · rw [H.nxt, seqAt_add]
    simp [Arrival.hdr, hdrOf, Arrival.seg, length_slice]
  · simp [Arrival.hdr, hdrOf, Arrival.seg, hpos]
  · exact H.state
  · exact H.send

/-- Through the queue: the loop goes past the end exactly when the segments end at the head. -/
theorem Good.arrive_queue (emu : List UInt8 → Option (List UInt8)) (H : Good b σ R rec s segs) (ha : a.Allowed s R)
    (hslow : ¬(a.pos = R ∧ segs = [])) :
    (s.EndsAtHead (a.hdr b σ) → s.tcpReassMacro emu a.ti (a.hdr b σ) = none) ∧
    (¬ s.EndsAtHead (a.hdr b σ) → ∃ fin s', s.tcpReassMacro emu a.ti (a.hdr b σ) = some (fin, s') ∧
      ∃ R' segs', R ≤ R' ∧ R' ≤ R + 2 ^ 31 ∧ Good b σ R' (a.add rec) s' segs') := by
  have hcount := H.count
  obtain ⟨pre, post, s₁, hsplit, hgap, heq, hl₁, hframe⟩ := tcpReass_eq emu (H.hold ha) H.ordered H.fits H.behind
    (show segs.length < (s.hold a.ti (a.hdr b σ)).fuel by simp only [Tcpcb.fuel, Tcpcb.hold]; omega)
    ha.fits
    (show IsHdr b (a.seg σ) ((s.hold a.ti (a.hdr b σ)).hdr a.ti) by simp [Tcpcb.hold, IsHdr, Arrival.hdr, hdrOf])
    (show (s.hold a.ti (a.hdr b σ)).held a.ti = true by simp [Tcpcb.hold])
    ha.link ha.header (H.apart ha)
  have hord : Ordered (pre ++ post) := by rw [hsplit]; exact H.ordered
  have hfit : ∀ g ∈ put pre post (a.seg σ), Fits R g := by
    intro g hg
    obtain ⟨r, hr, i, hi, rfl⟩ := mem_put hord hgap hg
    rcases hr with hr | rfl
    · exact (H.fits r (hsplit ▸ hr)).trim hi
    · exact ha.fits.trim hi
  have hlength := length_put_le pre post (a.seg σ)
  rw [hsplit] at hlength
  have hsegs₁ : s₁.segments = s.segments + 1 := by rw [hframe]; rfl
  have hhead₁ : s₁.headSeq = s.headSeq := by rw [hframe]; rfl
  obtain ⟨hbad, hgood⟩ := tcpPresent_spec emu hl₁ (hord.put hgap)
    (by rw [hframe]; exact H.state) (by rw [hframe]; exact H.send) (by rw [hframe]; exact H.emu)
    (by rw [hframe]; exact H.nxt) (fun g hg => (hfit g hg).low) (fun g hg => by have := (hfit g hg).high; omega)
    (by simp only [Tcpcb.fuel, hsegs₁]; omega)
  -- the condition of the loop is that of the statement
  have hcond : s.EndsAtHead (a.hdr b σ) ↔ put pre post (a.seg σ) ≠ [] ∧ (take R (put pre post (a.seg σ))).2.2 = [] ∧
      seqAt b (take R (put pre post (a.seg σ))).2.1 = s₁.headSeq := by
    rw [H.endsAtHead_iff ha, hhead₁]
    by_cases hpos : a.pos = R
    · have hfront := take_put_front hord hgap (by rw [hsplit, show (a.seg σ).pos = R from hpos]; exact H.behind)
      rw [a.seg_stop, hsplit, show (a.seg σ).pos = R from hpos, hpos] at hfront
      constructor
      · rintro ⟨-, -, E, hE, hhead⟩
        obtain ⟨h₁, h₂⟩ := (hfront E).mpr hE
        exact ⟨put_ne_nil _ _ _, h₁, by rw [h₂, hhead]⟩
      · rintro ⟨-, h₁, h₂⟩
        exact ⟨hpos, fun h => hslow ⟨hpos, h⟩, _, (hfront _).mp ⟨h₁, rfl⟩, h₂⟩
    · have hgap' := take_put_gap hord hgap (by rw [hsplit]; exact H.behind)
        (lt_of_le_of_ne ha.low (Ne.symm hpos))
      constructor
      · rintro ⟨h, -⟩
        exact absurd h hpos
      · rintro ⟨-, h, -⟩
        rw [hgap'] at h
        exact absurd h (put_ne_nil _ _ _)
  have htcp : s.tcpReassMacro emu a.ti (a.hdr b σ) = s₁.tcpPresent emu := by
    unfold Tcpcb.tcpReassMacro
    rw [if_neg (fun h => hslow ((H.fast_iff ha).mp h))]
    exact heq
  rw [htcp, hcond]
  refine ⟨hbad, fun h => ?_⟩
  obtain ⟨fin, s', heq', hsame, hl', hnxt', happ'⟩ := hgood h
  refine ⟨fin, s', heq', H.taken ha hsplit hgap hl' hnxt' ?_ ?_ ?_ ?_ ?_⟩
  · rw [happ', hframe]; rfl
  · rw [hsame, hframe]; exact H.state
  · rw [hsame, hframe]; exact H.send
  · rw [hsame, hframe]; exact H.emu
  · rw [hsame, hframe]; rfl

/-- **One segment** is taken in, unless the queue ends at the head of the ring. -/
theorem Good.arrive (emu : List UInt8 → Option (List UInt8)) (H : Good b σ R rec s segs) (ha : a.Allowed s R) :
    (s.EndsAtHead (a.hdr b σ) → s.tcpReassMacro emu a.ti (a.hdr b σ) = none) ∧
    (¬ s.EndsAtHead (a.hdr b σ) → ∃ fin s', s.tcpReassMacro emu a.ti (a.hdr b σ) = some (fin, s') ∧
      ∃ R' segs', R ≤ R' ∧ R' ≤ R + 2 ^ 31 ∧ Good b σ R' (a.add rec) s' segs') := by
  by_cases hf : a.pos = R ∧ segs = []
  · obtain ⟨hpos, rfl⟩ := hf
    refine ⟨fun h => ?_, fun _ => H.arrive_fast emu ha hpos⟩
    exact absurd rfl ((H.endsAtHead_iff ha).mp h).2.1
  · exact H.arrive_queue emu ha hf

/-- An established connection that has received nothing yet. Its socket takes data, and the data needs no emulation. -/
structure Initial (b : BitVec 32) (s : Tcpcb) : Prop where
  next : s.link.next s.tp = some s.tp
  prev : s.link.prev s.tp = some s.tp
  nxt : s.rcvNxt = b
  state : s.tState = TCPS_ESTABLISHED
  send : s.cantSendMore = false
  emu : s.soEmu = false
  appended : s.appended = []

/-- The connections that are reached from `s₀`: how far `rcv_nxt` has come, and what has arrived. -/
inductive Reach (emu : List UInt8 → Option (List UInt8)) (b : BitVec 32) (σ : ℕ → UInt8) (s₀ : Tcpcb) :
    ℕ → (ℕ → Prop) → Tcpcb → Prop
  | init : Reach emu b σ s₀ 0 (fun _ => False) s₀
  | step {R rec s fin s'} (a : Arrival) (h : Reach emu b σ s₀ R rec s) (ha : a.Allowed s R)
      (hs : s.tcpReassMacro emu a.ti (a.hdr b σ) = some (fin, s')) :
      Reach emu b σ s₀ (R + (s'.rcvNxt - s.rcvNxt).toNat) (a.add rec) s'

theorem Initial.good {s₀ : Tcpcb} (h : Initial b s₀) : Good b σ 0 (fun _ => False) s₀ [] where
  linked := ⟨⟨by simp, ⟨h.next, h.prev⟩, trivial⟩, by simp, by simp, by simp⟩
  ordered := List.Pairwise.nil
  fits := by simp
  behind := by simp
  carries := by simp
  cover := by simp [Cover]
  below := by simp
  nxt := by simp [h.nxt, seqAt]
  appended := by rw [h.appended, slice_self]
  state := h.state
  send := h.send
  emu := h.emu
  count := Nat.zero_le _

theorem reach_good {emu : List UInt8 → Option (List UInt8)} {s₀ : Tcpcb} (h₀ : Initial b s₀)
    (h : Reach emu b σ s₀ R rec s) : ∃ segs, Good b σ R rec s segs := by
  induction h with
  | init => exact ⟨[], h₀.good⟩
  | @step R rec s fin s' a _ ha hs ih =>
    obtain ⟨segs, H⟩ := ih
    obtain ⟨hbad, hgood⟩ := H.arrive emu ha
    have hsafe : ¬ s.EndsAtHead (a.hdr b σ) := by
      intro hend
      rw [hbad hend] at hs
      cases hs
    obtain ⟨fin', s'', hs', R', segs', hle, hle', H'⟩ := hgood hsafe
    rw [hs] at hs'
    obtain ⟨-, rfl⟩ := Prod.mk.inj (Option.some.inj hs')
    have hR : R + (s'.rcvNxt - s.rcvNxt).toNat = R' := by
      rw [H'.nxt, H.nxt, toNat_seqAt_sub b hle (by omega)]
      omega
    rw [hR]
    exact ⟨segs', H'⟩

/-- **TCP reassembly delivers the stream once and in order.** After any segments of the stream `σ` that were within
the window: `sbappend` has got exactly the stream up to `rcv_nxt`, and all of this has arrived; what has arrived
beyond is in the queue, whose segments carry the stream and do not overlap. A further segment is taken in without
following a pointer that is no buffer if and only if it does not complete the queue up to the sequence number that
stands in the control block in the place of `ti_seq`. -/
theorem tcpReass_run {emu : List UInt8 → Option (List UInt8)} {s₀ : Tcpcb} (h₀ : Initial b s₀)
    (h : Reach emu b σ s₀ R rec s) :
    s.rcvNxt = seqAt b R ∧ s.appended = slice σ 0 R ∧ (∀ p < R, rec p) ∧
    (∃ segs, Linked b s segs ∧ Ordered segs ∧ (∀ g ∈ segs, g.Carries σ) ∧ ∀ p, Cover segs p ↔ rec p ∧ R ≤ p) ∧
    ∀ a : Arrival, a.Allowed s R →
      ((∃ r, s.tcpReassMacro emu a.ti (a.hdr b σ) = some r) ↔ ¬ s.EndsAtHead (a.hdr b σ)) := by
  obtain ⟨segs, H⟩ := reach_good h₀ h
  refine ⟨H.nxt, H.appended, H.below, ⟨segs, H.linked, H.ordered, H.carries, H.cover⟩, ?_⟩
  intro a ha
  obtain ⟨hbad, hgood⟩ := H.arrive emu ha
  constructor
  · rintro ⟨r, hr⟩ hend
    rw [hbad hend] at hr
    cases hr
  · intro hsafe
    obtain ⟨fin, s', hs', -⟩ := hgood hsafe
    exact ⟨(fin, s'), hs'⟩

/-- A connection at address 1000 whose next sequence number is `b`, as `tcp_template` leaves it. -/
def established (b : BitVec 32) : Tcpcb where
  tp := 1000
  link := ⟨fun _ => some 1000, fun _ => some 1000⟩
  hdr _ := ⟨0, 0, false, []⟩
  rcvNxt := b
  tState := TCPS_ESTABLISHED
  templateMbuf := 0
  cantSendMore := false
  soEmu := false
  held _ := false
  segments := 0
  appended := []

theorem established_initial (b : BitVec 32) : Initial b (established b) := ⟨rfl, rfl, rfl, rfl, rfl, rfl, rfl⟩

/-- Byte `p` of the stream is `p`. -/
def countStream (p : ℕ) : UInt8 := UInt8.ofNat p

/-- Two segments in the wrong order across the wraparound: the queue is drained at the sequence number 2. -/
theorem tcpReass_run_wraparound :
    ∃ s R rec, Reach some 0xfffffffd countStream (established 0xfffffffd) R rec s ∧
      s.rcvNxt = 2 ∧ s.appended = slice countStream 0 R := by
  have h₀ := established_initial 0xfffffffd
  have h : Reach some 0xfffffffd countStream (established 0xfffffffd) 0 (fun _ => False) (established 0xfffffffd) :=
    Reach.init
  have h₁ := Reach.step ⟨2000, 2, 3, false⟩ h
    ⟨rfl, by decide, by decide, by decide, by decide, by decide, by decide⟩ rfl
  have h₂ := Reach.step ⟨3000, 0, 2, false⟩ h₁
    ⟨rfl, by decide, by decide, by decide, by decide, by decide, by decide⟩ rfl
  exact ⟨_, _, _, h₂, rfl, (tcpReass_run h₀ h₂).2.1⟩

/-- The same with one byte less: the queue is drained at the sequence number 0, which is also the word in the control
block, and the loop takes the control block for a segment. -/
theorem tcpReass_pastEnd :
    ∃ s₁ r, Initial 0xfffffffe (established 0xfffffffe) ∧
      (⟨2000, 1, 1, false⟩ : Arrival).Allowed (established 0xfffffffe) 0 ∧
      (established 0xfffffffe).tcpReassMacro some (qlink2tcpiphdr 2000)
        ((⟨2000, 1, 1, false⟩ : Arrival).hdr 0xfffffffe countStream) = some (r, s₁) ∧
      s₁.rcvNxt = 0xfffffffe ∧ (⟨3000, 0, 1, false⟩ : Arrival).Allowed s₁ 0 ∧
      s₁.tcpReassMacro some (qlink2tcpiphdr 3000)
        ((⟨3000, 0, 1, false⟩ : Arrival).hdr 0xfffffffe countStream) = none := by
  refine ⟨_, _, established_initial _, ⟨rfl, by decide, by decide, by decide, by decide, by decide, by decide⟩,
    rfl, rfl,
    ⟨rfl, by decide, by decide, by decide, by decide, by decide, by decide⟩, rfl⟩

end Emulator.Slirp.Tcp
