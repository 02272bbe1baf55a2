import Emulator.Slirp.IpReass

/-!
# One reassembly queue

`ip_reass` does to the fragments of a queue what `clip`, `absorb` and `take` do to segments: a fragment `q` is the
segment `q.seg`, which remembers `q`, and `Frag.ofSeg` makes a fragment of what is left of it. `ipReassQueue_eq` puts
the pieces together; `ipReassQueue_spec` is what a queue of fragments of one datagram goes through when one more of them
arrives.

The C code is without undefined behaviour under conditions on the buffers only, `TrimSafe` and `JoinSafe`.
-/

namespace Emulator.Slirp.Frags

open Reassembly Option
open List hiding take

def Frag.seg (f : Frag) : Seg Frag UInt8 := ⟨f, f.ip.ipOff, f.m.data⟩

def Frag.ofSeg (g : Seg Frag UInt8) : Frag := g.tag.adj (g.pos - g.tag.ip.ipOff)

/-- A fragment whose length fields agree with its buffer. -/
structure Frag.Ok (f : Frag) : Prop where
  len : f.ip.ipLen = f.m.data.length
  pos : 0 < f.m.data.length
  room : f.m.off + f.m.data.length ≤ f.m.size

variable {f q : Frag} {l pre post : List Frag}

theorem Frag.adj_zero (f : Frag) : f.adj 0 = f := by simp [Frag.adj, Mbuf.adj]

theorem Frag.ofSeg_seg (f : Frag) : Frag.ofSeg f.seg = f := by simp [Frag.ofSeg, Frag.seg, Frag.adj_zero]

theorem Frag.ofSeg_trim (f : Frag) (i : ℕ) : Frag.ofSeg (f.seg.trim i) = f.adj i := by
  simp [Frag.ofSeg, Frag.seg, Seg.trim]

theorem map_ofSeg_seg (l : List Frag) : (l.map Frag.seg).map Frag.ofSeg = l := by
  rw [List.map_map]
  exact (map_congr_left fun f _ => f.ofSeg_seg).trans (List.map_id l)

theorem Frag.Ok.stop (h : f.Ok) : f.seg.stop = f.stop := by simp [Seg.stop, Frag.seg, Frag.stop, h.len]

theorem Frag.Ok.adj (h : f.Ok) {i : ℕ} (hi : i = 0 ∨ i < f.m.data.length) : (f.adj i).Ok := by
  obtain ⟨h₁, h₂, h₃⟩ := h
  refine ⟨?_, ?_, ?_⟩
  · simp [Frag.adj, Mbuf.adj, h₁]
  · simp only [Frag.adj, Mbuf.adj, length_drop]
    omega
  · simp only [Frag.adj, Mbuf.adj, length_drop]
    omega

/-- The new fragment is clipped as `clip` says. -/
theorem clipFrag_eq (hpre : ∀ q ∈ pre, q.Ok) (hf : f.Ok) :
    clipFrag pre f = (clip (pre.map Frag.seg) f.seg).map Frag.ofSeg := by
  unfold clipFrag clip
  rw [List.getLast?_map]
  cases hl : pre.getLast? with
  | none => simp [Frag.ofSeg_seg]
  | some pq =>
    have hpq := (hpre pq (mem_of_getLast? hl)).stop
    have hfs := hf.stop
    have hdiff : ((pq.ip.ipOff : ℤ) + pq.ip.ipLen - f.ip.ipOff) = (pq.seg.stop : ℤ) - f.seg.pos := by
      rw [hpq]
      simp [Frag.stop, Frag.seg]
    have hstop : f.seg.stop = f.seg.pos + f.ip.ipLen := by rw [hfs]; rfl
    simp only [map_some, hdiff]
    by_cases h₁ : pq.seg.stop ≤ f.seg.pos
    · have hi : ¬ (0 : ℤ) < (pq.seg.stop : ℤ) - f.seg.pos := by omega
      simp only [h₁, hi, ↓reduceIte, map_some, Frag.ofSeg_seg]
    · have hi : (0 : ℤ) < (pq.seg.stop : ℤ) - f.seg.pos := by omega
      by_cases h₂ : f.seg.stop ≤ pq.seg.stop
      · have hi' : (f.ip.ipLen : ℤ) ≤ (pq.seg.stop : ℤ) - f.seg.pos := by omega
        simp only [h₁, h₂, hi, hi', ↓reduceIte, map_none]
      · have hi' : ¬ (f.ip.ipLen : ℤ) ≤ (pq.seg.stop : ℤ) - f.seg.pos := by omega
        have hcut : ((pq.seg.stop : ℤ) - f.seg.pos).toNat = pq.seg.stop - f.seg.pos := by omega
        simp only [h₁, h₂, hi, hi', hcut, ↓reduceIte, map_some, Frag.ofSeg_trim]

/-- The fragments that one ending at `stop` covers. -/
def covered (stop : ℕ) (post : List Frag) : List Frag := post.takeWhile (·.stop ≤ stop)

/-- The memory of the fragment stays where it is when the buffer is freed. -/
def Frag.Stays (q : Frag) : Prop := q.m.ext = false ∧ q.m.dofree = false

instance (q : Frag) : Decidable q.Stays := inferInstanceAs (Decidable (_ ∧ _))

theorem trimFrags_eq {stop : ℕ} (hl : ∀ q ∈ l, q.Ok) :
    ((∀ q ∈ covered stop l, q.Stays) →
      trimFrags stop l = some ((absorb stop (l.map Frag.seg)).map Frag.ofSeg)) ∧
    (¬(∀ q ∈ covered stop l, q.Stays) → trimFrags stop l = none) := by
  induction l with
  | nil => simp [trimFrags, absorb, covered]
  | cons q l ih =>
    have hq := hl q (by simp)
    have hqs : q.seg.stop = q.ip.ipOff + q.ip.ipLen := hq.stop
    have hpos := hq.pos
    have hlen := hq.len
    obtain ⟨ih₁, ih₂⟩ := ih fun r hr => hl r (by simp [hr])
    unfold trimFrags covered
    rw [map_cons, absorb]
    by_cases h₁ : stop ≤ q.seg.pos
    · -- nothing is covered from here on
      have h₁' : ¬ q.ip.ipOff < stop := Nat.not_lt.mpr h₁
      have hnot : ¬ q.stop ≤ stop := by unfold Frag.stop; omega
      rw [if_pos h₁, if_neg h₁', takeWhile_cons_of_neg (by simpa using hnot)]
      refine ⟨fun _ => ?_, by simp⟩
      rw [map_cons, Frag.ofSeg_seg, map_ofSeg_seg]
    have h₁' : q.ip.ipOff < stop := Nat.not_le.mp h₁
    rw [if_neg h₁, if_pos h₁']
    by_cases h₂ : stop < q.seg.stop
    · have hnot : ¬ q.stop ≤ stop := by unfold Frag.stop; omega
      have hi : stop - q.ip.ipOff < q.ip.ipLen := by omega
      rw [if_pos h₂, takeWhile_cons_of_neg (by simpa using hnot)]
      simp only [hi, ↓reduceIte, map_cons, map_ofSeg_seg]
      refine ⟨fun _ => ?_, by simp⟩
      rw [show q.seg.pos = q.ip.ipOff from rfl, Frag.ofSeg_trim]
    · have hcov : q.stop ≤ stop := by unfold Frag.stop; omega
      have hi : ¬ stop - q.ip.ipOff < q.ip.ipLen := by omega
      rw [if_neg h₂, takeWhile_cons_of_pos (by simpa using hcov)]
      simp only [hi, ↓reduceIte, forall_mem_cons, Bool.or_eq_true]
      by_cases hstay : q.Stays
      · have hmem : ¬(q.m.ext = true ∨ q.m.dofree = true) := by simp [hstay.1, hstay.2]
        simp only [hmem, ↓reduceIte, hstay, true_and]
        exact ⟨ih₁, ih₂⟩
      · have hmem : q.m.ext = true ∨ q.m.dofree = true := by
          by_contra hno
          rw [not_or] at hno
          exact hstay ⟨by simpa using hno.1, by simpa using hno.2⟩
        simp only [hmem, ↓reduceIte, hstay, false_and]
        exact ⟨fun h => h.elim, fun _ => trivial⟩

theorem scanFrags_eq (hl : ∀ q ∈ l, q.Ok) (R n : ℕ) :
    scanFrags R l = some n ↔ (take R (l.map Frag.seg)).2.2 = [] ∧ (take R (l.map Frag.seg)).2.1 = n := by
  induction l generalizing R with
  | nil => simp [scanFrags, take]
  | cons q l ih =>
    have hstop : q.seg.stop = q.ip.ipOff + q.ip.ipLen := (hl q (by simp)).stop
    have hpos : q.seg.pos = q.ip.ipOff := rfl
    rw [scanFrags, map_cons, take, hpos, hstop]
    by_cases h : q.ip.ipOff = R
    · simp only [h, ne_eq, not_true_eq_false, ↓reduceIte]
      exact ih (fun r hr => hl r (by simp [hr])) _
    · simp [h]

/-- `m_cat` of buffers of these lengths to one with this room stays within it. -/
def CatFits (room : ℕ) : List ℕ → Prop
  | [] => True
  | n :: ns => if n ≤ room then CatFits (room - n) ns else n ≤ room + MINCSIZE ∧ CatFits (room + MINCSIZE - n) ns

instance decidableCatFits (room : ℕ) : (ns : List ℕ) → Decidable (CatFits room ns)
  | [] => isTrue trivial
  | n :: ns =>
    have := decidableCatFits (room - n) ns
    have := decidableCatFits (room + MINCSIZE - n) ns
    inferInstanceAs (Decidable (if n ≤ room then CatFits (room - n) ns
      else n ≤ room + MINCSIZE ∧ CatFits (room + MINCSIZE - n) ns))

theorem catFrags_eq {m : Mbuf} (hm : m.off + m.data.length ≤ m.size) :
    (CatFits m.freeroom (l.map (·.m.data.length)) →
      ∃ m', l.foldlM (fun m t => m.cat t.m) m = some m' ∧ m'.data = m.data ++ l.flatMap (·.m.data)) ∧
    (¬ CatFits m.freeroom (l.map (·.m.data.length)) → l.foldlM (fun m t => m.cat t.m) m = none) := by
  induction l generalizing m with
  | nil => simp [CatFits]
  | cons q l ih =>
    rw [map_cons, CatFits, foldlM_cons, flatMap_cons]
    by_cases h : q.m.data.length ≤ m.freeroom
    · have hcat : m.cat q.m = some { m with data := m.data ++ q.m.data } := by
        unfold Mbuf.cat
        simp [Nat.not_lt.mpr h]
      have hroom : ({ m with data := m.data ++ q.m.data } : Mbuf).freeroom = m.freeroom - q.m.data.length := by
        simp only [Mbuf.freeroom, length_append]
        omega
      have hm' : m.off + (m.data ++ q.m.data).length ≤ m.size := by
        unfold Mbuf.freeroom at h
        rw [length_append]
        omega
      obtain ⟨ih₁, ih₂⟩ := ih (m := { m with data := m.data ++ q.m.data }) hm'
      rw [hroom] at ih₁ ih₂
      rw [if_pos h, hcat]
      refine ⟨fun hfit => ?_, ih₂⟩
      obtain ⟨m', hm₁, hm₂⟩ := ih₁ hfit
      exact ⟨m', hm₁, by rw [hm₂, append_assoc]⟩
    · -- the buffer grows
      have hinc : m.inc (m.size + MINCSIZE) = { m with ext := true, size := m.size + MINCSIZE } := by
        unfold Mbuf.inc
        rw [if_neg (by omega)]
      have hroom : ({ m with ext := true, size := m.size + MINCSIZE } : Mbuf).freeroom = m.freeroom + MINCSIZE := by
        simp only [Mbuf.freeroom]
        omega
      rw [if_neg h]
      by_cases h' : q.m.data.length ≤ m.freeroom + MINCSIZE
      · have hcat : m.cat q.m =
            some { m with ext := true, size := m.size + MINCSIZE, data := m.data ++ q.m.data } := by
          unfold Mbuf.cat
          rw [if_pos (Nat.lt_of_not_le h), hinc]
          dsimp only
          rw [hroom, if_neg (Nat.not_lt.mpr h')]
        have hroom' : ({ m with ext := true, size := m.size + MINCSIZE, data := m.data ++ q.m.data } : Mbuf).freeroom =
            m.freeroom + MINCSIZE - q.m.data.length := by
          simp only [Mbuf.freeroom, length_append]
          omega
        have hm' : m.off + (m.data ++ q.m.data).length ≤ m.size + MINCSIZE := by
          unfold Mbuf.freeroom at h'
          rw [length_append]
          omega
        obtain ⟨ih₁, ih₂⟩ := ih (m := { m with ext := true, size := m.size + MINCSIZE, data := m.data ++ q.m.data }) hm'
        rw [hroom'] at ih₁ ih₂
        rw [hcat]
        refine ⟨fun hfit => ?_, fun hfit => ih₂ fun h'' => hfit ⟨h', h''⟩⟩
        obtain ⟨m', hm₁, hm₂⟩ := ih₁ hfit.2
        exact ⟨m', hm₁, by rw [hm₂, append_assoc]⟩
      · have hcat : m.cat q.m = none := by
          unfold Mbuf.cat
          rw [if_pos (Nat.lt_of_not_le h), hinc]
          dsimp only
          rw [hroom, if_pos (Nat.lt_of_not_le h')]
        rw [hcat]
        exact ⟨fun hfit => absurd hfit.1 h', fun _ => rfl⟩

/-- What tells the fragments of one datagram from those of another. -/
structure Key where
  p : UInt8
  id : UInt16
  src : UInt32
  dst : UInt32
  deriving DecidableEq, Repr

def IpHdr.key (ip : IpHdr) : Key := ⟨ip.ipP, ip.ipId, ip.ipSrc, ip.ipDst⟩

def Ipq.key (fp : Ipq) : Key := ⟨fp.ipqP, fp.ipqId, fp.ipqSrc, fp.ipqDst⟩

theorem Ipq.isFor_iff (fp : Ipq) (ip : IpHdr) : fp.isFor ip = true ↔ fp.key = ip.key := by
  simp only [Ipq.isFor, Ipq.key, IpHdr.key, Key.mk.injEq, Bool.and_eq_true, decide_eq_true_eq]
  grind

/-- `f` is a fragment of the datagram `k` with the payload `P`. -/
structure Frag.Of (k : Key) (P : List UInt8) (f : Frag) : Prop where
  ok : f.Ok
  key : f.ip.key = k
  carries : f.seg.Carries (P.getD · 0)
  stop : f.stop ≤ P.length
  more : f.ip.more = false ↔ f.stop = P.length

variable {k : Key} {P : List UInt8}

theorem Frag.Of.adj (h : f.Of k P) {i : ℕ} (hi : i = 0 ∨ i < f.m.data.length) : (f.adj i).Of k P := by
  have hok := h.ok.adj hi
  have hseg : (f.adj i).seg = { f.seg.trim i with tag := f.adj i } := rfl
  have hstop : (f.adj i).stop = f.stop := by
    have hlen := h.ok.len
    simp only [Frag.stop, Frag.adj]
    omega
  refine ⟨hok, h.key, ?_, hstop ▸ h.stop, hstop ▸ h.more⟩
  rw [hseg]
  exact h.carries.trim hi

/-- The fragments of a queue with one more, which goes behind those that begin no later. -/
def insertFrag (l : List Frag) (f : Frag) : List Frag :=
  (put ((l.takeWhile fun q => q.ip.ipOff ≤ f.ip.ipOff).map Frag.seg)
    ((l.dropWhile fun q => q.ip.ipOff ≤ f.ip.ipOff).map Frag.seg) f.seg).map Frag.ofSeg

theorem gap_frags (ho : Ordered (l.map Frag.seg)) (f : Frag) :
    Gap f.seg.pos ((l.takeWhile fun q => q.ip.ipOff ≤ f.ip.ipOff).map Frag.seg)
      ((l.dropWhile fun q => q.ip.ipOff ≤ f.ip.ipOff).map Frag.seg) := by
  have := ho.gap f.seg.pos
  rw [takeWhile_map, dropWhile_map] at this
  exact this

theorem map_seg_split (l : List Frag) (f : Frag) :
    (l.takeWhile fun q => q.ip.ipOff ≤ f.ip.ipOff).map Frag.seg ++
      (l.dropWhile fun q => q.ip.ipOff ≤ f.ip.ipOff).map Frag.seg = l.map Frag.seg := by
  rw [← map_append, takeWhile_append_dropWhile]

theorem mem_insertFrag (ho : Ordered (l.map Frag.seg)) (h : q ∈ insertFrag l f) :
    ∃ r, (r ∈ l ∨ r = f) ∧ ∃ i, (i = 0 ∨ i < r.m.data.length) ∧ q = r.adj i := by
  obtain ⟨g, hg, rfl⟩ := List.mem_map.mp h
  rw [← map_seg_split l f] at ho
  obtain ⟨r, hr, i, hi, rfl⟩ := mem_put ho (gap_frags (by rwa [← map_seg_split l f]) f) hg
  rw [map_seg_split, List.mem_map] at hr
  rcases hr with ⟨r, hr, rfl⟩ | rfl
  · exact ⟨r, .inl hr, i, hi, r.ofSeg_trim i⟩
  · exact ⟨f, .inr rfl, i, hi, f.ofSeg_trim i⟩

theorem map_seg_insertFrag (ho : Ordered (l.map Frag.seg)) (f : Frag) :
    (insertFrag l f).map Frag.seg =
      (put ((l.takeWhile fun q => q.ip.ipOff ≤ f.ip.ipOff).map Frag.seg)
        ((l.dropWhile fun q => q.ip.ipOff ≤ f.ip.ipOff).map Frag.seg) f.seg).map (Seg.retag Frag.ofSeg) := by
  unfold insertFrag
  rw [List.map_map]
  refine map_congr_left fun g hg => ?_
  have ho' := ho
  rw [← map_seg_split l f] at ho'
  obtain ⟨r, hr, i, -, rfl⟩ := mem_put ho' (gap_frags ho f) hg
  rw [map_seg_split, List.mem_map] at hr
  have hseg : ∀ r : Frag, (Frag.ofSeg (r.seg.trim i)).seg = Seg.retag Frag.ofSeg (r.seg.trim i) := by
    intro r
    unfold Seg.retag
    rw [Frag.ofSeg_trim]
    rfl
  rcases hr with ⟨r, -, rfl⟩ | rfl
  · exact hseg r
  · exact hseg f

theorem ordered_insertFrag (ho : Ordered (l.map Frag.seg)) (f : Frag) : Ordered ((insertFrag l f).map Frag.seg) := by
  rw [map_seg_insertFrag ho f, ordered_retag]
  have hgap := gap_frags ho f
  rw [← map_seg_split l f] at ho
  exact ho.put hgap

theorem cover_insertFrag (ho : Ordered (l.map Frag.seg)) (f : Frag) (p : ℕ) :
    Cover ((insertFrag l f).map Frag.seg) p ↔ Cover (l.map Frag.seg) p ∨ f.seg.pos ≤ p ∧ p < f.seg.stop := by
  rw [map_seg_insertFrag ho f, cover_retag]
  have hgap := gap_frags ho f
  rw [← map_seg_split l f] at ho ⊢
  exact mem_cover_put ho hgap p

/-- Fragments are complete exactly when they have every byte of the payload. -/
theorem completeFrags_eq (hof : ∀ q ∈ l, q.Of k P) (ho : Ordered (l.map Frag.seg)) (hne : l ≠ []) (n : ℕ) :
    completeFrags l = some n ↔ n = P.length ∧ ∀ p < P.length, Cover (l.map Frag.seg) p := by
  have hscan := fun n => scanFrags_eq (fun q hq => (hof q hq).ok) 0 n
  obtain ⟨last, hlast⟩ : ∃ last, l.getLast? = some last := ⟨_, List.getLast?_eq_some_getLast hne⟩
  have hmem := mem_of_getLast? hlast
  have hlast' := hof last hmem
  have hpos := hlast'.ok.pos
  have hstop := hlast'.ok.stop
  have hle : (take 0 (l.map Frag.seg)).2.1 ≤ P.length := by
    refine take_le (Nat.zero_le _) fun g hg => ?_
    obtain ⟨q, hq, rfl⟩ := List.mem_map.mp hg
    rw [(hof q hq).ok.stop]
    exact (hof q hq).stop
  obtain ⟨-, -, hsuf, hrest, hcov⟩ := take_spec (σ := (P.getD · 0)) (R := 0) ho (by
    intro g hg
    obtain ⟨q, hq, rfl⟩ := List.mem_map.mp hg
    exact (hof q hq).carries) (fun _ _ => Nat.zero_le _)
  unfold completeFrags
  rw [hlast]
  constructor
  · intro h
    cases hs : scanFrags 0 l with
    | none => simp [hs] at h
    | some next =>
      rw [hs] at h
      dsimp only at h
      split_ifs at h with hmore
      obtain rfl := Option.some.inj h
      obtain ⟨hnil, hnext⟩ := (hscan next).mp hs
      rw [hnext, hnil] at hcov
      rw [hnext] at hle
      -- the last fragment is the end of the datagram
      have hend : last.stop = P.length := hlast'.more.mp (by simpa using hmore)
      have hbyte : Cover (l.map Frag.seg) (P.length - 1) := by
        refine ⟨last.seg, List.mem_map_of_mem hmem, ?_⟩
        rw [hstop, ← hend, ← hstop]
        unfold Seg.stop Frag.seg
        dsimp only
        omega
      have hlt : P.length - 1 < next := by
        rcases (hcov _).mp hbyte with h | ⟨g, hg, -⟩
        · exact h.2
        · simp at hg
      have hn : next = P.length := by omega
      refine ⟨hn, fun p hp => (hcov p).mpr (.inl ⟨Nat.zero_le _, hn ▸ hp⟩)⟩
  · rintro ⟨rfl, hall⟩
    have hlen : 0 < P.length := by
      have := hlast'.stop
      rw [← hstop] at this
      unfold Seg.stop Frag.seg at this
      dsimp only at this
      omega
    -- the first byte behind a gap would be one that no fragment has
    have hnil : (take 0 (l.map Frag.seg)).2.2 = [] := by
      by_contra hne'
      obtain ⟨g, hg⟩ := exists_mem_of_ne_nil _ hne'
      have hg' := hrest g hg
      obtain ⟨q, hq, hqg⟩ := List.mem_map.mp (hsuf.subset hg)
      have hgP : g.pos < P.length := by
        have h₁ := (hof q hq).stop
        have h₂ := (hof q hq).ok.pos
        rw [← (hof q hq).ok.stop] at h₁
        rw [← hqg]
        unfold Seg.stop Frag.seg at h₁
        unfold Frag.seg
        dsimp only at h₁ ⊢
        omega
      rcases (hcov _).mp (hall _ (hg'.trans hgP)) with h | ⟨r, hr, h, -⟩
      · exact absurd h.2 (lt_irrefl _)
      · exact absurd (hrest r hr) (Nat.not_lt.mpr h)
    have hnext : (take 0 (l.map Frag.seg)).2.1 = P.length := by
      have hbyte := (hcov _).mp (hall (P.length - 1) (by omega))
      rw [hnil] at hbyte
      rcases hbyte with h | ⟨g, hg, -⟩
      · omega
      · simp at hg
    obtain ⟨g, hg, -, hg'⟩ := hall (P.length - 1) (by omega)
    have hend : last.ip.more = false := by
      have h₁ := ho.stop_le (by rw [List.getLast?_map, hlast]; rfl) hg
      have h₂ := hlast'.stop
      rw [hstop] at h₁
      exact hlast'.more.mpr (by omega)
    rw [(hscan P.length).mpr ⟨hnil, hnext⟩]
    simp [hend]

/-- The data of complete fragments is the payload. -/
theorem flatMap_frags (hof : ∀ q ∈ l, q.Of k P) (ho : Ordered (l.map Frag.seg)) (hne : l ≠ [])
    (hall : ∀ p < P.length, Cover (l.map Frag.seg) p) : l.flatMap (·.m.data) = P := by
  have hcomplete := (completeFrags_eq hof ho hne P.length).mpr ⟨rfl, hall⟩
  obtain ⟨hnil, hnext⟩ : (take 0 (l.map Frag.seg)).2.2 = [] ∧ (take 0 (l.map Frag.seg)).2.1 = P.length := by
    refine (scanFrags_eq (fun q hq => (hof q hq).ok) 0 P.length).mp ?_
    unfold completeFrags at hcomplete
    split at hcomplete
    · split_ifs at hcomplete
      simp_all
    · simp at hcomplete
  obtain ⟨-, hdata, -⟩ := take_spec (σ := (P.getD · 0)) (R := 0) ho (by
    intro g hg
    obtain ⟨q, hq, rfl⟩ := List.mem_map.mp hg
    exact (hof q hq).carries) (fun _ _ => Nat.zero_le _)
  have hflat : l.flatMap (·.m.data) = (l.map Frag.seg).flatMap Seg.data := by rw [flatMap_map]; rfl
  rw [hflat, ← take_data hnil, hdata, hnext]
  unfold slice
  apply ext_getElem
  · simp
  · intro i h₁ h₂
    simp [getD_eq_getElem?_getD, h₂]

/-- The fragments can be concatenated: the first one is not in an external buffer, and the others fit. -/
def JoinSafe : List Frag → Prop
  | [] => True
  | q :: l => q.m.ext = false ∧ CatFits q.m.freeroom (l.map (·.m.data.length))

instance : (l : List Frag) → Decidable (JoinSafe l)
  | [] => isTrue trivial
  | q :: l => inferInstanceAs (Decidable (q.m.ext = false ∧ CatFits q.m.freeroom (l.map (·.m.data.length))))

theorem joinFrags_eq (fp : Ipq) (n : ℕ) (hok : ∀ q ∈ l, q.Ok) (hne : l ≠ []) :
    (JoinSafe l → ∃ q ∈ l, joinFrags fp n l =
      some ⟨{ q.ip with ipLen := n, ipTos := q.ip.ipTos &&& 0xfe, ipSrc := fp.ipqSrc, ipDst := fp.ipqDst },
        l.flatMap (·.m.data)⟩ ∧ l.head? = some q) ∧
    (¬JoinSafe l → joinFrags fp n l = none) := by
  cases l with
  | nil => exact absurd rfl hne
  | cons q l =>
    obtain ⟨hfit, hover⟩ := catFrags_eq (l := l) (hok q (by simp)).room
    unfold joinFrags JoinSafe
    dsimp only
    constructor
    · rintro ⟨hext, hcat⟩
      obtain ⟨m', hm, hdata⟩ := hfit hcat
      refine ⟨q, by simp, ?_, rfl⟩
      rw [hm]
      simp [hext, hdata]
    · intro hnot
      by_cases hcat : CatFits q.m.freeroom (l.map (·.m.data.length))
      · have hext : q.m.ext = true := by simpa [hcat] using hnot
        obtain ⟨m', hm, -⟩ := hfit hcat
        rw [hm]
        simp [hext]
      · rw [hover hcat]
        rfl

/-- The memory of the fragments that `f` covers stays where it is. -/
def TrimSafe (l : List Frag) (f : Frag) : Prop := ∀ q ∈ l, f.ip.ipOff < q.ip.ipOff → q.stop ≤ f.stop → q.Stays

instance (l : List Frag) (f : Frag) : Decidable (TrimSafe l f) := inferInstanceAs (Decidable (∀ q ∈ l, _))

theorem trimSafe_iff (hok : ∀ q ∈ l, q.Ok) (ho : Ordered (l.map Frag.seg)) (f : Frag) :
    TrimSafe l f ↔ ∀ q ∈ covered f.stop (l.dropWhile fun q => q.ip.ipOff ≤ f.ip.ipOff), q.Stays := by
  have hgap := gap_frags ho f
  rw [← map_seg_split l f] at ho
  obtain ⟨-, hpost, -⟩ := pairwise_append.mp ho
  have hsplit : (l.takeWhile fun q => q.ip.ipOff ≤ f.ip.ipOff) ++ (l.dropWhile fun q => q.ip.ipOff ≤ f.ip.ipOff) = l :=
    takeWhile_append_dropWhile
  revert hsplit hgap hpost
  generalize (l.takeWhile fun q => q.ip.ipOff ≤ f.ip.ipOff) = pre
  generalize (l.dropWhile fun q => q.ip.ipOff ≤ f.ip.ipOff) = post
  rintro ⟨hgap₁, hgap₂⟩ hpost rfl
  have hokp : ∀ q ∈ post, q.Ok := fun q hq => hok q (by simp [hq])
  -- behind `f`, the fragments that it covers are the first ones
  have hcov : ∀ q, q ∈ covered f.stop post ↔ q ∈ post ∧ q.stop ≤ f.stop := by
    clear hok hgap₁ hgap₂ ho
    intro q
    unfold covered
    induction post with
    | nil => simp
    | cons r post ih =>
      obtain ⟨hr, hpost⟩ := pairwise_cons.mp hpost
      have ih := ih hpost fun q hq => hokp q (by simp [hq])
      by_cases h : r.stop ≤ f.stop
      · rw [takeWhile_cons_of_pos (by simpa using h), mem_cons, mem_cons, ih]
        constructor
        · rintro (rfl | h')
          · exact ⟨.inl rfl, h⟩
          · exact ⟨.inr h'.1, h'.2⟩
        · rintro ⟨rfl | h', h''⟩
          · exact .inl rfl
          · exact .inr ⟨h', h''⟩
      · rw [takeWhile_cons_of_neg (by simpa using h)]
        refine ⟨fun h' => by simp at h', ?_⟩
        rintro ⟨hq, hstop⟩
        rcases mem_cons.mp hq with rfl | hq
        · exact absurd hstop h
        · have h₁ := hr q.seg (List.mem_map_of_mem hq)
          have h₂ := (hokp q (by simp [hq])).stop
          have h₃ := (hokp r (by simp)).stop
          have h₄ : q.seg.pos ≤ q.seg.stop := Nat.le_add_right _ _
          omega
  unfold TrimSafe
  constructor
  · intro h q hq
    obtain ⟨hq, hstop⟩ := (hcov q).mp hq
    exact h q (by simp [hq]) (hgap₂ q.seg (List.mem_map_of_mem hq)) hstop
  · intro h q hq hoff hstop
    rcases mem_append.mp hq with hq | hq
    · exact absurd (hgap₁ q.seg (List.mem_map_of_mem hq)) (Nat.not_le.mpr hoff)
    · exact h q ((hcov q).mpr ⟨hq, hstop⟩)

/-- Up to the label `insert` the fragment is put into the queue, if memory allows it. -/
theorem ipReassQueue_eq {fp : Ipq} (hok : ∀ q ∈ fp.frags, q.Ok) (ho : Ordered (fp.frags.map Frag.seg)) (hf : f.Ok)
    (hnot : completeFrags fp.frags = none) :
    (TrimSafe fp.frags f → ipReassQueue fp f = finishFrags fp (insertFrag fp.frags f)) ∧
    (¬TrimSafe fp.frags f → ipReassQueue fp f = none) := by
  have hgap := gap_frags ho f
  have hsplit : (fp.frags.takeWhile fun q => q.ip.ipOff ≤ f.ip.ipOff) ++
      (fp.frags.dropWhile fun q => q.ip.ipOff ≤ f.ip.ipOff) = fp.frags := takeWhile_append_dropWhile
  rw [trimSafe_iff hok ho]
  rw [← map_seg_split fp.frags f] at ho
  unfold ipReassQueue insertFrag put
  dsimp only
  have hclip := @clipFrag_eq f (fp.frags.takeWhile fun q => q.ip.ipOff ≤ f.ip.ipOff)
    (fun q hq => hok q (hsplit ▸ mem_append_left _ hq)) hf
  obtain ⟨htrim, htrim'⟩ := @trimFrags_eq (fp.frags.dropWhile fun q => q.ip.ipOff ≤ f.ip.ipOff) f.stop
    fun q hq => hok q (hsplit ▸ mem_append_right _ hq)
  cases hc : clip ((fp.frags.takeWhile fun q => q.ip.ipOff ≤ f.ip.ipOff).map Frag.seg) f.seg with
  | none =>
    -- the fragment is dropped, and it covers nothing
    have hcover : covered f.stop (fp.frags.dropWhile fun q => q.ip.ipOff ≤ f.ip.ipOff) = [] := by
      unfold covered
      rw [takeWhile_eq_nil_iff]
      intro hpost hle
      have hq := head_mem (length_pos_iff.mp hpost)
      have hok' := hok _ (hsplit ▸ mem_append_right _ hq)
      have hpos := hok'.pos
      have hstop := hok'.stop
      unfold clip at hc
      cases hl : ((fp.frags.takeWhile fun q => q.ip.ipOff ≤ f.ip.ipOff).map Frag.seg).getLast? with
      | none => simp [hl] at hc
      | some p =>
        rw [hl] at hc
        dsimp only at hc
        split_ifs at hc with h₁ h₂
        have hlt := (pairwise_append.mp ho).2.2 p (mem_of_getLast? hl) _ (List.mem_map_of_mem hq)
        rw [hf.stop] at h₂
        rw [head_eq_getElem] at hlt hstop hpos
        have hle' : ((fp.frags.dropWhile fun q => q.ip.ipOff ≤ f.ip.ipOff)[0]).stop ≤ f.stop := by simpa using hle
        unfold Seg.stop Frag.seg at hstop
        unfold Frag.seg at hlt
        dsimp only at hstop hlt
        omega
    rw [hc] at hclip
    rw [hclip, hcover]
    dsimp only [map_none]
    rw [← map_append, hsplit, map_ofSeg_seg]
    refine ⟨fun _ => ?_, by simp⟩
    unfold finishFrags
    rw [hnot]
  | some g =>
    obtain ⟨i, hi, rfl, -, -⟩ := clip_some (pairwise_append.mp ho).1 hgap.pre hc
    have hadj := hf.adj hi
    have hstop : (f.seg.trim i).stop = f.stop := by rw [Seg.trim_stop hi, hf.stop]
    have hstop' : (f.adj i).stop = f.stop := by
      rw [← hadj.stop, ← hstop]
      rfl
    rw [hc] at hclip
    rw [hclip]
    dsimp only [map_some]
    rw [Frag.ofSeg_trim, hstop', hstop, map_append, map_ofSeg_seg, map_cons, Frag.ofSeg_trim]
    constructor
    · intro h
      rw [htrim h]
      rfl
    · intro h
      rw [htrim' h]
      rfl

/-- The header of the datagram `k` with the payload `P`. -/
structure IpHdr.Whole (k : Key) (P : List UInt8) (ip : IpHdr) : Prop where
  key : ip.key = k
  len : ip.ipLen = P.length
  off : ip.ipOff = 0
  more : ip.more = false

/-- From the label `insert` on, the datagram is delivered exactly when its fragments are complete. -/
theorem finishFrags_spec {fp : Ipq} (hkey : fp.key = k) (hof : ∀ q ∈ l, q.Of k P) (ho : Ordered (l.map Frag.seg))
    (hne : l ≠ []) :
    ((∀ p < P.length, Cover (l.map Frag.seg) p) →
      (JoinSafe l → ∃ ip, ip.Whole k P ∧ finishFrags fp l = some (some ⟨ip, P⟩, none)) ∧
      (¬JoinSafe l → finishFrags fp l = none)) ∧
    ((¬∀ p < P.length, Cover (l.map Frag.seg) p) →
      finishFrags fp l = some (none, some { fp with frags := l })) := by
  have hcomplete := completeFrags_eq hof ho hne
  obtain ⟨hjoin, hjoin'⟩ := joinFrags_eq fp P.length (fun q hq => (hof q hq).ok) hne
  unfold finishFrags
  constructor
  · intro hall
    have hsome := (hcomplete P.length).mpr ⟨rfl, hall⟩
    rw [hsome]
    dsimp only
    refine ⟨fun hsafe => ?_, fun hsafe => by rw [hjoin' hsafe]; rfl⟩
    obtain ⟨q, hq, heq, hhead⟩ := hjoin hsafe
    rw [flatMap_frags hof ho hne hall] at heq
    have hoff : q.ip.ipOff = 0 := by
      by_contra hoff
      obtain ⟨l', rfl⟩ := List.head?_eq_some_iff.mp hhead
      simp [completeFrags, scanFrags, hoff] at hsome
    have hqk := (hof q hq).key
    refine ⟨{ q.ip with
        ipLen := P.length, ipTos := q.ip.ipTos &&& 0xfe, ipSrc := fp.ipqSrc, ipDst := fp.ipqDst },
      ⟨?_, rfl, hoff, ?_⟩, by rw [heq]; rfl⟩
    · simp only [IpHdr.key, Ipq.key, Key.mk.injEq, ← hkey] at hqk ⊢
      exact ⟨hqk.1, hqk.2.1, trivial, trivial⟩
    · have hzero : q.ip.ipTos &&& 0xfe &&& 1 = 0 := by
        rw [UInt8.and_assoc, show (0xfe &&& 1 : UInt8) = 0 from rfl, UInt8.and_zero]
      simp [IpHdr.more, hzero]
  · intro hall
    have hnone : completeFrags l = none := by
      rw [eq_none_iff_forall_ne_some]
      exact fun n hn => hall ((hcomplete n).mp hn).2
    rw [hnone]

/-- A queue that holds the bytes `rec` of the datagram `k` with the payload `P`. -/
structure Queue (k : Key) (P : List UInt8) (rec : ℕ → Prop) (fp : Ipq) : Prop where
  key : fp.key = k
  ne : fp.frags ≠ []
  of : ∀ f ∈ fp.frags, f.Of k P
  ordered : Ordered (fp.frags.map Frag.seg)
  cover : ∀ p, Cover (fp.frags.map Frag.seg) p ↔ rec p

/-- The bytes that are there with one more fragment. -/
def Frag.add (f : Frag) (rec : ℕ → Prop) (p : ℕ) : Prop := rec p ∨ f.ip.ipOff ≤ p ∧ p < f.stop

/-- **One queue, one fragment.** The call is without undefined behaviour exactly when the buffers are `TrimSafe` and, if
the fragment completes the datagram, `JoinSafe`; then a datagram is returned exactly if it is complete. -/
theorem ipReassQueue_spec {rec : ℕ → Prop} {fp : Ipq} (hq : Queue k P rec fp) (hnot : ¬∀ p < P.length, rec p)
    (hf : f.Of k P) :
    (¬TrimSafe fp.frags f → ipReassQueue fp f = none) ∧
    (TrimSafe fp.frags f → (∀ p < P.length, f.add rec p) →
      (JoinSafe (insertFrag fp.frags f) → ∃ ip, ip.Whole k P ∧ ipReassQueue fp f = some (some ⟨ip, P⟩, none)) ∧
      (¬JoinSafe (insertFrag fp.frags f) → ipReassQueue fp f = none)) ∧
    (TrimSafe fp.frags f → (¬∀ p < P.length, f.add rec p) →
      ∃ fp', ipReassQueue fp f = some (none, some fp') ∧ Queue k P (f.add rec) fp') := by
  have hincomplete : completeFrags fp.frags = none := by
    rw [eq_none_iff_forall_ne_some]
    intro n hn
    exact hnot fun p hp => (hq.cover p).mp (((completeFrags_eq hq.of hq.ordered hq.ne n).mp hn).2 p hp)
  obtain ⟨heq, hbad⟩ := ipReassQueue_eq (fun q hq' => (hq.of q hq').ok) hq.ordered hf.ok hincomplete
  have hof : ∀ q ∈ insertFrag fp.frags f, q.Of k P := by
    intro q hq'
    obtain ⟨r, hr, i, hi, rfl⟩ := mem_insertFrag hq.ordered hq'
    rcases hr with hr | rfl
    · exact (hq.of r hr).adj hi
    · exact hf.adj hi
  have hne : insertFrag fp.frags f ≠ [] := by
    unfold insertFrag
    rw [Ne, map_eq_nil_iff]
    exact put_ne_nil _ _ _
  have hcover : ∀ p, Cover ((insertFrag fp.frags f).map Frag.seg) p ↔ f.add rec p := by
    intro p
    rw [cover_insertFrag hq.ordered, hq.cover, hf.ok.stop]
    rfl
  have hord := ordered_insertFrag hq.ordered f
  obtain ⟨hwhole, hpart⟩ := finishFrags_spec hq.key hof hord hne
  simp only [hcover] at hwhole hpart
  refine ⟨hbad, fun hsafe hall => ?_, fun hsafe hall => ?_⟩
  · rw [heq hsafe]
    exact hwhole hall
  · exact ⟨{ fp with frags := insertFrag fp.frags f }, by rw [heq hsafe, hpart hall],
      hq.key, hne, hof, hord, hcover⟩

end Emulator.Slirp.Frags
