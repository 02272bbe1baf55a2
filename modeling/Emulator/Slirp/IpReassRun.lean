import Emulator.Slirp.IpReassInv

/-!
# IP reassembly over any number of fragments

Fragments of several datagrams arrive in any order. `rec k` are the bytes of the datagram `k` that have arrived since it
was last delivered.

* `Good.fragment`: a fragment does to the queue of its datagram what `ipReassQueue_spec` says, and nothing to the
  others;
* `ipReass_run`: in every state that is reached, a fragment that completes a datagram delivers it, and no other
  fragment delivers anything.

This holds as long as the buffers are `Safe`: a fragment whose memory goes away with its buffer is not covered by
another one, the first fragment of a complete datagram is not in an external buffer, the others fit behind it, and
there is a buffer for each new queue.
-/

namespace Emulator.Slirp.Frags

open Reassembly List

variable {σ : Key → List UInt8} {rec : Key → ℕ → Prop} {ipq : List Ipq}

/-- A fragment of the datagram `key`: the part of the payload from `pos` on, and the buffer it comes in. -/
structure Fragment where
  key : Key
  pos : ℕ
  len : ℕ
  more : Bool
  df : Bool
  tos : UInt8
  header : List UInt8
  ext : Bool
  dofree : Bool
  size : ℕ
  off : ℕ
  deriving DecidableEq, Repr

namespace Fragment

def ip (a : Fragment) : IpHdr where
  ipHl := a.header.length / 4
  ipTos := a.tos
  ipLen := a.header.length + a.len
  ipId := a.key.id
  ipOff := a.pos / 8 + (if a.more then 0x2000 else 0) + if a.df then 0x4000 else 0
  ipP := a.key.p
  ipSrc := a.key.src
  ipDst := a.key.dst

def m (a : Fragment) (P : List UInt8) : Mbuf where
  ext := a.ext
  dofree := a.dofree
  size := a.size
  off := a.off
  data := a.header ++ slice (P.getD · 0) a.pos (a.pos + a.len)

/-- The header as `ip_input` changes it. -/
def fragIp (a : Fragment) : IpHdr :=
  { a.ip with ipLen := a.len, ipTos := if a.more then a.tos ||| 1 else a.tos &&& 0xfe, ipOff := a.pos }

/-- The fragment as `ip_reass` queues it. -/
def frag (a : Fragment) (P : List UInt8) : Frag := ⟨a.fragIp, (a.m P).adj a.header.length⟩

/-- What IP allows: a datagram of at most 65535 bytes is split at multiples of eight. -/
structure Allowed (a : Fragment) (P : List UInt8) : Prop where
  header : 4 ∣ a.header.length
  total : a.header.length + P.length ≤ 65535
  offset : 8 ∣ a.pos
  len : 0 < a.len
  stop : a.pos + a.len ≤ P.length
  more : a.more = false ↔ a.pos + a.len = P.length
  part : a.pos ≠ 0 ∨ a.more = true
  room : a.off + a.header.length + a.len ≤ a.size

def add (a : Fragment) (rec : ℕ → Prop) (p : ℕ) : Prop := rec p ∨ a.pos ≤ p ∧ p < a.pos + a.len

/-- With this fragment, all of the payload is there. -/
def Completes (a : Fragment) (P : List UInt8) (rec : ℕ → Prop) : Prop := ∀ p < P.length, a.add rec p

variable {a : Fragment} {P : List UInt8}

theorem more_fragIp (a : Fragment) : a.fragIp.more = a.more := by
  cases h : a.more with
  | false =>
    have hzero : a.tos &&& 0xfe &&& 1 = 0 := by
      rw [UInt8.and_assoc, show (0xfe &&& 1 : UInt8) = 0 from rfl, UInt8.and_zero]
    simp [fragIp, IpHdr.more, h, hzero]
  | true =>
    have hone : (a.tos ||| 1) &&& 1 = 1 := by
      rw [← UInt8.toBitVec_inj]
      ext i hi
      have : i = 0 ∨ 1 ≤ i := by omega
      simp
      grind
    simp [fragIp, IpHdr.more, h, hone]

theorem Allowed.frag_of (h : a.Allowed P) : (a.frag P).Of a.key P := by
  have hdata : (a.frag P).m.data = slice (P.getD · 0) a.pos (a.pos + a.len) := by
    simp [frag, m, Mbuf.adj]
  have hlen : (a.frag P).m.data.length = a.len := by rw [hdata, length_slice]; omega
  have hstop : (a.frag P).stop = a.pos + a.len := rfl
  refine ⟨⟨hlen.symm, hlen ▸ h.len, ?_⟩, rfl, ?_, hstop ▸ h.stop, ?_⟩
  · have := h.room
    rw [hlen]
    exact this
  · unfold Seg.Carries
    have hseg : (a.frag P).seg.stop = a.pos + a.len := by
      show a.pos + (a.frag P).m.data.length = _
      rw [hlen]
    rw [hseg]
    exact hdata
  · rw [hstop]
    show a.fragIp.more = false ↔ _
    rw [more_fragIp]
    exact h.more

/-- `ip_input` gives the fragment to `ip_reass`. -/
theorem Allowed.ipInput_eq (h : a.Allowed P) (buffer : Bool) (ipq : List Ipq) :
    ipInput buffer ipq a.ip (a.m P) = ipReass buffer ipq a.fragIp (a.m P) := by
  have hpos : a.pos < 65536 := by
    have h₁ := h.stop
    have h₂ := h.total
    omega
  have hoff := h.offset
  -- a fragment: the offset or `IP_MF` is set
  have hmf : a.ip.ipOff.testBit 13 = a.more := by
    rw [Nat.testBit_eq_decide_div_mod_eq]
    unfold ip
    dsimp only
    cases a.more <;> cases a.df <;> simp <;> omega
  have hfrag : a.ip.ipOff &&& (0xffff - IP_DF) ≠ 0 := by
    intro hzero
    have hlow : a.ip.ipOff % 2 ^ 13 = 0 := by
      rw [← Nat.and_two_pow_sub_one_eq_mod, show (2 ^ 13 - 1 : ℕ) = (0xffff - IP_DF) &&& (2 ^ 13 - 1) from rfl,
        ← Nat.and_assoc, hzero, Nat.zero_and]
    have hbit : a.ip.ipOff.testBit 13 = false := by
      have := congrArg (Nat.testBit · 13) hzero
      rw [Nat.zero_testBit, Nat.testBit_and, show (0xffff - IP_DF).testBit 13 = true from rfl, Bool.and_true] at this
      exact this
    rw [hmf] at hbit
    rcases h.part with hp | hp
    · have hunits : a.ip.ipOff % 2 ^ 13 = a.pos / 8 := by
        unfold ip
        dsimp only
        cases a.more <;> cases a.df <;> simp <;> omega
      omega
    · rw [hbit] at hp
      cases hp
  have hbytes : a.ip.ipOff * 8 % 65536 = a.pos := by
    unfold ip
    dsimp only
    cases a.more <;> cases a.df <;> simp <;> omega
  have hhl : a.ip.ipHl * 4 = a.header.length := Nat.div_mul_cancel h.header
  have hlen : a.ip.ipLen - a.ip.ipHl * 4 = a.len := by
    rw [hhl]
    exact Nat.add_sub_cancel_left _ _
  have hpart : a.fragIp.more = true ∨ a.fragIp.ipOff ≠ 0 := by
    rw [more_fragIp]
    exact h.part.symm
  unfold ipInput
  rw [if_pos hfrag]
  simp only [hlen, hmf, hbytes]
  exact if_pos hpart

/-- One fragment is never a whole datagram. -/
theorem Allowed.not_completes (h : a.Allowed P) {rec : ℕ → Prop} (hrec : ∀ p, ¬rec p) : ¬a.Completes P rec := by
  have hlen := h.len
  have hstop := h.stop
  intro hall
  rcases h.part with hp | hp
  · rcases hall 0 (by omega) with h' | h'
    · exact hrec 0 h'
    · omega
  · have hne : a.pos + a.len ≠ P.length := by
      intro heq
      have := h.more.mpr heq
      rw [hp] at this
      cases this
    rcases hall (P.length - 1) (by omega) with h' | h'
    · exact hrec _ h'
    · omega

end Fragment

/-- The queues hold what has arrived, each of them a part of a datagram of its own. -/
structure Good (σ : Key → List UInt8) (rec : Key → ℕ → Prop) (ipq : List Ipq) : Prop where
  nodup : (ipq.map Ipq.key).Nodup
  queue : ∀ fp ∈ ipq, Queue fp.key (σ fp.key) (rec fp.key) fp
  incomplete : ∀ fp ∈ ipq, ¬∀ p < (σ fp.key).length, rec fp.key p
  absent : ∀ k ∉ ipq.map Ipq.key, ∀ p, ¬rec k p

/-- The buffers allow the fragment `a`; `buffer` tells whether there is one for a new queue. -/
structure Safe (σ : Key → List UInt8) (rec : Key → ℕ → Prop) (buffer : Bool) (ipq : List Ipq) (a : Fragment) :
    Prop where
  new : a.key ∉ ipq.map Ipq.key → buffer = true
  trim : ∀ fp ∈ ipq, fp.key = a.key → TrimSafe fp.frags (a.frag (σ a.key))
  join : ∀ fp ∈ ipq, fp.key = a.key → a.Completes (σ a.key) (rec a.key) →
    JoinSafe (insertFrag fp.frags (a.frag (σ a.key)))

/-- What has arrived after the fragment: if it completes its datagram, that begins anew. -/
def Fragment.after (a : Fragment) (σ : Key → List UInt8) (rec : Key → ℕ → Prop) (k : Key) (p : ℕ) : Prop :=
  if k = a.key then ¬a.Completes (σ k) (rec k) ∧ a.add (rec k) p else rec k p

variable {a : Fragment} {buffer : Bool} {fp : Ipq} {ip : IpHdr}

/-- The first queue for the fragment is the only one. -/
theorem split_ipq (hnodup : (ipq.map Ipq.key).Nodup) (hfp : fp ∈ ipq) (hkey : fp.key = ip.key) :
    ∃ pre post, ipq = pre ++ fp :: post ∧ (∀ q ∈ pre ++ post, q.key ≠ ip.key) ∧
      (ipq.takeWhile fun q => !q.isFor ip) = pre ∧ (ipq.dropWhile fun q => !q.isFor ip) = fp :: post := by
  obtain ⟨pre, post, rfl⟩ := append_of_mem hfp
  have hother : ∀ q ∈ pre ++ post, q.key ≠ ip.key := by
    rw [map_append, map_cons, nodup_middle, nodup_cons, ← map_append] at hnodup
    intro q hq heq
    exact hnodup.1 (hkey ▸ heq ▸ mem_map_of_mem hq)
  have hpre : ∀ q ∈ pre, (!q.isFor ip) = true := by
    intro q hq
    rw [Bool.not_eq_true', ← Bool.not_eq_true, Ipq.isFor_iff]
    exact hother q (mem_append_left _ hq)
  have hstop : ¬(!fp.isFor ip) = true := by
    rw [Bool.not_eq_true', Bool.not_eq_false, Ipq.isFor_iff]
    exact hkey
  refine ⟨pre, post, rfl, hother, ?_, ?_⟩
  · rw [takeWhile_append_of_pos hpre, takeWhile_cons_of_neg (by exact hstop), append_nil]
  · rw [dropWhile_append_of_pos hpre, dropWhile_cons_of_neg (by exact hstop)]

theorem no_queue (h : ip.key ∉ ipq.map Ipq.key) : (ipq.dropWhile fun q => !q.isFor ip) = [] := by
  rw [dropWhile_eq_nil_iff]
  intro q hq
  rw [Bool.not_eq_true', ← Bool.not_eq_true, Ipq.isFor_iff]
  exact fun heq => h (heq ▸ mem_map_of_mem hq)

theorem Fragment.after_other {k : Key} (h : k ≠ a.key) : a.after σ rec k = rec k := by
  funext p
  rw [Fragment.after, if_neg h]

theorem Fragment.after_self (a : Fragment) (p : ℕ) :
    a.after σ rec a.key p ↔ ¬a.Completes (σ a.key) (rec a.key) ∧ a.add (rec a.key) p := by
  rw [Fragment.after, if_pos rfl]

/-- The datagram, or that there is none, and the queues of the other datagrams as they were. -/
structure Delivered (σ : Key → List UInt8) (rec : Key → ℕ → Prop) (ipq : List Ipq) (a : Fragment)
    (packet : Option Packet) (ipq' : List Ipq) : Prop where
  whole : a.Completes (σ a.key) (rec a.key) →
    (∃ ip, ip.Whole a.key (σ a.key) ∧ packet = some ⟨ip, σ a.key⟩) ∧ a.key ∉ ipq'.map Ipq.key
  part : ¬a.Completes (σ a.key) (rec a.key) → packet = none
  others : ipq'.filter (fun fp => fp.key ≠ a.key) = ipq.filter (fun fp => fp.key ≠ a.key)

/-- What becomes of the one queue `q` for the fragment, if there is one, is `q'`. -/
theorem Good.change {pre post : List Ipq} {q q' : Option Ipq} (H : Good σ rec (pre ++ q.toList ++ post))
    (hother : ∀ fp ∈ pre ++ post, fp.key ≠ a.key) (hkey : ∀ fp, q = some fp → fp.key = a.key)
    (hsome : ∀ fp, q' = some fp →
      ¬a.Completes (σ a.key) (rec a.key) ∧ Queue a.key (σ a.key) (a.add (rec a.key)) fp)
    (hnone : q' = none → a.Completes (σ a.key) (rec a.key)) :
    Good σ (a.after σ rec) (pre ++ q'.toList ++ post) := by
  have hsub : (pre ++ post).Sublist (pre ++ q.toList ++ post) := by
    rw [append_assoc]
    exact (List.Sublist.refl pre).append (sublist_append_right _ _)
  have hmem : ∀ fp ∈ pre ++ q'.toList ++ post, fp ∈ pre ++ post ∨ q' = some fp := by
    intro fp hfp
    simp only [mem_append, Option.mem_toList] at hfp ⊢
    tauto
  refine ⟨?_, ?_, ?_, ?_⟩
  · have hnodup := H.nodup.sublist (hsub.map Ipq.key)
    cases q' with
    | none => simpa using hnodup
    | some fp =>
      rw [Option.toList_some, append_assoc, singleton_append, map_append, map_cons,
        nodup_middle, nodup_cons, ← map_append]
      refine ⟨?_, hnodup⟩
      rw [(hsome fp rfl).2.key]
      intro hk
      obtain ⟨r, hr, hkey⟩ := mem_map.mp hk
      exact hother r hr hkey
  · intro fp hfp
    rcases hmem fp hfp with h | h
    · rw [Fragment.after_other (hother fp h)]
      exact H.queue fp (hsub.subset h)
    · obtain ⟨hpart, hq⟩ := hsome fp h
      rw [hq.key]
      refine ⟨hq.key, hq.ne, hq.of, hq.ordered, fun p => ?_⟩
      rw [hq.cover, a.after_self]
      exact ⟨fun h => ⟨hpart, h⟩, fun h => h.2⟩
  · intro fp hfp
    rcases hmem fp hfp with h | h
    · rw [Fragment.after_other (hother fp h)]
      exact H.incomplete fp (hsub.subset h)
    · obtain ⟨hpart, hq⟩ := hsome fp h
      rw [hq.key]
      exact fun hall => hpart fun p hp => ((a.after_self p).mp (hall p hp)).2
  · intro k hk p
    by_cases hka : k = a.key
    · subst hka
      rw [a.after_self]
      cases q' with
      | none => exact fun h => h.1 (hnone rfl)
      | some fp =>
        -- the queue has this key
        refine absurd (mem_map.mpr ⟨fp, by simp, ?_⟩) hk
        exact (hsome fp rfl).2.key
    · rw [Fragment.after_other hka]
      refine H.absent k (fun hmem' => ?_) p
      obtain ⟨fp, hfp, rfl⟩ := mem_map.mp hmem'
      simp only [mem_append, Option.mem_toList, or_assoc] at hfp
      rcases hfp with h | h | h
      · exact hk (mem_map_of_mem (by simp [h]))
      · exact hka (hkey fp h)
      · exact hk (mem_map_of_mem (by simp [h]))

theorem filter_other {pre post : List Ipq} {q : Option Ipq} {k : Key} (hother : ∀ fp ∈ pre ++ post, fp.key ≠ k)
    (hkey : ∀ fp, q = some fp → fp.key = k) :
    (pre ++ q.toList ++ post).filter (fun fp => fp.key ≠ k) = pre ++ post := by
  have hq : q.toList.filter (fun fp => fp.key ≠ k) = [] := by
    rw [filter_eq_nil_iff]
    intro fp hfp
    simpa using hkey fp (by simpa using hfp)
  have hself : (pre ++ post).filter (fun fp => fp.key ≠ k) = pre ++ post :=
    filter_eq_self.mpr fun fp hfp => by simpa using hother fp hfp
  rw [filter_append, filter_append, hq, append_nil, ← filter_append, hself]

/-- The first fragment of a datagram makes a queue. -/
theorem Good.fragment_new (H : Good σ rec ipq) (ha : a.Allowed (σ a.key)) (hnew : a.key ∉ ipq.map Ipq.key) :
    (∃ packet ipq', ipInput true ipq a.ip (a.m (σ a.key)) = some (packet, ipq') ∧
      Delivered σ rec ipq a packet ipq' ∧ Good σ (a.after σ rec) ipq') ∧
    ipInput false ipq a.ip (a.m (σ a.key)) = some (none, ipq) := by
  have hof := ha.frag_of
  have hnot := ha.not_completes (H.absent a.key hnew)
  have hother : ∀ fp ∈ [] ++ ipq, fp.key ≠ a.key := fun fp hfp heq => hnew (heq ▸ mem_map_of_mem hfp)
  have hhl : a.fragIp.ipHl * 4 = a.header.length := Nat.div_mul_cancel ha.header
  obtain ⟨fp, hfp⟩ : ∃ fp, fp = { newQueue (a.frag (σ a.key)) with frags := [a.frag (σ a.key)] } := ⟨_, rfl⟩
  have hkey : fp.key = a.key := by rw [hfp]; rfl
  have hfrags : fp.frags = [a.frag (σ a.key)] := by rw [hfp]
  have hcover : ∀ p, Cover ([a.frag (σ a.key)].map Frag.seg) p ↔ a.add (rec a.key) p := by
    intro p
    have hstop : (a.frag (σ a.key)).seg.stop = a.pos + a.len := hof.ok.stop
    unfold Cover Fragment.add
    simp only [map_cons, map_nil, mem_singleton, exists_eq_left, hstop]
    exact ⟨.inr, fun h => h.resolve_left (H.absent a.key hnew p)⟩
  have hq : Queue a.key (σ a.key) (a.add (rec a.key)) fp := by
    refine ⟨hkey, by simp [hfrags], by simpa [hfrags] using hof, by simp [hfrags, Ordered], fun p => ?_⟩
    rw [hfrags]
    exact hcover p
  obtain ⟨-, hpart⟩ := @finishFrags_spec [a.frag (σ a.key)] a.key _ (newQueue (a.frag (σ a.key)))
    rfl (by simpa using hof) (by simp [Ordered]) (by simp)
  simp only [hcover] at hpart
  have hstep : ∀ buffer, ipInput buffer ipq a.ip (a.m (σ a.key)) =
      if buffer then some (none, fp :: ipq) else some (none, ipq) := by
    intro buffer
    rw [ha.ipInput_eq]
    unfold ipReass
    dsimp only
    rw [no_queue (show a.fragIp.key ∉ _ from hnew), hhl]
    dsimp only
    cases buffer with
    | false => rfl
    | true =>
      show (finishFrags (newQueue (a.frag (σ a.key))) [a.frag (σ a.key)]).bind _ = _
      rw [hpart hnot, hfp]
      rfl
  refine ⟨⟨none, fp :: ipq, hstep true, ⟨fun h => absurd h hnot, fun _ => rfl, ?_⟩, ?_⟩, hstep false⟩
  · have h₁ := filter_other (q := some fp) hother (fun r hr => by rw [← Option.some.inj hr, hkey])
    have h₂ := filter_other (q := none) hother (by simp)
    exact h₁.trans h₂.symm
  · refine @Good.change _ _ _ [] _ none (some fp) H hother (by simp) ?_ (by simp)
    intro r hr
    exact ⟨hnot, Option.some.inj hr ▸ hq⟩

/-- A further fragment goes to the queue of its datagram. -/
theorem Good.fragment_old (H : Good σ rec ipq) (ha : a.Allowed (σ a.key)) (buffer : Bool) (hfp : fp ∈ ipq)
    (hkey : fp.key = a.key) :
    (Safe σ rec buffer ipq a → ∃ packet ipq', ipInput buffer ipq a.ip (a.m (σ a.key)) = some (packet, ipq') ∧
      Delivered σ rec ipq a packet ipq' ∧ Good σ (a.after σ rec) ipq') ∧
    (¬Safe σ rec buffer ipq a → ipInput buffer ipq a.ip (a.m (σ a.key)) = none) := by
  have hhl : a.fragIp.ipHl * 4 = a.header.length := Nat.div_mul_cancel ha.header
  obtain ⟨pre, post, hsplit, hother, htake, hdrop⟩ := @split_ipq _ _ a.fragIp H.nodup hfp hkey
  have hother : ∀ r ∈ pre ++ post, r.key ≠ a.key := hother
  have hstep : ipInput buffer ipq a.ip (a.m (σ a.key)) =
      (ipReassQueue fp (a.frag (σ a.key))).map fun r => (r.1, pre ++ r.2.toList ++ post) := by
    rw [ha.ipInput_eq]
    unfold ipReass
    dsimp only
    rw [hdrop, htake, hhl]
    show (ipReassQueue fp (a.frag (σ a.key))).bind _ = _
    cases ipReassQueue fp (a.frag (σ a.key)) <;> rfl
  have hq := H.queue fp hfp
  have hinc := H.incomplete fp hfp
  rw [hkey] at hq hinc
  obtain ⟨htrim, hwhole, hpart⟩ := ipReassQueue_spec hq hinc ha.frag_of
  have hadd : (a.frag (σ a.key)).add (rec a.key) = a.add (rec a.key) := rfl
  rw [hadd] at hwhole hpart
  have hipq : ipq = pre ++ (some fp).toList ++ post := by simp [hsplit]
  have hfilter : ∀ q' : Option Ipq, (∀ r, q' = some r → r.key = a.key) →
      (pre ++ q'.toList ++ post).filter (fun fp => fp.key ≠ a.key) = ipq.filter (fun fp => fp.key ≠ a.key) := by
    intro q' hq'
    rw [hipq, filter_other hother hq', filter_other hother (fun r hr => by rw [← Option.some.inj hr, hkey])]
  have hsafe : Safe σ rec buffer ipq a ↔ TrimSafe fp.frags (a.frag (σ a.key)) ∧
      (a.Completes (σ a.key) (rec a.key) → JoinSafe (insertFrag fp.frags (a.frag (σ a.key)))) := by
    have hone : ∀ r ∈ ipq, r.key = a.key → r = fp := by
      intro r hr hrk
      rw [hipq] at hr
      simp only [mem_append, Option.mem_toList, Option.some.injEq, or_assoc] at hr
      rcases hr with h | h | h
      · exact absurd hrk (hother r (by simp [h]))
      · exact h.symm
      · exact absurd hrk (hother r (by simp [h]))
    constructor
    · exact fun h => ⟨h.trim fp hfp hkey, h.join fp hfp hkey⟩
    · rintro ⟨h₁, h₂⟩
      refine ⟨fun hnew => absurd (hkey ▸ mem_map_of_mem hfp) hnew, ?_, ?_⟩
      · intro r hr hrk
        rwa [hone r hr hrk]
      · intro r hr hrk
        rwa [hone r hr hrk]
  rw [hsafe, hstep]
  rw [hipq] at H
  have hsome : ∀ r, some fp = some r → r.key = a.key := fun r hr => by rw [← Option.some.inj hr, hkey]
  constructor
  · rintro ⟨h₁, h₂⟩
    by_cases hall : a.Completes (σ a.key) (rec a.key)
    · obtain ⟨ip, hip, heq⟩ := (hwhole h₁ hall).1 (h₂ hall)
      refine ⟨some ⟨ip, σ a.key⟩, pre ++ (none : Option Ipq).toList ++ post, by rw [heq]; rfl,
        ⟨fun _ => ⟨⟨ip, hip, rfl⟩, ?_⟩, fun h => absurd hall h, hfilter none (by simp)⟩,
        H.change hother hsome (by simp) fun _ => hall⟩
      intro hmem
      obtain ⟨r, hr, hrk⟩ := mem_map.mp hmem
      exact hother r (by simpa using hr) hrk
    · obtain ⟨fp', heq, hq'⟩ := hpart h₁ hall
      refine ⟨none, pre ++ (some fp').toList ++ post, by rw [heq]; rfl,
        ⟨fun h => absurd h hall, fun _ => rfl, hfilter (some fp') fun r hr => by rw [← Option.some.inj hr, hq'.key]⟩,
        H.change hother hsome ?_ (by simp)⟩
      intro r hr
      exact ⟨hall, Option.some.inj hr ▸ hq'⟩
  · intro hnot
    by_cases h₁ : TrimSafe fp.frags (a.frag (σ a.key))
    · by_cases hall : a.Completes (σ a.key) (rec a.key)
      · have hjoin : ¬JoinSafe (insertFrag fp.frags (a.frag (σ a.key))) := fun hj => hnot ⟨h₁, fun _ => hj⟩
        rw [(hwhole h₁ hall).2 hjoin]
        rfl
      · exact absurd ⟨h₁, fun h => absurd h hall⟩ hnot
    · rw [htrim h₁]
      rfl

/-- What has arrived, and the queues, after any number of fragments of the datagrams `σ`. -/
inductive Reach (σ : Key → List UInt8) : (Key → ℕ → Prop) → List Ipq → Prop
  | initial : Reach σ (fun _ _ => False) []
  | fragment {rec ipq ipq'} (buffer : Bool) (a : Fragment) (packet : Option Packet) (h : Reach σ rec ipq)
      (ha : a.Allowed (σ a.key)) (hsafe : Safe σ rec buffer ipq a)
      (hstep : ipInput buffer ipq a.ip (a.m (σ a.key)) = some (packet, ipq')) : Reach σ (a.after σ rec) ipq'

theorem Good.fragment (H : Good σ rec ipq) (ha : a.Allowed (σ a.key)) (hsafe : Safe σ rec buffer ipq a) :
    ∃ packet ipq', ipInput buffer ipq a.ip (a.m (σ a.key)) = some (packet, ipq') ∧
      Delivered σ rec ipq a packet ipq' ∧ Good σ (a.after σ rec) ipq' := by
  by_cases hk : a.key ∈ ipq.map Ipq.key
  · obtain ⟨fp, hfp, hkey⟩ := mem_map.mp hk
    exact (H.fragment_old ha buffer hfp hkey).1 hsafe
  · obtain rfl := hsafe.new hk
    exact (H.fragment_new ha hk).1

theorem Reach.good (h : Reach σ rec ipq) : Good σ rec ipq := by
  induction h with
  | initial => exact ⟨by simp, by simp, by simp, by simp⟩
  | fragment buffer a packet h ha hsafe hstep ih =>
    obtain ⟨packet', ipq', hstep', -, H⟩ := ih.fragment ha hsafe
    rw [hstep] at hstep'
    obtain ⟨-, rfl⟩ := Prod.mk.inj (Option.some.inj hstep')
    exact H

/-- **Complete datagrams, and nothing else, are delivered.** In every state that fragments in safe buffers lead to, the
fragment that completes a datagram delivers its payload, and the queue is gone; any other fragment delivers nothing; and
the queues of the other datagrams stay as they are. -/
theorem ipReass_run (h : Reach σ rec ipq) (ha : a.Allowed (σ a.key)) (hsafe : Safe σ rec buffer ipq a) :
    ∃ packet ipq', ipInput buffer ipq a.ip (a.m (σ a.key)) = some (packet, ipq') ∧
      Delivered σ rec ipq a packet ipq' := by
  obtain ⟨packet, ipq', hstep, hdelivered, -⟩ := h.good.fragment ha hsafe
  exact ⟨packet, ipq', hstep, hdelivered⟩

def sampleKey : Key := ⟨17, 1, 0x0a00020f, 0x0a000203⟩

def samplePayload : List UInt8 := List.replicate 24 7

def sampleFragment (pos len : ℕ) (more dofree : Bool) : Fragment where
  key := sampleKey
  pos := pos
  len := len
  more := more
  df := false
  tos := 0
  header := List.replicate 20 0
  ext := false
  dofree := dofree
  size := 1604
  off := 18

def sampleQueue (f : Fragment) : List Ipq := [⟨17, 1, 0x0a00020f, 0x0a000203, [f.frag samplePayload]⟩]

theorem sampleFragment_allowed {pos len : ℕ} {more : Bool} (dofree : Bool) (hpos : 8 ∣ pos) (hlen : 0 < len)
    (hstop : pos + len ≤ 24) (hmore : more = false ↔ pos + len = 24) (hpart : pos ≠ 0 ∨ more = true) :
    (sampleFragment pos len more dofree).Allowed samplePayload := by
  refine ⟨?_, ?_, hpos, hlen, hstop, hmore, hpart, ?_⟩
  · show 4 ∣ (List.replicate 20 (0 : UInt8)).length
    decide
  · show (List.replicate 20 (0 : UInt8)).length + samplePayload.length ≤ 65535
    decide
  · show 18 + 20 + len ≤ 1604
    omega

theorem sample_reach {f : Fragment} (hf : f.Allowed samplePayload)
    (hstep : ipInput true [] f.ip (f.m samplePayload) = some (none, sampleQueue f)) :
    Reach (fun _ => samplePayload) (f.after (fun _ => samplePayload) fun _ _ => False) (sampleQueue f) :=
  .fragment true f none .initial hf ⟨fun _ => rfl, by simp, by simp⟩ hstep

/-- The last part of a datagram, and then the first one, which completes it. -/
theorem ipReass_run_backwards :
    ∃ packet ipq', ipInput true (sampleQueue (sampleFragment 8 16 false false)) (sampleFragment 0 8 true false).ip
        ((sampleFragment 0 8 true false).m samplePayload) = some (packet, ipq') ∧
      Delivered (fun _ => samplePayload)
        ((sampleFragment 8 16 false false).after (fun _ => samplePayload) fun _ _ => False)
        (sampleQueue (sampleFragment 8 16 false false)) (sampleFragment 0 8 true false) packet ipq' := by
  have hlast : (sampleFragment 8 16 false false).Allowed samplePayload :=
    sampleFragment_allowed false (by decide) (by decide) (by decide) (by decide) (by decide)
  refine ipReass_run (sample_reach hlast (by decide +kernel))
    (sampleFragment_allowed false (by decide) (by decide) (by decide) (by decide) (by decide)) ⟨fun _ => rfl, ?_, ?_⟩
  · decide +kernel
  · intro fp hfp _ _
    rw [mem_singleton.mp hfp]
    decide +kernel

/-- A fragment in a buffer that is given back (`M_DOFREE`) is covered by a later one: its links are used after that. -/
theorem ipReass_covered_dofree :
    Reach (fun _ => samplePayload) ((sampleFragment 8 8 true true).after (fun _ => samplePayload) fun _ _ => False)
        (sampleQueue (sampleFragment 8 8 true true)) ∧
      (sampleFragment 0 16 true false).Allowed samplePayload ∧
      ipInput true (sampleQueue (sampleFragment 8 8 true true)) (sampleFragment 0 16 true false).ip
        ((sampleFragment 0 16 true false).m samplePayload) = none := by
  have hmiddle : (sampleFragment 8 8 true true).Allowed samplePayload :=
    sampleFragment_allowed true (by decide) (by decide) (by decide) (by decide) (by decide)
  refine ⟨sample_reach hmiddle (by decide +kernel), ?_, by decide +kernel⟩
  exact sampleFragment_allowed false (by decide) (by decide) (by decide) (by decide) (by decide)

end Emulator.Slirp.Frags
