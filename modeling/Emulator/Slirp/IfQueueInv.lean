import Emulator.Slirp.IfQueue

/-!
# The output queues lose and duplicate nothing

`Queues` is what the buffers stand for: each queue is a list of sessions, and a session a list of packets.
`Linked s Q` says that the links of the state `s` are those of `Q`.

* `Linked.ifEnqueue`, `Linked.downgrade`, `Linked.ifStartOne`: what queueing, downgrading and sending a packet do
  to `Q`.
-/

namespace Emulator.Slirp

open Function List Option

/-! ## Sessions and queues -/

/-- The packets of one socket that are linked by `ifs_next`. -/
structure Session where
  so : Option ℕ
  first : MbufPtr
  rest : List MbufPtr

def Session.packets (S : Session) : List MbufPtr := S.first :: S.rest

def Session.push (S : Session) (m : MbufPtr) : Session := { S with rest := S.rest ++ [m] }

structure Queues where
  fast : List Session
  batch : List Session
  used : List MbufPtr
  free : List MbufPtr

namespace Queues

variable (Q : Queues)

/-- The buffers that are linked by `m_next` behind each head. -/
def ring : Head → List MbufPtr
  | .freelist => Q.free
  | .usedlist => Q.used
  | .fastq => Q.fast.map Session.first
  | .batchq => Q.batch.map Session.first

def sessions : List Session := Q.fast ++ Q.batch

def queued : List MbufPtr := Q.sessions.flatMap Session.packets

def all : List MbufPtr := Q.queued ++ (Q.used ++ Q.free)

end Queues

/-- The packets of a socket in a list of sessions. -/
def packetsOf (L : List Session) (so : Option ℕ) : List MbufPtr :=
  (L.filter fun S => S.so = so).flatMap Session.packets


/-- The links of `s` are those of `Q`. -/
structure Linked (s : IfState) (Q : Queues) : Prop where
  rings : s.q.Rings MbufPtr.head Q.ring
  session : ∀ S ∈ Q.sessions, s.pkt.Ring S.first S.rest
  so : ∀ S ∈ Q.sessions, ∀ p ∈ S.packets, s.mSo p = S.so
  nodup : Q.all.Nodup
  heap : ∀ p ∈ Q.all, s.heap p = true
  headHeap : ∀ h, s.heap (.head h) = false
  used : ∀ p ∈ Q.all, (s.mFlags p).usedlist = true ↔ p ∈ Q.used
  freelist : ∀ p ∈ Q.queued ++ Q.used, (s.mFlags p).freelist = false
  headSo : s.mSo (.head .fastq) = none
  cursor : s.nextM = some (.head .batchq) ∨ ∃ S ∈ Q.batch, s.nextM = some S.first
  batchSo : (Q.batch.map Session.so).Nodup

/-- All buffers but `out` are in a list. -/
def Whole (s : IfState) (Q : Queues) (out : List MbufPtr) : Prop := ∀ p, s.heap p = true → p ∈ out ++ Q.all

/-- A buffer that is in no list. -/
structure Detached (s : IfState) (Q : Queues) (m : MbufPtr) : Prop where
  notMem : m ∉ Q.all
  heap : s.heap m = true

variable {s : IfState} {Q : Queues} {m : MbufPtr}

variable {S : Session}

theorem first_mem_queued {L : List Session} (hS : S ∈ L) : S.first ∈ L.flatMap Session.packets :=
  mem_flatMap.2 ⟨S, hS, mem_cons_self⟩

variable {p : MbufPtr}

theorem map_first_subset {L : List Session} (hp : p ∈ L.map Session.first) :
    p ∈ L.flatMap Session.packets := by
  obtain ⟨S, hS, rfl⟩ := List.mem_map.1 hp
  exact first_mem_queued hS

theorem ring_subset {h : Head} (hp : p ∈ Q.ring h) : p ∈ Q.all := by
  unfold Queues.all Queues.queued Queues.sessions
  rw [flatMap_append]
  cases h with
  | freelist => exact mem_append_right _ (mem_append_right _ hp)
  | usedlist => exact mem_append_right _ (mem_append_left _ hp)
  | fastq => exact mem_append_left _ (mem_append_left _ (map_first_subset hp))
  | batchq => exact mem_append_left _ (mem_append_right _ (map_first_subset hp))

theorem Linked.ne_head (H : Linked s Q) (hp : s.heap p = true) (h : Head) : p ≠ .head h := by
  rintro rfl
  rw [H.headHeap h] at hp
  exact absurd hp (by decide)

/-- A buffer that is not in any list is not in any ring. -/
theorem Linked.notMem_ring (H : Linked s Q) (hp : s.heap p = true) (hQ : p ∉ Q.all) (h : Head) :
    p ∉ MbufPtr.head h :: Q.ring h := by
  rw [mem_cons, not_or]
  exact ⟨H.ne_head hp h, fun hmem => hQ (ring_subset hmem)⟩

/-! ## The lists of buffers -/

theorem ring_used (Q : Queues) (l : List MbufPtr) : ({ Q with used := l } : Queues).ring =
    update Q.ring .usedlist l := by
  funext h
  cases h <;> simp [Queues.ring, update]

theorem ring_free (Q : Queues) (l : List MbufPtr) : ({ Q with free := l } : Queues).ring =
    update Q.ring .freelist l := by
  funext h
  cases h <;> simp [Queues.ring, update]

theorem ring_fast (Q : Queues) (L : List Session) : ({ Q with fast := L } : Queues).ring =
    update Q.ring .fastq (L.map Session.first) := by
  funext h
  cases h <;> simp [Queues.ring, update]

theorem ring_batch (Q : Queues) (L : List Session) : ({ Q with batch := L } : Queues).ring =
    update Q.ring .batchq (L.map Session.first) := by
  funext h
  cases h <;> simp [Queues.ring, update]

theorem remque_eq {e : MbufPtr} {k : Links MbufPtr} (h : s.q.remque e = some k) :
    s.remque e = some { s with q := k } := by
  unfold IfState.remque
  rw [h]
  rfl

theorem insque_eq {e p : MbufPtr} {k : Links MbufPtr} (h : s.q.insque e p = some k) :
    s.insque e p = some { s with q := k } := by
  unfold IfState.insque
  rw [h]
  rfl

theorem Linked.mem_packets (hS : S ∈ Q.sessions) (hp : p ∈ S.packets) : p ∈ Q.queued :=
  mem_flatMap.2 ⟨S, hS, hp⟩

/-- The lists of free and used buffers change, the queues do not. -/
theorem Linked.lists (H : Linked s Q) {s' : IfState} {u f : List MbufPtr}
    (hq : s'.q.Rings MbufPtr.head ({ Q with used := u, free := f } : Queues).ring)
    (hpkt : ∀ p ∈ Q.queued, s'.pkt.next p = s.pkt.next p ∧ s'.pkt.prev p = s.pkt.prev p) (hso : s'.mSo = s.mSo)
    (hcursor : s'.nextM = s.nextM) (hnd : (Q.queued ++ (u ++ f)).Nodup)
    (hheap : ∀ p ∈ Q.queued ++ (u ++ f), s'.heap p = true) (hhead : ∀ h, s'.heap (.head h) = false)
    (hused : ∀ p ∈ Q.queued ++ (u ++ f), (s'.mFlags p).usedlist = true ↔ p ∈ u)
    (hfree : ∀ p ∈ Q.queued ++ u, (s'.mFlags p).freelist = false) : Linked s' { Q with used := u, free := f } where
  rings := hq
  session S hS := (H.session S hS).frame fun p hp => hpkt p (Linked.mem_packets hS hp)
  so S hS p hp := by
    rw [hso]
    exact H.so S hS p hp
  nodup := hnd
  heap := hheap
  headHeap := hhead
  used := hused
  freelist := hfree
  headSo := by
    rw [hso]
    exact H.headSo
  cursor := by
    rw [hcursor]
    exact H.cursor
  batchSo := H.batchSo

theorem nodup_used {l r : List MbufPtr} (H : Linked s Q) (hl : Q.used = l ++ m :: r) :
    (m :: (Q.queued ++ ((l ++ r) ++ Q.free))).Nodup := by
  have hperm : Q.all.Perm (m :: (Q.queued ++ ((l ++ r) ++ Q.free))) := by
    unfold Queues.all
    rw [hl]
    refine List.Perm.trans ?_ perm_middle
    rw [append_assoc, append_assoc, cons_append]
    exact List.Perm.append_left _ perm_middle
  exact hperm.nodup_iff.1 H.nodup

/-- A buffer that is used is taken out of its list. -/
theorem Linked.takeUsed (H : Linked s Q) (hm : m ∈ Q.used) :
    ∃ k l r, Q.used = l ++ m :: r ∧ s.q.remque m = some k ∧
      Linked { s with q := k } { Q with used := l ++ r } ∧ Detached { s with q := k } { Q with used := l ++ r } m := by
  obtain ⟨l, r, hl⟩ := append_of_mem hm
  obtain ⟨k, hk, hrings, -⟩ := H.rings.remque (i := Head.usedlist) hl
  obtain ⟨hnot, hnd⟩ := nodup_cons.1 (nodup_used H hl)
  have hsub : ∀ p ∈ Q.queued ++ ((l ++ r) ++ Q.free), p ∈ Q.all := by
    intro p hp
    unfold Queues.all
    rw [hl]
    simp only [mem_append, mem_cons] at hp ⊢
    tauto
  have hmall : m ∈ Q.all := mem_append_right _ (mem_append_left _ hm)
  refine ⟨k, l, r, hl, hk, ?_, hnot, H.heap m hmall⟩
  refine H.lists (f := Q.free) ?_ (fun p _ => ⟨rfl, rfl⟩) rfl rfl hnd (fun p hp => H.heap p (hsub p hp)) H.headHeap
    (fun p hp => ?_) fun p hp => H.freelist p ?_
  · rw [ring_used]
    exact hrings
  · rw [H.used p (hsub p hp), hl]
    have hpm : p ≠ m := fun heq => hnot (heq ▸ hp)
    simp [hpm]
  · rw [hl]
    simp only [mem_append, mem_cons] at hp ⊢
    tauto

/-- A buffer that is in no list is given back or put on the free list. -/
theorem Linked.mRelease (H : Linked s Q) (hd : Detached s Q m) {flags : MFlags} (hflags : flags.freelist = false) :
    ∃ s' f, s.mRelease m flags = some s' ∧ Linked s' { Q with free := f } ∧ s'.sent = s.sent ∧ s'.mData = s.mData ∧
      s'.ifQueued = s.ifQueued ∧ (Whole s Q [m] → Whole s' { Q with free := f } []) := by
  have hne : ∀ p ∈ Q.all, p ≠ m := fun p hp heq => hd.notMem (heq ▸ hp)
  unfold IfState.mRelease
  by_cases hfree : flags.dofree = true
  · rw [if_pos hfree]
    refine ⟨_, Q.free, rfl, ?_, rfl, rfl, rfl, fun hw p hp => ?_⟩
    · refine H.lists H.rings (fun p _ => ⟨rfl, rfl⟩) rfl rfl H.nodup (fun p hp => ?_) (fun h => ?_) H.used H.freelist
      · exact (update_of_ne (hne p hp) _ _).trans (H.heap p hp)
      · exact (update_of_ne (H.ne_head hd.heap h).symm _ _).trans (H.headHeap h)
    · by_cases hpm : p = m
      · subst hpm
        exact absurd hp (by simp)
      · exact (mem_cons.1 (hw p ((update_of_ne hpm _ _).symm.trans hp))).resolve_left hpm
  · rw [if_neg hfree, if_neg (by simp [hflags])]
    obtain ⟨k, hk, hrings⟩ := H.rings.insque (i := Head.freelist) (l := []) (p := .head .freelist) rfl
      (H.notMem_ring hd.heap hd.notMem) rfl
    rw [insque_eq hk]
    have hperm : (Q.queued ++ (Q.used ++ m :: Q.free)).Perm (m :: Q.all) := by
      unfold Queues.all
      rw [← append_assoc, ← append_assoc]
      exact perm_middle
    refine ⟨_, m :: Q.free, rfl, ?_, rfl, rfl, rfl, fun hw p hp => hperm.mem_iff.2 (hw p hp)⟩
    refine H.lists (u := Q.used) ?_ (fun p _ => ⟨rfl, rfl⟩) rfl rfl ?_ (fun p hp => ?_) H.headHeap (fun p hp => ?_)
      fun p hp => ?_
    · rw [ring_free]
      exact hrings
    · exact hperm.nodup_iff.2 (nodup_cons.2 ⟨hd.notMem, H.nodup⟩)
    · rcases mem_cons.1 (hperm.mem_iff.1 hp) with rfl | hp
      · exact hd.heap
      · exact H.heap p hp
    · show (update s.mFlags m _ p).usedlist = true ↔ _
      rcases mem_cons.1 (hperm.mem_iff.1 hp) with rfl | hp
      · rw [update_self]
        refine ⟨fun h => absurd h (by decide), fun h => absurd ?_ hd.notMem⟩
        exact mem_append_right _ (mem_append_left _ h)
      · rw [update_of_ne (hne p hp)]
        exact H.used p hp
    · have hpall : p ∈ Q.all := by
        unfold Queues.all
        rw [← append_assoc]
        exact mem_append_left _ hp
      show (update s.mFlags m _ p).freelist = false
      rw [update_of_ne (hne p hpall)]
      exact H.freelist p hp

/-- `m_free` of a buffer that is used. -/
theorem Linked.mFree (H : Linked s Q) (hw : Whole s Q []) (hm : m ∈ Q.used) :
    ∃ s' u f, s.mFree m = some s' ∧ Linked s' { Q with used := u, free := f } ∧
      Whole s' { Q with used := u, free := f } [] ∧ s'.sent = s.sent ∧ s'.mData = s.mData ∧
      s'.ifQueued = s.ifQueued := by
  have hmall : m ∈ Q.all := mem_append_right _ (mem_append_left _ hm)
  obtain ⟨k, l, r, hl, hk, H', hd⟩ := H.takeUsed hm
  obtain ⟨s', f, hs', H'', hsent, hdata, hcount, hwhole⟩ :=
    H'.mRelease hd (H.freelist m (mem_append_right _ hm))
  refine ⟨s', l ++ r, f, ?_, H'', hwhole fun p hp => ?_, hsent, hdata, hcount⟩
  · unfold IfState.mFree
    rw [if_pos ((H.used m hmall).2 hm), remque_eq hk]
    exact hs'
  · have hp' := hw p hp
    unfold Queues.all at hp' ⊢
    rw [hl] at hp'
    simp only [nil_append, mem_append, mem_cons] at hp' ⊢
    tauto

/-- `m_get` once it has a buffer that is in no list. -/
theorem Linked.mGet_detached (H : Linked s Q) (hd : Detached s Q m) (flags : MFlags)
    (hflags : flags.usedlist = true ∧ flags.freelist = false) :
    ∃ k, s.insque m (.head .usedlist) = some { s with q := k } ∧
      Linked { s with
        q := k
        mFlags := update s.mFlags m flags
        mData := update s.mData m []
        pkt := ⟨update s.pkt.next m none, update s.pkt.prev m none⟩ }
        { Q with used := m :: Q.used } := by
  have hne : ∀ p ∈ Q.all, p ≠ m := fun p hp heq => hd.notMem (heq ▸ hp)
  obtain ⟨k, hk, hrings⟩ := H.rings.insque (i := Head.usedlist) (l := []) (p := .head .usedlist) rfl
    (H.notMem_ring hd.heap hd.notMem) rfl
  have hperm : (Q.queued ++ (m :: Q.used ++ Q.free)).Perm (m :: Q.all) := perm_middle
  refine ⟨k, insque_eq hk, H.lists (f := Q.free) ?_ (fun p hp => ?_) rfl rfl ?_ (fun p hp => ?_) H.headHeap
    (fun p hp => ?_) fun p hp => ?_⟩
  · rw [ring_used]
    exact hrings
  · have hpm := hne p (mem_append_left _ hp)
    exact ⟨update_of_ne hpm _ _, update_of_ne hpm _ _⟩
  · exact hperm.nodup_iff.2 (nodup_cons.2 ⟨hd.notMem, H.nodup⟩)
  · rcases mem_cons.1 (hperm.mem_iff.1 hp) with rfl | hp
    · exact hd.heap
    · exact H.heap p hp
  · show (update s.mFlags m _ p).usedlist = true ↔ _
    rcases mem_cons.1 (hperm.mem_iff.1 hp) with rfl | hp
    · rw [update_self]
      exact ⟨fun _ => mem_cons_self, fun _ => hflags.1⟩
    · rw [update_of_ne (hne p hp), H.used p hp, mem_cons]
      exact ⟨.inr, fun h => h.resolve_left (hne p hp)⟩
  · show (update s.mFlags m _ p).freelist = false
    by_cases hpm : p = m
    · subst hpm
      rw [update_self]
      exact hflags.2
    · rw [update_of_ne hpm]
      refine H.freelist p ?_
      simp only [mem_append, mem_cons] at hp ⊢
      tauto

/-- A buffer is taken from the free list or from `malloc`. -/
theorem Linked.mTake (H : Linked s Q) (hw : Whole s Q []) {fresh : Option ℕ}
    (hfresh : ∀ n ∈ fresh, s.heap (.mbuf n) = false) :
    s.mTake fresh = some none ∨
      ∃ m dofree s' f, s.mTake fresh = some (some (m, dofree, s')) ∧ Linked s' { Q with free := f } ∧
        Detached s' { Q with free := f } m ∧ Whole s' { Q with free := f } [m] ∧ s'.sent = s.sent ∧
        s'.mData = s.mData ∧ s'.ifQueued = s.ifQueued := by
  have hnext : s.q.next (.head .freelist) = some (Q.free.headD _) := (H.rings.closed Head.freelist).next_head
  cases hf : Q.free with
  | nil =>
    rw [hf, headD_nil] at hnext
    cases fresh with
    | none =>
      left
      simp [IfState.mTake, hnext]
    | some n =>
      have hheap := hfresh n rfl
      have hnot : (.mbuf n : MbufPtr) ∉ Q.all := by
        intro hmem
        rw [H.heap _ hmem] at hheap
        exact absurd hheap (by decide)
      refine .inr ⟨.mbuf n, decide (s.mbufAlloced + 1 > IfState.mbufThresh), { s with
        mbufAlloced := s.mbufAlloced + 1
        heap := update s.heap (.mbuf n) true }, Q.free, ?_, ?_, ⟨hnot, update_self _ _ _⟩,
        fun p hp => ?_, rfl, rfl, rfl⟩
      · simp [IfState.mTake, hnext]
      · refine H.lists H.rings (fun p _ => ⟨rfl, rfl⟩) rfl rfl H.nodup (fun p hp => ?_) (fun h => ?_) H.used H.freelist
        · have hpn : p ≠ .mbuf n := fun heq => hnot (heq ▸ hp)
          exact (update_of_ne hpn _ _).trans (H.heap p hp)
        · have hne : (.head h : MbufPtr) ≠ .mbuf n := by simp
          exact (update_of_ne hne true s.heap).trans (H.headHeap h)
      · by_cases hpn : p = .mbuf n
        · exact mem_append_left _ (mem_singleton.2 hpn)
        · exact mem_append_right _ (hw p ((update_of_ne hpn _ _).symm.trans hp))
  | cons f rest =>
    have hall : Q.all.Perm (f :: (Q.queued ++ (Q.used ++ rest))) := by
      unfold Queues.all
      rw [hf, ← append_assoc, ← append_assoc]
      exact perm_middle
    obtain ⟨hnot, hnd⟩ := nodup_cons.1 (hall.nodup_iff.1 H.nodup)
    have hheap := H.heap f (hall.mem_iff.2 mem_cons_self)
    obtain ⟨k, hk, hrings, -⟩ := H.rings.remque (i := Head.freelist) (l := []) hf
    rw [hf, headD_cons] at hnext
    refine .inr ⟨f, false, { s with q := k }, rest, ?_, ?_, ⟨hnot, hheap⟩, fun p hp => hall.mem_iff.1 (hw p hp), rfl,
      rfl, rfl⟩
    · simp [IfState.mTake, hnext, H.ne_head hheap, remque_eq hk]
    refine H.lists (u := Q.used) ?_ (fun p _ => ⟨rfl, rfl⟩) rfl rfl hnd
      (fun p hp => H.heap p (hall.mem_iff.2 (mem_cons_of_mem _ hp))) H.headHeap
      (fun p hp => H.used p (hall.mem_iff.2 (mem_cons_of_mem _ hp))) H.freelist
    rw [ring_free]
    exact hrings

/-- `m_get`. -/
theorem Linked.mGet (H : Linked s Q) (hw : Whole s Q []) {fresh : Option ℕ}
    (hfresh : ∀ n ∈ fresh, s.heap (.mbuf n) = false) :
    ∃ got s' u f, s.mGet fresh = some (got, s') ∧ Linked s' { Q with used := u, free := f } ∧
      Whole s' { Q with used := u, free := f } [] ∧ s'.sent = s.sent ∧ (∀ p ∈ Q.queued, s'.mData p = s.mData p) ∧
      s'.ifQueued = s.ifQueued := by
  unfold IfState.mGet
  rcases H.mTake hw hfresh with htake | ⟨m, dofree, s₁, f, htake, H₁, hd, hw₁, hsent, hdata, hcount⟩
  · rw [htake]
    exact ⟨none, s, Q.used, Q.free, rfl, H, hw, rfl, fun _ _ => rfl, rfl⟩
  · rw [htake]
    obtain ⟨k, hk, H₂⟩ := H₁.mGet_detached hd ⟨false, true, dofree⟩ ⟨rfl, rfl⟩
    refine ⟨some m, _, m :: Q.used, f, ?_, H₂, fun p hp => ?_, hsent, fun p hp => ?_, hcount⟩
    · simp only [bind_eq_bind, bind_some, hk]
      rfl
    · have hperm : ({ Q with used := m :: Q.used, free := f } : Queues).all.Perm
          (m :: ({ Q with free := f } : Queues).all) := perm_middle
      exact hperm.mem_iff.2 (hw₁ p hp)
    · have hpm : p ≠ m := fun heq => hd.notMem (heq ▸ mem_append_left _ hp)
      exact (update_of_ne hpm _ _).trans (congrFun hdata p)

/-! ## Queueing -/

/-- The loop over the batch queue finds the session of a socket, if there is one. `l` is what is still to be looked
at. -/
theorem Linked.findBatch (H : Linked s Q) (so : Option ℕ) {l r : List Session} (hb : Q.batch = l ++ r)
    (hr : ∀ S ∈ r, S.so ≠ so) {fuel : ℕ} (hf : l.length < fuel) :
    (s.findBatch so fuel ((l.map Session.first).getLastD (.head .batchq)) = some none ∧ ∀ S ∈ Q.batch, S.so ≠ so) ∨
      ∃ l' S r', Q.batch = l' ++ S :: r' ∧ S.so = so ∧
        s.findBatch so fuel ((l.map Session.first).getLastD (.head .batchq)) = some (some S.first) := by
  obtain ⟨fuel, rfl⟩ : ∃ n, fuel = n + 1 := ⟨fuel - 1, by omega⟩
  induction l using List.reverseRecOn generalizing r fuel with
  | nil =>
    left
    rw [hb]
    exact ⟨rfl, hr⟩
  | append_singleton l S ih =>
    rw [append_assoc, singleton_append] at hb
    have hS : S ∈ Q.sessions := mem_append_right _ (by rw [hb]; simp)
    have hheap := H.heap S.first (mem_append_left _ (Linked.mem_packets hS mem_cons_self))
    have hlast : ((l ++ [S]).map Session.first).getLastD (.head .batchq) = S.first := by
      rw [map_append, map_singleton, getLastD_concat]
    rw [hlast]
    unfold IfState.findBatch
    rw [if_neg (H.ne_head hheap _), H.so S hS S.first mem_cons_self]
    by_cases hso : so = S.so
    · rw [if_pos hso]
      exact .inr ⟨l, S, r, hb, hso.symm, rfl⟩
    · rw [if_neg hso]
      have hprev : s.q.prev S.first = some ((l.map Session.first).getLastD (.head .batchq)) := by
        have hring := H.rings.closed Head.batchq
        rw [show Q.ring .batchq = l.map Session.first ++ S.first :: r.map Session.first by
          simp [Queues.ring, hb]] at hring
        exact hring.link.1.2
      rw [hprev]
      rw [length_append, length_singleton] at hf
      obtain ⟨fuel, rfl⟩ : ∃ n, fuel = n + 1 := ⟨fuel - 1, by omega⟩
      refine ih hb (fun T hT => ?_) fuel (by omega)
      rcases mem_cons.1 hT with rfl | hT
      · exact fun h => hso h.symm
      · exact hr T hT

variable {Q' : Queues}

/-- A buffer that was in no list comes into the queues. -/
theorem Linked.add (H : Linked s Q) (hd : Detached s Q m)
    (hflags : (s.mFlags m).usedlist = false ∧ (s.mFlags m).freelist = false) {s' : IfState}
    (hQ : Q'.queued.Perm (m :: Q.queued)) (hu : Q'.used = Q.used) (hf : Q'.free = Q.free) (hheap : s'.heap = s.heap)
    (hfl : s'.mFlags = s.mFlags) (hrings : s'.q.Rings MbufPtr.head Q'.ring)
    (hsession : ∀ S ∈ Q'.sessions, s'.pkt.Ring S.first S.rest)
    (hso : ∀ S ∈ Q'.sessions, ∀ p ∈ S.packets, s'.mSo p = S.so) (hheadSo : s'.mSo (.head .fastq) = none)
    (hcursor : s'.nextM = some (.head .batchq) ∨ ∃ S ∈ Q'.batch, s'.nextM = some S.first)
    (hbatchSo : (Q'.batch.map Session.so).Nodup) : Linked s' Q' := by
  have hall : Q'.all.Perm (m :: Q.all) := by
    unfold Queues.all
    rw [hu, hf]
    exact hQ.append_right _
  refine ⟨hrings, hsession, hso, ?_, fun p hp => ?_, fun h => ?_, fun p hp => ?_, fun p hp => ?_, hheadSo, hcursor,
    hbatchSo⟩
  · exact hall.nodup_iff.2 (nodup_cons.2 ⟨hd.notMem, H.nodup⟩)
  · rw [hheap]
    rcases mem_cons.1 (hall.mem_iff.1 hp) with rfl | hp
    · exact hd.heap
    · exact H.heap p hp
  · rw [hheap]
    exact H.headHeap h
  · rw [hfl, hu]
    rcases mem_cons.1 (hall.mem_iff.1 hp) with rfl | hp
    · refine ⟨fun h => ?_, fun h => absurd ?_ hd.notMem⟩
      · rw [hflags.1] at h
        exact absurd h (by decide)
      · exact mem_append_right _ (mem_append_left _ h)
    · exact H.used p hp
  · rw [hfl]
    rcases mem_append.1 hp with hp | hp
    · rcases mem_cons.1 (hQ.mem_iff.1 hp) with rfl | hp
      · exact hflags.2
      · exact H.freelist p (mem_append_left _ hp)
    · rw [hu] at hp
      exact H.freelist p (mem_append_right _ hp)

theorem packets_push (S : Session) (m : MbufPtr) : (S.push m).packets = S.packets ++ [m] := rfl

variable {L₁ L₂ : List Session}

/-- Two sessions have no packet in common. -/
theorem Linked.disjoint (H : Linked s Q) {S T : Session} (hQ : Q.sessions = L₁ ++ S :: L₂)
    (hT : T ∈ L₁ ++ L₂) (hp : p ∈ T.packets) : p ∉ S.packets := by
  have hnd : Q.queued.Nodup := (nodup_append.1 H.nodup).1
  unfold Queues.queued at hnd
  rw [hQ] at hnd
  have hperm : ((L₁ ++ S :: L₂).flatMap Session.packets).Perm (S.packets ++ (L₁ ++ L₂).flatMap Session.packets) :=
    List.Perm.flatMap_right _ perm_middle
  intro hpS
  exact disjoint_of_nodup_append (hperm.nodup_iff.1 hnd) hpS (mem_flatMap.2 ⟨T, hT, hp⟩)

theorem Linked.cursor_map (H : Linked s Q)
    (hb : ∀ p ∈ Q.batch.map Session.first, p ∈ Q'.batch.map Session.first) :
    s.nextM = some (.head .batchq) ∨ ∃ S ∈ Q'.batch, s.nextM = some S.first := by
  rcases H.cursor with h | ⟨S, hS, h⟩
  · exact .inl h
  · obtain ⟨T, hT, heq⟩ := List.mem_map.1 (hb S.first (List.mem_map_of_mem hS))
    exact .inr ⟨T, hT, by rw [h, heq]⟩

theorem queued_push (hQ : Q.sessions = L₁ ++ S :: L₂)
    (hQ' : Q'.sessions = L₁ ++ S.push m :: L₂) : Q'.queued.Perm (m :: Q.queued) := by
  unfold Queues.queued
  rw [hQ, hQ']
  have hmid : ((L₁.flatMap Session.packets ++ S.packets) ++ m :: L₂.flatMap Session.packets).Perm _ :=
    perm_middle
  simpa [packets_push] using hmid

variable {so : Option ℕ}

theorem queued_new (hQ : Q.sessions = L₁ ++ L₂)
    (hQ' : Q'.sessions = L₁ ++ ⟨so, m, []⟩ :: L₂) : Q'.queued.Perm (m :: Q.queued) := by
  unfold Queues.queued
  rw [hQ, hQ', flatMap_append, flatMap_append, flatMap_cons]
  exact perm_middle

/-- A packet comes to the end of a session. -/
theorem Linked.joinSession (H : Linked s Q) (hd : Detached s Q m)
    (hflags : (s.mFlags m).usedlist = false ∧ (s.mFlags m).freelist = false)
    (hQ : Q.sessions = L₁ ++ S :: L₂) (hQ' : Q'.sessions = L₁ ++ S.push m :: L₂)
    (hring : Q'.ring = Q.ring) (hbatchSo : Q'.batch.map Session.so = Q.batch.map Session.so) :
    ∃ k, s.joinSession S.so m S.first = some { s with mSo := update s.mSo m S.so, pkt := k } ∧
      Linked { s with mSo := update s.mSo m S.so, pkt := k } Q' ∧ k.next m = some S.first := by
  have hS : S ∈ Q.sessions := by
    rw [hQ]
    simp
  have hmS : ∀ T ∈ Q.sessions, ∀ p ∈ T.packets, p ≠ m := by
    intro T hT p hp heq
    exact hd.notMem (heq ▸ mem_append_left _ (Linked.mem_packets hT hp))
  have hold := H.session S hS
  obtain ⟨k, hk, hnew, hframe⟩ := Links.Ring.insque (l := S.rest) (r := []) (by rwa [append_nil])
    (by rw [append_nil]; exact fun hmem => hmS S hS m hmem rfl) rfl
  rw [append_nil] at hframe
  refine ⟨k, ?_, ?_, ?_⟩
  · unfold IfState.joinSession IfState.ifsInsque
    simp only [hold.prev_head, bind_eq_bind, bind_some, hk]
    rfl
  · have hother : ∀ T ∈ L₁ ++ L₂, T ∈ Q.sessions := by
      intro T hT
      rw [hQ]
      simp only [mem_append, mem_cons] at hT ⊢
      tauto
    have hcases : ∀ T ∈ Q'.sessions, T = S.push m ∨ T ∈ L₁ ++ L₂ := by
      intro T hT
      rw [hQ'] at hT
      simp only [mem_append, mem_cons] at hT ⊢
      tauto
    refine H.add hd hflags (queued_push hQ hQ') (congrFun hring .usedlist) (congrFun hring .freelist) rfl rfl ?_
      (fun T hT => ?_) (fun T hT p hp => ?_) ?_ ?_ ?_
    · rw [hring]
      exact H.rings
    · rcases hcases T hT with rfl | hT
      · exact hnew
      · refine (H.session T (hother T hT)).frame fun p hp => hframe p fun hmem => ?_
        rcases mem_cons.1 hmem with rfl | hmem
        · exact hmS T (hother T hT) p hp rfl
        · exact H.disjoint hQ hT hp hmem
    · show update s.mSo m S.so p = T.so
      rcases hcases T hT with rfl | hT
      · by_cases hpm : p = m
        · rw [hpm, update_self]
          rfl
        · rw [update_of_ne hpm]
          rw [packets_push, mem_append, mem_singleton] at hp
          exact H.so S hS p (hp.resolve_right hpm)
      · rw [update_of_ne (hmS T (hother T hT) p hp)]
        exact H.so T (hother T hT) p hp
    · exact (update_of_ne (H.ne_head hd.heap _).symm _ _).trans H.headSo
    · refine H.cursor_map fun p hp => ?_
      rw [show Q'.batch.map Session.first = Q.batch.map Session.first from congrFun hring .batchq]
      exact hp
    · rw [hbatchSo]
      exact H.batchSo
  · exact hnew.link.2.1

/-- A packet becomes a new session at the end of a queue. -/
theorem Linked.newSession (H : Linked s Q) (hd : Detached s Q m)
    (hflags : (s.mFlags m).usedlist = false ∧ (s.mFlags m).freelist = false)
    {h : Head} (hQ : Q.sessions = L₁ ++ L₂) (hQ' : Q'.sessions = L₁ ++ ⟨so, m, []⟩ :: L₂)
    (hring : Q'.ring = update Q.ring h (Q.ring h ++ [m])) (hu : Q'.used = Q.used) (hf : Q'.free = Q.free)
    (hbatch : ∀ p ∈ Q.batch.map Session.first, p ∈ Q'.batch.map Session.first)
    (hbatchSo : (Q'.batch.map Session.so).Nodup) :
    ∃ s', s.newSession so m ((Q.ring h).getLastD (.head h)) = some s' ∧ Linked s' Q' ∧ s'.pkt.next m = some m ∧
      s'.sent = s.sent ∧ s'.mData = s.mData ∧ s'.ifQueued = s.ifQueued ∧ s'.sockets = s.sockets ∧
      s'.heap = s.heap := by
  have hmS : ∀ T ∈ Q.sessions, ∀ p ∈ T.packets, p ≠ m := by
    intro T hT p hp heq
    exact hd.notMem (heq ▸ mem_append_left _ (Linked.mem_packets hT hp))
  obtain ⟨k, hk, hrings⟩ := H.rings.insque (i := h) (r := []) (append_nil _).symm
    (H.notMem_ring hd.heap hd.notMem) rfl
  refine ⟨{ s with
    mSo := update s.mSo m so
    pkt := ⟨update s.pkt.next m (some m), update s.pkt.prev m (some m)⟩
    q := k }, ?_, ?_, update_self _ _ _, rfl, rfl, rfl, rfl, rfl⟩
  · unfold IfState.newSession IfState.insque IfState.ifsInit
    simp only [hk]
    rfl
  · have hcases : ∀ T ∈ Q'.sessions, T = ⟨so, m, []⟩ ∨ T ∈ Q.sessions := by
      intro T hT
      rw [hQ'] at hT
      rw [hQ]
      simp only [mem_append, mem_cons] at hT ⊢
      tauto
    refine H.add hd hflags (queued_new hQ hQ') hu hf rfl rfl ?_ (fun T hT => ?_) (fun T hT p hp => ?_) ?_
      (H.cursor_map hbatch) hbatchSo
    · rw [hring]
      exact hrings
    · rcases hcases T hT with rfl | hT
      · refine ⟨nodup_singleton _, ⟨update_self _ _ _, update_self _ _ _⟩, trivial⟩
      · refine (H.session T hT).frame fun p hp => ?_
        exact ⟨update_of_ne (hmS T hT p hp) _ _, update_of_ne (hmS T hT p hp) _ _⟩
    · show update s.mSo m so p = T.so
      rcases hcases T hT with rfl | hT
      · rw [mem_singleton.1 hp, update_self]
      · rw [update_of_ne (hmS T hT p hp)]
        exact H.so T hT p hp
    · exact (update_of_ne (H.ne_head hd.heap _).symm _ _).trans H.headSo

/-- Where `if_output` has put the packet `m` of `so`: in the last session of the fast queue, and then there is none of
that socket in the batch queue, or in a session of the batch queue. -/
structure Placed (Q : Queues) (S : Session) (so : Option ℕ) : Prop where
  so_eq : S.so = so
  place : (∃ l, Q.fast = l ++ [S] ∧ ∀ T ∈ Q.batch, T.so ≠ so) ∨ ∃ l r, Q.batch = l ++ S :: r

theorem packetsOf_append (L L' : List Session) (so : Option ℕ) :
    packetsOf (L ++ L') so = packetsOf L so ++ packetsOf L' so := by
  unfold packetsOf
  rw [filter_append, flatMap_append]

theorem packetsOf_cons_self (S : Session) (L : List Session) :
    packetsOf (S :: L) S.so = S.packets ++ packetsOf L S.so := by
  unfold packetsOf
  rw [filter_cons_of_pos (by simp), flatMap_cons]

theorem packetsOf_cons_of_ne (h : S.so ≠ so) (L : List Session) :
    packetsOf (S :: L) so = packetsOf L so := by
  unfold packetsOf
  rw [filter_cons_of_neg (by simpa using h)]

theorem packetsOf_nil {L : List Session} (h : ∀ S ∈ L, S.so ≠ so) : packetsOf L so = [] := by
  induction L with
  | nil => rfl
  | cons S L ih =>
    rw [packetsOf_cons_of_ne (h S mem_cons_self)]
    exact ih fun T hT => h T (mem_cons_of_mem _ hT)

/-- A packet at the end of the last session of its socket is the last one to leave. -/
theorem packetsOf_push (h : ∀ T ∈ L₂, T.so ≠ S.so) (so : Option ℕ) :
    packetsOf (L₁ ++ S.push m :: L₂) so = packetsOf (L₁ ++ S :: L₂) so ++ if so = S.so then [m] else [] := by
  rw [packetsOf_append, packetsOf_append]
  by_cases hso : so = S.so
  · subst hso
    have hpush : packetsOf (S.push m :: L₂) S.so = (S.push m).packets ++ packetsOf L₂ S.so := packetsOf_cons_self _ _
    rw [if_pos rfl, hpush, packetsOf_cons_self, packetsOf_nil h, packets_push, append_nil, append_nil,
      append_assoc]
  · have hne : (S.push m).so ≠ so := fun heq => hso heq.symm
    rw [if_neg hso, packetsOf_cons_of_ne hne, packetsOf_cons_of_ne (S := S) fun heq => hso heq.symm, append_nil]

/-- So is a packet that is a session of its own behind those of its socket. -/
theorem packetsOf_new (h : ∀ T ∈ L₂, T.so ≠ so) (so' : Option ℕ) :
    packetsOf (L₁ ++ ⟨so, m, []⟩ :: L₂) so' = packetsOf (L₁ ++ L₂) so' ++ if so' = so then [m] else [] := by
  rw [packetsOf_append, packetsOf_append]
  by_cases hso : so' = so
  · subst hso
    have hnew : packetsOf (⟨so', m, []⟩ :: L₂) so' = [m] ++ packetsOf L₂ so' := packetsOf_cons_self ⟨so', m, []⟩ L₂
    rw [if_pos rfl, hnew, packetsOf_nil h, append_nil, append_nil]
  · have hne : (⟨so, m, []⟩ : Session).so ≠ so' := fun heq => hso heq.symm
    rw [if_neg hso, packetsOf_cons_of_ne hne, append_nil]

theorem batch_other {l r : List Session} {S T : Session} (hnd : ((l ++ S :: r).map Session.so).Nodup)
    (hT : T ∈ l ++ r) : T.so ≠ S.so := by
  have hperm : ((l ++ S :: r).map Session.so).Perm (S.so :: (l ++ r).map Session.so) := by
    rw [← map_cons]
    exact perm_middle.map _
  intro heq
  exact (nodup_cons.1 (hperm.nodup_iff.1 hnd)).1 (heq ▸ List.mem_map_of_mem hT)

theorem map_first_push (l r : List Session) (S : Session) (m : MbufPtr) :
    (l ++ S.push m :: r).map Session.first = (l ++ S :: r).map Session.first := by
  rw [map_append, map_append]
  rfl

theorem map_so_push (l r : List Session) (S : Session) (m : MbufPtr) :
    (l ++ S.push m :: r).map Session.so = (l ++ S :: r).map Session.so := by
  rw [map_append, map_append]
  rfl

/-- What queueing a packet does: it is placed in a session, behind all others of its socket. -/
structure Enqueued (s s' : IfState) (Q Q' : Queues) (so : Option ℕ) (m : MbufPtr) : Prop where
  linked : Linked s' Q'
  placed : ∃ S, Placed Q' S so ∧ s'.pkt.next m = some S.first
  used : Q'.used = Q.used
  free : Q'.free = Q.free
  queued : Q'.queued.Perm (m :: Q.queued)
  order : ∀ so', packetsOf Q'.sessions so' = packetsOf Q.sessions so' ++ if so' = so then [m] else []
  sent : s'.sent = s.sent
  mData : s'.mData = s.mData
  ifQueued : s'.ifQueued = s.ifQueued
  heap : s'.heap = s.heap

/-- `if_output` up to `diddit`. -/
theorem Linked.ifEnqueue (H : Linked s Q) (hd : Detached s Q m)
    (hflags : (s.mFlags m).usedlist = false ∧ (s.mFlags m).freelist = false) (so : Option ℕ)
    (hfuel : Q.batch.length < s.ifQueued.toNat + 1) :
      ∃ s' Q', s.ifEnqueue so m = some s' ∧ Enqueued s s' Q Q' so m := by
  have hlastB : s.q.prev (.head .batchq) = some ((Q.batch.map Session.first).getLastD (.head .batchq)) :=
    (H.rings.closed Head.batchq).prev_head
  have hlastF : s.q.prev (.head .fastq) = some ((Q.fast.map Session.first).getLastD (.head .fastq)) :=
    (H.rings.closed Head.fastq).prev_head
  unfold IfState.ifEnqueue
  rw [hlastB]
  simp only [bind_eq_bind, bind_some]
  rcases H.findBatch so (append_nil _).symm (fun S hS => absurd hS not_mem_nil) hfuel with
    ⟨hfind, hnone⟩ | ⟨l, S, r, hb, rfl, hfind⟩
  · rw [hfind]
    simp only [bind_some]
    split_ifs with hlow
    · -- the fast queue: the session of its last packet, or a new one
      rw [hlastF]
      simp only [bind_some]
      have hsome : so ≠ none := by
        rintro rfl
        exact absurd hlow (by simp [IfState.lowdelay])
      have hnew : ∃ s' Q', s.newSession so m ((Q.fast.map Session.first).getLastD (.head .fastq)) = some s' ∧
          Enqueued s s' Q Q' so m := by
        have hQ' : ({ Q with fast := Q.fast ++ [⟨so, m, []⟩] } : Queues).sessions =
            Q.fast ++ ⟨so, m, []⟩ :: Q.batch := by
          unfold Queues.sessions
          rw [append_assoc, singleton_append]
        have hring : ({ Q with fast := Q.fast ++ [⟨so, m, []⟩] } : Queues).ring =
            update Q.ring .fastq (Q.ring .fastq ++ [m]) := by
          rw [ring_fast, map_append]
          rfl
        have hQ : Q.sessions = Q.fast ++ Q.batch := rfl
        obtain ⟨s', hs', H', hnext, h1, h2, h3, -, h5⟩ := H.newSession hd hflags hQ hQ' hring rfl rfl
          (fun p hp => hp) H.batchSo
        exact ⟨s', _, hs', H', ⟨⟨so, m, []⟩, ⟨rfl, .inl ⟨Q.fast, rfl, hnone⟩⟩, hnext⟩, rfl, rfl,
          queued_new rfl hQ', fun so' => hQ' ▸ packetsOf_new hnone so', h1, h2, h3, h5⟩
      rcases eq_nil_or_concat Q.fast with hfast | ⟨l, S, hfast⟩
      · rw [hfast] at hnew ⊢
        rw [map_nil, getLastD_nil] at hnew ⊢
        rw [if_neg (by rw [H.headSo]; exact hsome.symm)]
        exact hnew
      · rw [concat_eq_append] at hfast
        have hlast : (Q.fast.map Session.first).getLastD (.head .fastq) = S.first := by
          rw [hfast, map_append, map_singleton, getLastD_concat]
        have hS : S ∈ Q.sessions := mem_append_left _ (by rw [hfast]; simp)
        rw [hlast] at hnew ⊢
        rw [H.so S hS S.first mem_cons_self]
        split_ifs with hso
        · subst hso
          have hQ : Q.sessions = l ++ S :: Q.batch := by
            unfold Queues.sessions
            rw [hfast, append_assoc, singleton_append]
          have hQ' : ({ Q with fast := l ++ [S.push m] } : Queues).sessions = l ++ S.push m :: Q.batch := by
            unfold Queues.sessions
            rw [append_assoc, singleton_append]
          have hring : ({ Q with fast := l ++ [S.push m] } : Queues).ring = Q.ring := by
            rw [ring_fast, map_first_push, ← hfast]
            exact update_eq_self Head.fastq Q.ring
          obtain ⟨k, hk, H', hnext⟩ := H.joinSession hd hflags hQ hQ' hring rfl
          exact ⟨_, _, hk, H', ⟨S.push m, ⟨rfl, .inl ⟨l, rfl, hnone⟩⟩, hnext⟩, rfl, rfl, queued_push hQ hQ',
            fun so' => by rw [hQ, hQ']; exact packetsOf_push hnone so', rfl, rfl, rfl, rfl⟩
        · exact hnew
    · -- a new session of the batch queue
      have hQ : Q.sessions = (Q.fast ++ Q.batch) ++ [] := (append_nil _).symm
      have hQ' : ({ Q with batch := Q.batch ++ [⟨so, m, []⟩] } : Queues).sessions =
          (Q.fast ++ Q.batch) ++ [⟨so, m, []⟩] := by
        unfold Queues.sessions
        rw [append_assoc]
      have hring : ({ Q with batch := Q.batch ++ [⟨so, m, []⟩] } : Queues).ring =
          update Q.ring .batchq (Q.ring .batchq ++ [m]) := by
        rw [ring_batch, map_append]
        rfl
      have hnd : ((Q.batch ++ [(⟨so, m, []⟩ : Session)]).map Session.so).Nodup := by
        rw [map_append, map_singleton, nodup_append]
        refine ⟨H.batchSo, nodup_singleton _, fun a ha b hb => ?_⟩
        obtain ⟨S, hS, rfl⟩ := List.mem_map.1 ha
        rw [mem_singleton.1 hb]
        exact hnone S hS
      obtain ⟨s', hs', H', hnext, h1, h2, h3, -, h5⟩ := H.newSession hd hflags hQ hQ' hring rfl rfl
        (fun p hp => by rw [map_append]; exact mem_append_left _ hp) hnd
      refine ⟨s', _, hs', H', ⟨⟨so, m, []⟩, ⟨rfl, .inr ⟨Q.batch, [], rfl⟩⟩, hnext⟩, rfl, rfl,
        queued_new hQ hQ', fun so' => ?_, h1, h2, h3, h5⟩
      rw [hQ, hQ']
      exact packetsOf_new (fun T hT => absurd hT not_mem_nil) so'
  · -- a session of the batch queue
    rw [hfind]
    simp only [bind_some]
    have hQ : Q.sessions = (Q.fast ++ l) ++ S :: r := by
      unfold Queues.sessions
      rw [hb, append_assoc]
    have hQ' : ({ Q with batch := l ++ S.push m :: r } : Queues).sessions = (Q.fast ++ l) ++ S.push m :: r := by
      unfold Queues.sessions
      rw [append_assoc]
    have hring : ({ Q with batch := l ++ S.push m :: r } : Queues).ring = Q.ring := by
      rw [ring_batch, map_first_push, ← hb]
      exact update_eq_self Head.batchq Q.ring
    obtain ⟨k, hk, H', hnext⟩ := H.joinSession hd hflags hQ hQ' hring (by rw [map_so_push, hb])
    refine ⟨_, _, hk, H', ⟨S.push m, ⟨rfl, .inr ⟨l, r, rfl⟩⟩, hnext⟩, rfl, rfl, queued_push hQ hQ', fun so' => ?_,
      rfl, rfl, rfl, rfl⟩
    rw [hQ, hQ']
    have hnd := H.batchSo
    rw [hb] at hnd
    exact packetsOf_push (fun T hT => batch_other hnd (mem_append_right _ hT)) so'

/-- The sessions come into another order. -/
theorem Linked.move (H : Linked s Q) {k : Links MbufPtr} (hQ : Q'.sessions.Perm Q.sessions)
    (hu : Q'.used = Q.used) (hf : Q'.free = Q.free) (hrings : k.Rings MbufPtr.head Q'.ring)
    (hbatch : ∀ S ∈ Q.batch, S ∈ Q'.batch) (hbatchSo : (Q'.batch.map Session.so).Nodup) :
    Linked { s with q := k } Q' := by
  have hqueued : Q'.queued.Perm Q.queued := List.Perm.flatMap_right _ hQ
  have hall : Q'.all.Perm Q.all := by
    unfold Queues.all
    rw [hu, hf]
    exact hqueued.append_right _
  refine ⟨hrings, fun S hS => H.session S (hQ.mem_iff.1 hS), fun S hS => H.so S (hQ.mem_iff.1 hS),
    hall.nodup_iff.2 H.nodup, fun p hp => H.heap p (hall.mem_iff.1 hp), H.headHeap, fun p hp => ?_, fun p hp => ?_,
    H.headSo, ?_, hbatchSo⟩
  · rw [hu]
    exact H.used p (hall.mem_iff.1 hp)
  · rw [hu] at hp
    exact H.freelist p ((hqueued.append_right _).mem_iff.1 hp)
  · refine H.cursor_map fun p hp => ?_
    obtain ⟨S, hS, rfl⟩ := List.mem_map.1 hp
    exact List.mem_map_of_mem (hbatch S hS)

/-- The session goes to the front of the batch queue, and the packets of each socket keep their order. -/
theorem Linked.downgrade (H : Linked s Q) (hp : Placed Q S so)
    (hnext : s.pkt.next m = some S.first) :
    ∃ k Q', s.downgrade m = some { s with q := k } ∧ Linked { s with q := k } Q' ∧ Q'.used = Q.used ∧
      Q'.free = Q.free ∧ Q'.queued.Perm Q.queued ∧
      ∀ so', packetsOf Q'.sessions so' = packetsOf Q.sessions so' := by
  unfold IfState.downgrade
  rw [hnext]
  simp only [bind_eq_bind, bind_some]
  obtain ⟨rfl, ⟨l, hfast, hnone⟩ | ⟨l, r, hb⟩⟩ := hp
  · obtain ⟨k₁, hk₁, hr₁, -, hout⟩ := H.rings.remque (i := Head.fastq) (l := l.map Session.first) (r := [])
      (e := S.first) (by simp [Queues.ring, hfast])
    obtain ⟨k₂, hk₂, hr₂⟩ := hr₁.insque (i := Head.batchq) (l := []) (p := .head .batchq) rfl hout rfl
    have hQ : ({ Q with fast := l, batch := S :: Q.batch } : Queues).sessions = Q.sessions := by
      unfold Queues.sessions
      rw [hfast, append_assoc, singleton_append]
    refine ⟨k₂, { Q with fast := l, batch := S :: Q.batch }, ?_, ?_, rfl, rfl, ?_, fun so' => by rw [hQ]⟩
    · rw [remque_eq hk₁, bind_some]
      exact insque_eq hk₂
    · refine H.move (by rw [hQ]) rfl rfl ?_ (fun T hT => mem_cons_of_mem _ hT) ?_
      · have hring : ({ Q with fast := l, batch := S :: Q.batch } : Queues).ring = update
            (update Q.ring .fastq (l.map Session.first ++ [])) .batchq
              (S.first :: Q.batch.map Session.first) := by
          rw [append_nil, ← ring_fast, ← map_cons, ← ring_batch]
        rw [hring]
        exact hr₂
      · rw [map_cons, nodup_cons]
        refine ⟨fun hmem => ?_, H.batchSo⟩
        obtain ⟨T, hT, heq⟩ := List.mem_map.1 hmem
        exact hnone T hT heq
    · unfold Queues.queued
      rw [hQ]
  · obtain ⟨k₁, hk₁, hr₁, -, hout⟩ := H.rings.remque (i := Head.batchq) (l := l.map Session.first)
      (r := r.map Session.first) (e := S.first) (by simp [Queues.ring, hb])
    obtain ⟨k₂, hk₂, hr₂⟩ := hr₁.insque (i := Head.batchq) (l := []) (p := .head .batchq) rfl hout rfl
    have hQ : ({ Q with batch := S :: (l ++ r) } : Queues).sessions.Perm Q.sessions := by
      unfold Queues.sessions
      rw [hb]
      exact List.Perm.append_left _ perm_middle.symm
    have hnd := H.batchSo
    rw [hb] at hnd
    refine ⟨k₂, { Q with batch := S :: (l ++ r) }, ?_, ?_, rfl, rfl, List.Perm.flatMap_right _ hQ, fun so' => ?_⟩
    · rw [remque_eq hk₁, bind_some]
      exact insque_eq hk₂
    · refine H.move hQ rfl rfl ?_ (fun T hT => ?_) ?_
      · have hring : ({ Q with batch := S :: (l ++ r) } : Queues).ring = update
            (update Q.ring .batchq (l.map Session.first ++ r.map Session.first)) .batchq
              (S.first :: (l.map Session.first ++ r.map Session.first)) := by
          rw [update_idem, ring_batch, map_cons, map_append]
        rw [hring]
        exact hr₂
      · rw [hb] at hT
        exact perm_middle.mem_iff.1 hT
      · exact (perm_middle.map Session.so).nodup_iff.1 hnd
    · unfold Queues.sessions
      rw [hb, packetsOf_append, packetsOf_append]
      congr 1
      by_cases hso : S.so = so'
      · subst hso
        have hl : packetsOf l S.so = [] := packetsOf_nil fun T hT => batch_other hnd (mem_append_left _ hT)
        rw [packetsOf_cons_self, packetsOf_append, packetsOf_append, packetsOf_cons_self, hl, nil_append,
          nil_append]
      · rw [packetsOf_cons_of_ne hso, packetsOf_append, packetsOf_append, packetsOf_cons_of_ne hso]

/-! ## Sending -/

/-- What is left of a session when its first packet is sent. -/
def Session.tail (S : Session) : List Session :=
  match S.rest with
  | [] => []
  | g :: rest => [⟨S.so, g, rest⟩]

theorem packets_tail (S : Session) : S.tail.flatMap Session.packets = S.rest := by
  unfold Session.tail
  cases S.rest with
  | nil => rfl
  | cons g rest => simp [Session.packets]

theorem tail_so {S T : Session} (hT : T ∈ S.tail) : T.so = S.so := by
  unfold Session.tail at hT
  cases hrest : S.rest with
  | nil =>
    rw [hrest] at hT
    exact absurd hT not_mem_nil
  | cons g rest =>
    rw [hrest] at hT
    rw [mem_singleton.1 hT]

theorem packetsOf_tail (S : Session) (so : Option ℕ) : packetsOf S.tail so = if S.so = so then S.rest else [] := by
  split_ifs with hso
  · rw [← packets_tail]
    unfold packetsOf
    rw [filter_eq_self.2 fun T hT => by simp [tail_so hT, hso]]
  · exact packetsOf_nil fun T hT => by rwa [tail_so hT]

theorem ifsRemque_eq (s : IfState) (m : MbufPtr) :
    s.ifsRemque m = (s.pkt.unlink m).map fun k => { s with pkt := k } := by
  unfold IfState.ifsRemque Links.unlink
  cases hp : s.pkt.prev m with
  | none =>
    cases hn : s.pkt.next m with
    | none => rfl
    | some n =>
      have hupd : update s.pkt.prev n none m = none := by
        by_cases hmn : m = n
        · subst hmn
          exact update_self _ _ _
        · rw [update_of_ne hmn, hp]
      simp [hupd]
  | some p =>
    cases hn : s.pkt.next m with
    | none =>
      have hupd : update s.pkt.next p none m = none := by
        by_cases hmp : m = p
        · subst hmp
          exact update_self _ _ _
        · rw [update_of_ne hmp, hn]
      simp [hupd]
    | some n =>
      have hupd : update s.pkt.next p (some n) m = some n := by
        by_cases hmp : m = p
        · subst hmp
          exact update_self _ _ _
        · rw [update_of_ne hmp, hn]
      have hupd' : update s.pkt.prev n (some p) m = some p := by
        by_cases hmn : m = n
        · subst hmn
          exact update_self _ _ _
        · rw [update_of_ne hmn, hp]
      simp [hupd, hupd', hn]

/-- A packet that is not the first of its session is not linked by `m_next`. -/
theorem Linked.rest_notMem_ring (H : Linked s Q) (hQ : Q.sessions = L₁ ++ S :: L₂)
    {g : MbufPtr} (hg : g ∈ S.rest) (h : Head) : g ∉ Q.ring h := by
  have hS : S ∈ Q.sessions := by
    rw [hQ]
    simp
  have hgS : g ∈ S.packets := mem_cons_of_mem _ hg
  have hlists : g ∉ Q.used ++ Q.free :=
    disjoint_of_nodup_append H.nodup (Linked.mem_packets hS hgS)
  have hfirst : ∀ T ∈ Q.sessions, T.first ≠ g := by
    rintro T hT rfl
    rw [hQ, perm_middle.mem_iff] at hT
    rcases mem_cons.1 hT with rfl | hT
    · exact (nodup_cons.1 (H.session T hS).nodup).1 hg
    · exact H.disjoint hQ hT mem_cons_self hgS
  intro hmem
  cases h with
  | freelist => exact hlists (mem_append_right _ hmem)
  | usedlist => exact hlists (mem_append_left _ hmem)
  | fastq =>
    obtain ⟨T, hT, heq⟩ := List.mem_map.1 hmem
    exact hfirst T (mem_append_left _ hT) heq
  | batchq =>
    obtain ⟨T, hT, heq⟩ := List.mem_map.1 hmem
    exact hfirst T (mem_append_right _ hT) heq

/-- The first packet of the session `S` of the queue `h` is taken out, and what is left of `S` comes in its place. -/
theorem Linked.ifDequeue (H : Linked s Q) {h : Head} {L₁ L₂ l r : List Session}
    (hQ : Q.sessions = L₁ ++ S :: L₂) (hQ' : Q'.sessions = L₁ ++ (S.tail ++ L₂))
    (hring : Q.ring h = l.map Session.first ++ S.first :: r.map Session.first)
    (hring' : Q'.ring = update Q.ring h ((l ++ (S.tail ++ r)).map Session.first))
    (hu : Q'.used = Q.used) (hf : Q'.free = Q.free)
    (hcursor : s.nextM = some (.head .batchq) ∨ ∃ T ∈ Q'.batch, s.nextM = some T.first)
    (hbatchSo : (Q'.batch.map Session.so).Nodup) :
    ∃ k pkt, s.ifDequeue S.first = some { s with q := k, pkt := pkt, ifQueued := s.ifQueued - 1 } ∧
      Linked { s with q := k, pkt := pkt, ifQueued := s.ifQueued - 1 } Q' ∧ Q.queued.Perm (S.first :: Q'.queued) := by
  have hS : S ∈ Q.sessions := by
    rw [hQ]
    simp
  have hqueued : Q.queued.Perm (S.first :: Q'.queued) := by
    unfold Queues.queued
    rw [hQ, hQ']
    simp only [flatMap_append, flatMap_cons, packets_tail, Session.packets]
    exact perm_middle
  have hprev : s.q.prev S.first = some ((l.map Session.first).getLastD (.head h)) := by
    have hclosed := H.rings.closed h
    rw [hring] at hclosed
    exact hclosed.link.1.2
  obtain ⟨k₁, hk₁, hr₁, -, hout⟩ := H.rings.remque hring
  -- the links of the new rings and sessions are enough
  have hlinked : ∀ (k pkt : Links MbufPtr), k.Rings MbufPtr.head Q'.ring →
      (∀ T ∈ S.tail, pkt.Ring T.first T.rest) →
      (∀ T ∈ L₁ ++ L₂, ∀ p ∈ T.packets, pkt.next p = s.pkt.next p ∧ pkt.prev p = s.pkt.prev p) →
      Linked { s with q := k, pkt := pkt, ifQueued := s.ifQueued - 1 } Q' := by
    intro k pkt hrings htail hframe
    have hall : Q.all.Perm (S.first :: Q'.all) := by
      unfold Queues.all
      rw [hu, hf]
      exact hqueued.append_right _
    have hsub : ∀ p ∈ Q'.all, p ∈ Q.all := fun p hp => hall.mem_iff.2 (mem_cons_of_mem _ hp)
    have hcases : ∀ T ∈ Q'.sessions, T ∈ S.tail ∨ T ∈ L₁ ++ L₂ ∧ T ∈ Q.sessions := by
      intro T hT
      rw [hQ'] at hT
      rw [hQ]
      simp only [mem_append, mem_cons] at hT ⊢
      tauto
    refine ⟨hrings, fun T hT => ?_, fun T hT p hp => ?_, (nodup_cons.1 (hall.nodup_iff.1 H.nodup)).2,
      fun p hp => H.heap p (hsub p hp), H.headHeap, fun p hp => ?_, fun p hp => H.freelist p ?_, H.headSo, hcursor,
      hbatchSo⟩
    · rcases hcases T hT with hT | ⟨hT, hTQ⟩
      · exact htail T hT
      · exact (H.session T hTQ).frame (hframe T hT)
    · rcases hcases T hT with hT | ⟨-, hTQ⟩
      · rw [tail_so hT]
        refine H.so S hS p (mem_cons_of_mem _ ?_)
        rw [← packets_tail]
        exact mem_flatMap.2 ⟨T, hT, hp⟩
      · exact H.so T hTQ p hp
    · rw [hu]
      exact H.used p (hsub p hp)
    · rw [hu] at hp
      rcases mem_append.1 hp with hp | hp
      · exact mem_append_left _ (hqueued.mem_iff.2 (mem_cons_of_mem _ hp))
      · exact mem_append_right _ hp
  have hsession := H.session S hS
  unfold IfState.ifDequeue
  rw [hprev, remque_eq hk₁]
  simp only [bind_eq_bind, bind_some, hsession.next_head]
  cases hrest : S.rest with
  | nil =>
    have htail : S.tail = [] := by
      unfold Session.tail
      rw [hrest]
    rw [headD_nil, if_neg (not_not.2 rfl)]
    refine ⟨k₁, s.pkt, rfl, hlinked k₁ s.pkt ?_ ?_ fun T _ p _ => ⟨rfl, rfl⟩, hqueued⟩
    · rw [hring', htail, nil_append, map_append]
      exact hr₁
    · rw [htail]
      exact fun T hT => absurd hT not_mem_nil
  | cons g rest =>
    have htail : S.tail = [⟨S.so, g, rest⟩] := by
      unfold Session.tail
      rw [hrest]
    rw [hrest] at hsession
    have hne : g ≠ S.first := by
      rintro rfl
      exact (nodup_cons.1 hsession.nodup).1 mem_cons_self
    have hgQ : g ∈ S.packets := mem_cons_of_mem _ (by rw [hrest]; exact mem_cons_self)
    have hgheap := H.heap g (mem_append_left _ (Linked.mem_packets hS hgQ))
    have hgout : ∀ j, g ∉ MbufPtr.head j :: update Q.ring h
      (l.map Session.first ++ r.map Session.first) j := by
      intro j hj
      rcases mem_cons.1 hj with heq | hj
      · exact H.ne_head hgheap j heq
      · refine H.rest_notMem_ring hQ (by rw [hrest]; exact mem_cons_self) j ?_
        by_cases hjh : j = h
        · subst hjh
          rw [update_self] at hj
          rw [hring]
          simp only [mem_append, mem_cons] at hj ⊢
          tauto
        · rwa [update_of_ne hjh] at hj
    obtain ⟨k₂, hk₂, hr₂⟩ := hr₁.insque (update_self h _ Q.ring) hgout rfl
    obtain ⟨pkt, hpkt, hnew, -, -, hframe⟩ := hsession.rotate.unlink (l := rest) (r := [])
    rw [append_nil] at hnew
    rw [headD_cons, if_pos hne, insque_eq hk₂, bind_some, ifsRemque_eq, hpkt, map_some]
    refine ⟨k₂, pkt, rfl, hlinked k₂ pkt ?_ ?_ fun T hT p hp => hframe p fun hmem => ?_, hqueued⟩
    · rw [update_idem] at hr₂
      rw [hring', htail, map_append]
      exact hr₂
    · rw [htail]
      intro T hT
      rw [mem_singleton.1 hT]
      exact hnew
    · refine H.disjoint hQ hT hp ?_
      unfold Session.packets
      rw [hrest]
      simp only [mem_append, mem_cons, not_mem_nil, or_false] at hmem ⊢
      tauto

theorem ifEncap_eq (s : IfState) (m : MbufPtr) :
    ∃ socks, s.ifEncap m = { s with sockets := socks, sent := s.sent ++ [⟨s.mSo m, m, s.mData m⟩] } := by
  unfold IfState.ifEncap
  split
  · exact ⟨_, rfl⟩
  · exact ⟨_, rfl⟩

/-- What sending a packet does: it was the first of its socket. -/
structure Sent (s s' : IfState) (Q Q' : Queues) : Prop where
  linked : Linked s' Q'
  whole : Whole s' Q' []
  packet : ∃ so m, Q.queued.Perm (m :: Q'.queued) ∧ s'.sent = s.sent ++ [⟨so, m, s.mData m⟩] ∧
    ∀ so', packetsOf Q.sessions so' = (if so' = so then [m] else []) ++ packetsOf Q'.sessions so'
  mData : s'.mData = s.mData
  ifQueued : s'.ifQueued = s.ifQueued - 1

/-- The packet that was chosen is sent. -/
theorem Linked.send (H : Linked s Q) (hw : Whole s Q []) {h : Head} {L₁ L₂ l r : List Session}
   
    (hQ : Q.sessions = L₁ ++ S :: L₂) (hQ' : Q'.sessions = L₁ ++ (S.tail ++ L₂))
    (hring : Q.ring h = l.map Session.first ++ S.first :: r.map Session.first)
    (hring' : Q'.ring = update Q.ring h ((l ++ (S.tail ++ r)).map Session.first))
    (hu : Q'.used = Q.used) (hf : Q'.free = Q.free)
    (hcursor : s.nextM = some (.head .batchq) ∨ ∃ T ∈ Q'.batch, s.nextM = some T.first)
    (hbatchSo : (Q'.batch.map Session.so).Nodup) (hfirst : ∀ T ∈ L₁, T.so ≠ S.so) :
    ∃ s' Q', ((s.ifDequeue S.first).bind fun s => (s.ifEncap S.first).mFree S.first) = some s' ∧ Sent s s' Q Q' := by
  have hS : S ∈ Q.sessions := by
    rw [hQ]
    simp
  have hmQ : S.first ∈ Q.queued := Linked.mem_packets hS mem_cons_self
  have hmall : S.first ∈ Q.all := mem_append_left _ hmQ
  obtain ⟨k, pkt, hdeq, H₁, hqueued⟩ := H.ifDequeue hQ hQ' hring hring' hu hf hcursor hbatchSo
  obtain ⟨socks, henc⟩ := ifEncap_eq { s with q := k, pkt := pkt, ifQueued := s.ifQueued - 1 } S.first
  rw [hdeq, bind_some, henc]
  have hall : Q.all.Perm (S.first :: Q'.all) := by
    unfold Queues.all
    rw [hu, hf]
    exact hqueued.append_right _
  have H₂ : Linked { s with
      q := k
      pkt := pkt
      ifQueued := s.ifQueued - 1
      sockets := socks
      sent := s.sent ++ [⟨s.mSo S.first, S.first, s.mData S.first⟩] } Q' :=
    ⟨H₁.rings, H₁.session, H₁.so, H₁.nodup, H₁.heap, H₁.headHeap, H₁.used, H₁.freelist, H₁.headSo, H₁.cursor,
      H₁.batchSo⟩
  have hd : Detached { s with
      q := k
      pkt := pkt
      ifQueued := s.ifQueued - 1
      sockets := socks
      sent := s.sent ++ [⟨s.mSo S.first, S.first, s.mData S.first⟩] } Q' S.first :=
    ⟨(nodup_cons.1 (hall.nodup_iff.1 H.nodup)).1, H.heap _ hmall⟩
  obtain ⟨s', f, hs', H₃, hsent, hdata, hcount, hwhole⟩ :=
    H₂.mRelease hd (H.freelist S.first (mem_append_left _ hmQ))
  refine ⟨s', { Q' with free := f }, ?_, H₃, hwhole fun p hp => hall.mem_iff.1 (hw p hp),
    ⟨S.so, S.first, hqueued, ?_, fun so' => ?_⟩, hdata, hcount⟩
  · have hnot : (s.mFlags S.first).usedlist ≠ true := fun hused =>
      disjoint_of_nodup_append H.nodup hmQ (mem_append_left _ ((H.used _ hmall).1 hused))
    unfold IfState.mFree
    rw [if_neg hnot]
    exact hs'
  · rw [hsent, H.so S hS S.first mem_cons_self]
  · show packetsOf Q.sessions so' = _ ++ packetsOf Q'.sessions so'
    rw [hQ, hQ', packetsOf_append, packetsOf_append, packetsOf_append, packetsOf_tail]
    by_cases hso : S.so = so'
    · subst hso
      rw [packetsOf_nil hfirst, packetsOf_cons_self, if_pos rfl, if_pos rfl]
      rfl
    · rw [packetsOf_cons_of_ne hso, if_neg hso, if_neg fun heq => hso heq.symm]
      rfl

theorem Linked.ifStartOne (H : Linked s Q) (hw : Whole s Q []) (hne : Q.queued ≠ []) :
    ∃ s' Q', s.ifStartOne = some s' ∧ Sent s s' Q Q' := by
  have hnextF : s.q.next (.head .fastq) = some ((Q.fast.map Session.first).headD _) :=
    (H.rings.closed Head.fastq).next_head
  unfold IfState.ifStartOne
  cases hfast : Q.fast with
  | cons S F =>
    have hheap : s.heap S.first = true := H.heap _ (mem_append_left _
      (Linked.mem_packets (mem_append_left _ (by rw [hfast]; simp)) mem_cons_self))
    have hchoose : s.ifChoose = some (S.first, s) := by
      unfold IfState.ifChoose
      rw [hnextF, hfast, map_cons, headD_cons]
      exact if_pos (H.ne_head hheap _)
    rw [hchoose]
    have hQ : Q.sessions = [] ++ S :: (F ++ Q.batch) := by
      unfold Queues.sessions
      rw [hfast]
      rfl
    have hQ' : ({ Q with fast := S.tail ++ F } : Queues).sessions = [] ++ (S.tail ++ (F ++ Q.batch)) := by
      unfold Queues.sessions
      rw [nil_append, append_assoc]
    have hring : Q.ring .fastq = ([] : List Session).map Session.first ++ S.first :: F.map Session.first := by
      unfold Queues.ring
      simp [hfast]
    have hring' : ({ Q with fast := S.tail ++ F } : Queues).ring =
        update Q.ring .fastq (([] ++ (S.tail ++ F)).map Session.first) := by
      rw [ring_fast]
      rfl
    exact H.send hw hQ hQ' hring hring' rfl rfl H.cursor H.batchSo fun T hT => absurd hT not_mem_nil
  | nil =>
    have hclosed : s.q.Ring (.head .batchq) (Q.batch.map Session.first) := H.rings.closed Head.batchq
    -- the cursor is at a session, or the first one is chosen
    obtain ⟨l, S, r, hb, hchoose⟩ : ∃ l S r, Q.batch = l ++ S :: r ∧
        (if s.nextM ≠ some (.head .batchq) then s.nextM else s.q.next (.head .batchq)) = some S.first := by
      rcases H.cursor with hcur | ⟨S, hS, hcur⟩
      · rw [hcur, if_neg (not_not.2 rfl)]
        cases hb : Q.batch with
        | nil =>
          refine absurd ?_ hne
          unfold Queues.queued Queues.sessions
          rw [hfast, hb]
          rfl
        | cons S r =>
          rw [hb] at hclosed
          exact ⟨[], S, r, rfl, hclosed.next_head⟩
      · obtain ⟨l, r, hb⟩ := append_of_mem hS
        have hheap : s.heap S.first = true := H.heap _ (mem_append_left _
          (Linked.mem_packets (mem_append_right _ hS) mem_cons_self))
        refine ⟨l, S, r, hb, ?_⟩
        rw [hcur, if_pos fun heq => H.ne_head hheap _ (Option.some.inj heq)]
    have hring : Q.ring .batchq = l.map Session.first ++ S.first :: r.map Session.first := by
      simp [Queues.ring, hb]
    have hnext : s.q.next S.first = some ((r.map Session.first).headD (.head .batchq)) := by
      have hclosed' := H.rings.closed Head.batchq
      rw [hring] at hclosed'
      exact hclosed'.link.2.1
    have hchoose' : s.ifChoose = some (S.first,
        { s with nextM := some ((r.map Session.first).headD (.head .batchq)) }) := by
      unfold IfState.ifChoose
      rw [hnextF, hfast, ← hnext]
      simp only [map_nil, headD_nil, bind_eq_bind, bind_some, ne_eq, not_true_eq_false,
        if_false]
      split_ifs at hchoose with hc
      · rw [if_pos hc, hchoose]
        rfl
      · rw [if_neg hc, hchoose]
        rfl
    rw [hchoose']
    have hcur : ∀ {L : List Session}, (∀ T ∈ r, T ∈ L) →
        some ((r.map Session.first).headD (.head .batchq)) = some (.head .batchq) ∨
          ∃ T ∈ L, some ((r.map Session.first).headD (.head .batchq)) = some T.first := by
      intro L hL
      cases r with
      | nil => exact .inl rfl
      | cons T r => exact .inr ⟨T, hL T mem_cons_self, rfl⟩
    have H₁ : Linked { s with nextM := some ((r.map Session.first).headD (.head .batchq)) } Q :=
      ⟨H.rings, H.session, H.so, H.nodup, H.heap, H.headHeap, H.used, H.freelist, H.headSo,
        hcur fun T hT => by rw [hb]; simp [hT], H.batchSo⟩
    have hnd := H.batchSo
    rw [hb] at hnd
    have hQ : Q.sessions = l ++ S :: r := by
      unfold Queues.sessions
      rw [hfast, hb]
      rfl
    have hQ' : ({ Q with batch := l ++ (S.tail ++ r) } : Queues).sessions = l ++ (S.tail ++ r) := by
      unfold Queues.sessions
      rw [hfast]
      rfl
    have hbatchSo : ((l ++ (S.tail ++ r)).map Session.so).Nodup := by
      refine hnd.sublist ?_
      rw [map_append, map_append, map_append, map_cons]
      refine List.Sublist.append_left ?_ _
      rw [← singleton_append]
      refine List.Sublist.append_right ?_ _
      unfold Session.tail
      cases S.rest with
      | nil => exact nil_sublist _
      | cons g rest => exact List.Sublist.refl _
    obtain ⟨s', Q', hs', hsent⟩ := H₁.send hw hQ hQ' hring (ring_batch Q _) rfl rfl (hcur fun T hT => by simp [hT])
      hbatchSo fun T hT => batch_other hnd (mem_append_left _ hT)
    exact ⟨s', Q', hs', hsent.linked, hsent.whole, hsent.packet, hsent.mData, hsent.ifQueued⟩

end Emulator.Slirp
