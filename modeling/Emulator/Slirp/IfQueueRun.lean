import Emulator.Slirp.IfQueueInv

/-!
# Runs of the output queues

`Good s Q given`: the links of `s` are those of `Q`, and of each socket the packets that were given to `if_output` are
those that were sent, followed by those that are queued.

* `Good.ifStart`, `Good.ifOutput`: sending and queueing keep it.
* `ifQueues_run`: it holds in every state that is reached, and no null pointer is followed.
-/

namespace Emulator.Slirp

open Function List Option

structure Good (s : IfState) (Q : Queues) (given : List Packet) : Prop where
  linked : Linked s Q
  whole : Whole s Q []
  count : s.ifQueued = Q.queued.length
  order : ∀ so, given.filter (fun p => p.so = so) =
    s.sent.filter (fun p => p.so = so) ++ (packetsOf Q.sessions so).map fun m => ⟨so, m, s.mData m⟩

variable {s : IfState} {Q : Queues} {given : List Packet} {m : MbufPtr}

theorem mem_packetsOf {L : List Session} {so : Option ℕ} {p : MbufPtr} (hp : p ∈ packetsOf L so) :
    p ∈ L.flatMap Session.packets := by
  obtain ⟨S, hS, hp⟩ := mem_flatMap.1 hp
  exact mem_flatMap.2 ⟨S, (mem_filter.1 hS).1, hp⟩

theorem filter_single (so so' : Option ℕ) (m : MbufPtr) (data : List UInt8) :
    [(⟨so, m, data⟩ : Packet)].filter (fun p => p.so = so') =
      (if so' = so then [m] else []).map fun m => (⟨so', m, data⟩ : Packet) := by
  by_cases h : so' = so
  · subst h
    simp
  · rw [if_neg h, filter_cons_of_neg (by simpa using fun heq => h heq.symm)]
    rfl

theorem Good.ifStartOne (H : Good s Q given) (hne : s.ifQueued ≠ 0) :
    ∃ s' Q', s.ifStartOne = some s' ∧ Good s' Q' given := by
  have hqueued : Q.queued ≠ [] := by
    intro hnil
    rw [H.count, hnil] at hne
    exact hne rfl
  obtain ⟨s', Q', hs', hsent⟩ := H.linked.ifStartOne H.whole hqueued
  obtain ⟨so, m, hperm, hlog, hof⟩ := hsent.packet
  refine ⟨s', Q', hs', hsent.linked, hsent.whole, ?_, fun so' => ?_⟩
  · rw [hsent.ifQueued, H.count, hperm.length_eq, length_cons]
    push_cast
    ring
  · rw [H.order so', hlog, hof so', filter_append, filter_single, hsent.mData, map_append, append_assoc]
    by_cases hso : so' = so
    · rw [if_pos hso]
      rfl
    · rw [if_neg hso]
      rfl

theorem Good.ifStartLoop (H : Good s Q given) (hne : s.ifQueued ≠ 0) (answers : List Bool) :
    ∃ s' Q', IfState.ifStartLoop answers s = some s' ∧ Good s' Q' given := by
  induction answers generalizing s Q with
  | nil => exact ⟨s, Q, rfl, H⟩
  | cons answer answers ih =>
    cases answer with
    | false => exact ⟨s, Q, rfl, H⟩
    | true =>
      obtain ⟨s₁, Q₁, hs₁, H₁⟩ := H.ifStartOne hne
      unfold IfState.ifStartLoop
      rw [hs₁]
      simp only [bind_eq_bind, bind_some]
      split_ifs with hcount
      · exact ih H₁ hcount
      · exact ⟨s₁, Q₁, rfl, H₁⟩

theorem Good.ifStart (H : Good s Q given) (answers : List Bool) :
    ∃ s' Q', s.ifStart answers = some s' ∧ Good s' Q' given := by
  unfold IfState.ifStart
  split_ifs with hcount
  · exact ⟨s, Q, rfl, H⟩
  · exact H.ifStartLoop hcount answers

theorem batch_length_le (Q : Queues) : Q.batch.length ≤ Q.queued.length := by
  unfold Queues.queued Queues.sessions
  rw [flatMap_append, length_append]
  have hle : ∀ L : List Session, L.length ≤ (L.flatMap Session.packets).length := by
    intro L
    induction L with
    | nil => exact Nat.le_refl 0
    | cons S L ih =>
      rw [flatMap_cons, length_append, length_cons]
      have : 1 ≤ S.packets.length := Nat.succ_le_succ (Nat.zero_le _)
      omega
  have := hle Q.batch
  omega

/-- The counters, and the session may be downgraded. -/
theorem Enqueued.ifCount {s₀ : IfState} {Q₀ : Queues} {so : Option ℕ} (H : Enqueued s₀ s Q₀ Q so m) :
    ∃ s' Q', s.ifCount so m = some s' ∧ Linked s' Q' ∧ Q'.used = Q.used ∧ Q'.free = Q.free ∧
      Q'.queued.Perm Q.queued ∧ (∀ so', packetsOf Q'.sessions so' = packetsOf Q.sessions so') ∧ s'.sent = s.sent ∧
      s'.mData = s.mData ∧ s'.heap = s.heap ∧ s'.ifQueued = s.ifQueued + 1 := by
  have hsockets : ∀ socks, Linked { s with ifQueued := s.ifQueued + 1, sockets := socks } Q := fun socks =>
    ⟨H.linked.rings, H.linked.session, H.linked.so, H.linked.nodup, H.linked.heap, H.linked.headHeap, H.linked.used,
      H.linked.freelist, H.linked.headSo, H.linked.cursor, H.linked.batchSo⟩
  obtain ⟨S, hplaced, hnext⟩ := H.placed
  unfold IfState.ifCount
  cases so with
  | none => exact ⟨_, Q, rfl, hsockets s.sockets, rfl, rfl, .rfl, fun _ => rfl, rfl, rfl, rfl, rfl⟩
  | some n =>
    dsimp only
    split_ifs with hgreedy
    · obtain ⟨k, Q', hk, H', hu, hf, hperm, hof⟩ := (hsockets _).downgrade hplaced hnext
      exact ⟨_, Q', hk, H', hu, hf, hperm, hof, rfl, rfl, rfl, rfl⟩
    · exact ⟨_, Q, rfl, hsockets _, rfl, rfl, .rfl, fun _ => rfl, rfl, rfl, rfl, rfl⟩

/-- A buffer that the caller has is filled. -/
theorem Linked.fill (H : Linked s Q) (data : MbufPtr → List UInt8) : Linked { s with mData := data } Q :=
  ⟨H.rings, H.session, H.so, H.nodup, H.heap, H.headHeap, H.used, H.freelist, H.headSo, H.cursor, H.batchSo⟩

/-- The flags of a buffer that is in no list do not matter. -/
theorem Linked.setFlags (H : Linked s Q) (hd : Detached s Q m) (flags : MFlags) :
    Linked { s with mFlags := update s.mFlags m flags } Q := by
  have hne : ∀ p ∈ Q.all, p ≠ m := fun p hp heq => hd.notMem (heq ▸ hp)
  refine ⟨H.rings, H.session, H.so, H.nodup, H.heap, H.headHeap, fun p hp => ?_, fun p hp => ?_, H.headSo, H.cursor,
    H.batchSo⟩
  · show (update s.mFlags m flags p).usedlist = true ↔ _
    rw [update_of_ne (hne p hp)]
    exact H.used p hp
  · have hpall : p ∈ Q.all := by
      unfold Queues.all
      rw [← append_assoc]
      exact mem_append_left _ hp
    show (update s.mFlags m flags p).freelist = false
    rw [update_of_ne (hne p hpall)]
    exact H.freelist p hp

/-- A buffer that its caller has is on the list of used buffers. -/
theorem Good.mem_used (H : Good s Q given) (hm : s.heap m = true) (hused : (s.mFlags m).usedlist = true) :
    m ∈ Q.used :=
  (H.linked.used m (H.whole m hm)).1 hused

theorem Linked.ifDetach (H : Linked s Q) (hm : m ∈ Q.used) :
    ∃ s' l r, Q.used = l ++ m :: r ∧ s.ifDetach m = some s' ∧ Linked s' { Q with used := l ++ r } ∧
      Detached s' { Q with used := l ++ r } m ∧ ((s'.mFlags m).usedlist = false ∧ (s'.mFlags m).freelist = false) ∧
      s'.sent = s.sent ∧ s'.mData = s.mData ∧ s'.ifQueued = s.ifQueued ∧ s'.heap = s.heap := by
  have hmall : m ∈ Q.all := mem_append_right _ (mem_append_left _ hm)
  obtain ⟨k, l, r, hl, hk, H₁, hd₁⟩ := H.takeUsed hm
  refine ⟨_, l, r, hl, ?_, H₁.setFlags hd₁ { s.mFlags m with usedlist := false }, ⟨hd₁.notMem, hd₁.heap⟩, ⟨?_, ?_⟩, rfl,
    rfl, rfl, rfl⟩
  · unfold IfState.ifDetach
    rw [if_pos ((H.used m hmall).2 hm), remque_eq hk]
    rfl
  · simp
  · simpa using H.freelist m (mem_append_right _ hm)

theorem Good.ifOutput (H : Good s Q given) (hm : m ∈ Q.used) (so : Option ℕ) (data : List UInt8) (linkUp : Bool)
    (answers : List Bool) :
    ∃ s' Q', ({ s with mData := update s.mData m data } : IfState).ifOutput linkUp answers so m = some s' ∧
      Good s' Q' (given ++ [⟨so, m, data⟩]) := by
  -- the buffer leaves the list of used buffers, ...
  obtain ⟨s₁, l, r, hl, hs₁, H₁, hd, hflags, hsent₁, hdata₁, hcount₁, hheap₁⟩ :=
    (H.linked.fill (update s.mData m data)).ifDetach hm
  -- ... comes into a session, ...
  obtain ⟨s₂, Q₂, hs₂, E⟩ := H₁.ifEnqueue hd hflags so (by
    have := batch_length_le Q
    rw [hcount₁, H.count]
    show Q.batch.length < _
    omega)
  obtain ⟨s₃, Q₃, hs₃, H₃, hu, hf, hperm, hof, hsent₃, hdata₃, hheap₃, hcount₃⟩ := E.ifCount
  have hqueued : Q₃.queued.Perm (m :: Q.queued) := hperm.trans E.queued
  have hgood : Good s₃ Q₃ (given ++ [⟨so, m, data⟩]) := by
    refine ⟨H₃, fun p hp => ?_, ?_, fun so' => ?_⟩
    · rw [hheap₃, E.heap, hheap₁] at hp
      have hall := H.whole p hp
      have hq := hqueued.mem_iff (a := p)
      unfold Queues.all at hall ⊢
      rw [hu, hf, E.used, E.free]
      rw [hl] at hall
      simp only [nil_append, mem_append, mem_cons] at hall hq ⊢
      tauto
    · rw [hcount₃, E.ifQueued, hcount₁, hqueued.length_eq, length_cons]
      show s.ifQueued + 1 = _
      rw [H.count]
      push_cast
      rfl
    · have hsent : s₃.sent = s.sent := hsent₃.trans (E.sent.trans hsent₁)
      have hdata : s₃.mData = update s.mData m data := hdata₃.trans (E.mData.trans hdata₁)
      have hmq : ∀ p ∈ Q.queued, p ≠ m := fun p hp heq => hd.notMem (heq ▸ mem_append_left _ hp)
      have hold : packetsOf Q₂.sessions so' = packetsOf Q.sessions so' ++ if so' = so then [m] else [] := E.order so'
      rw [filter_append, H.order so', filter_single, hsent, hof so', hold, hdata, map_append,
        ← append_assoc]
      congr 1
      · congr 1
        refine map_congr_left fun p hp => ?_
        rw [update_of_ne (hmq p (mem_packetsOf hp))]
      · split_ifs
        · simp
        · rfl
  -- ... and the queues are sent
  have hout : ({ s with mData := update s.mData m data } : IfState).ifOutput linkUp answers so m =
      if linkUp then s₃.ifStart answers else some s₃ := by
    unfold IfState.ifOutput
    simp only [hs₁, hs₂, hs₃, bind_eq_bind, bind_some, Option.pure_def]
  rw [hout]
  split_ifs
  · exact hgood.ifStart answers
  · exact ⟨s₃, Q₃, rfl, hgood⟩

theorem Good.lists {s' : IfState} {u f : List MbufPtr} (H : Good s Q given)
    (H' : Linked s' { Q with used := u, free := f }) (hw : Whole s' { Q with used := u, free := f } [])
    (hsent : s'.sent = s.sent) (hdata : ∀ p ∈ Q.queued, s'.mData p = s.mData p) (hcount : s'.ifQueued = s.ifQueued) :
    Good s' { Q with used := u, free := f } given := by
  refine ⟨H', hw, hcount.trans H.count, fun so => ?_⟩
  rw [H.order so, hsent]
  congr 1
  refine map_congr_left fun p hp => ?_
  rw [hdata p (mem_packetsOf hp)]

/-- **A step that the callers may make is made**, and keeps what holds of the queues. -/
theorem Good.step (H : Good s Q given) {ev : Event} (ha : ev.Allowed s) :
    ∃ s' Q', step s ev = some s' ∧ Good s' Q' (given ++ ev.given) := by
  cases ev with
  | get fresh =>
    obtain ⟨got, s', u, f, hs', H', hw, hsent, hdata, hcount⟩ := H.linked.mGet H.whole ha
    refine ⟨s', { Q with used := u, free := f }, ?_, ?_⟩
    · show (s.mGet fresh).map Prod.snd = some s'
      rw [hs', map_some]
    · rw [show (Event.get fresh).given = [] from rfl, append_nil]
      exact H.lists H' hw hsent hdata hcount
  | free m =>
    obtain ⟨s', u, f, hs', H', hw, hsent, hdata, hcount⟩ := H.linked.mFree H.whole (H.mem_used ha.1 ha.2)
    refine ⟨s', { Q with used := u, free := f }, hs', ?_⟩
    rw [show (Event.free m).given = [] from rfl, append_nil]
    exact H.lists H' hw hsent (fun p _ => congrFun hdata p) hcount
  | tos so iptos =>
    refine ⟨_, Q, rfl, ?_⟩
    rw [show (Event.tos so iptos).given = [] from rfl, append_nil]
    exact ⟨⟨H.linked.rings, H.linked.session, H.linked.so, H.linked.nodup, H.linked.heap, H.linked.headHeap,
      H.linked.used, H.linked.freelist, H.linked.headSo, H.linked.cursor, H.linked.batchSo⟩, H.whole, H.count, H.order⟩
  | output so m data linkUp answers => exact H.ifOutput (H.mem_used ha.1 ha.2) so data linkUp answers
  | start answers =>
    rw [show (Event.start answers).given = [] from rfl, append_nil]
    exact H.ifStart answers

theorem good_initial (h : Initial s) : Good s ⟨[], [], [], []⟩ [] := by
  have hring : ∀ h, (⟨[], [], [], []⟩ : Queues).ring h = [] := by
    intro h
    cases h <;> rfl
  refine ⟨⟨⟨fun i => ?_, fun i j hij => ?_⟩, ?_, ?_, nodup_nil, ?_, fun i => h.heap _, ?_, ?_, h.headSo,
    .inl h.nextM,
    nodup_nil⟩, fun p hp => ?_, h.ifQueued, fun so => ?_⟩
  · rw [hring]
    exact ⟨nodup_singleton _, ⟨h.next i, h.prev i⟩, trivial⟩
  · rw [hring, hring]
    simpa using hij.symm
  · exact fun S hS => absurd hS not_mem_nil
  · exact fun S hS => absurd hS not_mem_nil
  · exact fun p hp => absurd hp not_mem_nil
  · exact fun p hp => absurd hp not_mem_nil
  · exact fun p hp => absurd hp not_mem_nil
  · rw [h.heap] at hp
    exact absurd hp (by decide)
  · rw [h.sent]
    rfl

theorem reach_good {s₀ : IfState} (h₀ : Initial s₀) (h : Reach s₀ given s) : ∃ Q, Good s Q given := by
  induction h with
  | init => exact ⟨_, good_initial h₀⟩
  | step ev _ ha hs ih =>
    obtain ⟨Q, H⟩ := ih
    obtain ⟨s', Q', hs', H'⟩ := H.step ha
    obtain rfl := Option.some.inj (hs'.symm.trans hs)
    exact ⟨Q', H'⟩

/-- Lists that agree for each socket have the same packets. -/
theorem perm_of_filter {l l' : List Packet}
    (h : ∀ so, l.filter (fun p => p.so = so) = l'.filter (fun p => p.so = so)) : l.Perm l' := by
  refine perm_iff_count.2 fun p => ?_
  have hp := congrArg (List.count p) (h p.so)
  rwa [count_filter (by simp), count_filter (by simp)] at hp

/-- The packets that are queued, as they were given to `if_output`. -/
def queuedPackets (s : IfState) (Q : Queues) : List Packet := Q.queued.map fun m => ⟨s.mSo m, m, s.mData m⟩

theorem filter_queuedPackets (H : Linked s Q) (so : Option ℕ) :
    (queuedPackets s Q).filter (fun p => p.so = so) = (packetsOf Q.sessions so).map fun m => ⟨so, m, s.mData m⟩ := by
  have hlist : ∀ L : List Session, (∀ S ∈ L, S ∈ Q.sessions) →
      ((L.flatMap Session.packets).map fun m => (⟨s.mSo m, m, s.mData m⟩ : Packet)).filter (fun p => p.so = so) =
        (packetsOf L so).map fun m => ⟨so, m, s.mData m⟩ := by
    intro L hL
    induction L with
    | nil => rfl
    | cons S L ih =>
      have hso := H.so S (hL S mem_cons_self)
      rw [flatMap_cons, map_append, filter_append, ih fun T hT => hL T (mem_cons_of_mem _ hT)]
      by_cases h : S.so = so
      · subst h
        rw [packetsOf_cons_self, map_append, filter_eq_self.2]
        · congr 1
          exact map_congr_left fun p hp => by rw [hso p hp]
        · intro p hp
          obtain ⟨m, hm, rfl⟩ := List.mem_map.1 hp
          simpa using hso m hm
      · rw [packetsOf_cons_of_ne h, filter_eq_nil_iff.2, nil_append]
        intro p hp
        obtain ⟨m, hm, rfl⟩ := List.mem_map.1 hp
        simpa [hso m hm] using h
  exact hlist Q.sessions fun S hS => hS

/-- **The output queues lose and duplicate nothing.** In every state that is reached the links are those of some
queues `Q`; `if_queued` is the number of packets in them; the packets given to `if_output` are those that were sent and
those in `Q`; those of one socket leave in the order in which they were given; `next_m` is at a session of the batch
queue or at its head; and no step follows a null pointer. -/
theorem ifQueues_run {s₀ : IfState} (h₀ : Initial s₀) (h : Reach s₀ given s) :
    ∃ Q, Linked s Q ∧ s.ifQueued = Q.queued.length ∧ given.Perm (s.sent ++ queuedPackets s Q) ∧
      (∀ so, given.filter (fun p => p.so = so) =
        s.sent.filter (fun p => p.so = so) ++ (packetsOf Q.sessions so).map fun m => ⟨so, m, s.mData m⟩) ∧
      (s.nextM = some (.head .batchq) ∨ ∃ S ∈ Q.batch, s.nextM = some S.first) ∧
      ∀ ev : Event, ev.Allowed s → ∃ s', step s ev = some s' := by
  obtain ⟨Q, H⟩ := reach_good h₀ h
  refine ⟨Q, H.linked, H.count, perm_of_filter fun so => ?_, H.order, H.linked.cursor, fun ev ha => ?_⟩
  · rw [filter_append, filter_queuedPackets H.linked]
    exact H.order so
  · obtain ⟨s', -, hs', -⟩ := H.step ha
    exact ⟨s', hs'⟩

/-- The state after `m_init` and `if_init`, with nothing in the memory that `malloc` gives. -/
def emptyIf : IfState where
  q := ⟨fun p => match p with | .head h => some (.head h) | .mbuf _ => none,
    fun p => match p with | .head h => some (.head h) | .mbuf _ => none⟩
  pkt := ⟨fun _ => none, fun _ => none⟩
  mFlags _ := ⟨false, false, false⟩
  mSo _ := none
  mData _ := []
  heap _ := false
  mbufAlloced := 0
  sockets _ := ⟨IfState.iptosLowdelay, 0, 0⟩
  ifQueued := 0
  nextM := some (.head .batchq)
  sent := []

/-- Two packets of one socket and one of another are queued, and two of them are sent. -/
def twoSockets : List Event :=
  [.get (some 0), .get (some 1), .get (some 2), .output (some 5) (.mbuf 0) [1] false [],
    .output (some 5) (.mbuf 1) [2] false [], .output none (.mbuf 2) [3] false [], .start [true, true]]

theorem ifQueues_run_twoSockets :
    ∃ s, twoSockets.foldlM step emptyIf = some s ∧ s.sent.map Packet.data = [[1], [2]] ∧ s.ifQueued = 1 ∧
      ∃ Q, Linked s Q ∧ s.ifQueued = Q.queued.length := by
  have h₀ : Initial emptyIf := ⟨fun _ => rfl, fun _ => rfl, fun _ => rfl, rfl, rfl, rfl, rfl⟩
  have hmalloc : ∀ (s : IfState) (k : ℕ), s.heap (.mbuf k) = false → (Event.get (some k)).Allowed s := by
    rintro s k h n hn
    obtain rfl := mem_some_iff.1 hn
    exact h
  have hinit : Reach emptyIf [] emptyIf := Reach.init
  have h₁ := Reach.step (.get (some 0)) hinit (hmalloc _ _ rfl) rfl
  have h₂ := Reach.step (.get (some 1)) h₁ (hmalloc _ _ rfl) rfl
  have h₃ := Reach.step (.get (some 2)) h₂ (hmalloc _ _ rfl) rfl
  have h₄ := Reach.step (.output (some 5) (.mbuf 0) [1] false []) h₃ ⟨rfl, rfl⟩ rfl
  have h₅ := Reach.step (.output (some 5) (.mbuf 1) [2] false []) h₄ ⟨rfl, rfl⟩ rfl
  have h₆ := Reach.step (.output none (.mbuf 2) [3] false []) h₅ ⟨rfl, rfl⟩ rfl
  have h₇ := Reach.step (.start [true, true]) h₆ trivial rfl
  obtain ⟨Q, hQ, hcount, -⟩ := ifQueues_run h₀ h₇
  exact ⟨_, rfl, rfl, rfl, Q, hQ, hcount⟩

end Emulator.Slirp
