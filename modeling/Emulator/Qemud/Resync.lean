import Emulator.Qemud.Codec

/-!
# Oversized serial packets

A header that declares more than `MAX_SERIAL_PAYLOAD` bytes sets `overflow`, and
`qemud_serial_read` then skips bytes without counting `overflow` down: everything
after the first oversized header is lost (`feed_stream`). So the reader
resynchronises on the streams with the declared headers `hs` exactly when no
ordinary packet comes after an oversized one (`serial_resync_iff`), and, while the
version is not known, the stream does not begin with the header `"001200"`, which
is a packet of 4608 bytes on channel 0 but is taken for a legacy greeting.
-/

namespace Emulator.Qemud

open List

/-- A declared header: channel and payload length. -/
abbrev Declared := ℕ × ℕ

/-- The declared header of a packet. -/
def declared (p : ℕ × List UInt8) : Declared := (p.1, p.2.length)

/-- The packet is not longer than the receiver's buffer. -/
def ordinary (p : ℕ × List UInt8) : Bool := decide (p.2.length ≤ MAX_SERIAL_PAYLOAD)

/-- The stream of a list of packets. -/
def stream (v : QemudVersion) (ps : List (ℕ × List UInt8)) : List UInt8 :=
  ps.flatMap fun p => packetBytes v p.1 p.2

/-- The packets that fit, as calls of `recv_func`. -/
def deliverable (ps : List (ℕ × List UInt8)) : List Packet :=
  (ps.filter ordinary).map fun p => ⟨p.1, p.2⟩

/-- Every chunk is no longer than `qemud_serial_can_read` reports when it arrives. -/
def Paced : QemudSerial → List (List UInt8) → Prop
  | _, [] => True
  | s, c :: cs => c.length ≤ qemudSerialCanRead s ∧
      ∀ s' out, qemudSerialRead s c = some (s', out) → Paced s' cs

/-- **Resynchronisation** on all streams with the declared headers `hs`: whatever
the payloads and the chunking, exactly the packets that fit are delivered. -/
def Resyncs (v₀ v : QemudVersion) (hs : List Declared) : Prop :=
  ∀ ps, ps.map declared = hs → ∀ chunks : List (List UInt8), chunks.flatten = stream v ps →
    Paced { qemudSerialInit with version := v₀ } chunks →
    ∃ s, readChunks qemudSerialRead { qemudSerialInit with version := v₀ } chunks = some (s, deliverable ps)

variable {v₀ v : QemudVersion}

theorem feed_big {channel n : ℕ} (hc : channel ≤ 255) (hn : n ≤ 65535)
    (hbig : MAX_SERIAL_PAYLOAD < n) (hv : detectVersion v₀ (serialHeader v channel n) = v) :
    feed Rx.byte ⟨v₀, .header []⟩ (serialHeader v channel n) = (⟨v, .skip⟩, []) := by
  obtain ⟨h1, h2, h3⟩ := header_roundtrip (v := v) hc hn
  rw [feed_header_full v₀ (show ([] : List UInt8).length < HEADER_SIZE by decide) (by simpa using h3),
    nil_append]
  unfold Rx.decode
  simp only [hv, h1, h2]
  rw [if_neg (by omega), if_pos (by exact_mod_cast hbig)]

/-- **The packets before the first oversized one are delivered**, and no others. -/
theorem feed_stream (hvu : v ≠ .unknown) (ps : List (ℕ × List UInt8))
    (hps : ∀ p ∈ ps, p.1 ≤ 255 ∧ 0 < p.2.length ∧ p.2.length ≤ 65535)
    (hv : ∀ p ∈ ps.head?, detectVersion v₀ (serialHeader v p.1 p.2.length) = v) :
    (feed Rx.byte ⟨v₀, .header []⟩ (stream v ps)).2 =
      (ps.takeWhile ordinary).map fun p => ⟨p.1, p.2⟩ := by
  induction ps generalizing v₀ with
  | nil => rfl
  | cons p ps ih =>
    obtain ⟨hc, h0, hn⟩ := hps p mem_cons_self
    have hv' := hv p rfl
    have hstream : stream v (p :: ps) = packetBytes v p.1 p.2 ++ stream v ps := flatMap_cons
    rw [hstream]
    by_cases hp : p.2.length ≤ MAX_SERIAL_PAYLOAD
    · rw [feed_append, feed_packet hc ⟨h0, hp⟩ hv', takeWhile_cons_of_pos (by simpa [ordinary] using hp)]
      simp only
      rw [ih (fun q hq => hps q (mem_cons_of_mem _ hq)), map_cons]
      · rfl
      · intro q _
        cases v with
        | unknown => exact absurd rfl hvu
        | legacy => rfl
        | normal => rfl
    · unfold packetBytes
      rw [append_assoc, feed_append, feed_big hc hn (by omega) hv',
        takeWhile_cons_of_neg (by simpa [ordinary] using hp)]
      simp only
      rw [feed_skip]
      rfl

/-- Cutting at the first failure keeps what filtering keeps, exactly when nothing
good follows a failure. -/
theorem takeWhile_eq_filter_iff {α : Type} (p : α → Bool) (l : List α) :
    l.takeWhile p = l.filter p ↔ l.Pairwise fun a b => p a = false → p b = false := by
  induction l with
  | nil => simp
  | cons a l ih =>
    cases ha : p a with
    | true =>
      rw [takeWhile_cons_of_pos ha, filter_cons_of_pos ha, pairwise_cons, List.cons.injEq, ih]
      simp [ha]
    | false =>
      rw [takeWhile_cons_of_neg (by simp [ha]), filter_cons_of_neg (by simp [ha]), pairwise_cons]
      constructor
      · intro h
        have hall : ∀ b ∈ l, p b = false := by
          intro b hb
          have := filter_eq_nil_iff.1 h.symm b hb
          simpa using this
        exact ⟨fun b hb _ => hall b hb, pairwise_of_forall_mem_list fun _ _ y hy _ => hall y hy⟩
      · rintro ⟨h, -⟩
        symm
        rw [filter_eq_nil_iff]
        intro b hb
        simp [h b hb ha]

theorem canRead_pos {s : QemudSerial} {r : Rx} (hr : Rep s r) : 0 < qemudSerialCanRead s := by
  obtain ⟨v, m⟩ := r
  unfold qemudSerialCanRead
  cases m with
  | skip => have h : 0 < s.overflow := hr.2.2.2; rw [if_pos h]; exact h
  | header acc =>
    obtain ⟨-, hsz, -, ho, hn, hl, hlt, -⟩ := hr
    rw [if_neg (by omega), if_pos hn]
    unfold qemudSinkNeeded
    omega
  | payload c n acc =>
    obtain ⟨-, -, -, ho, hn, -, -, hs, -, hp, hlt, -⟩ := hr
    rw [if_neg (by omega), hn]
    simp only [Bool.false_eq_true, if_false, qemudSinkNeeded]
    omega

/-- A stream that arrives byte by byte is always paced. -/
theorem paced_singletons {s : QemudSerial} {r : Rx} (hr : Rep s r) (bs : List UInt8) :
    Paced s (bs.map fun b => [b]) := by
  induction bs generalizing s r with
  | nil => trivial
  | cons b bs ih =>
    refine ⟨canRead_pos hr, ?_⟩
    intro s' out hs'
    obtain ⟨s'', h1, h2⟩ := qemudSerialRead_feed hr [b]
    rw [h1] at hs'
    obtain rfl : s'' = s' := by simpa using congrArg Prod.fst (Option.some.inj hs')
    exact ih h2

theorem flatten_singletons (bs : List UInt8) : (bs.map fun b => [b]).flatten = bs := by
  induction bs with
  | nil => rfl
  | cons b bs ih => rw [map_cons, flatten_cons, ih]; rfl

/-- The packets of given headers, every payload made of one byte. -/
def fillPackets (b : UInt8) (hs : List Declared) : List (ℕ × List UInt8) :=
  hs.map fun h => (h.1, List.replicate h.2 b)

theorem fillPackets_declared (b : UInt8) (hs : List Declared) : (fillPackets b hs).map declared = hs := by
  unfold fillPackets
  rw [map_map]
  conv_rhs => rw [← map_id hs]
  congr 1
  funext h
  simp [declared]

theorem exists_ones (n : ℕ) : ∃ x : List UInt8, x.length = n + 1 ∧ 1 ∈ x.take 18 :=
  ⟨1 :: List.replicate n 1, by simp, by simp⟩

theorem packet_injective : Function.Injective fun p : ℕ × List UInt8 => (⟨p.1, p.2⟩ : Packet) := by
  rintro ⟨a, x⟩ ⟨b, y⟩ h
  simp only [Packet.mk.injEq, Nat.cast_inj] at h
  rw [h.1, h.2]

variable {ps : List (ℕ × List UInt8)}

theorem pairwise_ordinary :
    (ps.Pairwise fun a b => ordinary a = false → ordinary b = false) ↔
      (ps.map declared).Pairwise fun a b => MAX_SERIAL_PAYLOAD < a.2 → MAX_SERIAL_PAYLOAD < b.2 := by
  rw [pairwise_map]
  simp [ordinary, declared]

theorem valid_of_declared {hs : List Declared} (h : ps.map declared = hs)
    (hhs : ∀ h ∈ hs, h.1 ≤ 255 ∧ 0 < h.2 ∧ h.2 ≤ 65535) :
    ∀ p ∈ ps, p.1 ≤ 255 ∧ 0 < p.2.length ∧ p.2.length ≤ 65535 := by
  intro p hp
  exact hhs (declared p) (by rw [← h]; exact mem_map_of_mem hp)

/-- The only normal header that looks like a legacy greeting. -/
theorem normal_eq_legacy_iff {channel n : ℕ} (hc : channel ≤ 255) (hn : n ≤ 65535) :
    serialHeader .normal channel n = legacyHeader ↔ channel = 0 ∧ n = 4608 := by
  constructor
  · intro h
    obtain ⟨h1, h2, -⟩ := header_roundtrip (v := .normal) hc hn
    rw [h] at h1 h2
    rw [show headerSize .normal legacyHeader = 4608 by decide] at h1
    rw [show headerChannel .normal legacyHeader = 0 by decide] at h2
    omega
  · rintro ⟨rfl, rfl⟩
    decide

/-- The receiver of a stream starts in the version of the stream, or knows none. -/
def Starts (v₀ v : QemudVersion) : Prop := Agrees v₀ v ∨ v₀ = .normal ∧ v = .normal

theorem starts_ne (hv : Starts v₀ v) : v ≠ .unknown := by
  rcases hv with h | ⟨-, rfl⟩
  · exact agrees_ne h
  · decide

/-- The first header is understood as it was written. -/
theorem starts_detect (hv : Starts v₀ v) {channel n : ℕ} (hc : channel ≤ 255)
    (hn : n ≤ 65535) (hfirst : v₀ = .unknown → ¬ (channel = 0 ∧ n = 4608)) :
    detectVersion v₀ (serialHeader v channel n) = v := by
  rcases hv with (⟨rfl, rfl⟩ | ⟨rfl, rfl⟩) | ⟨rfl, rfl⟩
  · have hl := (header_roundtrip (v := .normal) hc hn).2.2
    unfold detectVersion
    rw [← hl, take_length, if_neg fun h => hfirst rfl ((normal_eq_legacy_iff hc hn).1 h)]
  · rfl
  · rfl

/-- What a paced reader hands over is what the byte machine emits. -/
theorem resync_feed (v₀ v : QemudVersion) (ps : List (ℕ × List UInt8)) (chunks : List (List UInt8))
    (hch : chunks.flatten = stream v ps) :
    (∃ s, readChunks qemudSerialRead { qemudSerialInit with version := v₀ } chunks =
        some (s, deliverable ps)) ↔
      (feed Rx.byte ⟨v₀, .header []⟩ (stream v ps)).2 = deliverable ps := by
  obtain ⟨s, h1, -⟩ := serialRead_chunks (rep_init v₀) chunks
  rw [h1, hch]
  simp only [Option.some.injEq, Prod.mk.injEq]
  exact ⟨fun ⟨_, _, h⟩ => h, fun h => ⟨s, rfl, h⟩⟩

/-- With the first header understood, delivery is right exactly when no ordinary
packet follows an oversized one. -/
theorem delivered_iff (hvu : v ≠ .unknown)
    (hps : ∀ p ∈ ps, p.1 ≤ 255 ∧ 0 < p.2.length ∧ p.2.length ≤ 65535)
    (hv : ∀ p ∈ ps.head?, detectVersion v₀ (serialHeader v p.1 p.2.length) = v) :
    (feed Rx.byte ⟨v₀, .header []⟩ (stream v ps)).2 = deliverable ps ↔
      (ps.map declared).Pairwise fun a b => MAX_SERIAL_PAYLOAD < a.2 → MAX_SERIAL_PAYLOAD < b.2 := by
  rw [feed_stream hvu ps hps hv, ← pairwise_ordinary, ← takeWhile_eq_filter_iff]
  unfold deliverable
  exact (map_injective_iff.2 packet_injective).eq_iff

/-- A stream that begins with 4608 bytes on channel 0, read by a receiver that does
not know its version yet: the first 18 bytes are taken for a legacy message. -/
theorem feed_misread {x : List UInt8} (hx : x.length = 4608) (ps : List (ℕ × List UInt8)) :
    ∃ out, (feed Rx.byte ⟨.unknown, .header []⟩ (stream .normal ((0, x) :: ps))).2 =
      ⟨0, x.take 18⟩ :: out := by
  have hsplit : stream .normal ((0, x) :: ps) =
      serialHeader .normal 0 4608 ++ (x.take 18 ++ (x.drop 18 ++ stream .normal ps)) := by
    have hcons : stream .normal ((0, x) :: ps) = packetBytes .normal 0 x ++ stream .normal ps :=
      flatMap_cons
    rw [hcons, packetBytes, hx, append_assoc, ← append_assoc (x.take 18), take_append_drop]
  have hhead : feed Rx.byte ⟨.unknown, .header []⟩ (serialHeader .normal 0 4608) =
      (⟨.legacy, .payload 0 18 []⟩, []) := by
    rw [feed_header_full .unknown (show ([] : List UInt8).length < HEADER_SIZE by decide)
      (by simpa using (header_roundtrip (v := .normal) (show 0 ≤ 255 by omega)
        (show 4608 ≤ 65535 by omega)).2.2)]
    decide
  have hlen : (x.take 18).length = 18 := by rw [length_take]; omega
  rw [hsplit, feed_append, hhead]
  simp only
  rw [feed_append, feed_payload_full .legacy 0 (show ([] : List UInt8).length < 18 by decide)
    (by rw [hlen]; rfl)]
  exact ⟨_, rfl⟩

/-- **When `qemud_serial_read` resynchronises.** Over all payloads and chunkings of
the streams with the declared headers `hs`, exactly the packets that fit are
delivered if and only if no ordinary header follows an oversized one and, for a
receiver that does not know its version, the first header is not channel 0 with
4608 bytes. -/
theorem serial_resync_iff {v₀ v : QemudVersion} (hv : Starts v₀ v) (hs : List Declared)
    (hhs : ∀ h ∈ hs, h.1 ≤ 255 ∧ 0 < h.2 ∧ h.2 ≤ 65535) :
    Resyncs v₀ v hs ↔
      (v₀ = .unknown → hs.head? ≠ some (0, 4608)) ∧
        hs.Pairwise fun a b => MAX_SERIAL_PAYLOAD < a.2 → MAX_SERIAL_PAYLOAD < b.2 := by
  have hdetect : (v₀ = .unknown → hs.head? ≠ some (0, 4608)) → ∀ ps : List (ℕ × List UInt8),
      ps.map declared = hs → ∀ p ∈ ps.head?, detectVersion v₀ (serialHeader v p.1 p.2.length) = v := by
    intro hfirst ps hps p hp
    obtain ⟨qs, rfl⟩ : ∃ qs, ps = p :: qs := by
      cases ps with
      | nil => simp at hp
      | cons q qs => simp at hp; subst hp; exact ⟨qs, rfl⟩
    obtain ⟨hc, -, hn⟩ := valid_of_declared hps hhs p mem_cons_self
    refine starts_detect hv hc hn fun h0 ⟨h1, h2⟩ => hfirst h0 ?_
    rw [← hps, map_cons, List.head?_cons, declared, h1, h2]
  constructor
  · intro h
    -- all payloads of one byte `b`, one byte at a time
    have hfill : ∀ ps, ps.map declared = hs →
        (feed Rx.byte ⟨v₀, .header []⟩ (stream v ps)).2 = deliverable ps := by
      intro ps hps
      refine (resync_feed v₀ v ps _ (flatten_singletons _)).1 ?_
      exact h ps hps _ (flatten_singletons _) (paced_singletons (rep_init v₀) _)
    have hfirst : v₀ = .unknown → hs.head? ≠ some (0, 4608) := by
      rintro rfl h0
      obtain ⟨hs', rfl⟩ : ∃ hs', hs = (0, 4608) :: hs' := by
        cases hs with
        | nil => simp at h0
        | cons q qs => simp at h0; subst h0; exact ⟨qs, rfl⟩
      obtain rfl : v = .normal := by
        rcases hv with (⟨-, rfl⟩ | ⟨h, -⟩) | ⟨h, -⟩
        · rfl
        · exact absurd h (by decide)
        · exact absurd h (by decide)
      -- the first payload is made of another byte than all the others
      obtain ⟨x, hx, h18⟩ := exists_ones 4607
      have hps := hfill ((0, x) :: fillPackets 0 hs')
        (by rw [map_cons, fillPackets_declared, declared, hx])
      obtain ⟨out, hout⟩ := feed_misread hx (fillPackets 0 hs')
      rw [hout] at hps
      have hmem : (⟨0, x.take 18⟩ : Packet) ∈ deliverable ((0, x) :: fillPackets 0 hs') := by
        rw [← hps]; exact mem_cons_self
      unfold deliverable at hmem
      rw [mem_map] at hmem
      obtain ⟨q, hq, hqe⟩ := hmem
      rw [mem_filter, mem_cons] at hq
      obtain ⟨rfl | hq, ho⟩ := hq
      · rw [ordinary, hx] at ho
        exact absurd ho (by decide)
      · unfold fillPackets at hq
        obtain ⟨d, -, rfl⟩ := mem_map.1 hq
        have hmsg : List.replicate d.2 (0 : UInt8) = x.take 18 := congrArg Packet.msg hqe
        rw [← hmsg, mem_replicate] at h18
        exact absurd h18.2 (by decide)
    refine ⟨hfirst, ?_⟩
    have hdec := fillPackets_declared 0 hs
    have hiff := delivered_iff (starts_ne hv) (valid_of_declared hdec hhs) (hdetect hfirst _ hdec)
    rw [hdec] at hiff
    exact hiff.1 (hfill _ hdec)
  · rintro ⟨hfirst, hpw⟩ ps hps chunks hch -
    rw [resync_feed v₀ v ps chunks hch,
      delivered_iff (starts_ne hv) (valid_of_declared hps hhs) (hdetect hfirst ps hps), hps]
    exact hpw

/-- The stream `"010fa1"`, 4001 bytes, `"010001"`, one byte, is not resynchronised:
the last packet is lost. -/
theorem serial_resync_fails :
    (∀ h ∈ ([(1, 4001), (1, 1)] : List Declared), h.1 ≤ 255 ∧ 0 < h.2 ∧ h.2 ≤ 65535) ∧
      ¬ Resyncs .unknown .normal [(1, 4001), (1, 1)] := by
  refine ⟨by decide, fun h => ?_⟩
  obtain ⟨x, hx, -⟩ := exists_ones 4000
  have hdec : [(1, x), (1, [0])].map declared = [(1, 4001), (1, 1)] := by
    simp only [map_cons, map_nil, declared, hx]
    rfl
  obtain ⟨s, hs⟩ := h _ hdec _ (flatten_singletons _) (paced_singletons (rep_init _) _)
  have hfeed := (resync_feed .unknown .normal _ _ (flatten_singletons _)).1 ⟨s, hs⟩
  have hdet : ∀ p ∈ [(1, x), (1, [0])].head?,
      detectVersion .unknown (serialHeader .normal p.1 p.2.length) = .normal := by
    intro p hp
    obtain rfl : (1, x) = p := by simpa using hp
    simp only [hx]
    decide
  have hpw := (delivered_iff (by decide) (valid_of_declared hdec (by decide)) hdet).1 hfeed
  rw [hdec] at hpw
  exact absurd hpw (by decide)

/-- Two ordinary packets and then an oversized one are read as they should be. -/
theorem serial_resync_last : Resyncs .unknown .normal [(1, 3), (2, 4000), (1, 4001)] :=
  (serial_resync_iff (Or.inl (Or.inl ⟨rfl, rfl⟩)) [(1, 3), (2, 4000), (1, 4001)] (by decide)).2 (by decide)

end Emulator.Qemud
