import Emulator.Lib.Feed
import Emulator.Qemud.Serial

/-!
# `qemud_serial_read` as a byte machine

The abstract receiver `Rx` eats one byte at a time: it is collecting a header, or
the payload of a packet, or it skips. `qemudSerialRead_feed` shows that
`qemud_serial_read` on a chunk does what `Rx` does on the bytes of the chunk, from
every state that represents one of `Rx`; its loop always ends. So how a stream is
cut into chunks does not matter (`serialRead_chunks`).
-/

namespace Emulator.Qemud

open List

/-- What the abstract receiver is doing. `skip` is the overflow state: the counter
of the source is never decreased, so there is no way out of it. -/
inductive RxMode
  | header (acc : List UInt8)
  | payload (channel : ℤ) (size : ℕ) (acc : List UInt8)
  | skip
  deriving DecidableEq, Repr

structure Rx where
  version : QemudVersion
  mode : RxMode
  deriving DecidableEq, Repr

/-- Length and channel fields of a header in a given version. -/
def headerSize (v : QemudVersion) (h : List UInt8) : ℤ :=
  match v with
  | .legacy => hex2int (h.drop LEGACY_LENGTH_OFFSET) LENGTH_SIZE
  | _ => hex2int (h.drop LENGTH_OFFSET) LENGTH_SIZE

def headerChannel (v : QemudVersion) (h : List UInt8) : ℤ :=
  match v with
  | .legacy => hex2int (h.drop LEGACY_CHANNEL_OFFSET) CHANNEL_SIZE
  | _ => hex2int (h.drop CHANNEL_OFFSET) CHANNEL_SIZE

/-- The receiver after a complete header `h`. -/
def Rx.decode (v : QemudVersion) (h : List UInt8) : Rx :=
  let v := detectVersion v h
  if headerSize v h ≤ 0 ∨ headerChannel v h < 0 then ⟨v, .header []⟩
  else if (MAX_SERIAL_PAYLOAD : ℤ) < headerSize v h then ⟨v, .skip⟩
  else ⟨v, .payload (headerChannel v h) (headerSize v h).toNat []⟩

theorem decode_version (v : QemudVersion) (h : List UInt8) : (Rx.decode v h).version = detectVersion v h := by
  unfold Rx.decode
  dsimp only
  split_ifs <;> rfl

/-- One byte. -/
def Rx.byte (r : Rx) (b : UInt8) : Rx × List Packet :=
  match r.mode with
  | .header acc =>
    if acc.length + 1 < HEADER_SIZE then (⟨r.version, .header (acc ++ [b])⟩, [])
    else (Rx.decode r.version (acc ++ [b]), [])
  | .payload c n acc =>
    if acc.length + 1 < n then (⟨r.version, .payload c n (acc ++ [b])⟩, [])
    else (⟨r.version, .header []⟩, [⟨c, acc ++ [b]⟩])
  | .skip => (r, [])

/-- `s` is in the state `r`. -/
def Rep (s : QemudSerial) (r : Rx) : Prop :=
  s.data0.length = MAX_SERIAL_PAYLOAD + 1 ∧ s.header.size = HEADER_SIZE ∧ s.version = r.version ∧
  match r.mode with
  | .header acc => s.overflow = 0 ∧ s.needHeader = true ∧ s.header.len = acc.length ∧
      acc.length < HEADER_SIZE ∧ s.data0.take acc.length = acc
  | .payload c n acc => s.overflow = 0 ∧ s.needHeader = false ∧ s.header.len = 0 ∧
      s.inChannel = c ∧ s.payload.size = n ∧ n ≤ MAX_SERIAL_PAYLOAD ∧ s.payload.len = acc.length ∧
      acc.length < n ∧ s.data0.take acc.length = acc
  | .skip => 0 < s.overflow

theorem feed_skip (v : QemudVersion) (bs : List UInt8) :
    feed Rx.byte ⟨v, .skip⟩ bs = (⟨v, .skip⟩, []) := by
  induction bs with
  | nil => rfl
  | cons b bs ih => rw [feed_cons]; simp only [Rx.byte]; rw [ih]; rfl

variable {acc bs : List UInt8}

/-- Bytes that do not complete the header are collected. -/
theorem feed_header_short (v : QemudVersion) (h : acc.length + bs.length < HEADER_SIZE) :
    feed Rx.byte ⟨v, .header acc⟩ bs = (⟨v, .header (acc ++ bs)⟩, []) := by
  induction bs generalizing acc with
  | nil => simp
  | cons b bs ih =>
    simp only [length_cons] at h
    rw [feed_cons]
    simp only [Rx.byte, if_pos (show acc.length + 1 < HEADER_SIZE by omega)]
    rw [ih (by simp only [length_append, length_singleton]; omega)]
    simp

/-- The byte that completes the header decodes it. -/
theorem feed_header_full (v : QemudVersion) (hacc : acc.length < HEADER_SIZE)
    (h : acc.length + bs.length = HEADER_SIZE) :
    feed Rx.byte ⟨v, .header acc⟩ bs = (Rx.decode v (acc ++ bs), []) := by
  induction bs generalizing acc with
  | nil => simp at h; omega
  | cons b bs ih =>
    simp only [length_cons] at h
    rw [feed_cons]
    by_cases hb : acc.length + 1 < HEADER_SIZE
    · simp only [Rx.byte, if_pos hb]
      rw [ih (by simpa using hb) (by simp only [length_append, length_singleton]; omega)]
      simp
    · obtain rfl : bs = [] := length_eq_zero_iff.1 (by omega)
      simp [Rx.byte, hb]

theorem feed_payload_short (v : QemudVersion) (c : ℤ) {n : ℕ} (h : acc.length + bs.length < n) :
    feed Rx.byte ⟨v, .payload c n acc⟩ bs = (⟨v, .payload c n (acc ++ bs)⟩, []) := by
  induction bs generalizing acc with
  | nil => simp
  | cons b bs ih =>
    simp only [length_cons] at h
    rw [feed_cons]
    simp only [Rx.byte, if_pos (show acc.length + 1 < n by omega)]
    rw [ih (by simp only [length_append, length_singleton]; omega)]
    simp

theorem feed_payload_full (v : QemudVersion) (c : ℤ) {n : ℕ}
    (hacc : acc.length < n) (h : acc.length + bs.length = n) :
    feed Rx.byte ⟨v, .payload c n acc⟩ bs = (⟨v, .header []⟩, [⟨c, acc ++ bs⟩]) := by
  induction bs generalizing acc with
  | nil => simp at h; omega
  | cons b bs ih =>
    simp only [length_cons] at h
    rw [feed_cons]
    by_cases hb : acc.length + 1 < n
    · simp only [Rx.byte, if_pos hb]
      rw [ih (by simpa using hb) (by simp only [length_append, length_singleton]; omega)]
      simp
    · obtain rfl : bs = [] := length_eq_zero_iff.1 (by omega)
      simp [Rx.byte, hb]

/-- A sink that the message does not fill takes all of it. -/
theorem sinkFill_short (ss : QemudSink) (buff msg : List UInt8) (h : ss.len + msg.length < ss.size) :
    qemudSinkFill ss buff msg =
      ⟨false, { ss with len := ss.len + msg.length }, overwrite buff ss.len msg, []⟩ := by
  have hmin : min (ss.size - ss.len) msg.length = msg.length := by omega
  have hne : (ss.len + msg.length == ss.size) = false := by rw [beq_eq_false_iff_ne]; omega
  unfold qemudSinkFill
  rw [if_neg (by omega)]
  simp only [hmin, hne, take_length, drop_length]

/-- A sink that the message fills takes what it needs. -/
theorem sinkFill_full (ss : QemudSink) (buff pre post : List UInt8) (hlt : ss.len < ss.size)
    (h : ss.len + pre.length = ss.size) :
    qemudSinkFill ss buff (pre ++ post) =
      ⟨true, { ss with len := ss.size }, overwrite buff ss.len pre, post⟩ := by
  have hmin : min (ss.size - ss.len) (pre ++ post).length = pre.length := by
    rw [length_append]; omega
  unfold qemudSinkFill
  rw [if_neg (by omega)]
  simp only [hmin, h, take_left, drop_left, beq_self_eq_true]

variable {s : QemudSerial}

theorem payload_short {v : QemudVersion} {c : ℤ} {n : ℕ} {acc : List UInt8}
    (hr : Rep s ⟨v, .payload c n acc⟩) {src : List UInt8} (h : acc.length + src.length < n) :
    ∃ s', qemudSerialPayload s src = .stop s' ∧ Rep s' ⟨v, .payload c n (acc ++ src)⟩ := by
  obtain ⟨hd, hh, hv, ho, hn, hl, hc, hs, hm, hp, hlt, ht⟩ := hr
  have hfill := sinkFill_short s.payload s.data0 src
    (by rw [hp, hs]; exact h)
  have hlen : acc.length + src.length ≤ s.data0.length := by rw [hd]; omega
  refine ⟨_, by simp only [qemudSerialPayload, hfill]; rfl, ?_⟩
  refine ⟨?_, hh, hv, ho, hn, hl, hc, hs, hm, by simp [hp], by simpa using h, ?_⟩
  · simp only [hp]; rw [length_overwrite hlen]; exact hd
  · simp only [hp, length_append]
    rw [take_overwrite (by omega), ht]

theorem payload_full {v : QemudVersion} {c : ℤ} {n : ℕ} {acc pre : List UInt8}
    (hr : Rep s ⟨v, .payload c n acc⟩) (h : acc.length + pre.length = n) (post : List UInt8) :
    ∃ s', qemudSerialPayload s (pre ++ post) = .next s' post [⟨c, acc ++ pre⟩] ∧
      Rep s' ⟨v, .header []⟩ := by
  obtain ⟨hd, hh, hv, ho, hn, hl, hc, hs, hm, hp, hlt, ht⟩ := hr
  have hfill := sinkFill_full s.payload s.data0 pre post
    (by rw [hp, hs]; exact hlt) (by rw [hp, hs]; exact h)
  have hlen : acc.length + pre.length ≤ s.data0.length := by rw [hd]; omega
  have hfull : (overwrite s.data0 acc.length pre).length = s.data0.length := length_overwrite hlen
  have hmsg : (overwrite (overwrite s.data0 acc.length pre) n [0]).take n = acc ++ pre := by
    rw [take_overwrite_of_le le_rfl (by rw [hfull, hd]; omega), ← h, take_overwrite (by omega), ht]
  refine ⟨_, by simp only [qemudSerialPayload, hfill, hp, hs, hc, hmsg, if_true]; rfl, ?_⟩
  refine ⟨?_, hh, hv, ho, rfl, hl, by simp [HEADER_SIZE], by simp⟩
  rw [length_overwrite (by rw [hfull, hd]; simp only [length_singleton]; omega), hfull, hd]

/-- The fields of a decoded header only depend on its six bytes. -/
theorem header_fields {h : List UInt8} (hh : s.data0.take HEADER_SIZE = h) :
    (qemudSerialHeader s).version = detectVersion s.version h ∧
      (qemudSerialHeader s).inSize = headerSize (detectVersion s.version h) h ∧
      (qemudSerialHeader s).inChannel = headerChannel (detectVersion s.version h) h := by
  have hdet : detectVersion s.version s.data0 = detectVersion s.version h := by
    have hhh : h.take HEADER_SIZE = h := by rw [← hh, take_take, min_self]
    unfold detectVersion
    cases s.version <;> simp only [hh, hhh]
  -- a field read at offset `o` lies inside the header
  have hsub : ∀ o l, o + l ≤ HEADER_SIZE → (s.data0.drop o).take l = (h.drop o).take l := by
    intro o l hol
    rw [← hh, drop_take, take_take, min_eq_left (by omega)]
  refine ⟨hdet, ?_, ?_⟩
  · unfold qemudSerialHeader headerSize
    simp only [hdet, hex2int]
    cases detectVersion s.version h <;> simp only <;> rw [hsub _ _ (by decide)]
  · unfold qemudSerialHeader headerChannel
    simp only [hdet, hex2int]
    cases detectVersion s.version h <;> simp only <;> rw [hsub _ _ (by decide)]

/-- A header that is complete leaves the machine as `Rx.decode` says: before the
payload bytes, which the same iteration goes on to read, when there is a payload. -/
theorem header_decoded {v : QemudVersion} {h : List UInt8}
    (hd : s.data0.length = MAX_SERIAL_PAYLOAD + 1) (hsz : s.header.size = HEADER_SIZE)
    (hv : s.version = v) (ho : s.overflow = 0) (hn : s.needHeader = true)
    (hh : s.data0.take HEADER_SIZE = h) :
    let s₁ := qemudSerialHeader s
    if s₁.inSize ≤ 0 ∨ s₁.inChannel < 0 then Rep s₁ (Rx.decode v h)
    else if (MAX_SERIAL_PAYLOAD : ℤ) < s₁.inSize then
      Rep { s₁ with overflow := s₁.inSize.toNat } (Rx.decode v h)
    else ∃ c n, Rx.decode v h = ⟨detectVersion v h, .payload c n []⟩ ∧
      Rep { s₁ with needHeader := false, payload := qemudSinkReset s₁.inSize.toNat } (Rx.decode v h) := by
  obtain ⟨h1, h2, h3⟩ := header_fields hh
  rw [hv] at h1 h2 h3
  simp only [Rx.decode, h2, h3]
  have hlen : (qemudSerialHeader s).header.size = HEADER_SIZE := hsz
  split
  · exact ⟨hd, hlen, h1, ho, hn, rfl, by simp [HEADER_SIZE], by simp⟩
  split
  · rename_i hbig
    refine ⟨hd, hlen, h1, ?_⟩
    show 0 < (headerSize (detectVersion v h) h).toNat
    omega
  · rename_i hgood hsmall
    refine ⟨_, _, rfl, hd, hlen, h1, ho, rfl, rfl, rfl, rfl, ?_, rfl, ?_, by simp⟩
    · omega
    · simp only [length_nil]; omega

/-- One iteration on a non-empty chunk: it ends with every byte eaten, or goes on
with fewer bytes, in both cases as the byte machine does on the bytes it ate. -/
theorem readStep_feed {r : Rx} (hr : Rep s r) {src : List UInt8} (hne : src ≠ []) :
    (∃ s', qemudSerialReadStep s src = .stop s' ∧ (feed Rx.byte r src).2 = [] ∧
        Rep s' (feed Rx.byte r src).1) ∨
      ∃ s' pre post out, qemudSerialReadStep s src = .next s' post out ∧ src = pre ++ post ∧ pre ≠ [] ∧
        (feed Rx.byte r pre).2 = out ∧ Rep s' (feed Rx.byte r pre).1 := by
  obtain ⟨v, mode⟩ := r
  have hlen : 0 < src.length := length_pos_iff.2 hne
  cases mode with
  | skip =>
    have hpos : 0 < s.overflow := hr.2.2.2
    refine Or.inr ⟨s, src.take (min s.overflow src.length), _, [], ?_, (take_append_drop _ _).symm,
      ?_, ?_, ?_⟩
    · unfold qemudSerialReadStep; rw [if_pos hpos]
    · rw [← length_pos_iff, length_take]; omega
    · rw [feed_skip]
    · rw [feed_skip]; exact hr
  | payload c n acc =>
    obtain ⟨-, -, -, ho, hn, -, -, -, -, -, hlt, -⟩ := id hr
    have hstep : qemudSerialReadStep s src = qemudSerialPayload s src := by
      unfold qemudSerialReadStep; rw [if_neg (by omega), hn]; rfl
    rw [hstep]
    rcases Nat.lt_or_ge (acc.length + src.length) n with h | h
    · obtain ⟨s', h1, h2⟩ := payload_short hr h
      exact Or.inl ⟨s', h1, by rw [feed_payload_short v c h], by rw [feed_payload_short v c h]; exact h2⟩
    · obtain ⟨pre, post, rfl, hpre⟩ : ∃ pre post, src = pre ++ post ∧ acc.length + pre.length = n :=
        ⟨src.take (n - acc.length), src.drop (n - acc.length), (take_append_drop _ _).symm,
          by rw [length_take]; omega⟩
      obtain ⟨s', h1, h2⟩ := payload_full hr hpre post
      refine Or.inr ⟨s', pre, post, _, h1, rfl, ?_, ?_, ?_⟩
      · rintro rfl; simp at hpre; omega
      · rw [feed_payload_full v c hlt hpre]
      · rw [feed_payload_full v c hlt hpre]; exact h2
  | header acc =>
    obtain ⟨hd, hsz, hv, ho, hn, hl, hlt, ht⟩ := id hr
    rcases Nat.lt_or_ge (acc.length + src.length) HEADER_SIZE with h | h
    · have hfill := sinkFill_short s.header s.data0 src
        (by rw [hl, hsz]; exact h)
      have hfit : acc.length + src.length ≤ s.data0.length := by
        rw [hd]; unfold MAX_SERIAL_PAYLOAD; unfold HEADER_SIZE at h; omega
      refine Or.inl ⟨{ s with header := { s.header with len := s.header.len + src.length }
                              data0 := overwrite s.data0 s.header.len src }, ?_, ?_, ?_⟩
      · unfold qemudSerialReadStep
        rw [if_neg (by omega), if_pos hn]
        simp only [hfill]
        rfl
      · rw [feed_header_short v h]
      · rw [feed_header_short v h]
        refine ⟨?_, hsz, hv, ho, hn, by simp [hl], by simpa using h, ?_⟩
        · simp only [hl]; rw [length_overwrite hfit]; exact hd
        · simp only [hl, length_append]
          rw [take_overwrite (by omega), ht]
    · obtain ⟨pre, post, rfl, hpre⟩ : ∃ pre post, src = pre ++ post ∧ acc.length + pre.length = HEADER_SIZE :=
        ⟨src.take (HEADER_SIZE - acc.length), src.drop (HEADER_SIZE - acc.length),
          (take_append_drop _ _).symm, by rw [length_take]; omega⟩
      have hprene : pre ≠ [] := by rintro rfl; simp at hpre; omega
      have hfill := sinkFill_full s.header s.data0 pre post
        (by rw [hl, hsz]; exact hlt) (by rw [hl, hsz]; exact hpre)
      have hfit : acc.length + pre.length ≤ s.data0.length := by
        rw [hd, hpre]; decide
      set s₀ : QemudSerial := { s with header := { s.header with len := s.header.size }
                                       data0 := overwrite s.data0 s.header.len pre } with hs₀
      have hd₀ : s₀.data0.length = MAX_SERIAL_PAYLOAD + 1 := by
        simp only [hs₀, hl]; rw [length_overwrite hfit, hd]
      have ht₀ : s₀.data0.take HEADER_SIZE = acc ++ pre := by
        simp only [hs₀, hl]; rw [← hpre, take_overwrite (by omega), ht]
      have hdec := header_decoded (s := s₀) (v := v) hd₀ hsz hv ho hn ht₀
      have hfeed := feed_header_full v hlt hpre
      have hstep : qemudSerialReadStep s (pre ++ post) =
          (let s₁ := qemudSerialHeader s₀
           if s₁.inSize ≤ 0 ∨ s₁.inChannel < 0 then .next s₁ post []
           else if (MAX_SERIAL_PAYLOAD : ℤ) < s₁.inSize then
             .next { s₁ with overflow := s₁.inSize.toNat } post []
           else qemudSerialPayload
             { s₁ with needHeader := false, payload := qemudSinkReset s₁.inSize.toNat } post) := by
        unfold qemudSerialReadStep
        rw [if_neg (by omega), if_pos hn]
        simp only [hfill]
        rfl
      rw [hstep]
      simp only at hdec ⊢
      split
      · rename_i hbad
        rw [if_pos hbad] at hdec
        exact Or.inr ⟨_, pre, post, [], rfl, rfl, hprene, by rw [hfeed], by rw [hfeed]; exact hdec⟩
      rename_i hok
      rw [if_neg hok] at hdec
      split
      · rename_i hbig
        rw [if_pos hbig] at hdec
        exact Or.inr ⟨_, pre, post, [], rfl, rfl, hprene, by rw [hfeed], by rw [hfeed]; exact hdec⟩
      rename_i hsmall
      rw [if_neg hsmall] at hdec
      -- a payload follows: the same iteration goes on with the bytes after the header
      obtain ⟨c, n, hdeq, hrep⟩ := hdec
      rw [hdeq] at hrep hfeed
      have hn0 : 0 < n := by obtain ⟨-, -, -, -, -, -, -, -, -, -, h, -⟩ := hrep; simpa using h
      have happ := feed_append Rx.byte ⟨v, .header acc⟩ pre
      rw [hfeed] at happ
      rcases Nat.lt_or_ge post.length n with h' | h'
      · obtain ⟨s', h1, h2⟩ := payload_short hrep (show ([] : List UInt8).length + post.length < n by simpa using h')
        have hpay := feed_payload_short (detectVersion v (acc ++ pre)) c
          (show ([] : List UInt8).length + post.length < n by simpa using h')
        refine Or.inl ⟨s', h1, ?_, ?_⟩
        · rw [happ post, hpay]; rfl
        · rw [happ post, hpay]; exact h2
      · obtain ⟨q1, q2, rfl, hq⟩ : ∃ q1 q2, post = q1 ++ q2 ∧ q1.length = n :=
          ⟨post.take n, post.drop n, (take_append_drop _ _).symm, by rw [length_take]; omega⟩
        obtain ⟨s', h1, h2⟩ := payload_full hrep (show ([] : List UInt8).length + q1.length = n by simpa using hq) q2
        have hpay := feed_payload_full (detectVersion v (acc ++ pre)) c (show ([] : List UInt8).length < n from hn0)
          (show ([] : List UInt8).length + q1.length = n by simpa using hq)
        refine Or.inr ⟨s', pre ++ q1, q2, _, h1, by simp, by simp [hprene], ?_, ?_⟩
        · rw [happ q1, hpay]; rfl
        · rw [happ q1, hpay]; exact h2

/-- **A receive loop follows a byte machine** when each of its iterations does: the
induction over the iterations, once for every reader. `Ok` is a condition on the
machine's final state that the iterations may assume. -/
theorem receiveLoop_feed {σ ρ β : Type} {step : σ → List UInt8 → LoopStep σ β}
    {byte : ρ → UInt8 → ρ × List β} (R : σ → ρ → Prop) (Ok : ρ → Prop)
    (hstep : ∀ s r src, R s r → src ≠ [] → Ok (feed byte r src).1 →
      (∃ s', step s src = .stop s' ∧ (feed byte r src).2 = [] ∧ R s' (feed byte r src).1) ∨
      ∃ s' pre post out, step s src = .next s' post out ∧ src = pre ++ post ∧ pre ≠ [] ∧
        (feed byte r pre).2 = out ∧ R s' (feed byte r pre).1)
    {s : σ} {r : ρ} (hr : R s r) {src : List UInt8} {fuel : ℕ}
    (hf : src.length ≤ fuel) (hok : Ok (feed byte r src).1) :
    ∃ s', receiveLoop step fuel s src = some (s', (feed byte r src).2) ∧ R s' (feed byte r src).1 := by
  induction fuel generalizing s r src with
  | zero =>
    obtain rfl : src = [] := length_eq_zero_iff.1 (by omega)
    exact ⟨s, rfl, hr⟩
  | succ fuel ih =>
    cases src with
    | nil => exact ⟨s, rfl, hr⟩
    | cons x xs =>
      unfold receiveLoop
      rcases hstep s r _ hr (cons_ne_nil x xs) hok with
        ⟨s', h1, h2, h3⟩ | ⟨s', pre, post, out, h1, h2, h3, h4, h5⟩
      · exact ⟨s', by rw [h1]; simp only [h2], h3⟩
      · have hpos : 0 < pre.length := length_pos_iff.2 h3
        have hlen : post.length ≤ fuel := by
          have := congrArg List.length h2
          simp only [length_cons, length_append] at this hf
          omega
        rw [h2, feed_append] at hok
        obtain ⟨s'', h6, h7⟩ := ih h5 hlen hok
        refine ⟨s'', ?_, ?_⟩
        · rw [h1]; simp only [h6, Option.map_some, h2, feed_append, h4]
        · rw [h2, feed_append]; exact h7

/-- Successive calls of a reader that follows a byte machine. -/
theorem readChunks_feed {σ ρ β : Type} {read : σ → List UInt8 → Option (σ × List β)}
    {byte : ρ → UInt8 → ρ × List β} (R : σ → ρ → Prop) (Ok : ρ → Prop)
    (hread : ∀ s r src, R s r → Ok (feed byte r src).1 →
      ∃ s', read s src = some (s', (feed byte r src).2) ∧ R s' (feed byte r src).1)
    (hback : ∀ r src, Ok (feed byte r src).1 → Ok r)
    {s : σ} {r : ρ} (hr : R s r) (chunks : List (List UInt8)) (hok : Ok (feed byte r chunks.flatten).1) :
    ∃ s', readChunks read s chunks = some (s', (feed byte r chunks.flatten).2) ∧
      R s' (feed byte r chunks.flatten).1 := by
  induction chunks generalizing s r with
  | nil => exact ⟨s, rfl, hr⟩
  | cons c cs ih =>
    rw [flatten_cons, feed_append] at hok
    obtain ⟨s₁, h1, h2⟩ := hread s r c hr (hback _ _ hok)
    obtain ⟨s₂, h3, h4⟩ := ih h2 hok
    refine ⟨s₂, ?_, ?_⟩
    · simp only [readChunks, h1, h3, Option.bind_eq_bind, Option.bind_some, flatten_cons, feed_append]
    · rw [flatten_cons, feed_append]; exact h4

/-- **`qemud_serial_read` is the byte machine.** From a state that represents `r`,
the loop ends, hands over what the machine emits on the chunk, and leaves a state
that represents the machine's. -/
theorem qemudSerialRead_feed {r : Rx} (hr : Rep s r) (src : List UInt8) :
    ∃ s', qemudSerialRead s src = some (s', (feed Rx.byte r src).2) ∧ Rep s' (feed Rx.byte r src).1 :=
  receiveLoop_feed Rep (fun _ => True) (fun _ _ _ h hne _ => readStep_feed h hne) hr le_rfl trivial

/-- **Chunking does not matter** to `qemud_serial_read`. -/
theorem serialRead_chunks {r : Rx} (hr : Rep s r) (chunks : List (List UInt8)) :
    ∃ s', readChunks qemudSerialRead s chunks = some (s', (feed Rx.byte r chunks.flatten).2) ∧
      Rep s' (feed Rx.byte r chunks.flatten).1 :=
  readChunks_feed Rep (fun _ => True) (fun _ _ src h _ => qemudSerialRead_feed h src)
    (fun _ _ h => h) hr chunks trivial

/-- The initial state is waiting for a header of unknown version. -/
theorem rep_init (v : QemudVersion) : Rep { qemudSerialInit with version := v } ⟨v, .header []⟩ :=
  ⟨by simp [qemudSerialInit], rfl, rfl, rfl, rfl, rfl, by decide, by simp⟩

end Emulator.Qemud
