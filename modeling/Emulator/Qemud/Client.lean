import Emulator.Qemud.Receiver

/-!
# Qemud clients and framed reception

The `QemudClient` record of `android/hw-qemud.c` and `qemud_client_recv`, which
hands an unframed packet over as it is and reassembles the frames of a framed
client. The frame reader is again a byte machine (`FrameRx`), with one state the
serial reader does not have: after a frame header that is not a positive size the
source does not reset the header sink, and the loop spins (`stuck`). On every
input that does not reach it, `qemud_client_recv` is the machine
(`clientRecv_feed`).
-/

namespace Emulator.Qemud

open List

abbrev ClientPtr := ℕ
abbrev ServicePtr := ℕ

/-- The address of a cell that holds a `QemudClient*` of the global list: the list
head of the multiplexer, or the `next` field of a client. -/
inductive ClientLink
  | clients
  | next (c : ClientPtr)
  deriving DecidableEq, Repr

/-- A `QemudClient`. The callbacks are kept as whether they are set. -/
structure QemudClient where
  channel : ℤ
  clieRecv : Bool
  clieClose : Bool
  service : Option ServicePtr
  nextServ : Option ClientPtr
  next : Option ClientPtr
  pref : ClientLink
  framing : Bool
  needHeader : Bool
  header : QemudSink
  header0 : List UInt8
  payload : QemudSink
  payloadBuff : List UInt8
  deriving DecidableEq, Repr

/-- The record `qemud_client_alloc` makes, before it is linked anywhere. -/
def newClient (channel : ℤ) (recv close : Bool) : QemudClient where
  channel := channel
  clieRecv := recv
  clieClose := close
  service := none
  nextServ := none
  next := none
  pref := .clients
  framing := false
  needHeader := true
  header := qemudSinkReset FRAME_HEADER_SIZE
  header0 := List.replicate FRAME_HEADER_SIZE 0
  payload := ⟨0, 0⟩
  payloadBuff := []

/-- `qemud_client_set_framing`. -/
def qemudClientSetFraming (c : QemudClient) (framing : Bool) : QemudClient :=
  if c.framing ∧ ¬ c.needHeader then { c with payloadBuff := [], needHeader := true, framing := framing }
  else { c with framing := framing }

/-- The payload part of an iteration of `qemud_client_recv`. -/
def qemudClientPayload (c : QemudClient) (msg : List UInt8) : LoopStep QemudClient (List UInt8) :=
  let f := qemudSinkFill c.payload c.payloadBuff msg
  let c := { c with payload := f.sink, payloadBuff := f.buff }
  if f.full then
    let c := { c with payloadBuff := overwrite c.payloadBuff c.payload.size [0], needHeader := true }
    .next c f.rest (if c.clieRecv then [c.payloadBuff.take c.payload.size] else [])
  else .stop c

/-- One iteration of the loop of `qemud_client_recv`. An empty or corrupted frame
header goes back to the loop head with the header sink still full. -/
def qemudClientRecvStep (c : QemudClient) (msg : List UInt8) : LoopStep QemudClient (List UInt8) :=
  if c.needHeader then
    let f := qemudSinkFill c.header c.header0 msg
    let c := { c with header := f.sink, header0 := f.buff }
    if f.full then
      let frameSize := hex2int c.header0 FRAME_HEADER_SIZE
      if frameSize = 0 then .next c f.rest []
      else if frameSize < 0 then .next c f.rest []
      else
        qemudClientPayload
          { c with
            payload := qemudSinkReset frameSize.toNat
            payloadBuff := List.replicate (frameSize.toNat + 1) 0
            needHeader := false
            header := { c.header with len := 0 } } f.rest
    else .stop c
  else qemudClientPayload c msg

/-- `qemud_client_recv`, with the arguments of its `clie_recv` calls. -/
def qemudClientRecv (c : QemudClient) (msg : List UInt8) : Option (QemudClient × List (List UInt8)) :=
  if ¬ c.framing then some (c, if c.clieRecv then [msg] else [])
  else if FRAME_HEADER_SIZE < msg.length ∧ c.needHeader = true ∧ qemudSinkNeeded c.header = 0 ∧
      0 ≤ hex2int msg FRAME_HEADER_SIZE ∧
      (msg.length : ℤ) = hex2int msg FRAME_HEADER_SIZE + FRAME_HEADER_SIZE then
    some (c, if c.clieRecv then [msg.drop FRAME_HEADER_SIZE] else [])
  else receiveLoop qemudClientRecvStep msg.length c msg

inductive FrameRx
  | header (acc : List UInt8)
  | payload (size : ℕ) (acc : List UInt8)
  | stuck
  deriving DecidableEq, Repr

/-- The machine after a complete frame header. -/
def FrameRx.decode (h : List UInt8) : FrameRx :=
  if hex2int h FRAME_HEADER_SIZE ≤ 0 then .stuck
  else .payload (hex2int h FRAME_HEADER_SIZE).toNat []

def FrameRx.byte (r : FrameRx) (b : UInt8) : FrameRx × List (List UInt8) :=
  match r with
  | .header acc =>
    if acc.length + 1 < FRAME_HEADER_SIZE then (.header (acc ++ [b]), [])
    else (FrameRx.decode (acc ++ [b]), [])
  | .payload n acc =>
    if acc.length + 1 < n then (.payload n (acc ++ [b]), [])
    else (.header [], [acc ++ [b]])
  | .stuck => (.stuck, [])

/-- The framed client `c` is in the state `r`. -/
def ClientRep (c : QemudClient) (r : FrameRx) : Prop :=
  c.framing = true ∧ c.clieRecv = true ∧ c.header.size = FRAME_HEADER_SIZE ∧
  c.header0.length = FRAME_HEADER_SIZE ∧
  match r with
  | .header acc => c.needHeader = true ∧ c.header.len = acc.length ∧ acc.length < FRAME_HEADER_SIZE ∧
      c.header0.take acc.length = acc
  | .payload n acc => c.needHeader = false ∧ c.header.len = 0 ∧ c.payload.size = n ∧
      c.payload.len = acc.length ∧ acc.length < n ∧ c.payloadBuff.length = n + 1 ∧
      c.payloadBuff.take acc.length = acc
  | .stuck => False

/-- The header sink of the framed client is full with an empty or corrupted frame header. -/
structure Stalled (c : QemudClient) : Prop where
  framing : c.framing = true
  recv : c.clieRecv = true
  size : c.header.size = FRAME_HEADER_SIZE
  len : c.header.len = FRAME_HEADER_SIZE
  header0 : c.header0.length = FRAME_HEADER_SIZE
  needHeader : c.needHeader = true
  bad : hex2int c.header0 FRAME_HEADER_SIZE ≤ 0

/-- An empty or corrupted frame header is complete before the end of the message. -/
def BadHeaderInside (r : FrameRx) (msg : List UInt8) : Prop :=
  ∃ pre post, msg = pre ++ post ∧ post ≠ [] ∧ (feed FrameRx.byte r pre).1 = .stuck

theorem feed_stuck (bs : List UInt8) : feed FrameRx.byte .stuck bs = (.stuck, []) := by
  induction bs with
  | nil => rfl
  | cons b bs ih => rw [feed_cons]; simp only [FrameRx.byte]; rw [ih]; rfl

variable {acc bs : List UInt8}

theorem feed_frame_header_short (h : acc.length + bs.length < FRAME_HEADER_SIZE) :
    feed FrameRx.byte (.header acc) bs = (.header (acc ++ bs), []) := by
  induction bs generalizing acc with
  | nil => simp
  | cons b bs ih =>
    simp only [length_cons] at h
    rw [feed_cons]
    simp only [FrameRx.byte, if_pos (show acc.length + 1 < FRAME_HEADER_SIZE by omega)]
    rw [ih (by simp only [length_append, length_singleton]; omega)]
    simp

theorem feed_frame_header_full (hacc : acc.length < FRAME_HEADER_SIZE)
    (h : acc.length + bs.length = FRAME_HEADER_SIZE) :
    feed FrameRx.byte (.header acc) bs = (FrameRx.decode (acc ++ bs), []) := by
  induction bs generalizing acc with
  | nil => simp at h; omega
  | cons b bs ih =>
    simp only [length_cons] at h
    rw [feed_cons]
    by_cases hb : acc.length + 1 < FRAME_HEADER_SIZE
    · simp only [FrameRx.byte, if_pos hb]
      rw [ih (by simpa using hb) (by simp only [length_append, length_singleton]; omega)]
      simp
    · obtain rfl : bs = [] := length_eq_zero_iff.1 (by omega)
      simp [FrameRx.byte, hb]

theorem feed_frame_payload_short {n : ℕ} (h : acc.length + bs.length < n) :
    feed FrameRx.byte (.payload n acc) bs = (.payload n (acc ++ bs), []) := by
  induction bs generalizing acc with
  | nil => simp
  | cons b bs ih =>
    simp only [length_cons] at h
    rw [feed_cons]
    simp only [FrameRx.byte, if_pos (show acc.length + 1 < n by omega)]
    rw [ih (by simp only [length_append, length_singleton]; omega)]
    simp

theorem feed_frame_payload_full {n : ℕ} (hacc : acc.length < n) (h : acc.length + bs.length = n) :
    feed FrameRx.byte (.payload n acc) bs = (.header [], [acc ++ bs]) := by
  induction bs generalizing acc with
  | nil => simp at h; omega
  | cons b bs ih =>
    simp only [length_cons] at h
    rw [feed_cons]
    by_cases hb : acc.length + 1 < n
    · simp only [FrameRx.byte, if_pos hb]
      rw [ih (by simpa using hb) (by simp only [length_append, length_singleton]; omega)]
      simp
    · obtain rfl : bs = [] := length_eq_zero_iff.1 (by omega)
      simp [FrameRx.byte, hb]

variable {c : QemudClient}

theorem clientPayload_short {n : ℕ} {acc : List UInt8} (hr : ClientRep c (.payload n acc))
    {src : List UInt8} (h : acc.length + src.length < n) :
    ∃ c', qemudClientPayload c src = .stop c' ∧ ClientRep c' (.payload n (acc ++ src)) := by
  obtain ⟨hf, hcb, hsz, hh0, hn, hl, hs, hp, hlt, hb, ht⟩ := hr
  have hfill := sinkFill_short c.payload c.payloadBuff src (by rw [hp, hs]; exact h)
  have hlen : acc.length + src.length ≤ c.payloadBuff.length := by omega
  refine ⟨_, by simp only [qemudClientPayload, hfill]; rfl, ?_⟩
  refine ⟨hf, hcb, hsz, hh0, hn, hl, hs, by simp [hp], by simpa using h, ?_, ?_⟩
  · simp only [hp]; rw [length_overwrite hlen]; exact hb
  · simp only [hp, length_append]
    rw [take_overwrite (by omega), ht]

theorem clientPayload_full {n : ℕ} {acc pre : List UInt8}
    (hr : ClientRep c (.payload n acc)) (h : acc.length + pre.length = n) (post : List UInt8) :
    ∃ c', qemudClientPayload c (pre ++ post) = .next c' post [acc ++ pre] ∧ ClientRep c' (.header []) := by
  obtain ⟨hf, hcb, hsz, hh0, hn, hl, hs, hp, hlt, hb, ht⟩ := hr
  have hfill := sinkFill_full c.payload c.payloadBuff pre post (by rw [hp, hs]; exact hlt)
    (by rw [hp, hs]; exact h)
  have hlen : acc.length + pre.length ≤ c.payloadBuff.length := by omega
  have hfull : (overwrite c.payloadBuff acc.length pre).length = c.payloadBuff.length := length_overwrite hlen
  have hmsg : (overwrite (overwrite c.payloadBuff acc.length pre) n [0]).take n = acc ++ pre := by
    rw [take_overwrite_of_le le_rfl (by omega), ← h, take_overwrite (by omega), ht]
  refine ⟨_, by simp only [qemudClientPayload, hfill, hp, hs, hcb, hmsg, if_true]; rfl, ?_⟩
  exact ⟨hf, rfl, hsz, hh0, rfl, hl, by simp [FRAME_HEADER_SIZE], by simp⟩

variable {r : FrameRx}

/-- One iteration on a non-empty packet. -/
theorem clientStep_any (hr : ClientRep c r) {src : List UInt8} (hne : src ≠ []) :
    (∃ c', qemudClientRecvStep c src = .stop c' ∧ (feed FrameRx.byte r src).2 = [] ∧
        ClientRep c' (feed FrameRx.byte r src).1) ∨
      ∃ c' pre post out, qemudClientRecvStep c src = .next c' post out ∧ src = pre ++ post ∧ pre ≠ [] ∧
        (feed FrameRx.byte r pre).2 = out ∧
        (ClientRep c' (feed FrameRx.byte r pre).1 ∨
          ((feed FrameRx.byte r pre).1 = .stuck ∧ ¬ BadHeaderInside r pre ∧ Stalled c')) := by
  have hlen : 0 < src.length := length_pos_iff.2 hne
  cases r with
  | stuck => exact absurd hr.2.2.2.2 id
  | payload n acc =>
    obtain ⟨-, -, -, -, hn, -, -, -, hlt, -⟩ := id hr
    have hstep : qemudClientRecvStep c src = qemudClientPayload c src := by
      unfold qemudClientRecvStep; rw [hn]; rfl
    rw [hstep]
    rcases Nat.lt_or_ge (acc.length + src.length) n with h | h
    · obtain ⟨c', h1, h2⟩ := clientPayload_short hr h
      exact Or.inl ⟨c', h1, by rw [feed_frame_payload_short h], by rw [feed_frame_payload_short h]; exact h2⟩
    · obtain ⟨pre, post, rfl, hpre⟩ : ∃ pre post, src = pre ++ post ∧ acc.length + pre.length = n :=
        ⟨src.take (n - acc.length), src.drop (n - acc.length), (take_append_drop _ _).symm,
          by rw [length_take]; omega⟩
      obtain ⟨c', h1, h2⟩ := clientPayload_full hr hpre post
      refine Or.inr ⟨c', pre, post, _, h1, rfl, ?_, ?_, ?_⟩
      · rintro rfl; simp at hpre; omega
      · rw [feed_frame_payload_full hlt hpre]
      · rw [feed_frame_payload_full hlt hpre]; exact Or.inl h2
  | header acc =>
    obtain ⟨hf, hcb, hsz, hh0, hn, hl, hlt, ht⟩ := id hr
    rcases Nat.lt_or_ge (acc.length + src.length) FRAME_HEADER_SIZE with h | h
    · have hfill := sinkFill_short c.header c.header0 src (by rw [hl, hsz]; exact h)
      have hfit : acc.length + src.length ≤ c.header0.length := by omega
      refine Or.inl ⟨{ c with header := { c.header with len := c.header.len + src.length }
                              header0 := overwrite c.header0 c.header.len src }, ?_, ?_, ?_⟩
      · unfold qemudClientRecvStep
        rw [if_pos hn]
        simp only [hfill]
        rfl
      · rw [feed_frame_header_short h]
      · rw [feed_frame_header_short h]
        refine ⟨hf, hcb, hsz, ?_, hn, by simp [hl], by simpa using h, ?_⟩
        · simp only [hl]; rw [length_overwrite hfit]; exact hh0
        · simp only [hl, length_append]
          rw [take_overwrite (by omega), ht]
    · obtain ⟨pre, post, rfl, hpre⟩ :
          ∃ pre post, src = pre ++ post ∧ acc.length + pre.length = FRAME_HEADER_SIZE :=
        ⟨src.take (FRAME_HEADER_SIZE - acc.length), src.drop (FRAME_HEADER_SIZE - acc.length),
          (take_append_drop _ _).symm, by rw [length_take]; omega⟩
      have hprene : pre ≠ [] := by rintro rfl; simp at hpre; omega
      have hfill := sinkFill_full c.header c.header0 pre post (by rw [hl, hsz]; exact hlt)
        (by rw [hl, hsz]; exact hpre)
      have hfit : acc.length + pre.length ≤ c.header0.length := by omega
      have hh : overwrite c.header0 c.header.len pre = acc ++ pre := by
        have h1 : (overwrite c.header0 acc.length pre).length = acc.length + pre.length := by
          rw [length_overwrite hfit]; omega
        have h2 : (overwrite c.header0 acc.length pre).take (acc.length + pre.length) = _ :=
          take_overwrite (by omega)
        rwa [← h1, take_length, ht, ← hl] at h2
      have hfeed := feed_frame_header_full hlt hpre
      have happ := feed_append FrameRx.byte (.header acc) pre
      rw [hfeed] at happ
      by_cases hpos : hex2int (acc ++ pre) FRAME_HEADER_SIZE ≤ 0
      · -- the size in the header is not positive: the loop goes on with the header sink full
        refine Or.inr ⟨{ c with header := { c.header with len := c.header.size }, header0 := acc ++ pre }, pre,
          post, [],
          ?_, rfl, hprene, ?_,
          Or.inr ⟨?_, ?_, hf, hcb, hsz, hsz, by rw [← hpre, length_append], hn, hpos⟩⟩
        · unfold qemudClientRecvStep
          rw [if_pos hn]
          simp only [hfill, hh, if_true]
          split_ifs
          · rfl
          · rfl
          · omega
        · rw [hfeed]
        · rw [hfeed]
          exact if_pos hpos
        · rintro ⟨q, t, rfl, ht, hstuck⟩
          have htpos := length_pos_iff.2 ht
          rw [length_append] at hpre
          rw [feed_frame_header_short (by omega)] at hstuck
          exact absurd hstuck (by simp)
      obtain ⟨n, hn'⟩ : ∃ n : ℕ, hex2int (acc ++ pre) FRAME_HEADER_SIZE = n :=
        Int.eq_ofNat_of_zero_le (by omega)
      have hdec : FrameRx.decode (acc ++ pre) = .payload n [] := by
        unfold FrameRx.decode; rw [if_neg hpos, hn']; rfl
      have hn0 : 0 < n := by omega
      rw [hdec] at happ hfeed
      set c₀ : QemudClient := { c with
        header := { c.header with len := 0 }
        header0 := acc ++ pre
        payload := qemudSinkReset n
        payloadBuff := List.replicate (n + 1) 0
        needHeader := false } with hc₀
      have hrep : ClientRep c₀ (.payload n []) :=
        ⟨hf, hcb, hsz, by simp only [hc₀, length_append]; exact hpre, rfl, rfl, rfl, rfl, hn0,
          by simp [hc₀], by simp⟩
      have hstep : qemudClientRecvStep c (pre ++ post) = qemudClientPayload c₀ post := by
        unfold qemudClientRecvStep
        rw [if_pos hn]
        simp only [hfill, hh, hn', if_true, Int.toNat_natCast]
        rw [if_neg (by omega), if_neg (by omega)]
      rw [hstep]
      rcases Nat.lt_or_ge post.length n with h' | h'
      · have h'' : ([] : List UInt8).length + post.length < n := by simpa using h'
        obtain ⟨c', h1, h2⟩ := clientPayload_short hrep h''
        refine Or.inl ⟨c', h1, ?_, ?_⟩
        · rw [happ post, feed_frame_payload_short h'']; rfl
        · rw [happ post, feed_frame_payload_short h'']; exact h2
      · obtain ⟨q1, q2, rfl, hq⟩ : ∃ q1 q2, post = q1 ++ q2 ∧ q1.length = n :=
          ⟨post.take n, post.drop n, (take_append_drop _ _).symm, by rw [length_take]; omega⟩
        have hq' : ([] : List UInt8).length + q1.length = n := by simpa using hq
        obtain ⟨c', h1, h2⟩ := clientPayload_full hrep hq' q2
        refine Or.inr ⟨c', pre ++ q1, q2, _, h1, by simp, by simp [hprene], ?_, ?_⟩
        · rw [happ q1, feed_frame_payload_full (show ([] : List UInt8).length < n from hn0) hq']; rfl
        · rw [happ q1, feed_frame_payload_full (show ([] : List UInt8).length < n from hn0) hq']
          exact Or.inl h2

/-- One iteration on a non-empty packet that does not end in a stuck state. -/
theorem clientStep_feed (hr : ClientRep c r) {src : List UInt8}
    (hne : src ≠ []) (hok : (feed FrameRx.byte r src).1 ≠ .stuck) :
    (∃ c', qemudClientRecvStep c src = .stop c' ∧ (feed FrameRx.byte r src).2 = [] ∧
        ClientRep c' (feed FrameRx.byte r src).1) ∨
      ∃ c' pre post out, qemudClientRecvStep c src = .next c' post out ∧ src = pre ++ post ∧ pre ≠ [] ∧
        (feed FrameRx.byte r pre).2 = out ∧ ClientRep c' (feed FrameRx.byte r pre).1 := by
  rcases clientStep_any hr hne with hstop | ⟨c', pre, post, out, hnext, rfl, hpre, hout, hrep⟩
  · exact Or.inl hstop
  · refine Or.inr ⟨c', pre, post, out, hnext, rfl, hpre, hout, hrep.resolve_right fun hstuck => ?_⟩
    apply hok
    rw [feed_append, hstuck.1, feed_stuck]

/-- The header sink is not full at the head of a call, so the shortcut is not taken. -/
theorem ClientRep.not_full (hr : ClientRep c r) :
    ¬ (c.needHeader = true ∧ qemudSinkNeeded c.header = 0) := by
  rintro ⟨h1, h2⟩
  unfold qemudSinkNeeded at h2
  obtain ⟨-, -, hsz, -, hm⟩ := hr
  cases r with
  | stuck => exact hm
  | payload n acc => rw [hm.1] at h1; exact absurd h1 (by decide)
  | header acc => have := hm.2.1; have := hm.2.2.1; omega

/-- **`qemud_client_recv` on a framed client is the frame machine**, unless the
packet leads it into the stuck state. -/
theorem clientRecv_feed (hr : ClientRep c r) (src : List UInt8)
    (hok : (feed FrameRx.byte r src).1 ≠ .stuck) :
    ∃ c', qemudClientRecv c src = some (c', (feed FrameRx.byte r src).2) ∧
      ClientRep c' (feed FrameRx.byte r src).1 := by
  have hfr : c.framing = true := hr.1
  have hneed := hr.not_full
  unfold qemudClientRecv
  rw [if_neg (by simp [hfr]), if_neg (by tauto)]
  exact receiveLoop_feed ClientRep (· ≠ .stuck) (fun _ _ _ h hne hk => clientStep_feed h hne hk) hr le_rfl hok

end Emulator.Qemud
