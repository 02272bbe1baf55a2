import Emulator.Qemud.Client

/-!
# The qemud transport is a faithful codec

`qemud_serial_send` cuts a message, behind its frame header if the channel is
framed, into packets of at most `MAX_SERIAL_PAYLOAD` bytes (`serialSend_eq`). The
two readers put it together again:

* `feed_packets`: the serial reader hands over exactly the packets sent;
* `framed_packets`, `unframed_packets`: the packets of a channel give its messages;
* `qemud_codec`: both, for every list of messages and every chunking.
-/

namespace Emulator.Qemud

open List

theorem hexdigit_hexchars {d : ℕ} (hd : d < 16) : hexdigit (hexchars.getD d 0) = d := by
  interval_cases d <;> decide

theorem hex2intLoop_int2hex (len val acc : ℕ) :
    hex2intLoop acc (int2hex len val) = ((acc * 16 ^ len + val % 16 ^ len : ℕ) : ℤ) := by
  induction len generalizing acc with
  | zero => simp [int2hex, hex2intLoop, Nat.mod_one]
  | succ len ih =>
    -- the digit written at this place
    have hdig : (val >>> (len * 4)) &&& 15 = val / 16 ^ len % 16 := by
      rw [Nat.shiftRight_eq_div_pow, Nat.and_two_pow_sub_one_eq_mod _ 4, Nat.mul_comm, Nat.pow_mul]
    have hlt : val / 16 ^ len % 16 < 16 := Nat.mod_lt _ (by norm_num)
    have hshift : (acc <<< 4) ||| (val / 16 ^ len % 16) = acc * 16 + val / 16 ^ len % 16 := by
      rw [← Nat.shiftLeft_add_eq_or_of_lt (by simpa using hlt), Nat.shiftLeft_eq]
    simp only [int2hex, hex2intLoop, hdig, hexdigit_hexchars hlt]
    rw [if_neg (by omega), Int.toNat_natCast, hshift, ih]
    have hmod : val % 16 ^ (len + 1) = val / 16 ^ len % 16 * 16 ^ len + val % 16 ^ len := by
      rw [Nat.pow_succ, Nat.mod_mul, Nat.mul_comm, Nat.add_comm]
    rw [hmod]
    congr 1
    ring

theorem length_int2hex (len val : ℕ) : (int2hex len val).length = len := by
  induction len with
  | zero => rfl
  | succ len ih => simp [int2hex, ih]

/-- **A hexadecimal field reads back**, whatever follows it. -/
theorem hex2int_int2hex {len val : ℕ} (h : val < 16 ^ len) (rest : List UInt8) :
    hex2int (int2hex len val ++ rest) len = val := by
  unfold hex2int
  rw [take_append_of_le_length (by rw [length_int2hex]),
    take_of_length_le (by rw [length_int2hex]), hex2intLoop_int2hex, Nat.mod_eq_of_lt h]
  simp

variable {channel n : ℕ}

/-- A packet header reads back in its own version. -/
theorem header_roundtrip {v : QemudVersion} (hc : channel ≤ 255) (hn : n ≤ 65535) :
    headerSize v (serialHeader v channel n) = n ∧ headerChannel v (serialHeader v channel n) = channel ∧
      (serialHeader v channel n).length = HEADER_SIZE := by
  have hc' : channel < 16 ^ CHANNEL_SIZE := by simp only [CHANNEL_SIZE]; omega
  have hn' : n < 16 ^ LENGTH_SIZE := by simp only [LENGTH_SIZE]; omega
  have e1 := hex2int_int2hex hn' []
  have e2 := hex2int_int2hex hc' []
  rw [append_nil] at e1 e2
  have d1 : (int2hex CHANNEL_SIZE channel ++ int2hex LENGTH_SIZE n).drop LENGTH_OFFSET = int2hex LENGTH_SIZE n :=
    drop_left' (length_int2hex _ _)
  have d2 : (int2hex LENGTH_SIZE n ++ int2hex CHANNEL_SIZE channel).drop LEGACY_CHANNEL_OFFSET =
      int2hex CHANNEL_SIZE channel := drop_left' (length_int2hex _ _)
  have l : (serialHeader v channel n).length = HEADER_SIZE := by
    cases v <;> simp [serialHeader, length_int2hex, HEADER_SIZE, LENGTH_SIZE, CHANNEL_SIZE]
  refine ⟨?_, ?_, l⟩
  · cases v <;> simp only [headerSize, serialHeader, d1, e1, LEGACY_LENGTH_OFFSET, drop_zero]
    exact hex2int_int2hex hn' _
  · cases v <;> simp only [headerChannel, serialHeader, d2, e2, CHANNEL_OFFSET, drop_zero]
    all_goals exact hex2int_int2hex hc' _

/-- A normal header that a sender can write is not the legacy greeting, which
declares 4608 bytes. -/
theorem normal_ne_legacy (hc : channel ≤ 255) (hn : n ≤ MAX_SERIAL_PAYLOAD) :
    serialHeader .normal channel n ≠ legacyHeader := by
  intro h
  have hs := (header_roundtrip (v := .normal) hc (show n ≤ 65535 from le_trans hn (by decide))).1
  rw [h, show headerSize .normal legacyHeader = 4608 by decide] at hs
  unfold MAX_SERIAL_PAYLOAD at hn
  omega

/-- The bytes of a message on its channel: the message, behind its length if the
channel is framed. -/
def frameBody (framing : Bool) (msg : List UInt8) : List UInt8 :=
  (if framing then int2hex FRAME_HEADER_SIZE msg.length else []) ++ msg

/-- Pieces of at most `MAX_SERIAL_PAYLOAD` bytes. -/
def serialPieces : ℕ → List UInt8 → List (List UInt8)
  | 0, _ => []
  | fuel + 1, body =>
    if body = [] then []
    else body.take MAX_SERIAL_PAYLOAD :: serialPieces fuel (body.drop MAX_SERIAL_PAYLOAD)

/-- A packet as it stands on the serial line. -/
def packetBytes (v : QemudVersion) (channel : ℕ) (p : List UInt8) : List UInt8 :=
  serialHeader v channel p.length ++ p

theorem serialPieces_flatten {fuel : ℕ} {body : List UInt8} (h : body.length ≤ fuel) :
    (serialPieces fuel body).flatten = body := by
  induction fuel generalizing body with
  | zero => rw [length_eq_zero_iff.1 (Nat.le_zero.1 h)]; rfl
  | succ fuel ih =>
    unfold serialPieces
    split
    · rename_i hb; subst hb; rfl
    · rename_i hb
      have hpos : 0 < body.length := length_pos_iff.2 hb
      rw [flatten_cons, ih (by rw [length_drop]; unfold MAX_SERIAL_PAYLOAD; omega),
        take_append_drop]

theorem serialPieces_length {fuel : ℕ} {body : List UInt8} :
    ∀ p ∈ serialPieces fuel body, 0 < p.length ∧ p.length ≤ MAX_SERIAL_PAYLOAD := by
  induction fuel generalizing body with
  | zero => intro p hp; simp [serialPieces] at hp
  | succ fuel ih =>
    intro p hp
    unfold serialPieces at hp
    split at hp
    · simp at hp
    · rename_i hb
      rcases mem_cons.1 hp with rfl | hp
      · have hpos : 0 < body.length := length_pos_iff.2 hb
        rw [length_take]
        unfold MAX_SERIAL_PAYLOAD
        omega
      · exact ih p hp

theorem sendLoop_unframed (v : QemudVersion) (channel msglen fuel : ℕ) (msg : List UInt8) :
    qemudSerialSendLoop v channel msglen fuel false msg msg.length =
      (serialPieces fuel msg).flatMap (packetBytes v channel) := by
  induction fuel generalizing msg with
  | zero => rfl
  | succ fuel ih =>
    unfold qemudSerialSendLoop serialPieces
    by_cases hm : msg = []
    · subst hm; rfl
    · have hpos : 0 < msg.length := length_pos_iff.2 hm
      have htake : (msg.take MAX_SERIAL_PAYLOAD).length = min msg.length MAX_SERIAL_PAYLOAD := by
        rw [length_take, min_comm]
      have hdrop : msg.drop (min msg.length MAX_SERIAL_PAYLOAD) = msg.drop MAX_SERIAL_PAYLOAD := by
        rcases le_total msg.length MAX_SERIAL_PAYLOAD with h | h
        · rw [min_eq_left h, drop_length, drop_eq_nil_of_le h]
        · rw [min_eq_right h]
      have htake' : msg.take (min msg.length MAX_SERIAL_PAYLOAD) = msg.take MAX_SERIAL_PAYLOAD := by
        rw [← take_take, take_of_length_le (by rw [length_take]; omega)]
      have hlen : msg.length - min msg.length MAX_SERIAL_PAYLOAD = (msg.drop MAX_SERIAL_PAYLOAD).length := by
        rw [length_drop]; omega
      rw [if_pos hpos, if_neg hm, flatMap_cons]
      simp only [Bool.false_eq_true, if_false, packetBytes, htake, htake', hdrop, hlen]
      rw [ih]

/-- **The sender cuts the body of a message into packets.** -/
theorem serialSend_eq (v : QemudVersion) {channel : ℕ} (framing : Bool) {msg : List UInt8}
    (hm : 0 < msg.length) :
    qemudSerialSend v channel framing msg =
      (serialPieces (frameBody framing msg).length (frameBody framing msg)).flatMap (packetBytes v channel) := by
  unfold qemudSerialSend
  rw [if_neg (by omega), Int.toNat_natCast]
  cases framing with
  | false =>
    simp only [Bool.false_eq_true, if_false, frameBody, nil_append]
    exact sendLoop_unframed v channel msg.length msg.length msg
  | true =>
    -- the first packet starts with the frame header; the rest is as without framing
    have hf : (int2hex FRAME_HEADER_SIZE msg.length).length = FRAME_HEADER_SIZE := length_int2hex _ _
    have hbody : (frameBody true msg).length = msg.length + FRAME_HEADER_SIZE := by
      simp only [frameBody, if_true, length_append, hf]; omega
    rw [hbody]
    simp only [if_true]
    obtain ⟨fuel, hfuel⟩ : ∃ fuel, msg.length + FRAME_HEADER_SIZE = fuel + 1 :=
      ⟨msg.length + 3, by simp [FRAME_HEADER_SIZE]⟩
    set avail := min (msg.length + FRAME_HEADER_SIZE) MAX_SERIAL_PAYLOAD with havail
    have h4 : FRAME_HEADER_SIZE ≤ avail := by
      simp only [havail, FRAME_HEADER_SIZE, MAX_SERIAL_PAYLOAD]; omega
    have htake : (frameBody true msg).take MAX_SERIAL_PAYLOAD =
        int2hex FRAME_HEADER_SIZE msg.length ++ msg.take (avail - FRAME_HEADER_SIZE) := by
      simp only [frameBody, if_true]
      rw [take_append, take_of_length_le (by rw [hf]; decide), hf]
      congr 1
      rcases le_total (msg.length + FRAME_HEADER_SIZE) MAX_SERIAL_PAYLOAD with h | h
      · rw [take_of_length_le (by omega), take_of_length_le (by omega)]
      · rw [havail, min_eq_right h]
    have hdrop : (frameBody true msg).drop MAX_SERIAL_PAYLOAD = msg.drop (avail - FRAME_HEADER_SIZE) := by
      simp only [frameBody, if_true]
      rw [drop_append, drop_eq_nil_of_le (by rw [hf]; decide), hf, nil_append]
      rcases le_total (msg.length + FRAME_HEADER_SIZE) MAX_SERIAL_PAYLOAD with h | h
      · rw [drop_eq_nil_of_le (by omega), drop_eq_nil_of_le (by omega)]
      · rw [havail, min_eq_right h]
    have hlen : ((frameBody true msg).take MAX_SERIAL_PAYLOAD).length = avail := by
      rw [length_take, hbody, min_comm]
    have hrest : msg.length + FRAME_HEADER_SIZE - avail = (msg.drop (avail - FRAME_HEADER_SIZE)).length := by
      rw [length_drop]; omega
    have hne : frameBody true msg ≠ [] := by
      intro h; rw [h] at hbody; simp at hbody; omega
    rw [hfuel]
    unfold qemudSerialSendLoop serialPieces
    rw [if_pos (by omega), if_neg hne, flatMap_cons, ← hfuel, ← havail]
    simp only [if_true]
    rw [hrest, sendLoop_unframed, hdrop]
    rw [htake] at hlen
    simp only [packetBytes, htake, hlen, append_assoc]

/-- A receiver of version `v₀` reads the packets of a sender of version `v`. -/
def Agrees (v₀ v : QemudVersion) : Prop := (v₀ = .unknown ∧ v = .normal) ∨ (v₀ = .legacy ∧ v = .legacy)

variable {v₀ v : QemudVersion}

theorem feed_header (hc : channel ≤ 255) (hn0 : 0 < n)
    (hn : n ≤ MAX_SERIAL_PAYLOAD) (hv : detectVersion v₀ (serialHeader v channel n) = v) :
    feed Rx.byte ⟨v₀, .header []⟩ (serialHeader v channel n) = (⟨v, .payload channel n []⟩, []) := by
  obtain ⟨h1, h2, h3⟩ := header_roundtrip (v := v) hc (show n ≤ 65535 from le_trans hn (by decide))
  have h0 : ([] : List UInt8).length < HEADER_SIZE := by decide
  rw [feed_header_full v₀ h0 (by simpa using h3), nil_append]
  unfold Rx.decode
  simp only [hv, h1, h2, Int.toNat_natCast]
  rw [if_neg (by omega), if_neg (by omega)]

/-- One packet goes through. -/
theorem feed_packet {channel : ℕ} {p : List UInt8} (hc : channel ≤ 255)
    (hp : 0 < p.length ∧ p.length ≤ MAX_SERIAL_PAYLOAD)
    (hv : detectVersion v₀ (serialHeader v channel p.length) = v) :
    feed Rx.byte ⟨v₀, .header []⟩ (packetBytes v channel p) = (⟨v, .header []⟩, [⟨channel, p⟩]) := by
  unfold packetBytes
  rw [feed_append, feed_header hc hp.1 hp.2 hv]
  simp only
  rw [feed_payload_full v channel (show ([] : List UInt8).length < p.length from hp.1) (by simp)]
  rfl

theorem detect_agrees (hv : Agrees v₀ v ∨ v₀ = v ∧ v ≠ .unknown)
    (hc : channel ≤ 255) (hn : n ≤ MAX_SERIAL_PAYLOAD) :
    detectVersion v₀ (serialHeader v channel n) = v := by
  rcases hv with (⟨rfl, rfl⟩ | ⟨rfl, rfl⟩) | ⟨rfl, hv⟩
  · have hl := (header_roundtrip (v := .normal) hc (show n ≤ 65535 from le_trans hn (by decide))).2.2
    unfold detectVersion
    rw [← hl, take_length, if_neg (normal_ne_legacy hc hn)]
  · rfl
  · cases v₀ with
    | unknown => exact absurd rfl hv
    | legacy => rfl
    | normal => rfl

theorem agrees_ne (hv : Agrees v₀ v) : v ≠ .unknown := by
  rcases hv with ⟨-, rfl⟩ | ⟨-, rfl⟩ <;> decide

/-- **Packets go through**, in order and on their channels. -/
theorem feed_packets (hv : Agrees v₀ v ∨ v₀ = v ∧ v ≠ .unknown)
    (hvu : v ≠ .unknown) (ps : List (ℕ × List UInt8))
    (hps : ∀ p ∈ ps, p.1 ≤ 255 ∧ 0 < p.2.length ∧ p.2.length ≤ MAX_SERIAL_PAYLOAD) :
    feed Rx.byte ⟨v₀, .header []⟩ (ps.flatMap fun p => packetBytes v p.1 p.2) =
      (⟨if ps = [] then v₀ else v, .header []⟩, ps.map fun p => ⟨p.1, p.2⟩) := by
  induction ps generalizing v₀ with
  | nil => rfl
  | cons p ps ih =>
    obtain ⟨hc, hp⟩ := hps p mem_cons_self
    rw [flatMap_cons, feed_append, feed_packet hc hp (detect_agrees hv hc hp.2)]
    simp only
    rw [ih (Or.inr ⟨rfl, hvu⟩) (fun q hq => hps q (mem_cons_of_mem _ hq))]
    simp

theorem byte_version_normal (m : RxMode) (b : UInt8) : ((Rx.byte ⟨.normal, m⟩ b).1).version = .normal := by
  cases m with
  | skip => rfl
  | payload c n acc => simp only [Rx.byte]; split <;> rfl
  | header acc =>
    simp only [Rx.byte]
    split
    · rfl
    · rw [decode_version]; rfl

theorem feed_version_normal (m : RxMode) (bs : List UInt8) :
    ((feed Rx.byte ⟨.normal, m⟩ bs).1).version = .normal := by
  induction bs generalizing m with
  | nil => rfl
  | cons b bs ih =>
    rw [feed_cons]
    simp only
    have h := byte_version_normal m b
    cases hr : (Rx.byte ⟨.normal, m⟩ b).1 with
    | mk v m' => rw [hr] at h; simp only at h; subst h; exact ih m'

/-- On a prefix of a normal stream the receiver has not seen a legacy daemon. -/
theorem feed_prefix_version {ps : List (ℕ × List UInt8)}
    (hps : ∀ p ∈ ps, p.1 ≤ 255 ∧ 0 < p.2.length ∧ p.2.length ≤ MAX_SERIAL_PAYLOAD) {bs : List UInt8}
    (hbs : bs <+: ps.flatMap fun p => packetBytes .normal p.1 p.2) :
    ((feed Rx.byte ⟨.unknown, .header []⟩ bs).1).version ≠ .legacy := by
  rcases Nat.lt_or_ge bs.length HEADER_SIZE with h | h
  · rw [feed_header_short .unknown (show ([] : List UInt8).length + bs.length < HEADER_SIZE by simpa using h)]
    exact QemudVersion.noConfusion
  · cases ps with
    | nil => simp at hbs; subst hbs; simp [HEADER_SIZE] at h
    | cons p ps =>
      obtain ⟨hc, hp⟩ := hps p mem_cons_self
      have hl := (header_roundtrip (v := .normal) hc (show p.2.length ≤ 65535 from le_trans hp.2 (by decide))).2.2
      -- the prefix begins with the first packet's header
      obtain ⟨rest, rfl⟩ : ∃ rest, bs = serialHeader .normal p.1 p.2.length ++ rest := by
        have hpre : serialHeader .normal p.1 p.2.length <+: bs := by
          refine prefix_of_prefix_length_le ?_ hbs (by rw [hl]; exact h)
          rw [flatMap_cons]
          unfold packetBytes
          rw [append_assoc]
          exact prefix_append _ _
        obtain ⟨rest, hrest⟩ := hpre
        exact ⟨rest, hrest.symm⟩
      rw [feed_append, feed_header hc hp.1 hp.2 (detect_agrees (Or.inl (Or.inl ⟨rfl, rfl⟩)) hc hp.2)]
      simp only
      rw [feed_version_normal]
      decide

/-- A framed message, behind its header, is one call. -/
theorem feed_frame {msg : List UInt8} (h0 : 0 < msg.length) (h : msg.length ≤ 65535) :
    feed FrameRx.byte (.header []) (frameBody true msg) = (.header [], [msg]) := by
  have hf : (int2hex FRAME_HEADER_SIZE msg.length).length = FRAME_HEADER_SIZE := length_int2hex _ _
  have hx := hex2int_int2hex (show msg.length < 16 ^ FRAME_HEADER_SIZE by simp only [FRAME_HEADER_SIZE]; omega) []
  rw [append_nil] at hx
  have hdec : FrameRx.decode (int2hex FRAME_HEADER_SIZE msg.length) = .payload msg.length [] := by
    unfold FrameRx.decode; rw [hx, if_neg (by omega)]; rfl
  simp only [frameBody, if_true]
  rw [feed_append, feed_frame_header_full (show ([] : List UInt8).length < FRAME_HEADER_SIZE by decide)
    (by simpa using hf), nil_append, hdec]
  simp only
  rw [feed_frame_payload_full (show ([] : List UInt8).length < msg.length from h0) (by simp)]
  rfl

theorem feed_frames (msgs : List (List UInt8)) (h : ∀ m ∈ msgs, 0 < m.length ∧ m.length ≤ 65535) :
    feed FrameRx.byte (.header []) (msgs.flatMap (frameBody true)) = (.header [], msgs) := by
  induction msgs with
  | nil => rfl
  | cons m msgs ih =>
    obtain ⟨h0, h1⟩ := h m mem_cons_self
    rw [flatMap_cons, feed_append, feed_frame h0 h1]
    simp only
    rw [ih (fun x hx => h x (mem_cons_of_mem _ hx))]
    rfl

/-- The client of a channel, as its service sets it up. -/
def channelClient (channel : ℕ) (framing : Bool) : QemudClient :=
  qemudClientSetFraming (newClient channel true false) framing

/-- **A framed channel delivers its messages**, however they were cut. -/
theorem framed_packets (channel : ℕ) (msgs pieces : List (List UInt8))
    (h : ∀ m ∈ msgs, 0 < m.length ∧ m.length ≤ 65535) (hp : pieces.flatten = msgs.flatMap (frameBody true)) :
    ∃ c, readChunks qemudClientRecv (channelClient channel true) pieces = some (c, msgs) := by
  have hr : ClientRep (channelClient channel true) (.header []) :=
    ⟨rfl, rfl, rfl, rfl, rfl, rfl, by decide, rfl⟩
  have hfeed := feed_frames msgs h
  obtain ⟨c, hc, -⟩ := readChunks_feed ClientRep (· ≠ .stuck) (fun _ _ src h hok => clientRecv_feed h src hok)
    (fun r src hok hr => hok (by rw [hr, feed_stuck])) hr pieces
    (by rw [hp, hfeed]; exact FrameRx.noConfusion)
  exact ⟨c, by rw [hc, hp, hfeed]⟩

/-- An unframed channel delivers its packets as they are. -/
theorem unframed_packets (channel : ℕ) (pieces : List (List UInt8)) :
    readChunks qemudClientRecv (channelClient channel false) pieces =
      some (channelClient channel false, pieces) := by
  induction pieces with
  | nil => rfl
  | cons p ps ih =>
    have h1 : qemudClientRecv (channelClient channel false) p = some (channelClient channel false, [p]) := rfl
    simp only [readChunks, h1, ih, Option.bind_eq_bind, Option.bind_some, singleton_append]

/-- A message that can be sent: a channel number and 1 to 65535 bytes. -/
structure Message where
  channel : ℕ
  data : List UInt8
  channel_le : channel ≤ 255
  data_pos : 0 < data.length
  data_le : data.length ≤ 65535

/-- The pieces of a message, one for each serial packet. -/
def Message.pieces (framing : ℕ → Bool) (m : Message) : List (List UInt8) :=
  serialPieces (frameBody (framing m.channel) m.data).length (frameBody (framing m.channel) m.data)

/-- The packets of a message. -/
def Message.packets (framing : ℕ → Bool) (m : Message) : List Packet :=
  (m.pieces framing).map fun p => ⟨m.channel, p⟩

/-- What successive calls of `qemud_serial_send` write. -/
def sendAll (v : QemudVersion) (framing : ℕ → Bool) (msgs : List Message) : List UInt8 :=
  msgs.flatMap fun m => qemudSerialSend v m.channel (framing m.channel) m.data

/-- The packets of a list of messages as pairs of a channel and a piece. -/
def sentPairs (framing : ℕ → Bool) (msgs : List Message) : List (ℕ × List UInt8) :=
  msgs.flatMap fun m => (m.pieces framing).map fun p => (m.channel, p)

theorem sendAll_eq (v : QemudVersion) (framing : ℕ → Bool) (msgs : List Message) :
    sendAll v framing msgs = (sentPairs framing msgs).flatMap fun p => packetBytes v p.1 p.2 := by
  unfold sendAll sentPairs
  rw [flatMap_assoc]
  congr 1
  funext m
  rw [serialSend_eq v (framing m.channel) m.data_pos, flatMap_map]
  rfl

theorem sentPairs_valid (framing : ℕ → Bool) (msgs : List Message) :
    ∀ p ∈ sentPairs framing msgs, p.1 ≤ 255 ∧ 0 < p.2.length ∧ p.2.length ≤ MAX_SERIAL_PAYLOAD := by
  intro p hp
  unfold sentPairs at hp
  rw [mem_flatMap] at hp
  obtain ⟨m, -, hm⟩ := hp
  rw [mem_map] at hm
  obtain ⟨q, hq, rfl⟩ := hm
  exact ⟨m.channel_le, serialPieces_length q hq⟩

theorem sentPairs_packets (framing : ℕ → Bool) (msgs : List Message) :
    ((sentPairs framing msgs).map fun p => (⟨p.1, p.2⟩ : Packet)) = msgs.flatMap (Message.packets framing) := by
  unfold sentPairs Message.packets
  rw [map_flatMap]
  congr 1
  funext m
  rw [map_map]
  rfl

/-- The packets of one channel are the pieces of its messages. -/
theorem channel_pieces (framing : ℕ → Bool) (msgs : List Message) (channel : ℕ) :
    ((msgs.flatMap (Message.packets framing)).filter fun p => p.channel = (channel : ℤ)).map Packet.msg =
      (msgs.filter fun m => m.channel = channel).flatMap (Message.pieces framing) := by
  induction msgs with
  | nil => rfl
  | cons m msgs ih =>
    rw [flatMap_cons, filter_append, map_append, ih]
    by_cases hm : m.channel = channel
    · rw [filter_cons_of_pos (by simpa using hm), flatMap_cons]
      congr 1
      unfold Message.packets
      rw [filter_eq_self.2 (by intro p hp; obtain ⟨q, -, rfl⟩ := mem_map.1 hp; simpa using hm),
        map_map]
      simp [Function.comp_def]
    · rw [filter_cons_of_neg (by simpa using hm)]
      unfold Message.packets
      rw [filter_eq_nil_iff.2 (by intro p hp; obtain ⟨q, -, rfl⟩ := mem_map.1 hp; simpa using hm)]
      rfl

theorem pieces_flatten (framing : ℕ → Bool) (m : Message) :
    (m.pieces framing).flatten = frameBody (framing m.channel) m.data := serialPieces_flatten le_rfl

theorem channel_flatten (framing : ℕ → Bool) (msgs : List Message) (channel : ℕ) :
    ((msgs.filter fun m => m.channel = channel).flatMap (Message.pieces framing)).flatten =
      ((msgs.filter fun m => m.channel = channel).map Message.data).flatMap (frameBody (framing channel)) := by
  induction msgs with
  | nil => rfl
  | cons m msgs ih =>
    by_cases hm : m.channel = channel
    · rw [filter_cons_of_pos (by simpa using hm), flatMap_cons, flatten_append, ih,
        pieces_flatten, hm, map_cons, flatMap_cons]
    · rw [filter_cons_of_neg (by simpa using hm), ih]

/-- **The qemud transport is a faithful codec.** A receiver that agrees with the
sender gets, from any chunking of what `qemud_serial_send` wrote for any messages,
exactly the packets sent, in order; the client of a framed channel is called once
for each of its messages, with the message; the client of an unframed channel gets
the bytes of its messages; and on no prefix of a normal stream does the receiver
take the daemon for a legacy one. -/
theorem qemud_codec (framing : ℕ → Bool) (msgs : List Message) {v₀ v : QemudVersion} (hv : Agrees v₀ v)
    (chunks : List (List UInt8)) (hchunks : chunks.flatten = sendAll v framing msgs) :
    ∃ s pkts, readChunks qemudSerialRead { qemudSerialInit with version := v₀ } chunks = some (s, pkts) ∧
      pkts = msgs.flatMap (Message.packets framing) ∧
      (∀ channel : ℕ, ∃ c calls,
        readChunks qemudClientRecv (channelClient channel (framing channel))
          ((pkts.filter fun p => p.channel = (channel : ℤ)).map Packet.msg) = some (c, calls) ∧
        (framing channel = true → calls = (msgs.filter fun m => m.channel = channel).map Message.data) ∧
        (framing channel = false → calls.flatten =
          ((msgs.filter fun m => m.channel = channel).map Message.data).flatten)) ∧
      (v = .normal → ∀ pre, pre <+: chunks → ∃ s' pkts',
        readChunks qemudSerialRead { qemudSerialInit with version := v₀ } pre = some (s', pkts') ∧
          s'.version ≠ .legacy) := by
  have hps := sentPairs_valid framing msgs
  have hstream : chunks.flatten = (sentPairs framing msgs).flatMap fun p => packetBytes v p.1 p.2 := by
    rw [hchunks, sendAll_eq]
  have hfeed := feed_packets (Or.inl hv) (agrees_ne hv) _ hps
  obtain ⟨s, h1, -⟩ := serialRead_chunks (rep_init v₀) chunks
  rw [hstream, hfeed] at h1
  refine ⟨s, _, h1, sentPairs_packets framing msgs, ?_, ?_⟩
  · intro channel
    rw [sentPairs_packets, channel_pieces]
    have hflat := channel_flatten framing msgs channel
    have hlen : ∀ m ∈ (msgs.filter fun m => m.channel = channel).map Message.data,
        0 < m.length ∧ m.length ≤ 65535 := by
      intro m hm
      obtain ⟨x, -, rfl⟩ := mem_map.1 hm
      exact ⟨x.data_pos, x.data_le⟩
    cases hfr : framing channel with
    | true =>
      rw [hfr] at hflat
      obtain ⟨c, hc⟩ := framed_packets channel _ _ hlen hflat
      exact ⟨c, _, hc, fun _ => rfl, fun h => absurd h (by decide)⟩
    | false =>
      refine ⟨_, _, unframed_packets channel _, fun h => absurd h (by decide), fun _ => ?_⟩
      have hid : frameBody false = id := by funext m; rfl
      rw [hflat, hfr, hid, flatMap_id]
  · rintro rfl pre hpre
    have hv₀ : v₀ = .unknown := by rcases hv with ⟨h, -⟩ | ⟨-, h⟩ <;> [exact h; exact absurd h (by decide)]
    subst hv₀
    obtain ⟨s', h2, h3⟩ := serialRead_chunks (rep_init .unknown) pre
    refine ⟨s', _, h2, ?_⟩
    rw [h3.2.2.1]
    refine feed_prefix_version hps ?_
    rw [← hstream]
    obtain ⟨rest, rfl⟩ := hpre
    rw [flatten_append]
    exact prefix_append _ _

/-- Two messages, the first on a framed channel. -/
def twoMessages : List Message :=
  [⟨1, [65, 66], by decide, by decide, by decide⟩, ⟨2, [67], by decide, by decide, by decide⟩]

/-- The codec on `"010006" "0002AB" "020001" "C"`, cut inside the second header. -/
theorem qemud_codec_twoMessages :
    Agrees .unknown .normal ∧
      ∃ s, readChunks qemudSerialRead { qemudSerialInit with version := .unknown }
        [[48, 49, 48, 48, 48, 54, 48, 48, 48, 50, 65, 66, 48, 50, 48], [48, 48, 49, 67]] =
        some (s, [⟨1, [48, 48, 48, 50, 65, 66]⟩, ⟨2, [67]⟩]) := by
  refine ⟨Or.inl ⟨rfl, rfl⟩, ?_⟩
  obtain ⟨s, pkts, h1, h2, -⟩ := qemud_codec (fun c => c == 1) twoMessages (Or.inl ⟨rfl, rfl⟩)
    [[48, 49, 48, 48, 48, 54, 48, 48, 48, 50, 65, 66, 48, 50, 48], [48, 48, 49, 67]] (by decide)
  have hp : twoMessages.flatMap (Message.packets fun c => c == 1) =
      [⟨1, [48, 48, 48, 50, 65, 66]⟩, ⟨2, [67]⟩] := by decide
  exact ⟨s, by rw [h1, h2, hp]⟩

end Emulator.Qemud
