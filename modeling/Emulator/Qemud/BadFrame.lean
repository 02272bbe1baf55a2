import Emulator.Qemud.Client

/-!
# Bad frames

After an empty or corrupted frame header the header sink stays full, and the loop of `qemud_client_recv` comes back to
the same header as long as there are bytes left. A bad header that ends a message leaves the client stalled: the next
message is taken whole if it is one frame, and never ends otherwise.

* `clientReach_recv_iff`: when a call ends and delivers the frames of the stream, bad headers skipped.
-/

namespace Emulator.Qemud

open List Option

/-- `qemud_client_recv` with at most `fuel` rounds of its loop. -/
def qemudClientRecvIn (fuel : ℕ) (c : QemudClient) (msg : List UInt8) : Option (QemudClient × List (List UInt8)) :=
  if ¬ c.framing then some (c, if c.clieRecv then [msg] else [])
  else if FRAME_HEADER_SIZE < msg.length ∧ c.needHeader = true ∧ qemudSinkNeeded c.header = 0 ∧
      0 ≤ hex2int msg FRAME_HEADER_SIZE ∧
      (msg.length : ℤ) = hex2int msg FRAME_HEADER_SIZE + FRAME_HEADER_SIZE then
    some (c, if c.clieRecv then [msg.drop FRAME_HEADER_SIZE] else [])
  else receiveLoop qemudClientRecvStep fuel c msg

/-- A byte of the stream of frames, where an empty or corrupted header is skipped. -/
def FrameRx.skipByte (r : FrameRx) (b : UInt8) : FrameRx × List (List UInt8) :=
  match r.byte b with
  | (.stuck, out) => (.header [], out)
  | (.header acc, out) => (.header acc, out)
  | (.payload n acc, out) => (.payload n acc, out)

/-- The framed clients that calls of `qemud_client_recv` lead to, with the bytes they have received. -/
inductive ClientReach : List UInt8 → QemudClient → Prop
  | init {c : QemudClient} (framing : c.framing = true) (recv : c.clieRecv = true) (needHeader : c.needHeader = true)
      (header : c.header = qemudSinkReset FRAME_HEADER_SIZE) (header0 : c.header0.length = FRAME_HEADER_SIZE) :
      ClientReach [] c
  | recv {stream msg : List UInt8} {c c' : QemudClient} {fuel : ℕ} {out : List (List UInt8)}
      (h : ClientReach stream c) (hrecv : qemudClientRecvIn fuel c msg = some (c', out)) :
      ClientReach (stream ++ msg) c'

/-- What a reader that skips bad headers makes of the stream. -/
def skipBad (stream : List UInt8) : FrameRx × List (List UInt8) := feed FrameRx.skipByte (.header []) stream

/-- The client is where a reader that skips bad headers is, but may still hold the last header if it was bad. -/
def Follows (c : QemudClient) (r : FrameRx) : Prop := ClientRep c r ∨ r = .header [] ∧ Stalled c

/-- The call ends with all bytes of the message consumed, and delivers the frames that they complete. -/
def RecvSkips (stream : List UInt8) (c : QemudClient) (msg : List UInt8) : Prop :=
  ∃ fuel c', qemudClientRecvIn fuel c msg = some (c', (feed FrameRx.skipByte (skipBad stream).1 msg).2) ∧
    Follows c' (skipBad (stream ++ msg)).1

/-- The message is one frame. -/
def WholeFrame (msg : List UInt8) : Prop :=
  FRAME_HEADER_SIZE < msg.length ∧ 0 ≤ hex2int msg FRAME_HEADER_SIZE ∧
    (msg.length : ℤ) = hex2int msg FRAME_HEADER_SIZE + FRAME_HEADER_SIZE

variable {r : FrameRx} {src msg stream : List UInt8} {c c' : QemudClient}

theorem skipByte_eq {b : UInt8} (h : (r.byte b).1 ≠ .stuck) : r.skipByte b = r.byte b := by
  unfold FrameRx.skipByte
  rcases hb : r.byte b with ⟨_ | _ | _, out⟩
  · rfl
  · rfl
  · rw [hb] at h
    exact absurd rfl h

theorem skipByte_stuck {b : UInt8} (h : (r.byte b).1 = .stuck) : r.skipByte b = (.header [], (r.byte b).2) := by
  unfold FrameRx.skipByte
  rcases hb : r.byte b with ⟨_ | _ | _, out⟩
  · rw [hb] at h
    exact absurd h (by simp)
  · rw [hb] at h
    exact absurd h (by simp)
  · rfl

/-- Without bad headers the two readers are the same. -/
theorem feed_skipByte_eq (h : (feed FrameRx.byte r src).1 ≠ .stuck) :
    feed FrameRx.skipByte r src = feed FrameRx.byte r src := by
  induction src generalizing r with
  | nil => rfl
  | cons b src ih =>
    rw [feed_cons] at h
    have hb : (r.byte b).1 ≠ .stuck := by
      intro hstuck
      rw [hstuck, feed_stuck] at h
      exact h rfl
    rw [feed_cons, feed_cons, skipByte_eq hb, ih h]

/-- A bad header at the very end is skipped. -/
theorem feed_skipByte_bad (hr : r ≠ .stuck) (h : ¬ BadHeaderInside r src)
    (hstuck : (feed FrameRx.byte r src).1 = .stuck) :
    feed FrameRx.skipByte r src = (.header [], (feed FrameRx.byte r src).2) := by
  have hne : src ≠ [] := by
    rintro rfl
    exact hr hstuck
  obtain ⟨pre, b, rfl⟩ : ∃ pre b, src = pre ++ [b] := ⟨_, _, (dropLast_append_getLast hne).symm⟩
  have hpre : (feed FrameRx.byte r pre).1 ≠ .stuck := fun hs => h ⟨pre, [b], rfl, by simp, hs⟩
  rw [feed_append] at hstuck
  rw [feed_append, feed_append, feed_skipByte_eq hpre]
  simp only [feed_cons, feed_nil] at hstuck ⊢
  rw [skipByte_stuck hstuck]

theorem not_badHeaderInside_nil (r : FrameRx) : ¬ BadHeaderInside r [] := by
  rintro ⟨pre, post, happ, hpost, -⟩
  exact hpost (append_eq_nil_iff.1 happ.symm).2

/-- A bad header behind `pre` is one of the rest. -/
theorem badHeaderInside_append {pre post : List UInt8} (hpre : (feed FrameRx.byte r pre).1 ≠ .stuck) :
    BadHeaderInside r (pre ++ post) ↔ BadHeaderInside (feed FrameRx.byte r pre).1 post := by
  constructor
  · rintro ⟨q, t, happ, ht, hstuck⟩
    rcases append_eq_append_iff.1 happ with ⟨x, rfl, hx⟩ | ⟨x, rfl, hx⟩
    · refine ⟨x, t, hx, ht, ?_⟩
      rwa [feed_append] at hstuck
    · rw [feed_append, hstuck, feed_stuck] at hpre
      exact absurd rfl hpre
  · rintro ⟨q, t, rfl, ht, hstuck⟩
    refine ⟨pre ++ q, t, (append_assoc _ _ _).symm, ht, ?_⟩
    rw [feed_append]
    exact hstuck

theorem ClientRep.ne_stuck (hr : ClientRep c r) : r ≠ .stuck := by
  rintro rfl
  exact hr.2.2.2.2

/-- A full header sink with a bad header is left as it is. -/
theorem Stalled.step (h : Stalled c) (msg : List UInt8) : qemudClientRecvStep c msg = .next c msg [] := by
  have hfill : qemudSinkFill c.header c.header0 msg = ⟨true, c.header, c.header0, msg⟩ := by
    unfold qemudSinkFill
    rw [if_pos (by rw [h.size, h.len])]
  have hbad := h.bad
  unfold qemudClientRecvStep
  rw [if_pos h.needHeader]
  simp only [hfill, if_true]
  split_ifs
  · rfl
  · rfl
  · omega

/-- So the loop does not end. -/
theorem Stalled.spins (h : Stalled c) (hmsg : msg ≠ []) (fuel : ℕ) :
    receiveLoop qemudClientRecvStep fuel c msg = none := by
  obtain ⟨b, bs, rfl⟩ := exists_cons_of_ne_nil hmsg
  induction fuel with
  | zero => rfl
  | succ fuel ih =>
    unfold receiveLoop
    rw [h.step]
    simp only [ih, map_none]

/-- The loop reads the message, the last header of which may be bad if it ends the message. -/
theorem loop_reads {fuel : ℕ} (hr : ClientRep c r) (hbad : ¬ BadHeaderInside r src) (hfuel : src.length ≤ fuel) :
    ∃ c', receiveLoop qemudClientRecvStep fuel c src = some (c', (feed FrameRx.byte r src).2) ∧
      (ClientRep c' (feed FrameRx.byte r src).1 ∨ (feed FrameRx.byte r src).1 = .stuck ∧ Stalled c') := by
  induction fuel generalizing c r src with
  | zero =>
    obtain rfl : src = [] := length_eq_zero_iff.1 (by omega)
    exact ⟨c, rfl, .inl hr⟩
  | succ fuel ih =>
    cases src with
    | nil => exact ⟨c, rfl, .inl hr⟩
    | cons b bs =>
      unfold receiveLoop
      rcases clientStep_any hr (cons_ne_nil b bs) with
        ⟨c', hstop, hout, hrep⟩ | ⟨c', pre, post, out, hnext, hsplit, hpre, hout, hrep | ⟨hstuck, -, hstall⟩⟩
      · exact ⟨c', by rw [hstop, hout], .inl hrep⟩
      · -- the next round goes on with the rest
        have hlen : post.length ≤ fuel := by
          have hpos := length_pos_iff.2 hpre
          have hcount := congrArg List.length hsplit
          rw [length_cons, length_append] at hcount
          rw [length_cons] at hfuel
          omega
        rw [hsplit, badHeaderInside_append hrep.ne_stuck] at hbad
        obtain ⟨c'', hloop, hend⟩ := ih hrep hbad hlen
        rw [hnext, hsplit, feed_append, hout]
        exact ⟨c'', by simp only [hloop, map_some], hend⟩
      · have hpost : post = [] := by
          by_contra hne
          exact hbad ⟨pre, post, hsplit, hne, hstuck⟩
        rw [hpost, append_nil] at hsplit
        rw [hnext, hpost, hsplit, hout]
        refine ⟨c', ?_, .inr ⟨hstuck, hstall⟩⟩
        cases fuel <;> simp [receiveLoop]

/-- The loop does not end on a bad header that more bytes follow. -/
theorem loop_spins (hr : ClientRep c r) (hbad : BadHeaderInside r src) (fuel : ℕ) :
    receiveLoop qemudClientRecvStep fuel c src = none := by
  induction fuel generalizing c r src with
  | zero =>
    cases src with
    | nil => exact absurd hbad (not_badHeaderInside_nil r)
    | cons b bs => rfl
  | succ fuel ih =>
    cases src with
    | nil => exact absurd hbad (not_badHeaderInside_nil r)
    | cons b bs =>
      unfold receiveLoop
      rcases clientStep_any hr (cons_ne_nil b bs) with
        ⟨c', hstop, hout, hrep⟩ | ⟨c', pre, post, out, hnext, hsplit, hpre, hout, hrep | ⟨-, hinside, hstall⟩⟩
      · obtain ⟨q, t, happ, -, hstuck⟩ := hbad
        refine absurd ?_ hrep.ne_stuck
        rw [happ, feed_append, hstuck, feed_stuck]
      · rw [hsplit, badHeaderInside_append hrep.ne_stuck] at hbad
        rw [hnext]
        simp only [ih hrep hbad, map_none]
      · have hpost : post ≠ [] := by
          rintro rfl
          rw [hsplit, append_nil] at hbad
          exact hinside hbad
        rw [hnext]
        simp only [hstall.spins hpost, map_none]

theorem recvIn_unstalled (hr : ClientRep c r) (fuel : ℕ) (msg : List UInt8) :
    qemudClientRecvIn fuel c msg = receiveLoop qemudClientRecvStep fuel c msg := by
  have hneed := hr.not_full
  unfold qemudClientRecvIn
  rw [if_neg (by simp [hr.1]), if_neg (by tauto)]

theorem Stalled.not_clientRep (h : Stalled c) : ¬ ClientRep c r := by
  intro hr
  refine hr.not_full ⟨h.needHeader, ?_⟩
  unfold qemudSinkNeeded
  rw [h.size, h.len, Nat.sub_self]

/-- The shortcut: `qemud_sink_needed` is 0 in a stalled client only. -/
theorem Stalled.recvIn_whole (h : Stalled c) (hmsg : WholeFrame msg) (fuel : ℕ) :
    qemudClientRecvIn fuel c msg = some (c, [msg.drop FRAME_HEADER_SIZE]) := by
  have hneeded : qemudSinkNeeded c.header = 0 := by
    unfold qemudSinkNeeded
    rw [h.size, h.len, Nat.sub_self]
  unfold qemudClientRecvIn
  rw [if_neg (by simp [h.framing]), if_pos ⟨hmsg.1, h.needHeader, hneeded, hmsg.2⟩, if_pos h.recv]

theorem Stalled.recvIn_loop (h : Stalled c) (hmsg : ¬ WholeFrame msg) (fuel : ℕ) :
    qemudClientRecvIn fuel c msg = receiveLoop qemudClientRecvStep fuel c msg := by
  unfold qemudClientRecvIn
  rw [if_neg (by simp [h.framing]), if_neg fun hfast => hmsg ⟨hfast.1, hfast.2.2.2⟩]

/-- The stream has this one frame. -/
theorem feed_whole (hmsg : WholeFrame msg) :
    feed FrameRx.skipByte (.header []) msg = (.header [], [msg.drop FRAME_HEADER_SIZE]) := by
  obtain ⟨hlong, hnonneg, hlen⟩ := hmsg
  have hsplit : msg = msg.take FRAME_HEADER_SIZE ++ msg.drop FRAME_HEADER_SIZE := (take_append_drop _ _).symm
  have htake : (msg.take FRAME_HEADER_SIZE).length = FRAME_HEADER_SIZE := by
    rw [length_take]
    omega
  have hhex : hex2int (msg.take FRAME_HEADER_SIZE) FRAME_HEADER_SIZE = hex2int msg FRAME_HEADER_SIZE := by
    unfold hex2int
    rw [take_take, min_self]
  have hheader : feed FrameRx.byte (.header []) (msg.take FRAME_HEADER_SIZE) =
      (.payload (hex2int msg FRAME_HEADER_SIZE).toNat [], []) := by
    rw [feed_frame_header_full (by decide) (by simpa using htake), nil_append]
    unfold FrameRx.decode
    rw [hhex, if_neg (by omega)]
  have hframe : feed FrameRx.byte (.header []) msg = (.header [], [msg.drop FRAME_HEADER_SIZE]) := by
    conv_lhs => rw [hsplit]
    rw [feed_append, hheader, feed_frame_payload_full (by simp only [length_nil]; omega)
      (by rw [length_drop, length_nil]; omega)]
    rfl
  rw [feed_skipByte_eq (by rw [hframe]; simp), hframe]

theorem skipBad_append (stream msg : List UInt8) :
    (skipBad (stream ++ msg)).1 = (feed FrameRx.skipByte (skipBad stream).1 msg).1 := by
  unfold skipBad
  rw [feed_append]

/-- What a call does with a client that follows the stream. -/
theorem Follows.recvIn (h : Follows c (skipBad stream).1) (msg : List UInt8)
    (hgood : (Stalled c → msg = [] ∨ WholeFrame msg) ∧ (¬ Stalled c → ¬ BadHeaderInside (skipBad stream).1 msg)) :
    ∃ c', qemudClientRecvIn msg.length c msg = some (c', (feed FrameRx.skipByte (skipBad stream).1 msg).2) ∧
      Follows c' (skipBad (stream ++ msg)).1 := by
  rw [skipBad_append]
  rcases h with hrep | ⟨hidle, hstall⟩
  · have hbad := hgood.2 fun hstall => hstall.not_clientRep hrep
    obtain ⟨c', hloop, hend⟩ := loop_reads hrep hbad le_rfl
    refine ⟨c', ?_, ?_⟩
    · rw [recvIn_unstalled hrep, hloop]
      by_cases hstuck : (feed FrameRx.byte (skipBad stream).1 msg).1 = .stuck
      · rw [feed_skipByte_bad hrep.ne_stuck hbad hstuck]
      · rw [feed_skipByte_eq hstuck]
    · rcases hend with hrep' | ⟨hstuck, hstall⟩
      · rw [feed_skipByte_eq hrep'.ne_stuck]
        exact .inl hrep'
      · rw [feed_skipByte_bad hrep.ne_stuck hbad hstuck]
        exact .inr ⟨rfl, hstall⟩
  · rcases hgood.1 hstall with rfl | hwhole
    · refine ⟨c, ?_, .inr ⟨hidle, hstall⟩⟩
      rw [hstall.recvIn_loop fun hwhole => absurd hwhole.1 (by decide)]
      rfl
    · rw [hidle, feed_whole hwhole, hstall.recvIn_whole hwhole]
      exact ⟨c, rfl, .inr ⟨rfl, hstall⟩⟩

/-- The other messages are never read to the end. -/
theorem Follows.recvIn_spins (h : Follows c (skipBad stream).1) (msg : List UInt8)
    (hbad : ¬ ((Stalled c → msg = [] ∨ WholeFrame msg) ∧
      (¬ Stalled c → ¬ BadHeaderInside (skipBad stream).1 msg))) (fuel : ℕ) : qemudClientRecvIn fuel c msg = none := by
  by_cases hstall : Stalled c
  · have hmsg : ¬ (msg = [] ∨ WholeFrame msg) := by tauto
    rw [not_or] at hmsg
    rw [hstall.recvIn_loop hmsg.2, hstall.spins hmsg.1]
  · have hinside : BadHeaderInside (skipBad stream).1 msg := by tauto
    have hrep := h.resolve_right fun hr => hstall hr.2
    rw [recvIn_unstalled hrep, loop_spins hrep hinside]

theorem receiveLoop_mono {fuel fuel' : ℕ} {c : QemudClient} {msg : List UInt8} {res : QemudClient × List (List UInt8)}
    (h : receiveLoop qemudClientRecvStep fuel c msg = some res) (hle : fuel ≤ fuel') :
    receiveLoop qemudClientRecvStep fuel' c msg = some res := by
  induction fuel generalizing fuel' c msg res with
  | zero =>
    cases msg with
    | nil =>
      cases fuel' <;> exact h
    | cons b bs => exact absurd h (by simp [receiveLoop])
  | succ fuel ih =>
    obtain ⟨fuel', rfl⟩ : ∃ k, fuel' = k + 1 := ⟨fuel' - 1, by omega⟩
    cases msg with
    | nil => exact h
    | cons b bs =>
      unfold receiveLoop at h ⊢
      cases hstep : qemudClientRecvStep c (b :: bs) with
      | stop c' =>
        rw [hstep] at h
        exact h
      | next c' rest out =>
        rw [hstep] at h
        obtain ⟨res', hres, hmap⟩ := map_eq_some_iff.1 h
        simp only [ih hres (by omega : fuel ≤ fuel'), map_some, hmap]

/-- More rounds than needed change nothing. -/
theorem recvIn_mono {fuel fuel' : ℕ} {res : QemudClient × List (List UInt8)}
    (h : qemudClientRecvIn fuel c msg = some res) (hle : fuel ≤ fuel') : qemudClientRecvIn fuel' c msg = some res := by
  unfold qemudClientRecvIn at h ⊢
  split at h
  · rename_i hframing
    rw [if_pos hframing]
    exact h
  · rename_i hframing
    rw [if_neg hframing]
    split at h
    · rename_i hfast
      rw [if_pos hfast]
      exact h
    · rename_i hfast
      rw [if_neg hfast]
      exact receiveLoop_mono h hle

theorem clientReach_follows (h : ClientReach stream c) : Follows c (skipBad stream).1 := by
  induction h with
  | init framing recv needHeader header header0 =>
    refine .inl ⟨framing, recv, by rw [header]; rfl, header0, needHeader, by rw [header]; rfl, by decide, rfl⟩
  | @recv stream msg c c' fuel out _ hrecv ih =>
    by_cases hgood : (Stalled c → msg = [] ∨ WholeFrame msg) ∧ (¬ Stalled c → ¬ BadHeaderInside (skipBad stream).1 msg)
    · obtain ⟨c'', hcall, hfollows⟩ := ih.recvIn msg hgood
      have hsame := (recvIn_mono hcall (le_max_left _ fuel)).symm.trans
        (recvIn_mono hrecv (le_max_right msg.length fuel))
      obtain rfl : c'' = c' := congrArg Prod.fst (Option.some.inj hsame)
      exact hfollows
    · rw [ih.recvIn_spins msg hgood] at hrecv
      exact absurd hrecv (by simp)

/-- **Framed reception ends and skips bad frames** exactly if no bad header comes before the end of the message or,
after a bad header, the message is empty or one frame. -/
theorem clientReach_recv_iff (h : ClientReach stream c) (msg : List UInt8) :
    RecvSkips stream c msg ↔ (Stalled c → msg = [] ∨ WholeFrame msg) ∧
      (¬ Stalled c → ¬ BadHeaderInside (skipBad stream).1 msg) := by
  have hfollows := clientReach_follows h
  constructor
  · rintro ⟨fuel, c', hcall, -⟩
    by_contra hbad
    rw [hfollows.recvIn_spins msg hbad] at hcall
    exact absurd hcall (by simp)
  · intro hgood
    obtain ⟨c', hcall, hend⟩ := hfollows.recvIn msg hgood
    exact ⟨msg.length, c', hcall, hend⟩

/-- A client that has just been told to frame its messages. -/
def framedClient : QemudClient := qemudClientSetFraming (newClient 1 true true) true

theorem framedClient_reach : ClientReach [] framedClient := .init rfl rfl rfl rfl rfl

/-- The message `"0001A0000"`: a bad header may end a message. -/
theorem clientReach_recv_iff_end : RecvSkips [] framedClient [48, 48, 48, 49, 65, 48, 48, 48, 48] := by
  refine (clientReach_recv_iff framedClient_reach _).2 ⟨fun hstall => absurd hstall.len (by decide), fun _ => ?_⟩
  rintro ⟨pre, post, happ, hpost, hstuck⟩
  have hlt : pre.length < 9 := by
    have hlen := congrArg List.length happ
    have hpos := length_pos_iff.2 hpost
    rw [length_append] at hlen
    simp only [length_cons, length_nil] at hlen
    omega
  have htake : pre = List.take pre.length [48, 48, 48, 49, 65, 48, 48, 48, 48] := by
    rw [happ, take_left]
  rw [htake] at hstuck
  generalize pre.length = n at hstuck hlt
  interval_cases n <;> exact absurd hstuck (by decide)

/-- The message `"00000"`: an empty frame and one more byte. The loop does not end. -/
theorem framedClient_spins : ClientReach [] framedClient ∧
    (∀ fuel, qemudClientRecvIn fuel framedClient [48, 48, 48, 48, 48] = none) ∧
    ¬ RecvSkips [] framedClient [48, 48, 48, 48, 48] := by
  have hfollows := clientReach_follows framedClient_reach
  have hspins : ∀ fuel, qemudClientRecvIn fuel framedClient [48, 48, 48, 48, 48] = none := by
    refine hfollows.recvIn_spins _ fun hgood => hgood.2 (fun hstall => absurd hstall.len (by decide)) ?_
    exact ⟨[48, 48, 48, 48], [48], rfl, by simp, by decide⟩
  refine ⟨framedClient_reach, hspins, ?_⟩
  rintro ⟨fuel, c', hcall, -⟩
  rw [hspins fuel] at hcall
  exact absurd hcall (by simp)

end Emulator.Qemud
