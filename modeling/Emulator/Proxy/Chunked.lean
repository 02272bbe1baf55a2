import Emulator.Proxy.BodyRelay
import Emulator.Proxy.Select

/-!
# Chunked bodies

A reply with `Transfer-Encoding: chunked` is passed on in the BODY state, chunk by chunk. The
header of a chunk is parsed in the buffer and stays there without its CRLF, and the CRLF behind
the data of a chunk is parsed as a header of its own, with the number 0. When the lines behind
the last chunk are read the buffer has no data, so that nothing is left to be sent, and
`rewrite_connection_send_body` never says that the body is complete.

* `Chunking`: what holds in the chunked mode; it is never left but by an error
  (`polls_chunking`).
* `chunked_iff`: a reply that says `chunked` is relayed only if it also has the exact length of
  its encoded body as `Content-Length`, which takes precedence.
-/

namespace Emulator.Proxy

open List

namespace RewriteConnection

/-! ## The encoding -/

def crlf : List UInt8 := [13, 10]

/-- A hexadecimal number. -/
def Hex (v : List UInt8) (n : ℕ) : Prop := v ≠ [] ∧ (∀ c ∈ v, isDigit 16 c) ∧ digitsValue 16 v = n

/-- A part of a line. -/
def InLine (v : List UInt8) : Prop := 13 ∉ v ∧ 10 ∉ v

/-- What may follow the number of a chunk header. -/
def Extension (v : List UInt8) : Prop := v = [] ∨ InLine v ∧ v.head? = some 59

/-- The lines behind the last chunk, without the empty one at the end. -/
inductive Trailer : List UInt8 → Prop
  | nil : Trailer []
  | line {v t : List UInt8} (hv : v ≠ [] ∧ InLine v) (ht : Trailer t) : Trailer (v ++ crlf ++ t)

/-- `body` is a chunked encoding of `content`. -/
inductive Chunked : (body content : List UInt8) → Prop
  | last {size ext t : List UInt8} (hsize : Hex size 0) (hext : Extension ext) (ht : Trailer t) :
      Chunked (size ++ ext ++ crlf ++ t ++ crlf) []
  | chunk {size ext data body content : List UInt8} (hne : data ≠ []) (hsize : Hex size data.length)
      (hext : Extension ext) (h : Chunked body content) :
      Chunked (size ++ ext ++ crlf ++ data ++ crlf ++ body) (data ++ content)

theorem Chunked.ne_nil {body content : List UInt8} (h : Chunked body content) : body ≠ [] := by
  cases h <;> simp [crlf]

/-! ## Relaying a chunked body -/

/-- The connection has relayed the body and waits for the next request: just the body has come
in since `start`, and a chunked encoding of the same content has gone out. -/
structure ChunksRelayed (start : RewriteConnection) (body content : List UInt8) (conn : RewriteConnection) : Prop where
  received : conn.root.received .proxy = start.root.received .proxy ++ body
  sent : ∃ out, conn.root.sent .slirp = start.root.sent .slirp ++ out ∧ Chunked out content
  state : conn.state = .requestFirstLine
  freed : conn.freed = false

/-- Polls without a socket error, of which at most the last one leaves the BODY state. -/
structure BodyRun (footer : List UInt8) (start : RewriteConnection) (inputs : List PollInput) : Prop where
  quiet : ∀ input ∈ inputs, Undisturbed (.known 0) input
  body : ∀ k < inputs.length, (start.polls footer (inputs.take k)).state = .replyBody ∧
    (start.polls footer (inputs.take k)).freed = false

/-- From `start` on, where the BODY state has been entered, the body is relayed however it comes
in and goes out, with anything behind it. -/
structure RelaysChunks (footer : List UInt8) (start : RewriteConnection) (body content : List UInt8) : Prop where
  safe : ∀ inputs B next, BodyRun footer start inputs →
    (start.polls footer inputs).root.received .proxy = start.root.received .proxy ++ B → B <+: body ++ next →
    (start.polls footer inputs).state ≠ .replyBody ∨ (start.polls footer inputs).freed = true →
    ChunksRelayed start body content (start.polls footer inputs)
  delivered : ∀ inputs, BodyRun footer start inputs →
    (start.polls footer inputs).root.received .proxy = start.root.received .proxy ++ body →
    (start.polls footer inputs).root.sent .slirp = start.root.sent .slirp ++ body →
    ChunksRelayed start body content (start.polls footer inputs)
  returns : ∃ inputs, BodyRun footer start inputs ∧ ChunksRelayed start body content (start.polls footer inputs)

variable {conn start : RewriteConnection} {fd : Fd} {footer : List UInt8}

/-! ## The mode stays -/

theorem receiveBody_frame (conn : RewriteConnection) (fd : Fd) (wanted : ℕ) (answers : List RecvAnswer) :
    (conn.receiveBody fd wanted answers).2.state = conn.state ∧
      (conn.receiveBody fd wanted answers).2.bodyMode = conn.bodyMode := by
  unfold receiveBody
  by_cases havail : MAX_BODY_BUFFER - conn.root.str.length = 0
  · rw [if_pos havail]
    exact ⟨rfl, rfl⟩
  rw [if_neg havail]
  generalize conn.root.receive fd (min wanted (MAX_BODY_BUFFER - conn.root.str.length)) answers = res
  obtain ⟨ret, root, rest⟩ := res
  dsimp only
  cases hmode : conn.bodyMode with
  | none => split_ifs <;> simp
  | knownLength => split_ifs <;> simp
  | untilClose => split_ifs <;> simp
  | chunked => split_ifs <;> simp

theorem sendBody_frame (conn : RewriteConnection) (fd : Fd) (answers : List SendAnswer) :
    (conn.sendBody fd answers).2.state = conn.state ∧ (conn.sendBody fd answers).2.bodyMode = conn.bodyMode := by
  unfold sendBody
  split_ifs
  · generalize conn.root.send fd answers = res
    obtain ⟨ret, root⟩ := res
    dsimp only
    split_ifs <;> exact ⟨rfl, rfl⟩
  · exact ⟨rfl, rfl⟩

/-- The body is chunked, and if it is closed there is no data. -/
structure Chunking (conn : RewriteConnection) : Prop where
  state : conn.state = .replyBody
  mode : conn.bodyMode = .chunked
  closed : conn.bodyIsClosed = true → conn.bodyHasData = false
  trailer : conn.parseChunkTrailer = true → conn.chunkLength = 0 → conn.bodyHasData = false

theorem receiveBody_chunking (h : Chunking conn) (hopen : conn.bodyIsClosed = false) (hlength : conn.chunkLength ≠ 0)
    (wanted : ℕ) (answers : List RecvAnswer) : Chunking (conn.receiveBody fd wanted answers).2 := by
  unfold receiveBody
  by_cases havail : MAX_BODY_BUFFER - conn.root.str.length = 0
  · rw [if_pos havail]
    exact ⟨h.state, h.mode, h.closed, h.trailer⟩
  rw [if_neg havail]
  generalize conn.root.receive fd (min wanted (MAX_BODY_BUFFER - conn.root.str.length)) answers = res
  obtain ⟨ret, root, rest⟩ := res
  dsimp only
  rw [h.mode]
  dsimp only
  by_cases herr : ret = .error
  · simp only [herr, ↓reduceIte]
    exact ⟨h.state, rfl, by simp [hopen], fun _ hz => absurd hz hlength⟩
  · simp only [herr, ↓reduceIte]
    split_ifs with hdone
    · exact ⟨h.state, rfl, by simp [hopen], by simp⟩
    · exact ⟨h.state, rfl, by simp [hopen], fun _ hz => absurd hz hdone⟩

theorem readChunk_chunking (h : Chunking conn) (hopen : conn.bodyIsClosed = false) (answers : List RecvAnswer) :
    Chunking (conn.readChunk fd answers).2 := by
  unfold readChunk
  by_cases hzero : conn.chunkLength = 0
  swap
  · rw [if_neg hzero]
    exact receiveBody_chunking h hopen hzero _ _
  rw [if_pos hzero]
  unfold readChunkTrailer
  by_cases hwait : (!conn.parseChunkTrailer && conn.bodyHasData) = true
  · rw [if_pos hwait]
    exact h
  rw [if_neg hwait]
  -- the trailer is read only where there is no data
  have hdata : conn.bodyHasData = false := by
    cases hparse : conn.parseChunkTrailer with
    | false => simpa [hparse] using hwait
    | true => exact h.trailer hparse hzero
  unfold readHeaders
  rw [readHeadersLoop_eq]
  generalize readHeadersLoop fd (answers.length + 1)
    { root := ({ conn with parseChunkTrailer := true } : RewriteConnection).root,
      request := ({ conn with parseChunkTrailer := true } : RewriteConnection).request } answers = res
  obtain ⟨ret, conn', rest⟩ := res
  cases ret <;> exact ⟨h.state, h.mode, fun _ => hdata, fun _ _ => hdata⟩

theorem readBody_chunking (h : Chunking conn) (answers : List RecvAnswer) : Chunking (conn.readBody fd answers).2 := by
  unfold readBody
  by_cases hclosed : conn.bodyIsClosed = true
  · rw [if_pos hclosed]
    exact h
  rw [if_neg hclosed, h.mode]
  have hopen : conn.bodyIsClosed = false := by simpa using hclosed
  dsimp only
  by_cases hlength : conn.chunkLength < 0
  swap
  · rw [if_neg hlength]
    exact readChunk_chunking h hopen answers
  rw [if_pos hlength]
  unfold readChunkHeader
  by_cases hwait : (!conn.parseChunkHeader && conn.bodyHasData) = true
  · rw [if_pos hwait]
    exact h
  rw [if_neg hwait]
  dsimp only
  generalize conn.root.receiveLine fd answers = res
  obtain ⟨ret, root, rest⟩ := res
  have hkeep : Chunking { conn with root := root, parseChunkHeader := true } :=
    ⟨h.state, h.mode, h.closed, h.trailer⟩
  cases ret with
  | completed =>
    dsimp only
    by_cases hline : (cstr root.str).head? = some 32 ∨
        ((strtoll 16 (cstr root.str)).2 ≠ [] ∧ (strtoll 16 (cstr root.str)).2.head? ≠ some 59)
    · rw [if_pos hline]
      exact hkeep
    rw [if_neg hline]
    by_cases hsign : (strtoll 16 (cstr root.str)).1 < 0
    · rw [if_pos hsign]
      exact hkeep
    rw [if_neg hsign]
    apply readChunk_chunking
    · refine ⟨h.state, h.mode, h.closed, ?_⟩
      intro hparse hz
      simp [show (strtoll 16 (cstr root.str)).1 = 0 from hz] at hparse
    · exact hopen
  | error => exact readChunk_chunking hkeep hopen rest
  | needMore => exact readChunk_chunking hkeep hopen rest

/-- Sending never completes a chunked body. -/
theorem sendBody_chunking (h : Chunking conn) (answers : List SendAnswer) :
    (conn.sendBody fd answers).1 ≠ .completed ∧ Chunking (conn.sendBody fd answers).2 := by
  unfold sendBody
  by_cases hdata : conn.bodyHasData = true
  swap
  · rw [if_neg hdata]
    exact ⟨by simp, h⟩
  have hopen : conn.bodyIsClosed = false := by
    rw [← Bool.not_eq_true]
    intro hc
    rw [h.closed hc] at hdata
    cases hdata
  have htrailer : conn.parseChunkTrailer = true → conn.chunkLength ≠ 0 := by
    intro hparse hz
    rw [h.trailer hparse hz] at hdata
    cases hdata
  rw [if_pos hdata]
  generalize conn.root.send fd answers = res
  obtain ⟨ret, root⟩ := res
  dsimp only
  cases ret with
  | error => exact ⟨by simp, h.state, h.mode, h.closed, h.trailer⟩
  | needMore =>
    exact ⟨by simp, h.state, h.mode, by simp [hopen], fun hp hz => absurd hz (htrailer hp)⟩
  | completed =>
    rw [if_neg (by simp), if_pos (by simp [hopen])]
    exact ⟨by simp, h.state, h.mode, by simp [hopen], fun hp hz => absurd hz (htrailer hp)⟩

/-! ## Bodies that do not lead to the next request -/

/-- A property that reading and sending keep holds after a poll, unless the connection is freed or the whole body is
sent. -/
theorem poll_keep {Q : RewriteConnection → Prop} (hstate : ∀ c, Q c → c.state = .replyBody)
    (hread : ∀ c answers, Q c → Q (c.readBody .proxy answers).2)
    (hsend : ∀ c answers, Q c → (c.sendBody .slirp answers).1 = .needMore → Q (c.sendBody .slirp answers).2)
    (footer : List UInt8) (input : PollInput) (hfreed : conn.freed = false) (h : Q conn) :
    (conn.poll footer input).freed = true ∨ Q (conn.poll footer input) ∨
      ∃ c, Q c ∧ (c.sendBody .slirp input.send).1 = .completed ∧
        (c.sendBody .slirp input.send).2.bodyMode ≠ .untilClose ∧
        (conn.poll footer input).state = .requestFirstLine := by
  unfold poll
  rw [hfreed, if_neg Bool.false_ne_true]
  unfold pollState
  rw [hstate conn h]
  dsimp only
  unfold pollBody
  have hread : Q (if input.hasProxy then conn.readBody .proxy input.recv else (.needMore, conn)).2 := by
    split_ifs
    · exact hread conn _ h
    · exact h
  generalize (if input.hasProxy then conn.readBody .proxy input.recv else (.needMore, conn)) = res at hread
  obtain ⟨ret, conn₁⟩ := res
  dsimp only at hread ⊢
  split_ifs
  · have hkeep := hsend conn₁ input.send hread
    obtain ⟨sent, hsent⟩ : ∃ sent, conn₁.sendBody .slirp input.send = sent := ⟨_, rfl⟩
    rw [hsent] at hkeep ⊢
    obtain ⟨ret', conn₂⟩ := sent
    cases ret' with
    | error => exact .inl rfl
    | needMore => exact .inr (.inl (hkeep rfl))
    | completed =>
      dsimp only
      unfold replyBodySent
      split_ifs with hclose
      · exact .inl rfl
      · exact .inr (.inr ⟨conn₁, hread, by rw [hsent], by rw [hsent]; exact hclose, rfl⟩)
  · cases ret with
    | error => exact .inl rfl
    | needMore => exact .inr (.inl hread)
    | completed => exact .inr (.inl hread)

/-- A property that reading and sending keep, and that lets only bodies be sent that end with the connection, holds
until the connection is freed. -/
theorem polls_keep {Q : RewriteConnection → Prop} (hstate : ∀ c, Q c → c.state = .replyBody)
    (hread : ∀ c answers, Q c → Q (c.readBody .proxy answers).2)
    (hsend : ∀ c answers, Q c → Q (c.sendBody .slirp answers).2 ∧
      ((c.sendBody .slirp answers).1 = .completed → (c.sendBody .slirp answers).2.bodyMode = .untilClose))
    (footer : List UInt8) (inputs : List PollInput) (h : conn.freed = true ∨ Q conn) :
    (conn.polls footer inputs).freed = true ∨ Q (conn.polls footer inputs) := by
  induction inputs generalizing conn with
  | nil => exact h
  | cons input inputs ih =>
    refine ih ?_
    by_cases hfreed : conn.freed = true
    · unfold poll
      rw [if_pos hfreed]
      exact .inl hfreed
    rcases poll_keep hstate hread (fun c answers hc _ => (hsend c answers hc).1) footer input (by simpa using hfreed)
      (h.resolve_left hfreed) with h' | h' | ⟨c, hc, hdone, hmode, -⟩
    · exact .inl h'
    · exact .inr h'
    · exact absurd ((hsend c input.send hc).2 hdone) hmode

/-- The chunked mode is left by an error only. -/
theorem polls_chunking (footer : List UInt8) (inputs : List PollInput) (h : Chunking conn) :
    (conn.polls footer inputs).freed = true ∨ (conn.polls footer inputs).state = .replyBody := by
  refine (polls_keep (Q := Chunking) (fun _ h => h.state) (fun _ answers h => readBody_chunking h answers) ?_ footer
    inputs (.inr h)).imp_right fun h => h.state
  intro c answers hc
  obtain ⟨hret, hkeep⟩ := @sendBody_chunking _ .slirp hc answers
  exact ⟨hkeep, fun hdone => absurd hdone hret⟩

/-- So is the body that ends with the connection. -/
theorem polls_untilClose (footer : List UInt8) (inputs : List PollInput) (hstate : conn.state = .replyBody)
    (hmode : conn.bodyMode = .untilClose) :
    (conn.polls footer inputs).freed = true ∨ (conn.polls footer inputs).state = .replyBody := by
  refine (polls_keep (Q := fun c => c.state = .replyBody ∧ c.bodyMode = .untilClose) (fun _ h => h.1) ?_ ?_ footer
    inputs (.inr ⟨hstate, hmode⟩)).imp_right fun h => h.1
  · rintro c answers ⟨hs, hm⟩
    unfold readBody
    by_cases hclosed : c.bodyIsClosed = true
    · rw [if_pos hclosed]
      exact ⟨hs, hm⟩
    · rw [if_neg hclosed, hm]
      obtain ⟨h₁, h₂⟩ := receiveBody_frame c .proxy MAX_BODY_BUFFER answers
      exact ⟨h₁.trans hs, h₂.trans hm⟩
  · rintro c answers ⟨hs, hm⟩
    obtain ⟨h₁, h₂⟩ := sendBody_frame c .slirp answers
    exact ⟨⟨h₁.trans hs, h₂.trans hm⟩, fun _ => h₂.trans hm⟩

/-! ## Bodies whose length is known -/

theorem Undisturbed.known {input : PollInput} (h : Undisturbed (.known 0) input) (n : ℕ) :
    Undisturbed (.known n) input := ⟨h.recv, fun _ => h.closed (by simp), h.send, h.reset⟩

/-- When the last of the body is sent, the next request comes. -/
theorem poll_known {B S : List UInt8} {n : ℕ} {rootStart : ProxyConnection}
    (h : Relaying rootStart false (.known n) B S conn) {input : PollInput} (hin : Undisturbed (.known n) input) :
    (conn.poll footer input).freed = false ∧
      ((conn.poll footer input).state = .replyBody ∨ (conn.poll footer input).state = .requestFirstLine) := by
  unfold poll
  rw [h.freed, if_neg (by simp)]
  have hstep : (conn.pollState footer input).1 ≠ .error ∧ (conn.pollState footer input).2.freed = false ∧
      ((conn.pollState footer input).2.state = .replyBody ∨
        (conn.pollState footer input).2.state = .requestFirstLine) := by
    unfold pollState
    rw [h.state]
    dsimp only [bodyState]
    unfold pollBody
    have hread : (if input.hasProxy then conn.readBody .proxy input.recv else (.needMore, conn)).1 ≠ .error ∧
        ∃ B', Relaying rootStart false (.known n) B' S
          (if input.hasProxy then conn.readBody .proxy input.recv else (.needMore, conn)).2 := by
      split_ifs
      · obtain ⟨hret, got, hgot⟩ := readBody_relaying h hin.recv hin.closed
        exact ⟨hret, _, hgot⟩
      · exact ⟨by simp, B, h⟩
    simp only [Bool.false_eq_true, ↓reduceIte]
    generalize (if input.hasProxy then conn.readBody .proxy input.recv else (.needMore, conn)) = res at hread
    obtain ⟨ret, conn₁⟩ := res
    obtain ⟨hret, B', h₁⟩ := hread
    dsimp only at hret h₁ ⊢
    by_cases hto : ret ≠ .error ∧ input.hasSlirp = true
    swap
    · rw [if_neg hto]
      exact ⟨hret, h₁.freed, .inl h₁.state⟩
    rw [if_pos hto]
    obtain ⟨hret', out, h₂, -⟩ := sendBody_relaying h₁ hin.send hin.reset
    have hto : bodyTo false = .slirp := rfl
    rw [hto] at hret' h₂
    generalize conn₁.sendBody .slirp input.send = res at hret' h₂
    obtain ⟨ret', conn₂⟩ := res
    cases ret' with
    | error => exact absurd rfl hret'
    | needMore => exact ⟨by simp, h₂.freed, .inl h₂.state⟩
    | completed =>
      have hmode : conn₂.bodyMode = .knownLength := h₂.remaining.1
      have hnot : ¬ conn₂.bodyMode = .untilClose := by simp [hmode]
      dsimp only
      unfold replyBodySent
      rw [if_neg hnot]
      exact ⟨by simp, h₂.freed, .inr rfl⟩
  generalize conn.pollState footer input = res at hstep
  obtain ⟨ret, conn'⟩ := res
  obtain ⟨hret, hfreed, hstate⟩ := hstep
  cases ret with
  | error => exact absurd rfl hret
  | needMore => exact ⟨hfreed, hstate⟩
  | completed => exact ⟨hfreed, hstate⟩

variable {inputs : List PollInput}

theorem BodyRun.tail {input : PollInput} (h : BodyRun footer conn (input :: inputs)) :
    BodyRun footer (conn.poll footer input) inputs :=
  ⟨fun i hi => h.quiet i (by simp [hi]), fun k hk => h.body (k + 1) (by simpa using hk)⟩

theorem polls_known {B S : List UInt8} {n : ℕ} {rootStart : ProxyConnection}
    (h : Relaying rootStart false (.known n) B S conn) (hrun : BodyRun footer conn inputs) :
    ∃ B', (∃ S', Relaying rootStart false (.known n) B' S' (conn.polls footer inputs)) ∨
      Relayed rootStart false (.known n) B' (conn.polls footer inputs) ∧
        (conn.polls footer inputs).state = .requestFirstLine ∧ (conn.polls footer inputs).freed = false := by
  induction inputs generalizing conn B S with
  | nil => exact ⟨B, .inl ⟨S, h⟩⟩
  | cons input inputs ih =>
    have hin := (hrun.quiet input (by simp)).known n
    obtain ⟨hfreed, hstate⟩ := @poll_known _ footer _ _ _ _ h _ hin
    obtain ⟨B₁, ⟨S₁, h₁⟩ | ⟨h₁, hleft⟩⟩ := poll_relaying footer h hin
    · exact ih h₁ hrun.tail
    · have hnext : (conn.poll footer input).state = .requestFirstLine := by
        rcases hleft with hl | hl
        · rw [hfreed] at hl
          cases hl
        · exact hstate.resolve_left hl
      cases inputs with
      | nil => exact ⟨B₁, .inr ⟨h₁, hnext, hfreed⟩⟩
      | cons input' inputs =>
        have hbody := (hrun.tail.body 0 (by simp)).1
        rw [take_zero] at hbody
        exact absurd (hbody.symm.trans hnext) (by simp)

/-- A body of known length that is not through: as long as bytes are to come it is open, and when all are there, some
are in the buffer. -/
structure Owes (conn : RewriteConnection) : Prop where
  state : conn.state = .replyBody
  mode : conn.bodyMode = .knownLength
  hasData : conn.bodyHasData = true ↔ conn.root.str ≠ []
  closed : conn.bodyLength = 0 → conn.bodyIsClosed = true
  pending : conn.bodyIsClosed = true → conn.root.str ≠ []

theorem receiveBody_owes (h : Owes conn) (hopen : conn.bodyIsClosed = false) (hlength : conn.bodyLength ≠ 0)
    (wanted : ℕ) (answers : List RecvAnswer) : Owes (conn.receiveBody fd wanted answers).2 := by
  unfold receiveBody
  by_cases havail : MAX_BODY_BUFFER - conn.root.str.length = 0
  · rw [if_pos havail]
    exact ⟨h.state, h.mode, h.hasData, h.closed, h.pending⟩
  rw [if_neg havail]
  obtain ⟨got, -, hrec, -⟩ := ProxyConnection.receiveLoop_spec fd answers { conn.root with strRecv := 0 }
    (min wanted (MAX_BODY_BUFFER - conn.root.str.length))
  unfold ProxyConnection.receive
  generalize ProxyConnection.receiveLoop fd { conn.root with strRecv := 0 }
    (min wanted (MAX_BODY_BUFFER - conn.root.str.length)) answers = res at hrec
  obtain ⟨ret, root, rest⟩ := res
  have hstr : root.str = conn.root.str ++ got := hrec.str
  have hcount : root.strRecv = got.length := by
    rw [hrec.strRecv]
    exact Nat.zero_add _
  have hdata : decide (0 < root.str.length) = true ↔ root.str ≠ [] := by
    rw [decide_eq_true_iff, length_pos_iff]
  dsimp only
  rw [h.mode]
  dsimp only
  by_cases herr : ret = .error
  · simp only [herr, ↓reduceIte]
    exact ⟨h.state, rfl, hdata, fun hz => absurd hz hlength, by simp [hopen]⟩
  simp only [herr, ↓reduceIte]
  by_cases hdone : conn.bodyLength - root.strRecv = 0
  · -- the last bytes have just come in
    rw [if_pos hdone]
    refine ⟨h.state, rfl, hdata, fun _ => rfl, fun _ hnil => hlength ?_⟩
    rw [hnil] at hstr
    obtain ⟨-, rfl⟩ := append_eq_nil_iff.1 hstr.symm
    rw [hcount] at hdone
    simpa using hdone
  · rw [if_neg hdone]
    exact ⟨h.state, rfl, hdata, fun hz => absurd hz hdone, by simp [hopen]⟩

theorem readBody_owes (h : Owes conn) (answers : List RecvAnswer) : Owes (conn.readBody fd answers).2 := by
  unfold readBody
  by_cases hclosed : conn.bodyIsClosed = true
  · rw [if_pos hclosed]
    exact h
  rw [if_neg hclosed, h.mode]
  dsimp only
  split_ifs with hlength
  · exact h
  · exact receiveBody_owes h (by simpa using hclosed) hlength _ _

theorem sendBody_owes (h : Owes conn) {answers : List SendAnswer} (hmore : (conn.sendBody fd answers).1 = .needMore) :
    Owes (conn.sendBody fd answers).2 := by
  unfold sendBody at hmore ⊢
  by_cases hdata : conn.bodyHasData = true
  swap
  · rw [if_neg hdata]
    exact h
  rw [if_pos hdata] at hmore ⊢
  have hleft := @ProxyConnection.send_needMore conn.root fd answers
  generalize conn.root.send fd answers = res at hmore hleft ⊢
  obtain ⟨ret, root⟩ := res
  dsimp only at hmore hleft ⊢
  have hrest : decide (0 < (root.str.drop root.strPos).length) = true ↔ root.str.drop root.strPos ≠ [] := by
    rw [decide_eq_true_iff, length_pos_iff]
  cases ret with
  | error => cases hmore
  | needMore =>
    rw [if_neg (by simp), if_neg (by simp)]
    refine ⟨h.state, h.mode, hrest, h.closed, fun _ => ?_⟩
    rw [ne_eq, drop_eq_nil_iff, Nat.not_le]
    exact hleft rfl
  | completed =>
    rw [if_neg (by simp)] at hmore ⊢
    split_ifs at hmore ⊢ with hwait
    refine ⟨h.state, h.mode, hrest, h.closed, fun hc => hrest.1 ?_⟩
    have hclosed : conn.bodyIsClosed = true := hc
    simpa [hclosed] using hwait

theorem polls_owes (h : Owes conn) (hfreed : conn.freed = false)
    (hrun : BodyRun footer conn inputs) (hstay : (conn.polls footer inputs).state = .replyBody)
    (hlive : (conn.polls footer inputs).freed = false) : Owes (conn.polls footer inputs) := by
  induction inputs generalizing conn with
  | nil => exact h
  | cons input inputs ih =>
    have hbody : (conn.poll footer input).state = .replyBody ∧ (conn.poll footer input).freed = false := by
      cases inputs with
      | nil => exact ⟨hstay, hlive⟩
      | cons input' inputs => exact hrun.tail.body 0 (by simp)
    rcases poll_keep (fun _ hc => Owes.state hc) (fun _ answers hc => readBody_owes hc answers)
      (fun _ _ hc hmore => sendBody_owes hc hmore) footer input hfreed h with hf | ho | ⟨-, -, -, -, hnext⟩
    · rw [hbody.2] at hf
      cases hf
    · exact ih ho hbody.2 hrun.tail hstay hlive
    · rw [hbody.1] at hnext
      cases hnext

/-- A byte of the body comes in, and it is sent. -/
def byteInput (x : UInt8) : PollInput :=
  { hasSlirp := true, hasProxy := true, recv := [.bytes [x]], send := [.accept 1] }

/-- `m` bytes of a body are to come, and the buffer is empty. -/
structure Awaits (m : ℕ) (conn : RewriteConnection) : Prop where
  freed : conn.freed = false
  state : conn.state = if m = 0 then .requestFirstLine else .replyBody
  mode : conn.bodyMode = .knownLength
  length : conn.bodyLength = m
  closed : m ≠ 0 → conn.bodyIsClosed = false
  str : conn.root.str = []
  strPos : conn.root.strPos = 0

theorem receive_byte (root : ProxyConnection) (fd : Fd) {wanted : ℕ} (hwanted : wanted ≠ 0) (x : UInt8)
    (hstr : root.str = []) :
    ∃ ret rest, ret ≠ .error ∧ root.receive fd wanted [.bytes [x]] =
      (ret, { root with str := [x], strRecv := 1 }.logReceived fd [x], rest) := by
  obtain ⟨w, rfl⟩ := Nat.exists_eq_succ_of_ne_zero hwanted
  unfold ProxyConnection.receive ProxyConnection.receiveLoop
  simp only [Nat.succ_eq_add_one, Nat.add_eq_zero_iff, one_ne_zero, and_false, ↓reduceIte, take_succ_cons,
    take_nil, reduceCtorEq, hstr, nil_append, length_cons, length_nil, zero_add,
    ProxyConnection.receiveLoop]
  split_ifs
  · exact ⟨_, _, by simp, rfl⟩
  · exact ⟨_, _, by simp, rfl⟩

theorem send_byte (root : ProxyConnection) (fd : Fd) (x : UInt8) (hstr : root.str = [x]) (hpos : root.strPos = 0) :
    root.send fd [.accept 1] = (.completed, { root with str := [], strPos := 0, strSent := 1 }.logSent fd [x]) := by
  unfold ProxyConnection.send
  simp [ProxyConnection.sendLoop, ProxyConnection.logSent, hstr, hpos, ProxyConnection.rewind]

theorem poll_byte (footer : List UInt8) {m : ℕ} (h : Awaits (m + 1) conn) (x : UInt8) :
    Awaits m (conn.poll footer (byteInput x)) ∧
      (conn.poll footer (byteInput x)).root.received .proxy = conn.root.received .proxy ++ [x] ∧
      (conn.poll footer (byteInput x)).root.sent .slirp = conn.root.sent .slirp ++ [x] := by
  obtain ⟨h₁, h₂, h₃, h₄, h₅, h₆, h₇⟩ := h
  have hopen := h₅ (by omega)
  rw [if_neg (by omega)] at h₂
  have hlen : conn.bodyLength ≠ 0 := by omega
  have hnat : conn.bodyLength.toNat = m + 1 := by omega
  obtain ⟨ret, rest, hret, hrecv⟩ := receive_byte conn.root .proxy
    (show min (min (m + 1) MAX_BODY_BUFFER) (MAX_BODY_BUFFER - conn.root.str.length) ≠ 0 by
      rw [h₆]
      unfold MAX_BODY_BUFFER
      simp) x h₆
  have hroom : ¬ MAX_BODY_BUFFER - conn.root.str.length = 0 := by
    rw [h₆]
    decide
  unfold poll
  rw [h₁, if_neg (by simp)]
  unfold pollState
  rw [h₂]
  dsimp only [byteInput]
  unfold pollBody readBody
  rw [if_pos rfl, hopen, if_neg (by simp), h₃]
  dsimp only
  rw [if_neg hlen, hnat]
  unfold receiveBody
  dsimp only
  rw [if_neg hroom, hrecv]
  simp only [hret, h₃, ↓reduceIte, ProxyConnection.logReceived]
  have hrest : conn.bodyLength - (1 : ℕ) = m := by omega
  rw [hrest]
  by_cases hm : m = 0
  · -- the last byte: the body is closed, and when it is sent the next request comes
    subst hm
    simp [sendBody, send_byte, ProxyConnection.logSent, replyBodySent, MAX_BODY_BUFFER, h₇]
    exact ⟨h₁, rfl, rfl, rfl, fun h => absurd rfl h, rfl, rfl⟩
  · simp [hm, sendBody, send_byte, ProxyConnection.logSent, MAX_BODY_BUFFER, hopen, h₇]
    exact ⟨h₁, by simp [hm, h₂], rfl, rfl, fun _ => rfl, rfl, rfl⟩

/-- A body of known length comes in and goes out byte by byte. -/
theorem polls_bytes (footer : List UInt8) {l : List UInt8} (h : Awaits l.length conn) :
    BodyRun footer conn (l.map byteInput) ∧
      (conn.polls footer (l.map byteInput)).root.received .proxy = conn.root.received .proxy ++ l ∧
      (conn.polls footer (l.map byteInput)).root.sent .slirp = conn.root.sent .slirp ++ l ∧
      (conn.polls footer (l.map byteInput)).state = .requestFirstLine ∧
      (conn.polls footer (l.map byteInput)).freed = false := by
  induction l generalizing conn with
  | nil => exact ⟨⟨by simp, by simp⟩, by simp [polls], by simp [polls], h.state, h.freed⟩
  | cons x l ih =>
    obtain ⟨h', hrecv, hsent⟩ := poll_byte footer h x
    obtain ⟨hrun, h₁, h₂, h₃⟩ := ih h'
    refine ⟨⟨?_, ?_⟩, ?_, ?_, h₃⟩
    · intro input hinput
      rcases mem_cons.mp hinput with rfl | hinput
      · exact ⟨by simp [byteInput], by simp [byteInput], by simp [byteInput], by simp [byteInput]⟩
      · exact hrun.quiet input hinput
    · intro k hk
      cases k with
      | zero => exact ⟨h.state, h.freed⟩
      | succ k => exact hrun.body k (by simpa using hk)
    · rw [hrecv, append_assoc] at h₁
      exact h₁
    · rw [hsent, append_assoc] at h₂
      exact h₂

/-! ## From the headers on -/

/-- The reply can have a body, and says that it is chunked. -/
structure SaysChunked (r : HttpRequest) : Prop where
  body : MayHaveBody r false
  chunked : ∃ v ∈ r.findHeader "Transfer-Encoding", strcaseeq v (cstring "Chunked") = true

/-- The reply has the length of the encoded body as its `Content-Length`. -/
def ExactLength (r : HttpRequest) (body : List UInt8) : Prop :=
  ∃ v, r.findHeader "Content-Length" = some v ∧ v ≠ [] ∧ strtoll 10 v = ((body.length : ℤ), [])

theorem strtoll_le (base : ℕ) (v : List UInt8) : (strtoll base v).1 ≤ MAX_LENGTH := by
  unfold strtoll MAX_LENGTH
  dsimp only
  split_ifs
  · simp
  · refine max_le (by norm_num) ?_
    have : (0 : ℤ) ≤ digitsValue base ((hexPrefix base (signOf (v.dropWhile isspace)).2).takeWhile (isDigit base)) :=
      Int.natCast_nonneg _
    omega
  · exact (min_le_left _ _).trans (by norm_num)

/-- The modes that a reply that says `chunked` leads to. -/
theorem getBodyLength_chunked {r : HttpRequest} (hr : conn.request = some r) (hchunk : SaysChunked r) :
    (conn.getBodyLength false).1 = false ∧ (∀ body, body ≠ [] → ¬ExactLength r body) ∨
      ∃ conn', conn.getBodyLength false = (true, conn') ∧
      (conn'.bodyMode = .untilClose ∧ (∀ body, body ≠ [] → ¬ExactLength r body) ∨
      conn' = { conn.resetBody with
        bodyMode := .chunked, parseChunkHeader := false, parseChunkTrailer := false, chunkLength := -1,
        chunkTotal := 0 } ∧ (∀ body, ¬ExactLength r body) ∨
      ∃ n : ℕ, 0 < n ∧ n ≤ MAX_LENGTH ∧ conn' = { conn.resetBody with bodyMode := .knownLength, bodyLength := n } ∧
        ∀ body, ExactLength r body ↔ body.length = n) := by
  unfold getBodyLength
  rw [hr]
  dsimp only
  rw [hasNoBody_of_mayHaveBody hchunk.body, if_neg (by simp)]
  cases hcl : r.findHeader "Content-Length" with
  | none =>
    have hnot : ∀ body, ¬ExactLength r body := by
      rintro body ⟨v, hv, -⟩
      rw [hcl] at hv
      cases hv
    dsimp only
    rw [if_pos hchunk.chunked]
    exact .inr ⟨_, rfl, .inr (.inl ⟨rfl, hnot⟩)⟩
  | some v =>
    dsimp only
    by_cases hbad : (strtoll 10 v).2 ≠ [] ∨ v = [] ∨ (strtoll 10 v).1 < 0
    · rw [if_pos hbad]
      refine .inl ⟨rfl, ?_⟩
      rintro body - ⟨v', hv', hne, hlen⟩
      obtain rfl := Option.some.inj (hcl.symm.trans hv')
      rw [hlen] at hbad
      rcases hbad with hb | hb | hb
      · exact hb rfl
      · exact hne hb
      · exact absurd hb (not_lt.mpr (Int.natCast_nonneg _))
    rw [if_neg hbad]
    simp only [not_or, ne_eq, not_not, not_lt] at hbad
    obtain ⟨hend, hne, hsign⟩ := hbad
    by_cases hpos : 0 < (strtoll 10 v).1
    · rw [if_pos hpos]
      have hle := strtoll_le 10 v
      have hnat : (((strtoll 10 v).1.toNat : ℕ) : ℤ) = (strtoll 10 v).1 := Int.toNat_of_nonneg hsign
      refine .inr ⟨_, rfl, .inr (.inr ⟨(strtoll 10 v).1.toNat, by omega, by omega, by rw [hnat], ?_⟩)⟩
      intro body
      constructor
      · rintro ⟨v', hv', -, hlen⟩
        obtain rfl := Option.some.inj (hcl.symm.trans hv')
        rw [hlen]
        simp
      · intro hlen
        refine ⟨v, hcl, hne, Prod.ext ?_ hend⟩
        rw [hlen, hnat]
    · rw [if_neg hpos]
      have hzero : (strtoll 10 v).1 = 0 := by omega
      have hnot : ∀ body, body ≠ [] → ¬ExactLength r body := by
        rintro body hbody ⟨v', hv', -, hlen⟩
        obtain rfl := Option.some.inj (hcl.symm.trans hv')
        rw [hlen] at hzero
        exact hbody (length_eq_zero_iff.mp (by simpa using hzero))
      unfold untilCloseBody
      cases (r.findHeader "Proxy-Connection").or (r.findHeader "Connection") with
      | none => exact .inl ⟨rfl, hnot⟩
      | some w =>
        dsimp only
        split_ifs
        · exact .inr ⟨_, rfl, .inl ⟨rfl, hnot⟩⟩
        · exact .inl ⟨rfl, hnot⟩

/-- The poll that sends the last byte of the headers of a reply. -/
theorem poll_replySent (footer : List UInt8) (hstate : conn.state = .replySend) (hfreed : conn.freed = false)
    {input : PollInput} (hready : input.hasSlirp = true) (hdone : (conn.root.send .slirp input.send).1 = .completed) :
    ∃ c : RewriteConnection, c.request = conn.request ∧ c.freed = false ∧
      ((c.getBodyLength false).1 = false → (conn.poll footer input).freed = true) ∧
      ∀ c', c.getBodyLength false = (true, c') → c'.bodyMode ≠ .none →
        conn.poll footer input = { c' with state := .replyBody } := by
  have hpoll : conn.pollState footer input = conn.pollSend .slirp false input.send := by
    unfold pollState
    rw [hstate]
    dsimp only
    rw [if_pos hready]
  unfold poll
  rw [hfreed, if_neg (by simp), hpoll]
  unfold pollSend
  generalize conn.root.send .slirp input.send = res at hdone ⊢
  obtain ⟨ret, root⟩ := res
  dsimp only at hdone
  subst hdone
  refine ⟨{ conn with root := root }, rfl, hfreed, ?_, ?_⟩
  · intro hfalse
    obtain ⟨c', hc'⟩ : ∃ c', ({ conn with root := root } : RewriteConnection).getBodyLength false = (false, c') :=
      ⟨_, Prod.ext hfalse rfl⟩
    dsimp only
    rw [hc']
  · intro c' hc' hmode
    dsimp only
    rw [hc']
    simp [hmode]

theorem polls_freed (inputs : List PollInput) (h : conn.freed = true) : (conn.polls footer inputs).freed = true := by
  induction inputs generalizing conn with
  | nil => exact h
  | cons input inputs ih =>
    refine ih ?_
    unfold poll
    rw [if_pos h]
    exact h

/-- **A chunked reply is relayed only if it also gives the length of its encoding.** Take a
connection that has sent the headers of a reply that says `chunked` up to the last byte. With
that, the body is relayed and the next request waited for if and only if there is a
`Content-Length` with the length of the encoded body. -/
theorem chunked_iff (footer : List UInt8) (conn : RewriteConnection) (r : HttpRequest)
    (hstate : conn.state = .replySend) (hfreed : conn.freed = false) (hr : conn.request = some r)
    (hchunk : SaysChunked r) (input : PollInput) (hready : input.hasSlirp = true)
    (hdone : (conn.root.send .slirp input.send).1 = .completed) (body content : List UInt8)
    (hbody : Chunked body content) :
    RelaysChunks footer (conn.poll footer input) body content ↔ ExactLength r body := by
  obtain ⟨c, hreq, hlive, hbad, hgood⟩ := poll_replySent footer hstate hfreed hready hdone
  -- where the next request is never reached
  have hnever : (∀ inputs, ((conn.poll footer input).polls footer inputs).freed = true ∨
      ((conn.poll footer input).polls footer inputs).state = .replyBody) →
      ¬RelaysChunks footer (conn.poll footer input) body content := by
    intro hstuck hrelays
    obtain ⟨inputs, -, hdone⟩ := hrelays.returns
    rcases hstuck inputs with h | h
    · rw [hdone.freed] at h
      cases h
    · rw [hdone.state] at h
      cases h
  rcases getBodyLength_chunked (hreq.trans hr) hchunk with ⟨hfalse, hnot⟩ | ⟨c', hget, hmode⟩
  · refine iff_of_false (hnever fun inputs => .inl ?_) (hnot body hbody.ne_nil)
    exact polls_freed inputs (hbad hfalse)
  rcases hmode with ⟨hmode, hnot⟩ | ⟨rfl, hnot⟩ | ⟨n, hpos, hmax, rfl, hexact⟩
  · have hstart := hgood c' hget (by simp [hmode])
    refine iff_of_false (hnever fun inputs => ?_) (hnot body hbody.ne_nil)
    rw [hstart]
    exact polls_untilClose footer inputs rfl hmode
  · have hstart := hgood _ hget (by simp)
    refine iff_of_false (hnever fun inputs => ?_) (hnot body)
    rw [hstart]
    exact polls_chunking footer inputs ⟨rfl, rfl, by simp [resetBody], by simp⟩
  -- a body of `n` bytes, whatever they are
  obtain ⟨start, hstart⟩ : ∃ start, start = conn.poll footer input := ⟨_, rfl⟩
  rw [← hstart, hexact]
  rw [hgood _ hget (by simp)] at hstart
  have hrelaying : Relaying start.root false (.known n) [] [] start := by
    rw [hstart]
    refine ⟨rfl, hlive, rfl, by simp, by simp, by simp [resetBody, ProxyConnection.rewind],
      by simp [resetBody, ProxyConnection.rewind], rfl, by simp, ?_, by simp [resetBody]⟩
    simp only [length_nil, Nat.min_eq_left hmax, Nat.cast_zero, sub_zero]
  have hrelayed : ∀ inputs, BodyRun footer start inputs →
      (start.polls footer inputs).state ≠ .replyBody ∨ (start.polls footer inputs).freed = true →
      ∃ B : List UInt8, B.length = n ∧
        (start.polls footer inputs).root.received .proxy = start.root.received .proxy ++ B ∧
        (start.polls footer inputs).root.sent .slirp = start.root.sent .slirp ++ B ∧
        (start.polls footer inputs).state = .requestFirstLine ∧ (start.polls footer inputs).freed = false := by
    intro inputs hrun hleft
    obtain ⟨B, ⟨S, h⟩ | ⟨h, hnext, hfreed⟩⟩ := polls_known hrelaying hrun
    · rcases hleft with hl | hl
      · exact absurd h.state hl
      · rw [h.freed] at hl
        cases hl
    · exact ⟨B, (h.length n rfl).trans (min_eq_left hmax), h.received, h.sent, hnext, hfreed⟩
  constructor
  · intro hrelays
    obtain ⟨inputs, hrun, hdone⟩ := hrelays.returns
    obtain ⟨B, hlen, hrecv, -⟩ := hrelayed inputs hrun (.inl (by simp [hdone.state]))
    rw [hdone.received] at hrecv
    rw [append_cancel_left hrecv]
    exact hlen
  · intro hlen
    refine ⟨?_, ?_, ?_⟩
    · intro inputs B next hrun hrecv hpre hleft
      obtain ⟨B', hlen', hrecv', hsent, hnext, hlive'⟩ := hrelayed inputs hrun hleft
      rw [hrecv] at hrecv'
      obtain rfl := append_cancel_left hrecv'
      obtain rfl : B = body := by
        have htake := prefix_iff_eq_take.mp hpre
        rw [hlen', ← hlen, take_left] at htake
        exact htake
      exact ⟨hrecv, ⟨_, hsent, hbody⟩, hnext, hlive'⟩
    · intro inputs hrun hrecv hsent
      obtain ⟨B, ⟨S, h⟩ | ⟨-, hnext, hlive'⟩⟩ := polls_known hrelaying hrun
      · -- the poll that sends the last byte leaves the BODY state
        have hB : B = body := append_cancel_left (h.received.symm.trans hrecv)
        have hS : S = body := append_cancel_left (h.sent.symm.trans hsent)
        have howes : Owes start := by
          rw [hstart]
          exact ⟨rfl, rfl, by simp [resetBody, ProxyConnection.rewind], fun hz => absurd hz (by simp [hpos.ne']),
            by simp [resetBody]⟩
        have hdone := polls_owes howes hrelaying.freed hrun h.state h.freed
        obtain ⟨-, -, hlength, -⟩ := h.remaining
        rw [hB, hlen, Nat.min_eq_left hmax, sub_self] at hlength
        have hsplit := h.split
        rw [hB, hS] at hsplit
        exact absurd (append_right_eq_self.1 hsplit.symm) (hdone.pending (hdone.closed hlength))
      · exact ⟨hrecv, ⟨_, hsent, hbody⟩, hnext, hlive'⟩
    · have hawaits : Awaits body.length start := by
        rw [hstart, hlen]
        refine ⟨hlive, ?_, rfl, rfl, fun _ => rfl, rfl, rfl⟩
        rw [if_neg hpos.ne']
      obtain ⟨hrun, hrecv, hsent, hnext, hlive'⟩ := polls_bytes footer hawaits
      exact ⟨_, hrun, hrecv, ⟨_, hsent, hbody⟩, hnext, hlive'⟩

/-! ### One chunk -/

def helloBody : List UInt8 := cstring "5\r\nhello\r\n0\r\n\r\n"

theorem helloBody_chunked : Chunked helloBody (cstring "hello") := by
  have hlast : Chunked (cstring "0" ++ [] ++ crlf ++ [] ++ crlf) [] :=
    .last (by unfold Hex; decide +kernel) (.inl rfl) .nil
  have hchunk := Chunked.chunk (show cstring "hello" ≠ [] by decide)
    (show Hex (cstring "5") (cstring "hello").length by unfold Hex; decide +kernel)
      (show Extension [] from .inl rfl) hlast
  have hcontent : cstring "hello" ++ [] = cstring "hello" := append_nil _
  rw [hcontent] at hchunk
  have hbytes : helloBody = cstring "5" ++ [] ++ crlf ++ cstring "hello" ++ crlf ++
    (cstring "0" ++ [] ++ crlf ++ [] ++ crlf) := by decide
  rw [hbytes]
  exact hchunk

/-- A connection that has sent the headers of a reply up to the last byte. -/
def sendingReply (headers : List HttpHeader) : RewriteConnection :=
  { state := .replySend
    root := { str := [10] }
    request := some { reqType := .get
                      reqMethod := cstring "GET"
                      reqUri := cstring "/"
                      reqVersion := cstring "HTTP/1.1"
                      repVersion := cstring "HTTP/1.1"
                      repCode := 200
                      repReadable := cstring "OK"
                      headers := headers } }

def encodingHeader : HttpHeader := ⟨cstring "Transfer-Encoding", cstring "chunked"⟩

def lastByte : PollInput := { hasSlirp := true, hasProxy := false, send := [.accept 1] }

theorem chunked_iff_length :
    RelaysChunks [] ((sendingReply [encodingHeader, ⟨cstring "Content-Length", cstring "15"⟩]).poll [] lastByte)
      helloBody (cstring "hello") := by
  refine (chunked_iff [] (sendingReply [encodingHeader, ⟨cstring "Content-Length", cstring "15"⟩]) _ rfl rfl rfl
    ⟨?_, ?_⟩ lastByte rfl (by decide +kernel) helloBody (cstring "hello") helloBody_chunked).mpr ?_
  · exact ⟨by decide, by decide, by decide, by decide⟩
  · exact ⟨cstring "chunked", by decide +kernel, by decide +kernel⟩
  · exact ⟨cstring "15", by decide +kernel, by decide +kernel, by decide +kernel⟩

/-- The chunk and, in the next poll, the CRLF behind its data and the last chunk. -/
def helloInputs : List PollInput :=
  [{ hasSlirp := true, hasProxy := true, recv := typed "5\r\nhello", send := [.accept 100] },
    { hasSlirp := true, hasProxy := true, recv := typed "\r\n0\r\n", send := [.accept 100] }]

/-- Only `5hello` is sent, and the last chunk is taken for a header without a colon. -/
theorem chunked_hello :
    let start := (sendingReply [encodingHeader]).poll [] lastByte
    Chunked helloBody (cstring "hello") ∧ start.state = .replyBody ∧
      (start.polls [] helloInputs).root.sent .slirp = start.root.sent .slirp ++ cstring "5hello" ∧
      (start.polls [] helloInputs).freed = true ∧ ¬RelaysChunks [] start helloBody (cstring "hello") := by
  intro start
  have hfreed : (start.polls [] helloInputs).freed = true := by decide +kernel
  refine ⟨helloBody_chunked, by decide +kernel, by decide +kernel, hfreed, fun hrelays => ?_⟩
  have hrun : BodyRun [] start helloInputs := by
    refine ⟨?_, by decide +kernel⟩
    intro input hinput
    simp only [helloInputs, mem_cons, not_mem_nil, or_false] at hinput
    rcases hinput with rfl | rfl <;> exact ⟨by decide, fun _ => by decide, by decide, by decide⟩
  have hdone := hrelays.safe helloInputs (cstring "5\r\nhello\r\n0\r\n") [] hrun (by decide +kernel) (by decide +kernel)
    (.inr hfreed)
  rw [hdone.freed] at hfreed
  cases hfreed

end RewriteConnection

end Emulator.Proxy
